import ByteRegex.Regex.Derivative

/-! # How deep the walks over a tree go

Whether the empty text matches and what the derivative is are found by walks that call themselves
on the operands of a node. Here the two walks are written once more, in a monad that keeps count of
the calls that are open at one time. -/

namespace ByteRegex

/-- A value, and the greatest number of calls that are open at one time while it is computed. -/
structure Nested (α : Type) where
  value : α
  depth : Nat

namespace Nested

variable {α β : Type}

instance : Monad Nested where
  pure a := ⟨a, 0⟩
  bind x f := ⟨(f x.value).value, max x.depth (f x.value).depth⟩

/-- One call around a computation. -/
def call (x : Nested α) : Nested α := ⟨x.value, 1 + x.depth⟩

@[simp] theorem value_pure (a : α) : (pure a : Nested α).value = a := rfl

@[simp] theorem depth_pure (a : α) : (pure a : Nested α).depth = 0 := rfl

@[simp] theorem value_bind (x : Nested α) (f : α → Nested β) :
    (x >>= f).value = (f x.value).value := rfl

@[simp] theorem depth_bind (x : Nested α) (f : α → Nested β) :
    (x >>= f).depth = max x.depth (f x.value).depth := rfl

@[simp] theorem value_call (x : Nested α) : x.call.value = x.value := rfl

@[simp] theorem depth_call (x : Nested α) : x.call.depth = 1 + x.depth := rfl

end Nested

namespace Regex

open Nested

/-- The walk that finds out whether the empty text matches. It does not look at a right operand
that makes no difference. -/
def nullableNested : Regex → Nested Bool
  | .empty | .literal _ | .oneOf _ => call (pure false)
  | .epsilon | .star _ => call (pure true)
  | .alt a b => call do
      if ← a.nullableNested then return true
      b.nullableNested
  | .concat a b => call do
      if ← a.nullableNested then b.nullableNested else return false

/-- The walk that builds the derivative by a byte. -/
def derivativeNested (c : UInt8) : Regex → Nested Regex
  | .empty | .epsilon => call (pure .empty)
  | .literal b => call (pure (if b = c then .epsilon else .empty))
  | .oneOf s => call (pure (if s.contains c then .epsilon else .empty))
  | .alt a b => call do return union (← a.derivativeNested c) (← b.derivativeNested c)
  | .concat a b => call do
      let first := append (← a.derivativeNested c) b
      if ← a.nullableNested then return union first (← b.derivativeNested c)
      return first
  | .star a => call do return append (← a.derivativeNested c) a.many

end Regex

end ByteRegex
