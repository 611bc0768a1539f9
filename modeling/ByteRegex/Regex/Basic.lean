import ByteRegex.ByteClass

/-! # Regular expressions over bytes

A regular expression is a tree. Besides the seven constructors there are four functions that build
trees and simplify on the way: `union`, `append`, `many` and `ofClass` drop what matches nothing
and what matches only the empty text. Everything read from a pattern and every derivative is built
with these four; the constructors stay available, so that trees of any shape can be written down. -/

namespace ByteRegex

inductive Regex where
  | empty
  | epsilon
  | literal (b : UInt8)
  | oneOf (s : ByteClass)
  | alt (left right : Regex)
  | concat (left right : Regex)
  | star (body : Regex)
deriving DecidableEq

namespace Regex

instance : Inhabited Regex := ⟨.empty⟩

/-- The number of constructors in a tree. -/
def size : Regex → Nat
  | .empty | .epsilon | .literal _ | .oneOf _ => 1
  | .alt a b | .concat a b => 1 + a.size + b.size
  | .star a => 1 + a.size

/-- The number of constructors on the longest way from the root to a leaf. -/
def height : Regex → Nat
  | .empty | .epsilon | .literal _ | .oneOf _ => 1
  | .alt a b | .concat a b => 1 + max a.height b.height
  | .star a => 1 + a.height

/-! ## Simplifying constructors -/

/-- Either of two expressions. A side that matches nothing is dropped, and the empty text is not
offered twice; two equal branches are otherwise both kept. -/
def union : Regex → Regex → Regex
  | .empty, b => b
  | a, .empty => a
  | .epsilon, .epsilon => .epsilon
  | a, b => .alt a b

/-- One expression after the other. -/
def append : Regex → Regex → Regex
  | .empty, _ => .empty
  | _, .empty => .empty
  | .epsilon, b => b
  | a, .epsilon => a
  | a, b => .concat a b

/-- Zero or more repetitions. Repeating a repetition adds nothing. -/
def many : Regex → Regex
  | .empty | .epsilon => .epsilon
  | .star a => .star a
  | a => .star a

/-- One byte of a class. -/
def ofClass (s : ByteClass) : Regex :=
  match s.toList with
  | [] => .empty
  | [b] => .literal b
  | _ => .oneOf s

@[simp] theorem union_empty_left (b : Regex) : union .empty b = b := by cases b <;> rfl
@[simp] theorem union_empty_right (a : Regex) : union a .empty = a := by cases a <;> rfl
@[simp] theorem union_epsilon_epsilon : union .epsilon .epsilon = .epsilon := rfl

theorem union_eq_alt {a b : Regex} (ha : a ≠ .empty) (hb : b ≠ .empty)
    (hab : ¬ (a = .epsilon ∧ b = .epsilon)) : union a b = .alt a b := by
  cases a <;> cases b <;> simp_all [union]

@[simp] theorem append_empty_left (b : Regex) : append .empty b = .empty := by cases b <;> rfl
@[simp] theorem append_empty_right (a : Regex) : append a .empty = .empty := by cases a <;> rfl
@[simp] theorem append_epsilon_left (b : Regex) : append .epsilon b = b := by cases b <;> rfl
@[simp] theorem append_epsilon_right (a : Regex) : append a .epsilon = a := by cases a <;> rfl

theorem append_eq_concat {a b : Regex} (ha : a ≠ .empty) (hb : b ≠ .empty)
    (ha' : a ≠ .epsilon) (hb' : b ≠ .epsilon) : append a b = .concat a b := by
  cases a <;> cases b <;> simp_all [append]

@[simp] theorem many_empty : many .empty = .epsilon := rfl
@[simp] theorem many_epsilon : many .epsilon = .epsilon := rfl
@[simp] theorem many_star (a : Regex) : many (.star a) = .star a := rfl

@[simp] theorem many_many (a : Regex) : many (many a) = many a := by cases a <;> rfl

end Regex

end ByteRegex
