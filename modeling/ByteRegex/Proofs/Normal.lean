import ByteRegex.Pattern.Basic
import ByteRegex.Proofs.Parse
import ByteRegex.Regex.Normal

/-! # Normal form is kept

Each simplifying constructor makes a normal tree out of normal operands. Reading a pattern and
deriving build their trees with these constructors alone, so that a compiled pattern is normal and
so is each of its residuals. -/

namespace ByteRegex.Regex

variable {a b r : Regex}

/-! ## Simplifying constructors -/

theorem Normal.union (ha : a.Normal) (hb : b.Normal) : (a.union b).Normal := by
  by_cases ha₀ : a = .empty
  · rwa [ha₀, union_empty_left]
  by_cases hb₀ : b = .empty
  · rwa [hb₀, union_empty_right]
  by_cases hab : a = .epsilon ∧ b = .epsilon
  · rw [hab.1, hab.2]
    trivial
  · rw [union_eq_alt ha₀ hb₀ hab]
    exact ⟨ha₀, hb₀, hab, ha, hb⟩

theorem Normal.append (ha : a.Normal) (hb : b.Normal) : (a.append b).Normal := by
  by_cases ha₀ : a = .empty
  · rw [ha₀, append_empty_left]
    trivial
  by_cases hb₀ : b = .empty
  · rw [hb₀, append_empty_right]
    trivial
  by_cases ha₁ : a = .epsilon
  · rwa [ha₁, append_epsilon_left]
  by_cases hb₁ : b = .epsilon
  · rwa [hb₁, append_epsilon_right]
  · rw [append_eq_concat ha₀ hb₀ ha₁ hb₁]
    exact ⟨ha₀, ha₁, hb₀, hb₁, ha, hb⟩

theorem Normal.many (ha : a.Normal) : a.many.Normal := by
  cases a with
  | empty | epsilon => trivial
  | star a => exact ha
  | literal | oneOf | alt | concat => exact ⟨nofun, nofun, rfl, ha⟩

theorem many_eq_star (ha₀ : a ≠ .empty) (ha₁ : a ≠ .epsilon) (ha : a.isStar = false) :
    a.many = .star a := by
  cases a with
  | empty => exact absurd rfl ha₀
  | epsilon => exact absurd rfl ha₁
  | star => cases ha
  | literal | oneOf | alt | concat => rfl

theorem normal_ofClass (s : ByteClass) : (ofClass s).Normal := by
  unfold ofClass
  split
  · trivial
  · trivial
  · next hnil hsingle =>
      change 2 ≤ s.toList.length
      match h : s.toList with
      | [] => exact absurd h hnil
      | [b] => exact absurd h (hsingle b)
      | _ :: _ :: bs => exact Nat.le_add_left 2 bs.length

/-- A property of the trees that are built with the simplifying constructors alone. -/
structure Kept (P : Regex → Prop) : Prop where
  epsilon : P .epsilon
  literal (b : UInt8) : P (.literal b)
  ofClass (s : ByteClass) : P (ofClass s)
  union {a b : Regex} : P a → P b → P (a.union b)
  append {a b : Regex} : P a → P b → P (a.append b)
  many {a : Regex} : P a → P a.many

theorem kept_normal : Kept Normal where
  epsilon := trivial
  literal _ := trivial
  ofClass := normal_ofClass
  union := .union
  append := .append
  many := .many

/-! ## Derivatives -/

theorem Normal.derivative (h : r.Normal) (c : UInt8) : (r.derivative c).Normal := by
  induction r with
  | empty | epsilon => trivial
  | literal b | oneOf s =>
      unfold Regex.derivative
      split <;> trivial
  | alt a b iha ihb =>
      obtain ⟨_, _, _, ha, hb⟩ := h
      exact (iha ha).union (ihb hb)
  | concat a b iha ihb =>
      obtain ⟨_, _, _, _, ha, hb⟩ := h
      have hfirst := (iha ha).append hb
      unfold Regex.derivative
      split
      · exact hfirst.union (ihb hb)
      · exact hfirst
  | star a ih =>
      obtain ⟨_, _, _, ha⟩ := h
      exact (ih ha).append ha.many

theorem Normal.residual (h : r.Normal) (w : Bytes) : (r.residual w).Normal := by
  induction w generalizing r with
  | nil => exact h
  | cons c w ih => exact ih (h.derivative c)

end ByteRegex.Regex

/-! ## Patterns -/

namespace ByteRegex.Grammar

variable {P : Regex → Prop}

mutual

theorem Alternation.value_of_kept (hP : Regex.Kept P) : ∀ a : Alternation, P a.value
  | .single b => b.value_of_kept hP
  | .or a b => hP.union (a.value_of_kept hP) (b.value_of_kept hP)

theorem Branch.value_of_kept (hP : Regex.Kept P) : ∀ b : Branch, P b.value
  | .nothing => hP.epsilon
  | .snoc b f => hP.append (b.value_of_kept hP) (f.value_of_kept hP)

theorem Factor.value_of_kept (hP : Regex.Kept P) : ∀ f : Factor, P f.value
  | .single a => a.value_of_kept hP
  | .repeated f => hP.many (f.value_of_kept hP)

theorem Atom.value_of_kept (hP : Regex.Kept P) : ∀ a : Atom, P a.value
  | .group a => a.value_of_kept hP
  | .oneOf ms => hP.ofClass (classOf ms)
  | .escaped b | .plain b _ => hP.literal b

end

end ByteRegex.Grammar

namespace ByteRegex.Pattern

theorem normal_regex (p : Pattern) : p.regex.Normal := by
  obtain ⟨a, _, ha⟩ := Regex.exists_derivation_of_parse p.parse_source
  rw [← ha]
  exact a.value_of_kept Regex.kept_normal

end ByteRegex.Pattern
