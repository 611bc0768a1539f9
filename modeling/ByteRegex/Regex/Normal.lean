import ByteRegex.Regex.Basic

/-! # Normal form

A tree is normal if the simplifying constructors would change none of its nodes: no operand matches
nothing, no operand of a concatenation and no repeated body matches only the empty text, no
repetition repeats a repetition, no alternation offers the empty text twice, and a class has at
least two members. -/

namespace ByteRegex.Regex

def isStar : Regex → Bool
  | .star _ => true
  | _ => false

def Normal : Regex → Prop
  | .empty | .epsilon | .literal _ => True
  | .oneOf s => 2 ≤ s.toList.length
  | .alt a b =>
      a ≠ .empty ∧ b ≠ .empty ∧ ¬ (a = .epsilon ∧ b = .epsilon) ∧ a.Normal ∧ b.Normal
  | .concat a b =>
      a ≠ .empty ∧ a ≠ .epsilon ∧ b ≠ .empty ∧ b ≠ .epsilon ∧ a.Normal ∧ b.Normal
  | .star a => a ≠ .empty ∧ a ≠ .epsilon ∧ a.isStar = false ∧ a.Normal

instance decidableNormal : (r : Regex) → Decidable r.Normal
  | .empty | .epsilon | .literal _ => isTrue trivial
  | .oneOf s => inferInstanceAs (Decidable (2 ≤ s.toList.length))
  | .alt a b =>
      have := decidableNormal a
      have := decidableNormal b
      inferInstanceAs (Decidable
        (a ≠ .empty ∧ b ≠ .empty ∧ ¬ (a = .epsilon ∧ b = .epsilon) ∧ a.Normal ∧ b.Normal))
  | .concat a b =>
      have := decidableNormal a
      have := decidableNormal b
      inferInstanceAs (Decidable
        (a ≠ .empty ∧ a ≠ .epsilon ∧ b ≠ .empty ∧ b ≠ .epsilon ∧ a.Normal ∧ b.Normal))
  | .star a =>
      have := decidableNormal a
      inferInstanceAs (Decidable (a ≠ .empty ∧ a ≠ .epsilon ∧ a.isStar = false ∧ a.Normal))

end ByteRegex.Regex
