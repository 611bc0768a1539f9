import ByteRegex.Regex.Basic

/-! # The language of an expression

`Matches r w` says that the text `w` is in the language of `r`, by the usual rules: nothing is in
the language of `empty`, a concatenation splits its text in two, and a repetition splits it into
any number of parts. The rules are stated for trees of every shape. Beside them stands what each
rule says read backwards. -/

namespace ByteRegex.Regex

inductive Matches : Regex → Bytes → Prop
  | epsilon : Matches .epsilon []
  | literal (b : UInt8) : Matches (.literal b) [b]
  | oneOf {s : ByteClass} {b : UInt8} : s.contains b = true → Matches (.oneOf s) [b]
  | altLeft {a b : Regex} {w : Bytes} : Matches a w → Matches (.alt a b) w
  | altRight {a b : Regex} {w : Bytes} : Matches b w → Matches (.alt a b) w
  | concat {a b : Regex} {v w : Bytes} :
      Matches a v → Matches b w → Matches (.concat a b) (v ++ w)
  | starNil {a : Regex} : Matches (.star a) []
  | starAppend {a : Regex} {v w : Bytes} :
      Matches a v → Matches (.star a) w → Matches (.star a) (v ++ w)

variable {a b : Regex} {w : Bytes}

@[simp] theorem not_matches_empty : ¬ Matches .empty w := nofun

@[simp] theorem matches_epsilon_iff : Matches .epsilon w ↔ w = [] := by
  constructor
  · rintro ⟨⟩
    rfl
  · rintro rfl
    exact .epsilon

@[simp] theorem matches_literal_iff {c : UInt8} : Matches (.literal c) w ↔ w = [c] := by
  constructor
  · rintro ⟨⟩
    rfl
  · rintro rfl
    exact .literal c

@[simp] theorem matches_oneOf_iff {s : ByteClass} :
    Matches (.oneOf s) w ↔ ∃ c, s.contains c = true ∧ w = [c] := by
  constructor
  · rintro ⟨⟩
    exact ⟨_, ‹_›, rfl⟩
  · rintro ⟨c, h, rfl⟩
    exact .oneOf h

@[simp] theorem matches_alt_iff : Matches (.alt a b) w ↔ Matches a w ∨ Matches b w := by
  constructor
  · rintro (_ | _ | _ | h | h)
    · exact .inl h
    · exact .inr h
  · rintro (h | h)
    · exact .altLeft h
    · exact .altRight h

theorem matches_concat_iff :
    Matches (.concat a b) w ↔ ∃ u v, w = u ++ v ∧ Matches a u ∧ Matches b v := by
  constructor
  · rintro ⟨⟩
    exact ⟨_, _, rfl, ‹_›, ‹_›⟩
  · rintro ⟨u, v, rfl, hu, hv⟩
    exact .concat hu hv

theorem matches_star_iff :
    Matches (.star a) w ↔ w = [] ∨ ∃ u v, w = u ++ v ∧ Matches a u ∧ Matches (.star a) v := by
  constructor
  · intro h
    cases h with
    | starNil => exact .inl rfl
    | starAppend hu hv => exact .inr ⟨_, _, rfl, hu, hv⟩
  · rintro (rfl | ⟨u, v, rfl, hu, hv⟩)
    · exact .starNil
    · exact .starAppend hu hv

end ByteRegex.Regex
