import ByteRegex.Regex.Language
import ByteRegex.Regex.Match

/-! # Languages of simplified expressions

Simplification leaves the language of an expression alone, and deriving by a byte takes that byte
off the front of every text of the language. A walk of derivatives over a text therefore ends in a
nullable expression exactly when the text was in the language, whatever the shape of the tree.

The only rule that needs more than reading it backwards is the one for repetitions. A repetition
may split its text into parts of which some are empty, while its derivative consumes a byte of the
first part; `matches_star_cons_iff` says that the first part can always be taken nonempty. -/

namespace ByteRegex.Regex

variable {a a' b b' : Regex} {c : UInt8} {u v w : Bytes}

/-! ## Repetitions -/

/-- Induction over the parts of a repetition, the first part last. -/
theorem Matches.star_induction {motive : ∀ w, Matches (.star a) w → Prop}
    (nil : motive [] .starNil)
    (append : ∀ u v (hu : Matches a u) (hv : Matches (.star a) v), motive v hv →
      motive (u ++ v) (.starAppend hu hv))
    (w : Bytes) (h : Matches (.star a) w) : motive w h := by
  have key : ∀ r v, Matches r v → r = .star a → ∀ h : Matches (.star a) v, motive v h := by
    intro r v hr
    induction hr with
    | starNil => exact fun _ _ => nil
    | starAppend hu hv _ ih =>
        rintro ⟨⟩ _
        exact append _ _ hu hv (ih rfl hv)
    | _ => nofun
  exact key _ w h rfl h

/-- What is repeated may stand once. -/
theorem Matches.star_single (h : Matches a w) : Matches (.star a) w := by
  simpa using Matches.starAppend h .starNil

/-- Repetitions may follow one another. -/
theorem Matches.star_append (hu : Matches (.star a) u) (hv : Matches (.star a) v) :
    Matches (.star a) (u ++ v) := by
  induction u, hu using Matches.star_induction with
  | nil => exact hv
  | append x y hx _ ih =>
      rw [List.append_assoc]
      exact .starAppend hx ih

/-- A larger body has a larger repetition. -/
theorem Matches.star_mono (h : ∀ w, Matches a w → Matches a' w) (hw : Matches (.star a) w) :
    Matches (.star a') w := by
  induction w, hw using Matches.star_induction with
  | nil => exact .starNil
  | append u v hu _ ih => exact .starAppend (h u hu) ih

/-- A repetition that matches a text of at least one byte begins with a part of at least one. -/
theorem matches_star_cons_iff :
    Matches (.star a) (c :: w) ↔
      ∃ u v, w = u ++ v ∧ Matches a (c :: u) ∧ Matches (.star a) v := by
  constructor
  · intro h
    generalize hs : c :: w = s at h
    induction s, h using Matches.star_induction with
    | nil => cases hs
    | append u v hu hv ih =>
        cases u with
        | nil => exact ih hs
        | cons d u =>
            obtain ⟨rfl, rfl⟩ := List.cons.inj hs
            exact ⟨u, v, rfl, hu, hv⟩
  · rintro ⟨u, v, rfl, hu, hv⟩
    exact .starAppend (v := c :: u) hu hv

/-! ## Expressions with one language -/

/-- Two expressions match the same texts. -/
def SameLanguage (a b : Regex) : Prop := ∀ w, Matches a w ↔ Matches b w

namespace SameLanguage

theorem refl (a : Regex) : SameLanguage a a := fun _ => Iff.rfl

theorem symm (h : SameLanguage a b) : SameLanguage b a := fun w => (h w).symm

theorem trans {c : Regex} (h : SameLanguage a b) (h' : SameLanguage b c) : SameLanguage a c :=
  fun w => (h w).trans (h' w)

theorem alt (ha : SameLanguage a a') (hb : SameLanguage b b') :
    SameLanguage (.alt a b) (.alt a' b') := fun w => by
  rw [matches_alt_iff, matches_alt_iff, ha w, hb w]

theorem concat (ha : SameLanguage a a') (hb : SameLanguage b b') :
    SameLanguage (.concat a b) (.concat a' b') := fun w => by
  simp only [matches_concat_iff, ha _, hb _]

theorem star (h : SameLanguage a a') : SameLanguage (.star a) (.star a') := fun _ =>
  ⟨Matches.star_mono fun w => (h w).1, Matches.star_mono fun w => (h w).2⟩

theorem empty_concat (a : Regex) : SameLanguage (.concat .empty a) .empty := fun w => by
  simp [matches_concat_iff]

theorem concat_empty (a : Regex) : SameLanguage (.concat a .empty) .empty := fun w => by
  simp [matches_concat_iff]

theorem epsilon_concat (a : Regex) : SameLanguage (.concat .epsilon a) a := by
  intro w
  simp only [matches_concat_iff, matches_epsilon_iff]
  constructor
  · rintro ⟨_, v, rfl, rfl, hv⟩
    exact hv
  · intro hw
    exact ⟨[], w, rfl, rfl, hw⟩

theorem concat_epsilon (a : Regex) : SameLanguage (.concat a .epsilon) a := by
  intro w
  simp only [matches_concat_iff, matches_epsilon_iff]
  constructor
  · rintro ⟨u, _, rfl, hu, rfl⟩
    rwa [List.append_nil]
  · intro hw
    exact ⟨w, [], (List.append_nil w).symm, hw, rfl⟩

theorem concat_assoc (a b c : Regex) :
    SameLanguage (.concat (.concat a b) c) (.concat a (.concat b c)) := by
  intro w
  simp only [matches_concat_iff]
  constructor
  · rintro ⟨_, z, rfl, ⟨x, y, rfl, hx, hy⟩, hz⟩
    exact ⟨x, y ++ z, by simp, hx, y, z, rfl, hy, hz⟩
  · rintro ⟨x, _, rfl, hx, y, z, rfl, hy, hz⟩
    exact ⟨x ++ y, z, by simp, ⟨x, y, rfl, hx, hy⟩, hz⟩

/-- Repeating what matches no text, or only the empty one, matches the empty text. -/
theorem star_of_nil (h : ∀ w, Matches a w → w = []) : SameLanguage (.star a) .epsilon := by
  intro w
  rw [matches_epsilon_iff]
  constructor
  · intro hw
    induction w, hw using Matches.star_induction with
    | nil => rfl
    | append u v hu _ ih => rw [h u hu, ih, List.append_nil]
  · rintro rfl
    exact .starNil

theorem star_star (a : Regex) : SameLanguage (.star (.star a)) (.star a) := by
  intro w
  constructor
  · intro hw
    induction w, hw using Matches.star_induction with
    | nil => exact .starNil
    | append u v hu _ ih => exact hu.star_append ih
  · exact Matches.star_single

end SameLanguage

/-! ## Simplifying constructors -/

theorem sameLanguage_union (a b : Regex) : SameLanguage (union a b) (.alt a b) := by
  intro w
  unfold union
  split <;> simp

theorem sameLanguage_append (a b : Regex) : SameLanguage (append a b) (.concat a b) := by
  unfold append
  split
  · exact (SameLanguage.empty_concat _).symm
  · exact (SameLanguage.concat_empty _).symm
  · exact (SameLanguage.epsilon_concat _).symm
  · exact (SameLanguage.concat_epsilon _).symm
  · exact .refl _

theorem sameLanguage_many (a : Regex) : SameLanguage (many a) (.star a) := by
  unfold many
  split
  · exact (SameLanguage.star_of_nil fun w h => absurd h not_matches_empty).symm
  · exact (SameLanguage.star_of_nil fun w h => matches_epsilon_iff.1 h).symm
  · exact (SameLanguage.star_star _).symm
  · exact .refl _

theorem sameLanguage_ofClass (s : ByteClass) : SameLanguage (ofClass s) (.oneOf s) := by
  intro w
  simp only [ofClass, matches_oneOf_iff, ← ByteClass.mem_toList]
  split <;> next h => simp [h, ByteClass.mem_toList]

@[simp] theorem matches_union_iff : Matches (union a b) w ↔ Matches a w ∨ Matches b w :=
  (sameLanguage_union a b w).trans matches_alt_iff

@[simp] theorem matches_append_iff :
    Matches (append a b) w ↔ ∃ u v, w = u ++ v ∧ Matches a u ∧ Matches b v :=
  (sameLanguage_append a b w).trans matches_concat_iff

/-! ## Derivatives -/

theorem nullable_iff_matches_nil (r : Regex) : r.nullable = true ↔ Matches r [] := by
  induction r with
  | empty | epsilon | literal => simp [nullable]
  | oneOf => simp [nullable]
  | alt a b iha ihb => simp [nullable, iha, ihb]
  | concat a b iha ihb =>
      simp only [nullable, Bool.and_eq_true, iha, ihb, matches_concat_iff]
      constructor
      · rintro ⟨ha, hb⟩
        exact ⟨[], [], rfl, ha, hb⟩
      · rintro ⟨u, v, h, ha, hb⟩
        obtain ⟨rfl, rfl⟩ := List.append_eq_nil_iff.1 h.symm
        exact ⟨ha, hb⟩
  | star a => simpa [nullable] using Matches.starNil

/-- The first byte of a concatenation is the first byte of its left operand, or of its right one if
the left operand matches the empty text. -/
theorem matches_concat_cons_iff :
    Matches (.concat a b) (c :: w) ↔
      (∃ u v, w = u ++ v ∧ Matches a (c :: u) ∧ Matches b v) ∨
        Matches a [] ∧ Matches b (c :: w) := by
  rw [matches_concat_iff]
  constructor
  · rintro ⟨u, v, hw, hu, hv⟩
    cases u with
    | nil => exact .inr ⟨hu, hw ▸ hv⟩
    | cons d u =>
        obtain ⟨rfl, rfl⟩ := List.cons.inj hw
        exact .inl ⟨u, v, rfl, hu, hv⟩
  · rintro (⟨u, v, rfl, hu, hv⟩ | ⟨ha, hb⟩)
    · exact ⟨c :: u, v, rfl, hu, hv⟩
    · exact ⟨[], c :: w, rfl, ha, hb⟩

theorem matches_derivative_iff {r : Regex} :
    Matches (r.derivative c) w ↔ Matches r (c :: w) := by
  induction r generalizing w with
  | empty | epsilon => simp [derivative]
  | literal b =>
      by_cases h : b = c
      · simp [derivative, h]
      · simp [derivative, h, Ne.symm h]
  | oneOf s =>
      rw [matches_oneOf_iff]
      by_cases h : s.contains c = true
      · rw [derivative, if_pos h, matches_epsilon_iff]
        constructor
        · rintro rfl
          exact ⟨c, h, rfl⟩
        · rintro ⟨_, _, hd⟩
          exact (List.cons.inj hd).2
      · rw [derivative, if_neg h]
        constructor
        · exact fun hw => absurd hw not_matches_empty
        · rintro ⟨d, hd, hw⟩
          obtain ⟨rfl, _⟩ := List.cons.inj hw
          exact absurd hd h
  | alt a b iha ihb => simp only [derivative, matches_union_iff, matches_alt_iff, iha, ihb]
  | concat a b iha ihb =>
      rw [matches_concat_cons_iff, ← nullable_iff_matches_nil]
      cases h : a.nullable <;> simp [derivative, h, iha, ihb]
  | star a ih =>
      simp only [derivative, matches_append_iff, matches_star_cons_iff, ih,
        sameLanguage_many a _]

theorem matches_residual_iff {r : Regex} :
    Matches (r.residual v) w ↔ Matches r (v ++ w) := by
  induction v generalizing r with
  | nil => rfl
  | cons c v ih => rw [residual_cons, ih, matches_derivative_iff, List.cons_append]

theorem accepts_iff_matches {r : Regex} : r.accepts w = true ↔ Matches r w := by
  rw [accepts, nullable_iff_matches_nil, matches_residual_iff, List.append_nil]

/-- Two expressions with one language accept the same texts. -/
theorem SameLanguage.accepts_eq (h : SameLanguage a b) (w : Bytes) : a.accepts w = b.accepts w := by
  rw [Bool.eq_iff_iff, accepts_iff_matches, accepts_iff_matches]
  exact h w

/-- **Derivatives decide the language.** For a tree of any shape, a text is accepted exactly when it
is in the language, and the derivative by a byte has just the texts that follow that byte. -/
theorem accepts_decides_matches (r : Regex) :
    (∀ w, r.accepts w = true ↔ Matches r w) ∧
      ∀ c v, Matches (r.derivative c) v ↔ Matches r (c :: v) :=
  ⟨fun _ => accepts_iff_matches, fun _ _ => matches_derivative_iff⟩

end ByteRegex.Regex
