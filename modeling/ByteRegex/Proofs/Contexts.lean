import ByteRegex.Proofs.Search
import ByteRegex.Regex.Context

/-! # Expressions that no context tells apart

Matching sees no more of an expression than its language, wherever in a larger tree the expression
stands. So two expressions can be exchanged in every context exactly if their languages are equal,
and what the simplifying constructors leave out is never missed. -/

namespace ByteRegex.Regex

variable {a b c : Regex}

/-- In no context and on no text does matching tell the two expressions apart. -/
def Indistinguishable (a b : Regex) : Prop :=
  ∀ (k : Context) (w : Bytes),
    (k.fill a).accepts w = (k.fill b).accepts w ∧ (k.fill a).occursIn w = (k.fill b).occursIn w

theorem SameLanguage.fill (h : SameLanguage a b) (k : Context) :
    SameLanguage (k.fill a) (k.fill b) := by
  induction k with
  | hole => exact h
  | altLeft inner right ih => exact ih.alt (.refl right)
  | altRight left inner ih => exact (SameLanguage.refl left).alt ih
  | concatLeft inner right ih => exact ih.concat (.refl right)
  | concatRight left inner ih => exact (SameLanguage.refl left).concat ih
  | star inner ih => exact ih.star

theorem indistinguishable_iff_sameLanguage : Indistinguishable a b ↔ SameLanguage a b := by
  constructor
  · intro h w
    rw [← accepts_iff_matches, ← accepts_iff_matches]
    exact Bool.eq_iff_iff.1 (h .hole w).1
  · intro h k w
    exact ⟨(h.fill k).accepts_eq w, (h.fill k).occursIn_eq w⟩

/-- What repeating and concatenating come to when an operand is a repetition, matches nothing or
matches the empty text only. -/
structure Laws (concat : Regex → Regex → Regex) (star : Regex → Regex) : Prop where
  star_star (a : Regex) : Indistinguishable (star (star a)) (star a)
  empty_concat (a : Regex) (w : Bytes) :
    (concat .empty a).accepts w = false ∧ (concat .empty a).occursIn w = false
  concat_empty (a : Regex) (w : Bytes) :
    (concat a .empty).accepts w = false ∧ (concat a .empty).occursIn w = false
  epsilon_concat (a : Regex) : Indistinguishable (concat .epsilon a) a
  concat_epsilon (a : Regex) : Indistinguishable (concat a .epsilon) a

theorem SameLanguage.matches_nothing (h : SameLanguage a .empty) (w : Bytes) :
    a.accepts w = false ∧ a.occursIn w = false := by
  rw [h.accepts_eq, h.occursIn_eq, Bool.eq_false_iff, Bool.eq_false_iff, ne_eq, ne_eq,
    accepts_iff_matches, occursIn_iff_matches]
  simp

/-- Constructors with the languages of the bare ones have their laws. -/
theorem laws_of_sameLanguage {concat : Regex → Regex → Regex} {star : Regex → Regex}
    (hconcat : ∀ a b, SameLanguage (concat a b) (.concat a b))
    (hstar : ∀ a, SameLanguage (star a) (.star a)) : Laws concat star where
  star_star a := by
    have hbody := (hstar a).star
    have hflat := (SameLanguage.star_star a).trans (hstar a).symm
    exact indistinguishable_iff_sameLanguage.2 ((hstar _).trans (hbody.trans hflat))
  empty_concat a := ((hconcat .empty a).trans (.empty_concat a)).matches_nothing
  concat_empty a := ((hconcat a .empty).trans (.concat_empty a)).matches_nothing
  epsilon_concat a :=
    indistinguishable_iff_sameLanguage.2 ((hconcat .epsilon a).trans (.epsilon_concat a))
  concat_epsilon a :=
    indistinguishable_iff_sameLanguage.2 ((hconcat a .epsilon).trans (.concat_epsilon a))

/-- **Simplification is not seen by matching.** In every context and on every text, each
simplifying constructor does as the bare one, whatever the operands. So both obey the laws that the
simplifications rest on. -/
theorem simplification_indistinguishable :
    (∀ a b, Indistinguishable (.alt a b) (a.union b)) ∧
      (∀ a b, Indistinguishable (.concat a b) (a.append b)) ∧
      (∀ a, Indistinguishable (.star a) a.many) ∧
      (∀ s, Indistinguishable (.oneOf s) (.ofClass s)) ∧
      Laws .concat .star ∧ Laws append many := by
  simp only [indistinguishable_iff_sameLanguage]
  exact ⟨fun a b => (sameLanguage_union a b).symm, fun a b => (sameLanguage_append a b).symm,
    fun a => (sameLanguage_many a).symm, fun s => (sameLanguage_ofClass s).symm,
    laws_of_sameLanguage (fun _ _ => .refl _) fun _ => .refl _,
    laws_of_sameLanguage sameLanguage_append sameLanguage_many⟩

end ByteRegex.Regex
