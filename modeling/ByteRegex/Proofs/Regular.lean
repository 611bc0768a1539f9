import Mathlib.Computability.MyhillNerode
import ByteRegex.Proofs.Similarity

/-! # Regular languages

Similar expressions have one language, so that the languages of the residuals of an expression are
no more than the states of its automaton. By the theorem of Myhill and Nerode the language of an
expression is regular. -/

namespace ByteRegex.Regex

variable {a b r : Regex} {w : Bytes}

/-- All texts that an expression matches. -/
def language (r : Regex) : Language UInt8 := {w | Matches r w}

@[simp] theorem mem_language : w ∈ r.language ↔ Matches r w := Iff.rfl

theorem Similar.language_eq (h : Similar a b) : a.language = b.language := by
  ext w
  exact h.sameLanguage w

theorem language_residual (r : Regex) (w : Bytes) :
    (r.residual w).language = r.language.leftQuotient w := by
  ext v
  exact matches_residual_iff

/-- The languages of all residuals. -/
def residualLanguages (r : Regex) : Set (Language UInt8) :=
  Set.range fun w => (r.residual w).language

theorem language_mem_residualLanguages (r : Regex) (w : Bytes) :
    (r.residual w).language ∈ r.residualLanguages :=
  ⟨w, rfl⟩

theorem finite_residualLanguages (r : Regex) : r.residualLanguages.Finite := by
  refine (r.finite_states.image fun q => q.tree.language).subset ?_
  rintro _ ⟨w, rfl⟩
  exact ⟨state (r.residual w), ⟨w, rfl⟩, (similar_tree_state _).language_eq.symm⟩

theorem isRegular_language (r : Regex) : r.language.IsRegular := by
  apply Language.IsRegular.of_finite_range_leftQuotient
  rw [← funext r.language_residual]
  exact r.finite_residualLanguages

end ByteRegex.Regex
