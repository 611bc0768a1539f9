import ByteRegex.Proofs.Normal
import ByteRegex.Regex.Plain

/-! # Simplifying while deriving

Deriving simplifies each node as it is rebuilt. The textbook derivative rebuilds nothing and lets
the tree grow; simplifying its outcome once, from the leaves up, gives the same tree. One step of
this is a square: simplify and derive, or derive plainly and simplify.

The square closes node by node, because the derivative of a simplified node is what the rule for
the bare node says. Only a repetition of a repetition breaks this rule: `many` takes one of the two
away, and with it the copy that the plain derivative leaves behind. Such a repetition does not
occur in a compiled pattern. The plain derivative copies repetitions without a look into them, so
that none appears on the way. -/

namespace ByteRegex.Regex

variable {a b r : Regex} {c : UInt8} {w : Bytes}

/-! ## Derivatives of simplified nodes -/

theorem derivative_union (a b : Regex) (c : UInt8) :
    (a.union b).derivative c = (a.derivative c).union (b.derivative c) := by
  by_cases ha : a = .empty
  · simp [ha, derivative]
  by_cases hb : b = .empty
  · simp [hb, derivative]
  by_cases hab : a = .epsilon ∧ b = .epsilon
  · simp [hab, derivative]
  · rw [union_eq_alt ha hb hab, derivative]

theorem residual_union (a b : Regex) (w : Bytes) :
    (a.union b).residual w = (a.residual w).union (b.residual w) := by
  induction w generalizing a b with
  | nil => rfl
  | cons c w ih => rw [residual_cons, derivative_union, ih, residual_cons, residual_cons]

theorem derivative_append (a b : Regex) (c : UInt8) :
    (a.append b).derivative c =
      if a.nullable then ((a.derivative c).append b).union (b.derivative c)
      else (a.derivative c).append b := by
  by_cases ha : a = .empty
  · simp [ha, derivative, nullable]
  by_cases hb : b = .empty
  · simp [hb, derivative]
  by_cases ha' : a = .epsilon
  · simp [ha', derivative, nullable]
  by_cases hb' : b = .epsilon
  · simp [hb', derivative]
  · rw [append_eq_concat ha hb ha' hb', derivative]

theorem derivative_many (ha : a.isStar = false) (c : UInt8) :
    a.many.derivative c = (a.derivative c).append a.many := by
  cases a with
  | empty | epsilon => rfl
  | star a => cases ha
  | literal | oneOf | alt | concat => rfl

theorem derivative_ofClass (s : ByteClass) (c : UInt8) :
    (ofClass s).derivative c = (oneOf s).derivative c := by
  unfold ofClass
  split
  · next h => simp [derivative, ← ByteClass.mem_toList, h]
  · next b h =>
      have hc : s.contains c = true ↔ b = c := by
        rw [← ByteClass.mem_toList, h, List.mem_singleton, eq_comm]
      simp only [derivative, hc]
  · rfl

/-! ## Languages -/

theorem sameLanguage_simplify (r : Regex) : SameLanguage r.simplify r := by
  induction r with
  | empty | epsilon | literal => exact .refl _
  | oneOf s => exact sameLanguage_ofClass s
  | alt a b iha ihb => exact (sameLanguage_union _ _).trans (iha.alt ihb)
  | concat a b iha ihb => exact (sameLanguage_append _ _).trans (iha.concat ihb)
  | star a ih => exact (sameLanguage_many _).trans ih.star

theorem sameLanguage_plainDerivative (r : Regex) (c : UInt8) :
    SameLanguage (r.plainDerivative c) (r.derivative c) := by
  induction r with
  | empty | epsilon | literal | oneOf => exact .refl _
  | alt a b iha ihb => exact (iha.alt ihb).trans (sameLanguage_union _ _).symm
  | concat a b iha ihb =>
      have hfirst := (iha.concat (.refl b)).trans (sameLanguage_append _ _).symm
      unfold plainDerivative derivative
      split
      · exact (hfirst.alt ihb).trans (sameLanguage_union _ _).symm
      · exact hfirst
  | star a ih =>
      exact (ih.concat (sameLanguage_many a).symm).trans (sameLanguage_append _ _).symm

theorem SameLanguage.nullable_eq (h : SameLanguage a b) : a.nullable = b.nullable :=
  h.accepts_eq []

theorem nullable_simplify (r : Regex) : r.simplify.nullable = r.nullable :=
  (sameLanguage_simplify r).nullable_eq

theorem matches_plainResidual_iff {v : Bytes} :
    Matches (r.plainResidual v) w ↔ Matches r (v ++ w) := by
  induction v generalizing r with
  | nil => rfl
  | cons c v ih =>
      rw [plainResidual_cons, ih, sameLanguage_plainDerivative, matches_derivative_iff,
        List.cons_append]

/-- With and without simplification a text leaves residuals of one language. -/
theorem sameLanguage_plainResidual (r : Regex) (w : Bytes) :
    SameLanguage (r.residual w) (r.plainResidual w) := fun _ =>
  matches_residual_iff.trans matches_plainResidual_iff.symm

/-! ## The square -/

/-- No repetition repeats what simplifies to a repetition. -/
def Unnested : Regex → Prop
  | .empty | .epsilon | .literal _ | .oneOf _ => True
  | .alt a b | .concat a b => a.Unnested ∧ b.Unnested
  | .star a => a.simplify.isStar = false ∧ a.Unnested

theorem Unnested.plainDerivative (h : r.Unnested) (c : UInt8) : (r.plainDerivative c).Unnested := by
  induction r with
  | empty | epsilon => trivial
  | literal | oneOf =>
      unfold Regex.plainDerivative
      split <;> trivial
  | alt a b iha ihb => exact ⟨iha h.1, ihb h.2⟩
  | concat a b iha ihb =>
      have hfirst : (concat (a.plainDerivative c) b).Unnested := ⟨iha h.1, h.2⟩
      unfold Regex.plainDerivative
      split
      · exact ⟨hfirst, ihb h.2⟩
      · exact hfirst
  | star a ih => exact ⟨ih h.2, h⟩

theorem derivative_simplify (h : r.Unnested) (c : UInt8) :
    r.simplify.derivative c = (r.plainDerivative c).simplify := by
  induction r with
  | empty | epsilon => rfl
  | literal b =>
      simp only [simplify, derivative, plainDerivative]
      split <;> rfl
  | oneOf s =>
      simp only [simplify, derivative_ofClass, derivative, plainDerivative]
      split <;> rfl
  | alt a b iha ihb => simp only [simplify, plainDerivative, derivative_union, iha h.1, ihb h.2]
  | concat a b iha ihb =>
      rw [simplify, derivative_append, nullable_simplify, iha h.1, ihb h.2, plainDerivative]
      split <;> rfl
  | star a ih => rw [simplify, derivative_many h.1, ih h.2, plainDerivative, simplify, simplify]

theorem residual_simplify (h : r.Unnested) (w : Bytes) :
    r.simplify.residual w = (r.plainResidual w).simplify := by
  induction w generalizing r with
  | nil => rfl
  | cons c w ih =>
      rw [residual_cons, plainResidual_cons, derivative_simplify h, ih (h.plainDerivative c)]

/-! ## Normal trees -/

theorem Normal.simplify_eq_self (h : r.Normal) : r.simplify = r := by
  induction r with
  | empty | epsilon | literal => rfl
  | oneOf s =>
      simp only [simplify, ofClass]
      split <;> next hs => simp [Normal, hs] at h ⊢
  | alt a b iha ihb =>
      obtain ⟨ha₀, hb₀, hab, ha, hb⟩ := h
      rw [simplify, iha ha, ihb hb, union_eq_alt ha₀ hb₀ hab]
  | concat a b iha ihb =>
      obtain ⟨ha₀, ha₁, hb₀, hb₁, ha, hb⟩ := h
      rw [simplify, iha ha, ihb hb, append_eq_concat ha₀ hb₀ ha₁ hb₁]
  | star a ih =>
      obtain ⟨ha₀, ha₁, hstar, ha⟩ := h
      rw [simplify, ih ha, many_eq_star ha₀ ha₁ hstar]

theorem Normal.unnested (h : r.Normal) : r.Unnested := by
  induction r with
  | empty | epsilon | literal | oneOf => trivial
  | alt a b iha ihb =>
      obtain ⟨_, _, _, ha, hb⟩ := h
      exact ⟨iha ha, ihb hb⟩
  | concat a b iha ihb =>
      obtain ⟨_, _, _, _, ha, hb⟩ := h
      exact ⟨iha ha, ihb hb⟩
  | star a ih =>
      obtain ⟨_, _, hstar, ha⟩ := h
      exact ⟨by rwa [ha.simplify_eq_self], ih ha⟩

theorem Normal.residual_eq (h : r.Normal) (w : Bytes) :
    r.residual w = (r.plainResidual w).simplify := by
  rw [← residual_simplify h.unnested, h.simplify_eq_self]

/-- **Simplifying on the way simulates the textbook derivative.** From a compiled pattern, deriving
by any text gives the tree that the plain derivatives give, simplified once at the end. From a tree
of any other shape the two may differ, but they agree on the empty text. -/
theorem residual_simulates_plainResidual :
    (∀ (p : Pattern) (w : Bytes), p.regex.residual w = (p.regex.plainResidual w).simplify) ∧
      ∀ (r : Regex) (w : Bytes), (r.residual w).nullable = (r.plainResidual w).nullable :=
  ⟨fun p w => p.normal_regex.residual_eq w,
    fun r w => (sameLanguage_plainResidual r w).nullable_eq⟩

/-- A repetition of a repetition is why the first half speaks of compiled patterns. -/
example : (star (star (literal 0x61))).residual [0x61, 0x61] ≠
    ((star (star (literal 0x61))).plainResidual [0x61, 0x61]).simplify := by decide

end ByteRegex.Regex
