import ByteRegex.Regex.Association
import ByteRegex.Regex.Normal
import ByteRegex.Regex.Render

/-! # Regrouping to the left

Of all the ways to group the concatenations of an expression there is one that leans to the left,
and `leftAssoc` finds it. The text of an expression does not show how its concatenations are
grouped, so that it is the same for all of them. -/

namespace ByteRegex.Regex

variable {a b r : Regex}

/-! ## Chains -/

theorem chain_eq_concat (a : Regex) (hb : b.isConcat = false) : chain a b = .concat a b := by
  cases b with
  | concat => cases hb
  | empty | epsilon | literal | oneOf | alt | star => rfl

@[simp] theorem chain_ne_empty (a b : Regex) : chain a b ≠ .empty := by cases b <;> nofun
@[simp] theorem chain_ne_epsilon (a b : Regex) : chain a b ≠ .epsilon := by cases b <;> nofun

@[simp] theorem isStar_chain (a b : Regex) : (chain a b).isStar = false := by cases b <;> rfl
@[simp] theorem isAtomic_chain (a b : Regex) : (chain a b).isAtomic = false := by cases b <;> rfl

theorem chain_assoc (a b c : Regex) : chain (chain a b) c = chain a (chain b c) := by
  induction c with
  | concat c d ihc _ => simp only [chain_concat, ihc]
  | empty | epsilon | literal | oneOf | alt | star => rfl

theorem reassociated_chain (a b : Regex) : Reassociated (.concat a b) (chain a b) := by
  induction b with
  | concat b c ihb _ => exact (Reassociated.assoc a b c).symm.trans (ihb.concat (.refl c))
  | empty | epsilon | literal | oneOf | alt | star => exact .refl _

theorem LeansLeft.chain (ha : a.LeansLeft) (hb : b.LeansLeft) : (chain a b).LeansLeft := by
  induction b with
  | concat b c ihb _ =>
      obtain ⟨hc, hb, hc'⟩ := hb
      exact ⟨hc, ihb hb, hc'⟩
  | empty | epsilon | literal | oneOf | alt | star => exact ⟨rfl, ha, hb⟩

/-! ## The grouping that leans left -/

theorem reassociated_leftAssoc (r : Regex) : Reassociated r r.leftAssoc := by
  induction r with
  | empty | epsilon | literal | oneOf => exact .refl _
  | alt a b iha ihb => exact iha.alt ihb
  | concat a b iha ihb => exact (iha.concat ihb).trans (reassociated_chain _ _)
  | star a ih => exact ih.star

theorem leansLeft_leftAssoc (r : Regex) : r.leftAssoc.LeansLeft := by
  induction r with
  | empty | epsilon | literal | oneOf => trivial
  | alt a b iha ihb => exact ⟨iha, ihb⟩
  | concat a b iha ihb => exact iha.chain ihb
  | star a ih => exact ih

theorem LeansLeft.leftAssoc_eq (h : r.LeansLeft) : r.leftAssoc = r := by
  induction r with
  | empty | epsilon | literal | oneOf => rfl
  | alt a b iha ihb => rw [leftAssoc, iha h.1, ihb h.2]
  | concat a b iha ihb =>
      obtain ⟨hconcat, ha, hb⟩ := h
      rw [leftAssoc, iha ha, ihb hb, chain_eq_concat a hconcat]
  | star a ih => rw [leftAssoc, ih h]

theorem Reassociated.leftAssoc_eq (h : Reassociated a b) : a.leftAssoc = b.leftAssoc := by
  induction h with
  | refl => rfl
  | symm _ ih => exact ih.symm
  | trans _ _ iha ihb => exact iha.trans ihb
  | alt _ _ iha ihb | concat _ _ iha ihb => rw [leftAssoc, leftAssoc, iha, ihb]
  | star _ ih => rw [leftAssoc, leftAssoc, ih]
  | assoc a b c => simp only [leftAssoc, chain_assoc]

theorem reassociated_iff_leftAssoc_eq : Reassociated a b ↔ a.leftAssoc = b.leftAssoc := by
  refine ⟨Reassociated.leftAssoc_eq, fun h => ?_⟩
  have hb := (reassociated_leftAssoc b).symm
  rw [← h] at hb
  exact (reassociated_leftAssoc a).trans hb

@[simp] theorem leftAssoc_eq_empty_iff : r.leftAssoc = .empty ↔ r = .empty := by
  cases r <;> simp [leftAssoc]

@[simp] theorem leftAssoc_eq_epsilon_iff : r.leftAssoc = .epsilon ↔ r = .epsilon := by
  cases r <;> simp [leftAssoc]

@[simp] theorem isStar_leftAssoc (r : Regex) : r.leftAssoc.isStar = r.isStar := by
  cases r with
  | concat a b => exact isStar_chain _ _
  | empty | epsilon | literal | oneOf | alt | star => rfl

/-- Only one regrouping leans left. -/
theorem eq_leftAssoc_iff : b = a.leftAssoc ↔ Reassociated a b ∧ b.LeansLeft := by
  constructor
  · rintro rfl
    exact ⟨reassociated_leftAssoc a, leansLeft_leftAssoc a⟩
  · rintro ⟨h, hb⟩
    rw [h.leftAssoc_eq, hb.leftAssoc_eq]

/-! ## Texts -/

@[simp] theorem render_chain (a b : Regex) : (chain a b).render = a.render ++ b.render := by
  induction b with
  | concat b c ihb _ => rw [chain_concat, render_concat, ihb, render_concat, List.append_assoc]
  | empty | epsilon | literal | oneOf | alt | star => exact render_concat _ _

@[simp] theorem isAtomic_leftAssoc (r : Regex) : r.leftAssoc.isAtomic = r.isAtomic := by
  cases r with
  | concat a b => exact isAtomic_chain _ _
  | empty | epsilon | literal | oneOf | alt | star => rfl

@[simp] theorem render_leftAssoc (r : Regex) : r.leftAssoc.render = r.render := by
  induction r with
  | empty | epsilon | literal | oneOf => rfl
  | alt a b iha ihb => simp only [leftAssoc, render_alt, iha, ihb]
  | concat a b iha ihb => simp only [leftAssoc, render_chain, render_concat, iha, ihb]
  | star a ih => simp only [leftAssoc, render_star, isAtomic_leftAssoc, ih]

/-- A text does not show how concatenations are grouped. -/
theorem Reassociated.render_eq (h : Reassociated a b) : a.render = b.render := by
  rw [← render_leftAssoc a, h.leftAssoc_eq, render_leftAssoc]

end ByteRegex.Regex
