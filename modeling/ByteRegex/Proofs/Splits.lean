import Mathlib.Algebra.Order.BigOperators.Group.Finset
import Mathlib.Data.Nat.Count
import ByteRegex.Proofs.Height
import ByteRegex.Proofs.Regular

/-! # Splits of a text between two operands

A residual of a concatenation is a tree of alternations. One of its branches is still at the left
operand; the others are within the right one, one for each place in the text where the left operand
can end. The places from which the right operand can still be completed make the height. As the
right operand has finitely many residual languages, many such places become many ways to split one
text between the operands, and the other way round each way to split a text had its branch. -/

namespace ByteRegex.Regex

variable {a b r s x : Regex} {c : UInt8} {t u v w : Bytes} {m n : Nat}

/-! ## Branches -/

/-- The number of branches of an alternation. Those that match only the empty text are left out,
since two of them may have become one. -/
def width : Regex → Nat
  | .empty | .epsilon => 0
  | .literal _ | .oneOf _ | .concat _ _ | .star _ => 1
  | .alt a b => a.width + b.width

theorem width_union (a b : Regex) : (a.union b).width = a.width + b.width := by
  unfold union
  split <;> simp [width]

theorem width_append_star (h : x ≠ .empty) : (x.append (.star a)).width = 1 := by
  cases x with
  | empty => exact absurd rfl h
  | epsilon | literal | oneOf | alt | concat | star => rfl

theorem Normal.width_pos (h : r.Normal) (h₀ : r ≠ .empty) (h₁ : r ≠ .epsilon) : 0 < r.width := by
  induction r with
  | empty => exact absurd rfl h₀
  | epsilon => exact absurd rfl h₁
  | literal | oneOf | concat | star => exact Nat.one_pos
  | alt a b iha ihb =>
      obtain ⟨ha₀, hb₀, hab, ha, hb⟩ := h
      by_cases ha₁ : a = .epsilon
      · exact Nat.add_pos_right _ (ihb hb hb₀ fun hb₁ => hab ⟨ha₁, hb₁⟩)
      · exact Nat.add_pos_left (iha ha ha₀ ha₁) _

theorem width_le_two_pow_height (r : Regex) : r.width ≤ 2 ^ r.height := by
  induction r with
  | empty | epsilon => exact Nat.zero_le _
  | literal | oneOf | concat | star => exact Nat.one_le_two_pow
  | alt a b iha ihb =>
      have ha := iha.trans (Nat.pow_le_pow_right Nat.two_pos (Nat.le_max_left a.height b.height))
      have hb := ihb.trans (Nat.pow_le_pow_right Nat.two_pos (Nat.le_max_right a.height b.height))
      rw [width, height, Nat.add_comm 1, Nat.pow_succ]
      omega

theorem height_le_height_union (a b : Regex) :
    a.height ≤ (a.union b).height ∧ b.height ≤ (a.union b).height := by
  have ha := a.height_pos
  have hb := b.height_pos
  unfold union
  split <;> simp only [height] at * <;> omega

theorem height_le_height_append (hb : b ≠ .empty) : a.height ≤ (a.append b).height := by
  by_cases ha₀ : a = .empty
  · rw [ha₀, append_empty_left]
  by_cases ha₁ : a = .epsilon
  · rw [ha₁, append_epsilon_left]
    exact b.height_pos
  by_cases hb₁ : b = .epsilon
  · rw [hb₁, append_epsilon_right]
  · rw [append_eq_concat ha₀ hb ha₁ hb₁, height]
    omega

/-- One of the expressions that a tree of alternations has been put together from. -/
inductive Branch (x : Regex) : Regex → Prop
  | root : Branch x x
  | left {a b : Regex} : Branch x a → Branch x (a.union b)
  | right {a b : Regex} : Branch x b → Branch x (a.union b)

namespace Branch

theorem trans (h : Branch x r) (hr : Branch r s) : Branch x s := by
  induction hr with
  | root => exact h
  | left _ ih => exact .left ih
  | right _ ih => exact .right ih

theorem width_le (h : Branch x r) : x.width ≤ r.width := by
  induction h with
  | root => exact Nat.le_refl _
  | left _ ih =>
      rw [width_union]
      exact Nat.le_add_right_of_le ih
  | right _ ih =>
      rw [width_union]
      exact Nat.le_add_left_of_le ih

theorem height_le (h : Branch x r) : x.height ≤ r.height := by
  induction h with
  | root => exact Nat.le_refl _
  | left _ ih => exact ih.trans (height_le_height_union ..).1
  | right _ ih => exact ih.trans (height_le_height_union ..).2

end Branch

/-! ## Branches of a concatenation -/

/-- The left operand can always read one more byte. -/
theorem branch_residual_append_cons (a b : Regex) (c : UInt8) (w : Bytes) :
    Branch (((a.derivative c).append b).residual w) ((a.append b).residual (c :: w)) := by
  rw [residual_cons, derivative_append]
  split
  · rw [residual_union]
    exact .left .root
  · exact .root

theorem branch_residual_append (a b : Regex) (w : Bytes) :
    Branch ((a.residual w).append b) ((a.append b).residual w) := by
  induction w generalizing a with
  | nil => exact .root
  | cons c w ih => exact (ih _).trans (branch_residual_append_cons a b c w)

/-- Wherever the left operand can end, the right one can begin. -/
theorem branch_residual_append_of_matches (hu : Matches a u) (hv : v ≠ []) :
    Branch (b.residual v) ((a.append b).residual (u ++ v)) := by
  induction u generalizing a with
  | nil =>
      obtain ⟨c, v, rfl⟩ := List.exists_cons_of_ne_nil hv
      rw [List.nil_append, residual_cons (a.append b), derivative_append,
        if_pos ((nullable_iff_matches_nil a).2 hu), residual_union]
      exact .right .root
  | cons c u ih => exact (ih (matches_derivative_iff.2 hu)).trans (branch_residual_append_cons ..)

/-- Where the left operand can end twice, both branches are there. -/
theorem width_residual_append_of_matches (hu : Matches a u) (hut : Matches a (u ++ t))
    (ht : t ≠ []) (hv : v ≠ []) :
    (b.residual (t ++ v)).width + (b.residual v).width ≤
      ((a.append b).residual (u ++ t ++ v)).width := by
  induction u generalizing a with
  | nil =>
      obtain ⟨c, t, rfl⟩ := List.exists_cons_of_ne_nil ht
      have hlater := branch_residual_append_of_matches (b := b) (matches_derivative_iff.2 hut) hv
      rw [List.nil_append, List.cons_append, residual_cons (a.append b), derivative_append,
        if_pos ((nullable_iff_matches_nil a).2 hu), residual_union, width_union, Nat.add_comm]
      exact Nat.add_le_add_right hlater.width_le _
  | cons c u ih =>
      exact (ih (matches_derivative_iff.2 hu) (matches_derivative_iff.2 hut)).trans
        (branch_residual_append_cons ..).width_le

/-! ## Splits and forks -/

/-- The number of ways to split a text into one that `a` accepts and one that `b` accepts. -/
def splits (a b : Regex) (w : Bytes) : Nat :=
  Nat.count (fun n => a.accepts (w.take n) = true ∧ b.accepts (w.drop n) = true) (w.length + 1)

theorem splits_nil_le (a b : Regex) : a.splits b [] ≤ 1 := Nat.count_le _

theorem splits_cons (a b : Regex) (c : UInt8) (w : Bytes) :
    a.splits b (c :: w) = (a.derivative c).splits b w +
      if a.nullable = true ∧ b.accepts (c :: w) = true then 1 else 0 :=
  Nat.count_succ' ..

/-- The number of ways to split a text into one that `a` accepts and one, not empty, that `b` can
begin with. -/
def forks (a b : Regex) (w : Bytes) : Nat :=
  Nat.count (fun n => a.accepts (w.take n) = true ∧ b.residual (w.drop n) ≠ .empty) w.length

theorem forks_cons (a b : Regex) (c : UInt8) (w : Bytes) :
    a.forks b (c :: w) = (a.derivative c).forks b w +
      if a.nullable = true ∧ b.residual (c :: w) ≠ .empty then 1 else 0 :=
  Nat.count_succ' ..

/-- Each fork puts an alternation on the residual. -/
theorem height_residual_append_le_forks (ha : ∀ u, (a.residual u).height ≤ m)
    (hb : ∀ v, (b.residual v).height ≤ m) (w : Bytes) :
    ((a.append b).residual w).height ≤ a.forks b w + 1 + m := by
  induction w generalizing a with
  | nil =>
      have hle := height_append_le a b
      have ha₀ := ha []
      have hb₀ := hb []
      simp only [residual_nil] at ha₀ hb₀ ⊢
      omega
  | cons c w ih =>
      have hfirst := ih (a := a.derivative c) fun u => ha (c :: u)
      have hsecond := hb (c :: w)
      rw [residual_cons, derivative_append, forks_cons]
      by_cases hn : a.nullable = true
      · rw [if_pos hn, residual_union, ← residual_cons b]
        by_cases hb₀ : b.residual (c :: w) = .empty
        · rw [hb₀, union_empty_right]
          omega
        · have hle := height_union_le (((a.derivative c).append b).residual w) (b.residual (c :: w))
          rw [if_pos ⟨hn, hb₀⟩]
          omega
      · rw [if_neg hn]
        omega

/-- Each way to split a text had a branch before the last byte, unless the right operand is left
with the last byte or with nothing. -/
theorem Normal.splits_le_width (hb : b.Normal) (w : Bytes) (c : UInt8) :
    a.splits b (w ++ [c]) ≤ ((a.append b).residual w).width + 2 := by
  induction w generalizing a with
  | nil =>
      have hnil := splits_nil_le (a.derivative c) b
      rw [List.nil_append, splits_cons]
      split <;> omega
  | cons d w ih =>
      have hrest := ih (a := a.derivative d)
      rw [List.cons_append, splits_cons]
      split
      · next h =>
          have hmatch : Matches (b.residual (d :: w)) [c] :=
            matches_residual_iff.2 (accepts_iff_matches.1 h.2)
          have hpos : 0 < (b.residual (d :: w)).width :=
            (hb.residual _).width_pos (fun he => not_matches_empty (he ▸ hmatch))
              (fun he => List.cons_ne_nil c [] (matches_epsilon_iff.1 (he ▸ hmatch)))
          rw [residual_cons] at hpos
          rw [residual_cons, derivative_append, if_pos h.1, residual_union, width_union]
          omega
      · exact hrest.trans (Nat.add_le_add_right (branch_residual_append_cons ..).width_le 2)

/-- Among the forks of a text, those with the same language behind them are splits of one text: of
the given one with a text of this language at its end. -/
theorem Normal.forks_le (hb : b.Normal) (hn : ∀ w, a.splits b w ≤ n) (w : Bytes) :
    a.forks b w ≤ n * b.finite_residualLanguages.toFinset.card := by
  classical
  rw [forks, Nat.count_eq_card_filter_range]
  refine (Finset.card_le_mul_card_image (f := fun k => (b.residual (w.drop k)).language) _ n
    fun l hl => ?_).trans (Nat.mul_le_mul_left n (Finset.card_le_card fun l hl => ?_))
  · obtain ⟨k₀, hk₀, rfl⟩ := Finset.mem_image.1 hl
    obtain ⟨z, hz⟩ := (hb.residual _).exists_matches (Finset.mem_filter.1 hk₀).2.2
    refine (Finset.card_le_card fun k hk => ?_).trans
      ((Nat.count_eq_card_filter_range ..).symm.le.trans (hn (w ++ z)))
    obtain ⟨hk, hkl⟩ := Finset.mem_filter.1 hk
    obtain ⟨hkw, hka, _⟩ := Finset.mem_filter.1 hk
    have hkw := Finset.mem_range.1 hkw
    have hkz : Matches (b.residual (w.drop k)) z := by
      rwa [← mem_language, hkl]
    rw [Finset.mem_filter, Finset.mem_range, List.take_append_of_le_length hkw.le,
      List.drop_append_of_le_length hkw.le, accepts_iff_matches (r := b), ← matches_residual_iff,
      List.length_append]
    exact ⟨by omega, hka, hkz⟩
  · obtain ⟨k, _, rfl⟩ := Finset.mem_image.1 hl
    exact (Set.Finite.mem_toFinset _).2 (b.language_mem_residualLanguages _)

end ByteRegex.Regex
