import Mathlib.InformationTheory.Coding.UniquelyDecodable
import ByteRegex.Proofs.Splits

/-! # Rounds of a repetition

A repetition divides its text into rounds. Its residual has one branch for each way in which
complete rounds can fill the text up to a round that is still open. If no text can be divided in two
ways, the open rounds differ in what may follow, so that there are no more live branches than the
body has residual languages. If some text can be divided in two ways, each copy of it at the front
of a text doubles the number of branches. -/

namespace ByteRegex.Regex

open InformationTheory (UniquelyDecodable)

variable {a r : Regex} {c : UInt8} {t u v w : Bytes} {us vs : List Bytes} {m : Nat}

/-- The texts that a round of a repetition can read. -/
def rounds (a : Regex) : Set Bytes := {u | u ≠ [] ∧ Matches a u}

theorem derivative_star (hs : a.many = .star a) (c : UInt8) :
    (star a).derivative c = (a.derivative c).append (.star a) := by
  rw [derivative, hs]

theorem residual_star_cons (hs : a.many = .star a) (c : UInt8) (w : Bytes) :
    (star a).residual (c :: w) = ((a.derivative c).append (.star a)).residual w := by
  rw [residual_cons, derivative_star hs]

/-! ## Reading on -/

/-- How a round that has read `u` goes on with `c`: it reads `c` as well, and where it may end, `c`
begins a new round. -/
def readOn (a : Regex) (c : UInt8) (u : Bytes) : List Bytes :=
  if a.accepts u then [u ++ [c], [c]] else [u ++ [c]]

theorem mem_readOn : v ∈ a.readOn c u ↔ v = u ++ [c] ∨ a.accepts u = true ∧ v = [c] := by
  unfold readOn
  split <;> simp [*]

theorem nodup_readOn (hu : u ≠ []) : (a.readOn c u).Nodup := by
  unfold readOn
  split <;> simp [hu]

/-- The texts `us` are distinct, and each is what is left of the text `w` behind complete rounds. -/
structure OpenRounds (a : Regex) (w : Bytes) (us : List Bytes) : Prop where
  nodup : us.Nodup
  ne_nil : ∀ u ∈ us, u ≠ []
  exists_rounds : ∀ u ∈ us, ∃ vs : List Bytes, (∀ v ∈ vs, v ∈ a.rounds) ∧ vs.flatten ++ u = w

namespace OpenRounds

theorem single (c : UInt8) : OpenRounds a [c] [[c]] where
  nodup := List.nodup_singleton _
  ne_nil _ hu := List.mem_singleton.1 hu ▸ List.cons_ne_nil c []
  exists_rounds _ hu := ⟨[], nofun, List.mem_singleton.1 hu⟩

/-- Where the division into rounds is unique, only one open round can be completed by a text. -/
theorem eq_of_matches (ha : UniquelyDecodable a.rounds) (h : OpenRounds a w us) (hu : u ∈ us)
    (hv : v ∈ us) (hut : Matches a (u ++ t)) (hvt : Matches a (v ++ t)) : u = v := by
  obtain ⟨xs, hxs, hxu⟩ := h.exists_rounds u hu
  obtain ⟨ys, hys, hyv⟩ := h.exists_rounds v hv
  have hparts : xs ++ [u ++ t] = ys ++ [v ++ t] := by
    refine ha _ _ ?_ ?_ ?_
    · rw [List.forall_mem_append, List.forall_mem_singleton]
      exact ⟨hxs, List.append_ne_nil_of_left_ne_nil (h.ne_nil u hu) t, hut⟩
    · rw [List.forall_mem_append, List.forall_mem_singleton]
      exact ⟨hys, List.append_ne_nil_of_left_ne_nil (h.ne_nil v hv) t, hvt⟩
    · simp only [List.flatten_append, List.flatten_singleton, ← List.append_assoc, hxu, hyv]
  have hlast := List.append_inj_right' hparts rfl
  exact List.append_cancel_right (List.singleton_inj.1 hlast)

theorem disjoint_readOn (ha : UniquelyDecodable a.rounds) (h : OpenRounds a w us) (hu : u ∈ us)
    (hv : v ∈ us) (huv : u ≠ v) : List.Disjoint (a.readOn c u) (a.readOn c v) := by
  intro x hxu hxv
  rcases mem_readOn.1 hxu with rfl | ⟨hua, rfl⟩ <;> rcases mem_readOn.1 hxv with hx | ⟨hva, hx⟩
  · exact huv (List.append_cancel_right hx)
  · exact h.ne_nil u hu (List.append_left_eq_self.1 hx)
  · exact h.ne_nil v hv (List.append_left_eq_self.1 hx.symm)
  · rw [accepts_iff_matches, ← List.append_nil u] at hua
    rw [accepts_iff_matches, ← List.append_nil v] at hva
    exact huv (h.eq_of_matches ha hu hv hua hva)

theorem readOn (ha : UniquelyDecodable a.rounds) (h : OpenRounds a w us) (c : UInt8) :
    OpenRounds a (w ++ [c]) (us.flatMap (a.readOn c)) where
  nodup := List.nodup_flatMap.2 ⟨fun u hu => nodup_readOn (h.ne_nil u hu),
    h.nodup.imp_of_mem fun hu hv huv => h.disjoint_readOn ha hu hv huv⟩
  ne_nil x hx := by
    obtain ⟨u, _, hxu⟩ := List.mem_flatMap.1 hx
    rcases mem_readOn.1 hxu with rfl | ⟨_, rfl⟩
    · exact List.concat_ne_nil c u
    · exact List.cons_ne_nil c []
  exists_rounds x hx := by
    obtain ⟨u, hu, hxu⟩ := List.mem_flatMap.1 hx
    obtain ⟨vs, hvs, rfl⟩ := h.exists_rounds u hu
    rcases mem_readOn.1 hxu with rfl | ⟨hua, rfl⟩
    · exact ⟨vs, hvs, (List.append_assoc ..).symm⟩
    · refine ⟨vs ++ [u], ?_, by simp⟩
      rw [List.forall_mem_append, List.forall_mem_singleton]
      exact ⟨hvs, h.ne_nil u hu, accepts_iff_matches.1 hua⟩

/-- Where the division into rounds is unique, the open rounds differ in what may follow. -/
theorem countP_le (ha : UniquelyDecodable a.rounds) (hn : a.Normal) (h : OpenRounds a w us) :
    (us.countP fun u => a.residual u ≠ .empty) ≤ a.finite_residualLanguages.toFinset.card := by
  classical
  rw [List.countP_eq_length_filter, ← List.toFinset_card_of_nodup (h.nodup.filter _)]
  refine Finset.card_le_card_of_injOn (fun u => (a.residual u).language) (fun u _ => ?_) ?_
  · exact (Set.Finite.mem_toFinset _).2 (a.language_mem_residualLanguages u)
  · intro u hu v hv huv
    simp only [List.coe_toFinset, Set.mem_ofPred_eq, List.mem_filter, decide_eq_true_eq] at hu hv
    obtain ⟨t, hut⟩ := (hn.residual u).exists_matches hu.2
    have huv : (a.residual u).language = (a.residual v).language := huv
    have hvt : Matches (a.residual v) t := by rwa [← mem_language, ← huv]
    exact h.eq_of_matches ha hu.1 hv.1 (matches_residual_iff.1 hut) (matches_residual_iff.1 hvt)

end OpenRounds

/-! ## A branch for each open round -/

/-- The tree `r` is put together from one branch for each of the texts `us`: what is left of a round
that has read this text, with further rounds behind. -/
inductive Spread (a : Regex) : Regex → List Bytes → Prop
  | single (u : Bytes) : Spread a ((a.residual u).append (.star a)) [u]
  | union {r s : Regex} {us vs : List Bytes} :
      Spread a r us → Spread a s vs → Spread a (r.union s) (us ++ vs)

namespace Spread

theorem derivative (hs : a.many = .star a) (h : Spread a r us) (c : UInt8) :
    Spread a (r.derivative c) (us.flatMap (a.readOn c)) := by
  induction h with
  | single u =>
      have hon : Spread a (((a.residual u).derivative c).append (.star a)) [u ++ [c]] := by
        have hread := single (a := a) (u ++ [c])
        rwa [residual_append] at hread
      have hnew : Spread a ((star a).derivative c) [[c]] := by
        rw [derivative_star hs]
        exact single [c]
      rw [derivative_append, List.flatMap_singleton, readOn, accepts]
      split
      · exact hon.union hnew
      · exact hon
  | union _ _ ihr ihs =>
      rw [derivative_union, List.flatMap_append]
      exact ihr.union ihs

theorem width_eq (h : Spread a r us) : r.width = us.countP fun u => a.residual u ≠ .empty := by
  induction h with
  | single u =>
      by_cases hu : a.residual u = .empty
      · simp [hu, width]
      · simp [hu, width_append_star hu]
  | union _ _ ihr ihs => rw [width_union, List.countP_append, ihr, ihs]

/-- Each alternation has a live branch on either side, so there are no more levels of them than
live branches. -/
theorem height_le (h : Spread a r us) (ha : ∀ u, (a.residual u).height ≤ m) :
    r.height ≤ r.width + (m + (star a).height) ∧ (r = .empty ∨ 0 < r.width) := by
  induction h with
  | single u =>
      have hu := ha u
      have hle := height_append_le (a.residual u) (.star a)
      have hpos := (star a).height_pos
      by_cases hu₀ : a.residual u = .empty
      · rw [hu₀, append_empty_left]
        exact ⟨Nat.le_add_left_of_le (Nat.le_add_left_of_le hpos), .inl rfl⟩
      · rw [width_append_star hu₀]
        exact ⟨by omega, .inr Nat.one_pos⟩
  | @union r s _ _ _ _ ihr ihs =>
      obtain ⟨hr, hr₀ | hr₀⟩ := ihr
      · rw [hr₀, union_empty_left]
        exact ihs
      obtain ⟨hs, hs₀ | hs₀⟩ := ihs
      · rw [hs₀, union_empty_right]
        exact ⟨hr, .inr hr₀⟩
      have hle := height_union_le r s
      rw [width_union]
      exact ⟨by omega, .inr (Nat.add_pos_left hr₀ _)⟩

end Spread

/-- After each text of at least one byte, the residual of a repetition has a branch for each open
round. -/
theorem exists_spread (hs : a.many = .star a) (ha : UniquelyDecodable a.rounds) (c : UInt8)
    (w : Bytes) : ∃ us, Spread a ((star a).residual (c :: w)) us ∧ OpenRounds a (c :: w) us := by
  induction w using List.reverseRecOn with
  | nil =>
      refine ⟨[[c]], ?_, .single c⟩
      rw [residual_star_cons hs]
      exact .single [c]
  | append_singleton w d ih =>
      obtain ⟨us, hus, hw⟩ := ih
      refine ⟨us.flatMap (a.readOn d), ?_, hw.readOn ha d⟩
      rw [← List.cons_append, residual_append]
      exact hus.derivative hs d

theorem height_residual_star_le (hs : a.many = .star a) (hn : a.Normal)
    (ha : UniquelyDecodable a.rounds) (hm : ∀ u, (a.residual u).height ≤ m) (w : Bytes) :
    ((star a).residual w).height ≤
      a.finite_residualLanguages.toFinset.card + (m + (star a).height) := by
  cases w with
  | nil => exact Nat.le_add_left_of_le (Nat.le_add_left _ _)
  | cons c w =>
      obtain ⟨us, hus, hw⟩ := exists_spread hs ha c w
      have hle := (hus.height_le hm).1
      have hcount := hw.countP_le ha hn
      rw [hus.width_eq] at hle
      omega

/-! ## Two divisions of one text -/

section

variable (hs : a.many = .star a)
include hs

theorem branch_residual_star (hu : u ∈ a.rounds) (hv : v ≠ []) :
    Branch ((star a).residual v) ((star a).residual (u ++ v)) := by
  obtain ⟨c, u, rfl⟩ := List.exists_cons_of_ne_nil hu.1
  rw [List.cons_append, residual_star_cons hs]
  exact branch_residual_append_of_matches (matches_derivative_iff.2 hu.2) hv

theorem branch_residual_star_flatten (hus : ∀ u ∈ us, u ∈ a.rounds) (hv : v ≠ []) :
    Branch ((star a).residual v) ((star a).residual (us.flatten ++ v)) := by
  induction us with
  | nil => exact .root
  | cons u us ih =>
      rw [List.forall_mem_cons] at hus
      rw [List.flatten_cons, List.append_assoc]
      exact (ih hus.2).trans
        (branch_residual_star hs hus.1 (List.append_ne_nil_of_right_ne_nil _ hv))

/-- Two first rounds of different length double the branches, if rounds go on behind both. -/
theorem two_mul_width_le_of_first (hu : u ∈ a.rounds) (hut : u ++ t ∈ a.rounds) (ht : t ≠ [])
    (hus : ∀ u ∈ us, u ∈ a.rounds) (hvs : ∀ v ∈ vs, v ∈ a.rounds)
    (h : us.flatten = t ++ vs.flatten) (hw : w ≠ []) :
    2 * ((star a).residual w).width ≤ ((star a).residual (u ++ (us.flatten ++ w))).width := by
  have hboth : ((star a).residual (us.flatten ++ w)).width +
      ((star a).residual (vs.flatten ++ w)).width ≤
        ((star a).residual (u ++ (us.flatten ++ w))).width := by
    obtain ⟨c, u, rfl⟩ := List.exists_cons_of_ne_nil hu.1
    rw [h, List.append_assoc, List.cons_append, residual_star_cons hs, ← List.append_assoc u]
    exact width_residual_append_of_matches (matches_derivative_iff.2 hu.2)
      (matches_derivative_iff.2 hut.2) ht (List.append_ne_nil_of_right_ne_nil _ hw)
  have hfirst := (branch_residual_star_flatten hs hus hw).width_le
  have hsecond := (branch_residual_star_flatten hs hvs hw).width_le
  omega

theorem two_mul_width_le (hus : ∀ u ∈ us, u ∈ a.rounds) (hvs : ∀ v ∈ vs, v ∈ a.rounds)
    (h : us.flatten = vs.flatten) (hne : us ≠ vs) (hw : w ≠ []) :
    2 * ((star a).residual w).width ≤ ((star a).residual (us.flatten ++ w)).width := by
  induction us generalizing vs with
  | nil =>
      obtain ⟨v, vs, rfl⟩ := List.exists_cons_of_ne_nil hne.symm
      have hv : v = [] := (List.append_eq_nil_iff.1 h.symm).1
      exact absurd hv (hvs v List.mem_cons_self).1
  | cons u us ih =>
      cases vs with
      | nil =>
          have hu : u = [] := (List.append_eq_nil_iff.1 h).1
          exact absurd hu (hus u List.mem_cons_self).1
      | cons v vs =>
          rw [List.forall_mem_cons] at hus hvs
          rw [List.flatten_cons, List.flatten_cons] at h
          rw [List.flatten_cons, List.append_assoc]
          by_cases huv : u = v
          · subst huv
            have hrest := ih hus.2 hvs.2 (List.append_cancel_left h) fun h => hne (by rw [h])
            have hround := branch_residual_star hs hus.1
              (List.append_ne_nil_of_right_ne_nil us.flatten hw)
            exact hrest.trans hround.width_le
          -- The longer of the two first rounds is the shorter one with a text `t` behind it.
          rcases List.append_eq_append_iff.1 h with ⟨t, rfl, ht⟩ | ⟨t, rfl, ht⟩
          · have ht₀ : t ≠ [] := fun h => huv (by rw [h, List.append_nil])
            exact two_mul_width_le_of_first hs hus.1 hvs.1 ht₀ hus.2 hvs.2 ht hw
          · have ht₀ : t ≠ [] := fun h => huv (by rw [h, List.append_nil])
            rw [List.append_assoc, ← List.append_assoc t, ← ht]
            exact two_mul_width_le_of_first hs hvs.1 hus.1 ht₀ hvs.2 hus.2 ht hw

end

theorem exists_two_pow_mul_width_le
    (h : ∀ v, v ≠ [] → 2 * (r.residual v).width ≤ (r.residual (u ++ v)).width)
    (hw : w ≠ []) (k : Nat) :
    ∃ v, v ≠ [] ∧ 2 ^ k * (r.residual w).width ≤ (r.residual v).width := by
  induction k with
  | zero => exact ⟨w, hw, by rw [Nat.pow_zero, Nat.one_mul]⟩
  | succ k ih =>
      obtain ⟨v, hne, hv⟩ := ih
      have hdouble := h v hne
      refine ⟨u ++ v, List.append_ne_nil_of_right_ne_nil _ hne, ?_⟩
      rw [Nat.pow_succ, Nat.mul_right_comm]
      omega

/-- If residuals of a repetition have bounded width, the division into rounds is unique. -/
theorem uniquelyDecodable_rounds (hs : a.many = .star a) (hw : w ≠ [])
    (hpos : 0 < ((star a).residual w).width) (h : ∀ v, ((star a).residual v).width ≤ m) :
    UniquelyDecodable a.rounds := by
  intro us vs hus hvs hflat
  by_contra hne
  obtain ⟨v, -, hv⟩ := exists_two_pow_mul_width_le
    (fun v hv => two_mul_width_le hs hus hvs hflat hne hv) hw m
  have hlt := Nat.lt_two_pow_self (n := m)
  have hle := Nat.le_mul_of_pos_right (2 ^ m) hpos
  have hm := h v
  omega

end ByteRegex.Regex
