import Mathlib.Order.Bounds.Basic
import ByteRegex.Proofs.Normal
import ByteRegex.Proofs.Search

/-! # Dead residuals

In a normal tree, what matches nothing and what matches only the empty text are told by a look at
the root: any other normal tree matches some text of at least one byte. Residuals of compiled
patterns are normal. So the residual is plainly empty as soon as no continuation of the text can
match, and the walk from a start offset, which looks at the root only, ends with the first byte
that rules every match out. -/

namespace ByteRegex.Regex

variable {r : Regex} {c : UInt8} {w : Bytes} {n : Nat}

/-! ## Languages of normal trees -/

theorem Normal.exists_matches_cons (h : r.Normal) (h₀ : r ≠ .empty) (h₁ : r ≠ .epsilon) :
    ∃ c w, Matches r (c :: w) := by
  induction r with
  | empty => exact absurd rfl h₀
  | epsilon => exact absurd rfl h₁
  | literal b => exact ⟨b, [], .literal b⟩
  | oneOf s =>
      obtain ⟨b, hb⟩ := List.exists_mem_of_length_pos (Nat.lt_of_lt_of_le Nat.two_pos h)
      exact ⟨b, [], .oneOf (ByteClass.mem_toList.1 hb)⟩
  | alt a b iha ihb =>
      obtain ⟨ha₀, hb₀, hab, ha, hb⟩ := h
      by_cases ha₁ : a = .epsilon
      · obtain ⟨c, w, hw⟩ := ihb hb hb₀ fun hb₁ => hab ⟨ha₁, hb₁⟩
        exact ⟨c, w, .altRight hw⟩
      · obtain ⟨c, w, hw⟩ := iha ha ha₀ ha₁
        exact ⟨c, w, .altLeft hw⟩
  | concat a b iha ihb =>
      obtain ⟨ha₀, ha₁, hb₀, hb₁, ha, hb⟩ := h
      obtain ⟨c, u, hu⟩ := iha ha ha₀ ha₁
      obtain ⟨d, v, hv⟩ := ihb hb hb₀ hb₁
      exact ⟨c, u ++ d :: v, .concat hu hv⟩
  | star a ih =>
      obtain ⟨ha₀, ha₁, _, ha⟩ := h
      obtain ⟨c, w, hw⟩ := ih ha ha₀ ha₁
      exact ⟨c, w, hw.star_single⟩

theorem Normal.exists_matches (h : r.Normal) (h₀ : r ≠ .empty) : ∃ w, Matches r w := by
  by_cases h₁ : r = .epsilon
  · exact ⟨[], h₁ ▸ .epsilon⟩
  · obtain ⟨c, w, hw⟩ := h.exists_matches_cons h₀ h₁
    exact ⟨c :: w, hw⟩

theorem Normal.eq_empty_iff (h : r.Normal) : r = .empty ↔ ∀ w, ¬ Matches r w := by
  constructor
  · rintro rfl _
    exact not_matches_empty
  · intro hr
    by_contra h₀
    obtain ⟨w, hw⟩ := h.exists_matches h₀
    exact hr w hw

theorem Normal.eq_epsilon_iff (h : r.Normal) : r = .epsilon ↔ ∀ w, Matches r w ↔ w = [] := by
  constructor
  · rintro rfl _
    exact matches_epsilon_iff
  · intro hr
    by_contra h₁
    have h₀ : r ≠ .empty := by
      rintro rfl
      exact not_matches_empty ((hr []).2 rfl)
    obtain ⟨c, w, hw⟩ := h.exists_matches_cons h₀ h₁
    cases (hr (c :: w)).1 hw

/-! ## Dead texts -/

/-- No continuation of the text is accepted. -/
def Dead (r : Regex) (w : Bytes) : Prop := ∀ v, r.accepts (w ++ v) = false

theorem Normal.residual_eq_empty_iff (h : r.Normal) : r.residual w = .empty ↔ r.Dead w := by
  rw [(h.residual w).eq_empty_iff]
  simp only [Dead, Bool.eq_false_iff, ne_eq, accepts_iff_matches, matches_residual_iff]

theorem Normal.residual_eq_epsilon_iff (h : r.Normal) :
    r.residual w = .epsilon ↔ ∀ v, r.accepts (w ++ v) = true ↔ v = [] := by
  rw [(h.residual w).eq_epsilon_iff]
  simp only [accepts_iff_matches, matches_residual_iff]

theorem Normal.derivative_eq_empty_iff (h : r.Normal) : r.derivative c = .empty ↔ r.Dead [c] :=
  h.residual_eq_empty_iff (w := [c])

/-! ## The first length with a property -/

/-- The lengths, of at least one byte, at which the beginning of a text has a property. -/
def lengths (P : Bytes → Prop) (w : Bytes) : Set Nat := {n | 0 < n ∧ n ≤ w.length ∧ P (w.take n)}

section

variable {P : Bytes → Prop}

theorem not_isLeast_lengths_nil : ¬ IsLeast (lengths P []) n := fun h =>
  Nat.lt_irrefl 0 (Nat.lt_of_lt_of_le h.1.1 h.1.2.1)

theorem not_isLeast_lengths_zero : ¬ IsLeast (lengths P w) 0 := fun h => Nat.lt_irrefl 0 h.1.1

theorem isLeast_lengths_one (hc : P [c]) : IsLeast (lengths P (c :: w)) 1 :=
  ⟨⟨Nat.one_pos, Nat.le_add_left 1 w.length, hc⟩, fun _ hm => hm.1⟩

theorem succ_mem_lengths_cons (hc : ¬ P [c]) :
    n + 1 ∈ lengths P (c :: w) ↔ n ∈ lengths (fun u => P (c :: u)) w := by
  cases n with
  | zero => simp [hc, lengths]
  | succ n => simp [lengths]

theorem isLeast_lengths_cons (hc : ¬ P [c]) :
    IsLeast (lengths P (c :: w)) (n + 1) ↔ IsLeast (lengths (fun u => P (c :: u)) w) n := by
  constructor
  · rintro ⟨hn, hle⟩
    refine ⟨(succ_mem_lengths_cons hc).1 hn, fun m hm => ?_⟩
    exact Nat.le_of_succ_le_succ (hle ((succ_mem_lengths_cons hc).2 hm))
  · rintro ⟨hn, hle⟩
    refine ⟨(succ_mem_lengths_cons hc).2 hn, fun m hm => ?_⟩
    obtain ⟨m, rfl⟩ := Nat.exists_eq_add_one.2 hm.1
    exact Nat.succ_le_succ (hle ((succ_mem_lengths_cons hc).1 hm))

end

/-! ## Where a walk ends -/

/-- A walk finds a match with the first byte that completes one. -/
theorem walk_eq_matched_iff :
    r.walk w = ⟨n, .matched⟩ ↔ IsLeast (lengths (fun u => r.accepts u = true) w) n := by
  induction r, w using walk_induction generalizing n with
  | exhausted r => simp [walk, not_isLeast_lengths_nil]
  | matched r c w hn =>
      have hone : IsLeast (lengths (fun u => r.accepts u = true) (c :: w)) 1 :=
        isLeast_lengths_one hn
      simp [walk_of_nullable hn, hone.isLeast_iff_eq]
  -- The early exit: nothing is accepted behind it.
  | dead r c w he =>
      have hnone : ¬ IsLeast (lengths (fun u => r.accepts u = true) (c :: w)) n := by
        rintro ⟨⟨hpos, _, haccepts⟩, _⟩
        obtain ⟨n, rfl⟩ := Nat.exists_eq_add_one.2 hpos
        rw [List.take_succ_cons, accepts_cons, he, accepts_iff_matches] at haccepts
        exact not_matches_empty haccepts
      simp [walk_of_empty he, hnone]
  | alive r c w hn he ih =>
      rw [walk_of_alive hn he]
      cases n with
      | zero => simp [Walk.later_ne_zero, not_isLeast_lengths_zero]
      | succ n =>
          rw [Walk.later_eq_iff, isLeast_lengths_cons hn, ih]
          rfl

theorem stop_ne_matched_iff :
    (r.walk w).stop ≠ .matched ↔ ∀ m, 0 < m → m ≤ w.length → r.accepts (w.take m) = false := by
  rw [ne_eq, ← acceptsStart_iff, acceptsStart_iff_matches]
  constructor
  · intro h m hpos hle
    obtain ⟨m, rfl⟩ := Nat.exists_eq_add_one.2 hpos
    exact Bool.eq_false_iff.2 fun ha => h ⟨m, hle, accepts_iff_matches.1 ha⟩
  · rintro h ⟨m, hlt, hm⟩
    have haccepts := h (m + 1) (Nat.succ_pos m) hlt
    rw [accepts_iff_matches.2 hm] at haccepts
    cases haccepts

/-- A walk that finds no match ends early, with the first dead byte, if there is one. -/
theorem Normal.walk_eq_dead_iff (h : r.Normal) :
    r.walk w = ⟨n, .dead⟩ ↔ (r.walk w).stop ≠ .matched ∧ IsLeast (lengths r.Dead w) n := by
  induction r, w using walk_induction generalizing n with
  | exhausted r => simp [walk, not_isLeast_lengths_nil]
  | matched r c w hn => simp [walk_of_nullable hn]
  | dead r c w he =>
      have hone : IsLeast (lengths r.Dead (c :: w)) 1 :=
        isLeast_lengths_one (h.derivative_eq_empty_iff.1 he)
      simp [walk_of_empty he, hone.isLeast_iff_eq]
  | alive r c w hn he ih =>
      have hc : ¬ r.Dead [c] := fun hc => he (h.derivative_eq_empty_iff.2 hc)
      rw [walk_of_alive hn he]
      cases n with
      | zero => simp [Walk.later_ne_zero, not_isLeast_lengths_zero]
      | succ n =>
          rw [Walk.later_eq_iff, isLeast_lengths_cons hc, ih (h.derivative c)]
          rfl

/-- A walk that is not cut short reads the whole text. -/
theorem eq_length_of_walk_eq_exhausted (hw : r.walk w = ⟨n, .exhausted⟩) : n = w.length := by
  induction r, w using walk_induction generalizing n with
  | exhausted r => exact (congrArg Walk.read hw).symm
  | matched r c w hn =>
      rw [walk_of_nullable hn] at hw
      cases hw
  | dead r c w he =>
      rw [walk_of_empty he] at hw
      cases hw
  | alive r c w hn he ih =>
      rw [walk_of_alive hn he] at hw
      cases n with
      | zero => exact absurd hw Walk.later_ne_zero
      | succ n => exact congrArg Nat.succ (ih (Walk.later_eq_iff.1 hw))

/-- **Dead residuals are recognised by their root.** Of a compiled pattern, the residual after a
text is `empty` exactly if no continuation of the text is accepted, and `epsilon` exactly if the
empty continuation is the only one that is. The walks that a search makes from its start offsets
therefore end at the first byte that completes a match, or else at the first byte after which no
match can be completed, or else at the end of the text. The pattern itself is `empty` exactly if no
text is accepted. -/
theorem residual_recognises_dead (p : Pattern) :
    (∀ w, p.regex.residual w = .empty ↔ ∀ v, p.regex.accepts (w ++ v) = false) ∧
      (∀ w, p.regex.residual w = .epsilon ↔ ∀ v, p.regex.accepts (w ++ v) = true ↔ v = []) ∧
      (∀ w, ∀ a ∈ (p.regex.search w).attempts, a.walk = p.regex.walk (w.drop a.offset)) ∧
      (∀ w n, p.regex.walk w = ⟨n, .matched⟩ ↔
        IsLeast {m | 0 < m ∧ m ≤ w.length ∧ p.regex.accepts (w.take m) = true} n) ∧
      (∀ w n, p.regex.walk w = ⟨n, .dead⟩ ↔
        (∀ m, 0 < m → m ≤ w.length → p.regex.accepts (w.take m) = false) ∧
          IsLeast {m | 0 < m ∧ m ≤ w.length ∧ ∀ v, p.regex.accepts (w.take m ++ v) = false} n) ∧
      (∀ w n, p.regex.walk w = ⟨n, .exhausted⟩ → n = w.length) ∧
      (p.regex = .empty ↔ ∀ w, p.regex.accepts w = false) := by
  have h := p.normal_regex
  refine ⟨fun w => h.residual_eq_empty_iff, fun w => h.residual_eq_epsilon_iff,
    fun w a => walk_of_mem_search, fun w n => walk_eq_matched_iff, fun w n => ?_,
    fun w n => eq_length_of_walk_eq_exhausted, h.residual_eq_empty_iff (w := [])⟩
  rw [h.walk_eq_dead_iff, stop_ne_matched_iff]
  rfl

end ByteRegex.Regex
