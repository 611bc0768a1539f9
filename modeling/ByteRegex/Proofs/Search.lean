import Mathlib.Data.Nat.Find
import Mathlib.Tactic.ByContra
import ByteRegex.Proofs.Language

/-! # Searching for a part that matches

A search finds what the language says is there. The walk from one start offset looks for a match of
at least one byte, and the search itself answers for the empty text before any walk begins. A walk
may stop at an empty residual because an empty expression has only empty derivatives, so that no
later byte could complete a match. -/

namespace ByteRegex.Regex

variable {r : Regex} {c : UInt8} {w : Bytes}

/-! ## One start offset -/

/-- A beginning of at least one byte is the first byte with a beginning of the rest, which may be
empty. -/
theorem exists_take_succ_matches_cons :
    (∃ n, n < (c :: w).length ∧ Matches r ((c :: w).take (n + 1))) ↔
      Matches (r.derivative c) [] ∨
        ∃ n, n < w.length ∧ Matches (r.derivative c) (w.take (n + 1)) := by
  simp only [matches_derivative_iff, List.take_succ_cons, List.length_cons]
  constructor
  · rintro ⟨n, hn, h⟩
    cases n with
    | zero => exact .inl h
    | succ n => exact .inr ⟨n, Nat.lt_of_succ_lt_succ hn, h⟩
  · rintro (h | ⟨n, hn, h⟩)
    · exact ⟨0, Nat.succ_pos _, h⟩
    · exact ⟨n + 1, Nat.succ_lt_succ hn, h⟩

theorem acceptsStart_iff_matches :
    r.acceptsStart w = true ↔ ∃ n, n < w.length ∧ Matches r (w.take (n + 1)) := by
  induction r, w using walk_induction with
  | exhausted r => simp [acceptsStart, walk]
  | matched r c w hn =>
      rw [exists_take_succ_matches_cons, ← nullable_iff_matches_nil, acceptsStart_iff]
      simp [walk_of_nullable hn, hn]
  -- The early exit: the walk would go on without end and without success.
  | dead r c w he =>
      rw [exists_take_succ_matches_cons, acceptsStart_iff]
      simp [walk_of_empty he, he, not_matches_empty]
  | alive r c w hn he ih =>
      rw [exists_take_succ_matches_cons, ← nullable_iff_matches_nil, ← ih, acceptsStart_iff]
      simp [walk_of_alive hn he, hn, Walk.later, acceptsStart_iff]

/-! ## All start offsets -/

/-- A search that finds a match has tried the offsets up to the first at which one starts. -/
theorem searchFrom_of_first (start : Nat) {k : Nat} (hk : k < w.length)
    (hmatch : r.acceptsStart (w.drop k) = true)
    (hfirst : ∀ j < k, r.acceptsStart (w.drop j) = false) :
    (r.searchFrom start w).tried = List.range' start (k + 1) ∧
      (r.searchFrom start w).found = true := by
  induction w generalizing start k with
  | nil => exact absurd hk (Nat.not_lt_zero k)
  | cons c w ih =>
      cases k with
      | zero =>
          rw [List.drop_zero] at hmatch
          rw [searchFrom_cons_of_match start hmatch]
          exact ⟨rfl, rfl⟩
      | succ k =>
          have h0 : r.acceptsStart (c :: w) = false := hfirst 0 (Nat.succ_pos k)
          obtain ⟨htried, hfound⟩ := ih (start + 1) (Nat.lt_of_succ_lt_succ hk) hmatch fun j hj =>
            hfirst (j + 1) (Nat.succ_lt_succ hj)
          rw [searchFrom_cons_of_no_match start h0]
          refine ⟨?_, hfound⟩
          rw [List.range'_succ, ← htried]
          rfl

/-- A search that finds nothing has tried every offset. -/
theorem searchFrom_of_none (start : Nat)
    (h : ∀ k < w.length, r.acceptsStart (w.drop k) = false) :
    (r.searchFrom start w).tried = List.range' start w.length ∧
      (r.searchFrom start w).found = false := by
  induction w generalizing start with
  | nil => exact ⟨rfl, rfl⟩
  | cons c w ih =>
      have h0 : r.acceptsStart (c :: w) = false := h 0 (Nat.succ_pos _)
      obtain ⟨htried, hfound⟩ := ih (start + 1) fun k hk => h (k + 1) (Nat.succ_lt_succ hk)
      rw [searchFrom_cons_of_no_match start h0]
      refine ⟨?_, hfound⟩
      rw [List.length_cons, List.range'_succ, ← htried]
      rfl

theorem searchFrom_found_iff (start : Nat) :
    (r.searchFrom start w).found = true ↔
      ∃ k, k < w.length ∧ r.acceptsStart (w.drop k) = true := by
  by_cases h : ∃ k, k < w.length ∧ r.acceptsStart (w.drop k) = true
  · obtain ⟨hk, hmatch⟩ := Nat.find_spec h
    have hfirst : ∀ j < Nat.find h, r.acceptsStart (w.drop j) = false := by
      intro j hj
      have hnot := Nat.find_min h hj
      simpa [Nat.lt_trans hj hk] using hnot
    simp only [(searchFrom_of_first start hk hmatch hfirst).2, h]
  · have hnone : ∀ k < w.length, r.acceptsStart (w.drop k) = false := fun k hk => by
      simpa [hk] using fun hm => h ⟨k, hk, hm⟩
    simp [(searchFrom_of_none start hnone).2, h]

/-- A search keeps the walk from each offset that it has tried. -/
theorem exists_walk_of_mem_searchFrom (start : Nat) {a : Attempt}
    (ha : a ∈ (r.searchFrom start w).attempts) :
    ∃ k, a.offset = start + k ∧ a.walk = r.walk (w.drop k) := by
  induction w generalizing start with
  | nil => cases ha
  | cons c w ih =>
      cases h : r.acceptsStart (c :: w) with
      | true =>
          rw [searchFrom_cons_of_match start h, List.mem_singleton] at ha
          subst ha
          exact ⟨0, rfl, rfl⟩
      | false =>
          rw [searchFrom_cons_of_no_match start h, List.mem_cons] at ha
          rcases ha with rfl | ha
          · exact ⟨0, rfl, rfl⟩
          · obtain ⟨k, hoffset, hwalk⟩ := ih (start + 1) ha
            exact ⟨k + 1, by omega, hwalk⟩

theorem walk_of_mem_search {a : Attempt} (ha : a ∈ (r.search w).attempts) :
    a.walk = r.walk (w.drop a.offset) := by
  unfold search at ha
  split at ha
  · cases ha
  · obtain ⟨k, hoffset, hwalk⟩ := exists_walk_of_mem_searchFrom 0 ha
    rw [hoffset, Nat.zero_add, hwalk]

theorem occursIn_of_nullable (h : r.nullable = true) (w : Bytes) : r.occursIn w = true := by
  simp [occursIn, search, h]

theorem occursIn_of_not_nullable (h : r.nullable = false) (w : Bytes) :
    r.occursIn w = true ↔ ∃ k, k < w.length ∧ r.acceptsStart (w.drop k) = true := by
  simp [occursIn, search, h, searchFrom_found_iff]

/-- Where the empty text does not match, a match is found by the walk from its start. -/
theorem exists_matches_extract_iff (hn : r.nullable = false) {i : Nat} :
    (∃ j, i ≤ j ∧ j ≤ w.length ∧ Matches r (w.extract i j)) ↔
      i < w.length ∧ r.acceptsStart (w.drop i) = true := by
  constructor
  · rintro ⟨j, hij, hj, hm⟩
    -- A match of no bytes would make the expression nullable.
    have hlt : i < j := by
      by_contra hle
      rw [List.extract, Nat.sub_eq_zero_of_le (Nat.not_lt.1 hle), List.take_zero,
        ← nullable_iff_matches_nil, hn] at hm
      cases hm
    refine ⟨by omega, acceptsStart_iff_matches.2 ⟨j - i - 1, ?_, ?_⟩⟩
    · rw [List.length_drop]
      omega
    · rwa [Nat.sub_add_cancel (by omega)]
  · rintro ⟨hi, h⟩
    obtain ⟨n, hlt, hm⟩ := acceptsStart_iff_matches.1 h
    rw [List.length_drop] at hlt
    refine ⟨i + (n + 1), by omega, by omega, ?_⟩
    rwa [List.extract, Nat.add_sub_cancel_left]

theorem occursIn_iff_matches :
    r.occursIn w = true ↔ ∃ i j, i ≤ j ∧ j ≤ w.length ∧ Matches r (w.extract i j) := by
  by_cases hn : r.nullable = true
  · refine iff_of_true (occursIn_of_nullable hn w) ⟨0, 0, Nat.le_refl 0, Nat.zero_le _, ?_⟩
    simpa using (nullable_iff_matches_nil r).1 hn
  · have hn := Bool.eq_false_iff.2 hn
    simp only [occursIn_of_not_nullable hn, exists_matches_extract_iff hn]

/-- Two expressions with one language occur in the same texts. -/
theorem SameLanguage.occursIn_eq {a b : Regex} (h : SameLanguage a b) (w : Bytes) :
    a.occursIn w = b.occursIn w := by
  rw [Bool.eq_iff_iff, occursIn_iff_matches, occursIn_iff_matches]
  simp only [h _]

/-- **A search decides whether some part of the text matches.** The part may be empty, and it may
lie anywhere in the text. From each start offset, the walk with its early exit finds just the
nonempty beginnings that are accepted. -/
theorem occursIn_decides_part (r : Regex) (w : Bytes) :
    (r.occursIn w = true ↔ ∃ i j, i ≤ j ∧ j ≤ w.length ∧ Matches r (w.extract i j)) ∧
      (r.occursIn w = true ↔
        ∃ i j, i ≤ j ∧ j ≤ w.length ∧ r.accepts (w.extract i j) = true) ∧
      (r.acceptsStart w = true ↔ ∃ n, n < w.length ∧ r.accepts (w.take (n + 1)) = true) := by
  simp only [accepts_iff_matches]
  exact ⟨occursIn_iff_matches, occursIn_iff_matches, acceptsStart_iff_matches⟩

end ByteRegex.Regex
