import Mathlib.Order.Bounds.Basic
import ByteRegex.Journal
import ByteRegex.Proofs.Search

/-! # The offsets that a search reports

A search reports each start offset before it tries it. The reports tell where the leftmost match
begins: it is the last offset of a search that succeeds, and every offset before it has been tried
once, in order. -/

namespace ByteRegex

/-- The offset can be read off its record. -/
theorem Record.tryingOffset_injective : Function.Injective Record.tryingOffset := by
  intro m n h
  have htext : toString m = toString n :=
    (String.append_right_inj _).1 (congrArg Record.message h)
  have hdigits : Nat.toDigits 10 m = Nat.toDigits 10 n := by
    rwa [Nat.toString_eq_ofList_toDigits, Nat.toString_eq_ofList_toDigits, String.ofList_inj]
      at htext
  calc
    m = Nat.ofDigitChars 10 (Nat.toDigits 10 m) 0 := Nat.ofDigitChars_ten_toDigits.symm
    _ = Nat.ofDigitChars 10 (Nat.toDigits 10 n) 0 := by rw [hdigits]
    _ = n := Nat.ofDigitChars_ten_toDigits

namespace Regex

variable {r : Regex} {w : Bytes} {k : Nat}

/-- The positions in a text at which some part of it begins that matches. -/
def matchStarts (r : Regex) (w : Bytes) : Set Nat :=
  {i | ∃ j, i ≤ j ∧ j ≤ w.length ∧ Matches r (w.extract i j)}

theorem mem_matchStarts_iff (hn : r.nullable = false) :
    k ∈ r.matchStarts w ↔ k < w.length ∧ r.acceptsStart (w.drop k) = true :=
  exists_matches_extract_iff hn

/-- The offsets that a search is to try: none if the empty text matches, else those up to the
leftmost match, or all of them if nothing matches. -/
inductive Tries (r : Regex) (w : Bytes) : List Nat → Prop
  | nullable (hn : r.nullable = true) : Tries r w []
  | leftmost (hn : r.nullable = false) {k : Nat} (hk : IsLeast (r.matchStarts w) k) :
      Tries r w (List.range (k + 1))
  | nowhere (hn : r.nullable = false) (h : r.matchStarts w = ∅) : Tries r w (List.range w.length)

theorem tried_of_nullable (hn : r.nullable = true) : (r.search w).tried = [] := by
  rw [search, if_pos hn]
  rfl

theorem tried_of_isLeast (hn : r.nullable = false) (hk : IsLeast (r.matchStarts w) k) :
    (r.search w).tried = List.range (k + 1) := by
  obtain ⟨hlt, hmatch⟩ := (mem_matchStarts_iff hn).1 hk.1
  have hfirst : ∀ j < k, r.acceptsStart (w.drop j) = false := by
    intro j hj
    by_contra h
    have hmem := (mem_matchStarts_iff hn).2 ⟨hj.trans hlt, by simpa using h⟩
    exact Nat.not_le.2 hj (hk.2 hmem)
  rw [search, if_neg (by simp [hn]), (searchFrom_of_first 0 hlt hmatch hfirst).1,
    List.range_eq_range']

theorem tried_of_matchStarts_eq_empty (hn : r.nullable = false) (h : r.matchStarts w = ∅) :
    (r.search w).tried = List.range w.length := by
  have hnone : ∀ k < w.length, r.acceptsStart (w.drop k) = false := by
    intro k hk
    by_contra hmatch
    have hmem := (mem_matchStarts_iff hn).2 ⟨hk, by simpa using hmatch⟩
    rwa [h] at hmem
  rw [search, if_neg (by simp [hn]), (searchFrom_of_none 0 hnone).1, List.range_eq_range']

theorem Tries.eq_tried {ns : List Nat} (h : r.Tries w ns) : ns = (r.search w).tried := by
  cases h with
  | nullable hn => exact (tried_of_nullable hn).symm
  | leftmost hn hk => exact (tried_of_isLeast hn hk).symm
  | nowhere hn h => exact (tried_of_matchStarts_eq_empty hn h).symm

open Classical in
theorem exists_tries (r : Regex) (w : Bytes) : ∃ ns, r.Tries w ns := by
  cases hn : r.nullable with
  | true => exact ⟨_, .nullable hn⟩
  | false =>
      by_cases h : ∃ k, k ∈ r.matchStarts w
      · have hk : IsLeast (r.matchStarts w) (Nat.find h) :=
          ⟨Nat.find_spec h, fun _ hi => Nat.find_min' h hi⟩
        exact ⟨_, .leftmost hn hk⟩
      · exact ⟨_, .nowhere hn (Set.not_nonempty_iff_eq_empty.1 h)⟩

theorem tries_iff {ns : List Nat} : r.Tries w ns ↔ ns = (r.search w).tried := by
  refine ⟨Tries.eq_tried, ?_⟩
  rintro rfl
  obtain ⟨ns, hns⟩ := exists_tries r w
  rwa [← hns.eq_tried]

/-- **A search tries the offsets up to the leftmost match.** What it reports are the offsets it is
to try, each of them once and in order: none if the empty text matches, and otherwise all offsets
from the start of the text to the first at which a match begins, or to the end of the text. -/
theorem search_reports_tries (r : Regex) (w : Bytes) :
    (∃ ns, r.Tries w ns) ∧
      ∀ ns, r.searchRecords w = ns.map Record.tryingOffset ↔ r.Tries w ns := by
  refine ⟨exists_tries r w, fun ns => ?_⟩
  rw [searchRecords_eq_map, List.map_inj_right Record.tryingOffset_injective, tries_iff, eq_comm]

end Regex

end ByteRegex
