import Mathlib.Data.Finset.Dedup
import Mathlib.Data.Finset.Lattice.Lemmas
import ByteRegex.Pattern.Basic
import ByteRegex.Proofs.Parse

/-! # Classes are finite sets of bytes

Four words of 64 bits stand for a set of bytes, and no other class stands for the same set.
Inserting a byte into the class inserts it into the set, from which follows what a class answers
after any bytes have been inserted. A class in a pattern is read by inserting its members, so that
only the set of them counts. -/

namespace ByteRegex.ByteClass

variable {s t : ByteClass} {A : Finset UInt8} {b : UInt8}

/-- Whatever a class is asked, it answers for the bytes in `A`. -/
structure StandsFor (s : ByteClass) (A : Finset UInt8) : Prop where
  contains_iff (b : UInt8) : s.contains b = true ↔ b ∈ A
  mem_toList_iff (b : UInt8) : b ∈ s.toList ↔ b ∈ A
  pairwise_toList : s.toList.Pairwise (· < ·)
  size_eq : s.size = s.toList.length
  isEmpty_iff : s.isEmpty = true ↔ A = ∅

/-- The bytes that a class contains settle its other answers. -/
theorem standsFor_of_contains (h : ∀ b, s.contains b = true ↔ b ∈ A) : s.StandsFor A where
  contains_iff := h
  mem_toList_iff b := mem_toList.trans (h b)
  pairwise_toList := s.pairwise_lt_toList
  size_eq := s.size_eq_length_toList
  isEmpty_iff := by
    rw [isEmpty_iff, Finset.eq_empty_iff_forall_notMem]
    constructor
    · rintro rfl b hb
      rw [← h, contains_empty] at hb
      cases hb
    · intro hA
      refine ext_contains fun b => ?_
      rw [contains_empty, Bool.eq_false_iff]
      exact fun hb => hA b ((h b).1 hb)

theorem standsFor_empty : empty.StandsFor ∅ := standsFor_of_contains (by simp)

/-- One insertion: whether the byte was new, and what the class stands for behind it. -/
theorem StandsFor.insertNew (h : s.StandsFor A) (b : UInt8) :
    (s.insertNew b).1 = decide (b ∉ A) ∧ (s.insertNew b).2.StandsFor (Insert.insert b A) := by
  constructor
  · have hb : s.contains b = decide (b ∈ A) := by
      rw [Bool.eq_iff_iff, h.contains_iff, decide_eq_true_eq]
    rw [insertNew_fst, hb, decide_not]
  · refine standsFor_of_contains fun c => ?_
    rw [insertNew_snd, contains_insert, Bool.or_eq_true, beq_iff_eq, h.contains_iff,
      Finset.mem_insert]

/-- Many insertions: a byte is new if neither the class nor the bytes in front of it have it. -/
theorem StandsFor.insertEach (h : s.StandsFor A) (bs : Bytes) :
    (∀ i, (s.insertEach bs).1[i]? = bs[i]?.map fun b => decide (b ∉ A ∧ b ∉ bs.take i)) ∧
      (s.insertEach bs).2.StandsFor (A ∪ bs.toFinset) := by
  induction bs generalizing s A with
  | nil => exact ⟨fun i => rfl, by simpa using h⟩
  | cons b bs ih =>
      obtain ⟨hb, hs⟩ := h.insertNew b
      obtain ⟨hnews, ht⟩ := ih hs
      constructor
      · intro i
        cases i with
        | zero => simp [hb]
        | succ i =>
            rw [insertEach_cons, List.getElem?_cons_succ, List.getElem?_cons_succ]
            refine (hnews i).trans ?_
            simp only [List.take_succ_cons, List.mem_cons, Finset.mem_insert, not_or, and_assoc,
              and_left_comm]
      · rw [List.toFinset_cons, Finset.union_insert, ← Finset.insert_union]
        exact ht

theorem standsFor_insertEach (bs : Bytes) : (empty.insertEach bs).2.StandsFor bs.toFinset := by
  rw [← Finset.empty_union bs.toFinset]
  exact (standsFor_empty.insertEach bs).2

/-- A set has one class that stands for it. -/
theorem StandsFor.eq_iff {B : Finset UInt8} (hs : s.StandsFor A) (ht : t.StandsFor B) :
    s = t ↔ A = B := by
  constructor
  · rintro rfl
    ext b
    rw [← hs.contains_iff, ht.contains_iff]
  · rintro rfl
    exact ext_contains fun b => Bool.eq_iff_iff.2 ((hs.contains_iff b).trans (ht.contains_iff b).symm)

theorem insertEach_eq_iff (bs bs' : Bytes) :
    (empty.insertEach bs).2 = (empty.insertEach bs').2 ↔ ∀ b, b ∈ bs ↔ b ∈ bs' := by
  rw [(standsFor_insertEach bs).eq_iff (standsFor_insertEach bs'), Finset.ext_iff]
  simp only [List.mem_toFinset]

theorem toList_injective : Function.Injective toList := by
  intro s t h
  refine ext_contains fun b => Bool.eq_iff_iff.2 ?_
  rw [← mem_toList, ← mem_toList, h]

theorem ofClass_injective : Function.Injective Regex.ofClass := by
  intro s t h
  unfold Regex.ofClass at h
  split at h
  · next hs =>
      split at h
      · next ht => exact toList_injective (hs.trans ht.symm)
      · cases h
      · cases h
  · next b hs =>
      split at h
      · cases h
      · next c ht =>
          cases h
          exact toList_injective (hs.trans ht.symm)
      · cases h
  · split at h
    · cases h
    · cases h
    · cases h
      rfl

end ByteRegex.ByteClass

/-! ## Classes in patterns -/

namespace ByteRegex.Grammar

variable {ms ms' : List Member}

theorem classOf_eq (ms : List Member) :
    classOf ms = (ByteClass.empty.insertEach (ms.map Member.byte)).2 :=
  (ByteClass.insertEach_snd ..).symm

theorem ofClass_classOf_eq_iff (ms ms' : List Member) :
    Regex.ofClass (classOf ms) = .ofClass (classOf ms') ↔
      ∀ b, b ∈ ms.map Member.byte ↔ b ∈ ms'.map Member.byte := by
  rw [ByteClass.ofClass_injective.eq_iff, classOf_eq, classOf_eq, ByteClass.insertEach_eq_iff]

/-- A class that lists some members is read as `r`, whatever stands behind its bracket. -/
def ReadAs (ms : List Member) (r : Regex) : Prop :=
  ∀ rest, ∃ h, Phrase.atom ((Atom.oneOf ms).text ++ rest) = .ok ⟨r, rest, h⟩

theorem readAs_iff {r : Regex} : ReadAs ms r ↔ r = .ofClass (classOf ms) := by
  constructor
  · intro h
    obtain ⟨_, hr⟩ := h []
    obtain ⟨_, hc⟩ := Phrase.atom_text (.oneOf ms) (rfl : (Atom.oneOf ms).text ++ [] = _)
    rw [hr] at hc
    cases hc
    rfl
  · rintro rfl rest
    exact Phrase.atom_text (.oneOf ms) rfl

theorem exists_compile_class (ms : List Member) :
    ∃ p, Pattern.compile (Atom.oneOf ms).text = .ok p ∧ p.regex = .ofClass (classOf ms) := by
  have h := Regex.parse_text (.single (.snoc .nothing (.single (.oneOf ms))))
  rw [Alternation.value, Branch.value, Branch.value, Regex.append_epsilon_left] at h
  exact ⟨_, Pattern.compile_eq_ok h, rfl⟩

end ByteRegex.Grammar

namespace ByteRegex.ByteClass

open Grammar

/-- **A class is a finite set of bytes.** After any insertions it stands for the set of the bytes
inserted, and each insertion has told whether its byte was new. Two of these classes are equal
exactly if the same bytes have been inserted, and every class is one of them. So a class in a
pattern is read, and compiled, to the same expression as another one exactly if both list the same
members, in whatever order, how often and with whatever escapes. -/
theorem class_implements_set :
    (∀ bs : Bytes,
      (∀ i, (empty.insertEach bs).1[i]? = bs[i]?.map fun b => decide (b ∉ bs.take i)) ∧
        (empty.insertEach bs).2.StandsFor bs.toFinset) ∧
      (∀ bs bs' : Bytes, (empty.insertEach bs).2 = (empty.insertEach bs').2 ↔
        ∀ b, b ∈ bs ↔ b ∈ bs') ∧
      (∀ s : ByteClass, (empty.insertEach s.toList).2 = s) ∧
      ∀ ms ms' : List Member,
        (∃ p p', Pattern.compile (Atom.oneOf ms).text = .ok p ∧
          Pattern.compile (Atom.oneOf ms').text = .ok p' ∧ p.regex = p'.regex ∧
          ReadAs ms p.regex ∧ ReadAs ms' p'.regex) ↔
        ∀ b, b ∈ ms.map Member.byte ↔ b ∈ ms'.map Member.byte := by
  refine ⟨fun bs => ⟨?_, standsFor_insertEach bs⟩, insertEach_eq_iff, fun s => ?_, fun ms ms' => ?_⟩
  · simpa using (standsFor_empty.insertEach bs).1
  · refine ext_contains fun b => Bool.eq_iff_iff.2 ?_
    rw [(standsFor_insertEach s.toList).contains_iff, List.mem_toFinset, mem_toList]
  · obtain ⟨p, hp, hr⟩ := exists_compile_class ms
    obtain ⟨p', hp', hr'⟩ := exists_compile_class ms'
    rw [← ofClass_classOf_eq_iff, ← hr, ← hr']
    constructor
    · rintro ⟨q, q', hq, hq', heq, _⟩
      obtain rfl := Except.ok.inj (hq.symm.trans hp)
      obtain rfl := Except.ok.inj (hq'.symm.trans hp')
      exact heq
    · exact fun heq => ⟨p, p', hp, hp', heq, readAs_iff.2 hr, readAs_iff.2 hr'⟩

end ByteRegex.ByteClass
