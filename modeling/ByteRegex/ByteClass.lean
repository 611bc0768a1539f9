import ByteRegex.Bytes

/-! # Classes of bytes

A class is a set of bytes held as four words of 64 bits: byte `b` is bit `b % 64` of word `b / 64`.
The view of a class is `contains`; `toList`, `size` and `isEmpty` read the same bits in three
ways. -/

namespace ByteRegex

structure ByteClass where
  words : Vector UInt64 4
deriving DecidableEq

namespace ByteClass

def empty : ByteClass := ⟨.replicate 4 0⟩

/-- Which of the words holds the bit of `b`. -/
def index (b : UInt8) : Fin 4 := ⟨b.toNat / 64, Nat.div_lt_of_lt_mul b.toNat_lt⟩

/-- The word that holds the bit of `b`. -/
def word (s : ByteClass) (b : UInt8) : UInt64 := s.words[index b]

/-- The bit of `b` within its word. -/
def mask (b : UInt8) : UInt64 := 1 <<< (b.toUInt64 % 64)

def contains (s : ByteClass) (b : UInt8) : Bool := s.word b &&& mask b != 0

def insert (s : ByteClass) (b : UInt8) : ByteClass :=
  ⟨s.words.set (index b) (s.word b ||| mask b)⟩

/-- Insert a byte and tell whether it is new to the class. -/
def insertNew (s : ByteClass) (b : UInt8) : Bool × ByteClass :=
  (s.word b &&& mask b == 0, s.insert b)

/-- Insert bytes one after the other and tell of each whether it was new. -/
def insertEach (s : ByteClass) : Bytes → List Bool × ByteClass
  | [] => ([], s)
  | b :: bs =>
      let (new, s) := s.insertNew b
      let (news, s) := s.insertEach bs
      (new :: news, s)

def ofList (bs : Bytes) : ByteClass := bs.foldl insert empty

/-- The members in ascending order. -/
def toList (s : ByteClass) : Bytes := ((List.range 256).map UInt8.ofNat).filter s.contains

/-- The number of bits set in a word. -/
def bitCount (w : UInt64) : Nat := (List.range 64).countP w.toNat.testBit

def size (s : ByteClass) : Nat := s.words.toList.foldr (fun w n => bitCount w + n) 0

def isEmpty (s : ByteClass) : Bool := s.words.all (· == 0)

/-- The members as decimal numbers on one line, in braces. -/
def toLine (s : ByteClass) : String :=
  "\x7b" ++ ", ".intercalate (s.toList.map fun b => toString b.toNat) ++ "\x7d"

/-- The members as decimal numbers on lines of their own, in braces. -/
def toLines (s : ByteClass) : String :=
  let members := s.toList.map fun b => "    " ++ toString b.toNat ++ ",\n"
  if members.isEmpty then "\x7b\x7d" else "\x7b\n" ++ String.join members ++ "\x7d"

@[simp] theorem ofList_nil : ofList [] = empty := rfl

@[simp] theorem insertEach_nil (s : ByteClass) : s.insertEach [] = ([], s) := rfl

@[simp] theorem insertEach_cons (s : ByteClass) (b : UInt8) (bs : Bytes) :
    s.insertEach (b :: bs) = ((s.insertNew b).1 :: ((s.insert b).insertEach bs).1,
      ((s.insert b).insertEach bs).2) := rfl

theorem insertEach_snd (s : ByteClass) (bs : Bytes) : (s.insertEach bs).2 = bs.foldl insert s := by
  induction bs generalizing s with
  | nil => rfl
  | cons b bs ih => exact ih (s.insert b)

theorem testBit_mask (b : UInt8) (i : Nat) :
    (mask b).toNat.testBit i = decide (b.toNat % 64 = i) := by
  have h : 2 ^ (b.toNat % 64) < 2 ^ 64 :=
    Nat.pow_lt_pow_right (by decide) (Nat.mod_lt _ (by decide))
  simp only [mask, UInt64.toNat_shiftLeft, UInt64.toNat_mod, UInt8.toNat_toUInt64,
    UInt64.reduceToNat, Nat.shiftLeft_eq, Nat.one_mul, Nat.mod_mod, Nat.mod_eq_of_lt h,
    Nat.testBit_two_pow]

theorem and_mask_ne_zero (w : UInt64) (b : UInt8) :
    (w &&& mask b != 0) = w.toNat.testBit (b.toNat % 64) := by
  rw [Bool.eq_iff_iff, bne_iff_ne, ne_eq, ← UInt64.toNat_inj, UInt64.toNat_and]
  constructor
  · intro h
    obtain ⟨i, hi⟩ := Nat.exists_testBit_of_ne_zero h
    simp only [Nat.testBit_and, testBit_mask, Bool.and_eq_true, decide_eq_true_eq] at hi
    exact hi.2 ▸ hi.1
  · intro h h0
    have := congrArg (fun n => n.testBit (b.toNat % 64)) h0
    simp [h, testBit_mask] at this

theorem contains_eq_testBit (s : ByteClass) (b : UInt8) :
    s.contains b = (s.word b).toNat.testBit (b.toNat % 64) := and_mask_ne_zero ..

@[simp] theorem contains_empty (b : UInt8) : empty.contains b = false := by
  simp [contains, word, empty]

@[simp] theorem contains_insert (s : ByteClass) (b c : UInt8) :
    (s.insert b).contains c = (c == b || s.contains c) := by
  have hbc : c = b ↔ b.toNat / 64 = c.toNat / 64 ∧ b.toNat % 64 = c.toNat % 64 := by
    rw [← UInt8.toNat_inj]
    omega
  rw [Bool.eq_iff_iff]
  simp only [contains_eq_testBit, word, insert, index, Fin.getElem_fin, Vector.getElem_set,
    Bool.or_eq_true, beq_iff_eq, hbc]
  by_cases h : b.toNat / 64 = c.toNat / 64
  · simp only [h, ↓reduceIte, UInt64.toNat_or, Nat.testBit_or, testBit_mask, Bool.or_eq_true,
      decide_eq_true_eq, true_and, or_comm]
  · simp only [h, ↓reduceIte, false_and, false_or]

theorem contains_foldl_insert (s : ByteClass) (bs : Bytes) (c : UInt8) :
    (bs.foldl insert s).contains c = (bs.contains c || s.contains c) := by
  induction bs generalizing s with
  | nil => simp
  | cons b bs ih =>
      simp only [List.foldl_cons, ih, contains_insert, List.contains_cons]
      cases bs.contains c <;> simp

@[simp] theorem contains_ofList (bs : Bytes) (c : UInt8) :
    (ofList bs).contains c = bs.contains c := by
  simp [ofList, contains_foldl_insert]

theorem insertNew_fst (s : ByteClass) (b : UInt8) : (s.insertNew b).1 = !s.contains b := by
  simp [insertNew, contains, bne]

@[simp] theorem insertNew_snd (s : ByteClass) (b : UInt8) : (s.insertNew b).2 = s.insert b := rfl

/-- Bit `j` of word `i` is the bit of byte `64 * i + j`. -/
theorem contains_ofNat (s : ByteClass) {i j : Nat} (hi : i < 4) (hj : j < 64) :
    s.contains (UInt8.ofNat (64 * i + j)) = s.words[i].toNat.testBit j := by
  have hlt : 64 * i + j < 256 := by omega
  have hb : (UInt8.ofNat (64 * i + j)).toNat = 64 * i + j := UInt8.toNat_ofNat_of_lt' hlt
  have hindex : (64 * i + j) / 64 = i := by omega
  have hbit : (64 * i + j) % 64 = j := by omega
  simp only [contains_eq_testBit, word, index, hb, hindex, hbit, Fin.getElem_fin]

/-- A class is determined by its members. -/
theorem ext_contains {s t : ByteClass} (h : ∀ b, s.contains b = t.contains b) : s = t := by
  have hwords : s.words = t.words := by
    apply Vector.ext
    intro i hi
    apply UInt64.toNat_inj.1
    apply Nat.eq_of_testBit_eq
    intro j
    by_cases hj : j < 64
    · rw [← contains_ofNat s hi hj, ← contains_ofNat t hi hj, h]
    · have hzero : ∀ w : UInt64, w.toNat.testBit j = false := fun w =>
        Nat.testBit_lt_two_pow
          (Nat.lt_of_lt_of_le w.toNat_lt (Nat.pow_le_pow_right Nat.two_pos (Nat.not_lt.1 hj)))
      rw [hzero, hzero]
  obtain ⟨u⟩ := s
  obtain ⟨v⟩ := t
  exact congrArg ByteClass.mk hwords

theorem isEmpty_iff {s : ByteClass} : s.isEmpty = true ↔ s = empty := by
  constructor
  · intro h
    obtain ⟨words⟩ := s
    refine congrArg ByteClass.mk (Vector.ext fun i hi => ?_)
    rw [Vector.getElem_replicate]
    exact eq_of_beq (Vector.all_eq_true.1 h i hi)
  · rintro rfl
    exact Vector.all_eq_true.2 fun i hi => by simp [empty]

theorem mem_toList {s : ByteClass} {b : UInt8} : b ∈ s.toList ↔ s.contains b = true := by
  simp only [toList, List.mem_filter, List.mem_map, List.mem_range, and_iff_right_iff_imp]
  exact fun _ => ⟨b.toNat, b.toNat_lt, UInt8.ofNat_toNat⟩

theorem pairwise_lt_toList (s : ByteClass) : s.toList.Pairwise (· < ·) := by
  refine List.Pairwise.filter _ (List.pairwise_map.2 (List.pairwise_lt_range.imp_of_mem ?_))
  intro m n hm hn hmn
  rw [List.mem_range] at hm hn
  rw [UInt8.lt_iff_toNat_lt, UInt8.toNat_ofNat_of_lt' hm, UInt8.toNat_ofNat_of_lt' hn]
  exact hmn

/-- The size is the number of members below `64 * k` and of the bits set from word `k` on. -/
theorem size_eq_countP_add (s : ByteClass) {k : Nat} (hk : k ≤ 4) :
    s.size = (List.range (64 * k)).countP (fun n => s.contains (UInt8.ofNat n)) +
      (s.words.toList.drop k).foldr (fun w n => bitCount w + n) 0 := by
  induction k with
  | zero => exact (Nat.zero_add _).symm
  | succ k ih =>
      have hword : (List.range 64).countP (fun j => s.contains (UInt8.ofNat (64 * k + j))) =
          bitCount s.words[k] :=
        List.countP_congr fun j hj => by rw [contains_ofNat s hk (List.mem_range.1 hj)]
      have hlength : k < s.words.toList.length := by
        rw [Vector.length_toList]
        exact hk
      rw [Nat.mul_succ, List.range_add, List.countP_append, List.countP_map, Nat.add_assoc,
        ih (Nat.le_of_succ_le hk), List.drop_eq_getElem_cons hlength, List.foldr_cons,
        Vector.getElem_toList, ← hword]
      rfl

theorem size_eq_length_toList (s : ByteClass) : s.size = s.toList.length := by
  have hmembers := s.size_eq_countP_add (Nat.le_refl 4)
  rw [List.drop_of_length_le (by simp), List.foldr_nil, Nat.add_zero] at hmembers
  rw [hmembers, toList, ← List.countP_eq_length_filter, List.countP_map]
  rfl

theorem two_le_length_toList_iff {s : ByteClass} :
    2 ≤ s.toList.length ↔ ∃ b c, b ≠ c ∧ s.contains b = true ∧ s.contains c = true := by
  simp only [← mem_toList]
  have hlt := s.pairwise_lt_toList
  generalize s.toList = bs at hlt ⊢
  match bs, hlt with
  | [], _ => simp
  | [d], _ =>
      refine iff_of_false (by simp) ?_
      rintro ⟨b, c, hbc, hb, hc⟩
      rw [List.mem_singleton] at hb hc
      exact hbc (hb.trans hc.symm)
  | b :: c :: bs, hlt =>
      have hbc : b < c := (List.pairwise_cons.1 hlt).1 c List.mem_cons_self
      exact iff_of_true (Nat.le_add_left 2 bs.length) ⟨b, c, UInt8.ne_of_lt hbc, by simp, by simp⟩

end ByteClass

end ByteRegex
