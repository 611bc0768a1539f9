import ByteRegex.Text.Utf8

/-! # Reading a part of a text

The bytes of a character lead the reader from where no character is unfinished back there, and the
last of them completes the character. So bytes of whole characters are read as these characters.
Where a part of a text begins or ends within a character, what is left of the character is read as
replacements: one for each of its last bytes, and a single one for its first bytes. -/

namespace ByteRegex.Utf8

variable {st : Option Pending} {b : UInt8} {bs : Bytes} {c : Char} {n v : Nat}

/-- The bytes of some characters. -/
def encode (cs : List Char) : Bytes := cs.flatMap String.utf8EncodeChar

@[simp] theorem encode_nil : encode [] = [] := rfl

@[simp] theorem encode_cons (c : Char) (cs : List Char) :
    encode (c :: cs) = String.utf8EncodeChar c ++ encode cs := rfl

@[simp] theorem encode_append (cs ds : List Char) : encode (cs ++ ds) = encode cs ++ encode ds :=
  List.flatMap_append

/-! ## The bytes of a character -/

/-- From some state on, the bytes are those of one character, which the last of them completes. -/
inductive Spells : Option Pending → Bytes → Char → Prop
  | last {st : Option Pending} {b : UInt8} {c : Char} : step st b = ([c], none) → Spells st [b] c
  | more {st : Option Pending} {p : Pending} {b : UInt8} {bs : Bytes} {c : Char} :
      step st b = ([], some p) → Spells (some p) bs c → Spells st (b :: bs) c

theorem first_one (hn : n < 0x80) : first (UInt8.ofNat n) = ([Char.ofNat n], none) := by
  have hb := UInt8.toNat_ofNat_of_lt' (show n < 256 by omega)
  simp only [first, UInt8.lt_iff_toNat_lt, hb, UInt8.reduceToNat]
  rw [if_pos hn]

theorem first_two (hn : 0xC2 ≤ n) (hn' : n < 0xE0) :
    first (UInt8.ofNat n) = ([], some ⟨n - 0xC0, 0x80, 0xBF, 0⟩) := by
  have hb := UInt8.toNat_ofNat_of_lt' (show n < 256 by omega)
  simp only [first, UInt8.lt_iff_toNat_lt, hb, UInt8.reduceToNat]
  rw [if_neg (by omega), if_neg (by omega), if_pos hn']

theorem first_three (hn : 0xE0 ≤ n) (hn' : n < 0xF0) :
    first (UInt8.ofNat n) = ([], some ⟨n - 0xE0, if n = 0xE0 then 0xA0 else 0x80,
      if n = 0xED then 0x9F else 0xBF, 1⟩) := by
  have hb := UInt8.toNat_ofNat_of_lt' (show n < 256 by omega)
  simp only [first, UInt8.lt_iff_toNat_lt, ← UInt8.toNat_inj, hb, UInt8.reduceToNat]
  rw [if_neg (by omega), if_neg (by omega), if_neg (by omega), if_pos hn']

theorem first_four (hn : 0xF0 ≤ n) (hn' : n < 0xF5) :
    first (UInt8.ofNat n) = ([], some ⟨n - 0xF0, if n = 0xF0 then 0x90 else 0x80,
      if n = 0xF4 then 0x8F else 0xBF, 2⟩) := by
  have hb := UInt8.toNat_ofNat_of_lt' (show n < 256 by omega)
  simp only [first, UInt8.lt_iff_toNat_lt, ← UInt8.toNat_inj, hb, UInt8.reduceToNat]
  rw [if_neg (by omega), if_neg (by omega), if_neg (by omega), if_neg (by omega), if_pos hn']

section

variable {value more : Nat} {low high : UInt8} (hl : low.toNat ≤ n) (hh : n ≤ high.toNat)
include hl hh

theorem step_last :
    step (some ⟨value, low, high, 0⟩) (UInt8.ofNat n) =
      ([Char.ofNat (value * 64 + (n - 0x80))], none) := by
  have hb := UInt8.toNat_ofNat_of_lt' (Nat.lt_of_le_of_lt hh high.toNat_lt)
  simp only [step, UInt8.le_iff_toNat_le, hb]
  rw [if_pos ⟨hl, hh⟩]

theorem step_more :
    step (some ⟨value, low, high, more + 1⟩) (UInt8.ofNat n) =
      ([], some ⟨value * 64 + (n - 0x80), 0x80, 0xBF, more⟩) := by
  have hb := UInt8.toNat_ofNat_of_lt' (Nat.lt_of_le_of_lt hh high.toNat_lt)
  simp only [step, UInt8.le_iff_toNat_le, hb]
  rw [if_pos ⟨hl, hh⟩]

end

theorem low_le (n : Nat) : (0x80 : UInt8).toNat ≤ n % 64 + 128 := Nat.le_add_left 128 _

theorem le_high (n : Nat) : n % 64 + 128 ≤ (0xBF : UInt8).toNat := by
  simp only [UInt8.reduceToNat]
  omega

theorem spells_two (hv : 0x7F < v) (hv' : v ≤ 0x7FF) :
    Spells none [UInt8.ofNat (v / 64 % 32 + 192), UInt8.ofNat (v % 64 + 128)] (Char.ofNat v) := by
  have hvalue : v = (v / 64 % 32 + 192 - 0xC0) * 64 + (v % 64 + 128 - 0x80) := by omega
  refine .more (first_two (by omega) (by omega)) (.last ?_)
  rw [step_last (low_le _) (le_high _), ← hvalue]

/-- The second byte is in the range behind the first: the form is not overlong, and the number is
not that of a surrogate. -/
theorem spells_three (hv : 0x7FF < v) (hv' : v ≤ 0xFFFF) (h : v < 0xD800 ∨ 0xDFFF < v) :
    Spells none [UInt8.ofNat (v / 4096 % 16 + 224), UInt8.ofNat (v / 64 % 64 + 128),
      UInt8.ofNat (v % 64 + 128)] (Char.ofNat v) := by
  have hvalue : v = ((v / 4096 % 16 + 224 - 0xE0) * 64 + (v / 64 % 64 + 128 - 0x80)) * 64 +
    (v % 64 + 128 - 0x80) := by omega
  refine .more (first_three (by omega) (by omega)) (.more (step_more ?_ ?_) (.last ?_))
  · split <;> simp only [UInt8.reduceToNat] <;> omega
  · split <;> simp only [UInt8.reduceToNat] <;> omega
  · rw [step_last (low_le _) (le_high _), ← hvalue]

/-- The second byte is in the range behind the first: the form is not overlong, and the number is
not beyond the last character. -/
theorem spells_four (hv : 0xFFFF < v) (hv' : v < 0x110000) :
    Spells none [UInt8.ofNat (v / 262144 % 8 + 240), UInt8.ofNat (v / 4096 % 64 + 128),
      UInt8.ofNat (v / 64 % 64 + 128), UInt8.ofNat (v % 64 + 128)] (Char.ofNat v) := by
  have hvalue : v = (((v / 262144 % 8 + 240 - 0xF0) * 64 + (v / 4096 % 64 + 128 - 0x80)) * 64 +
    (v / 64 % 64 + 128 - 0x80)) * 64 + (v % 64 + 128 - 0x80) := by omega
  refine .more (first_four (by omega) (by omega))
    (.more (step_more ?_ ?_) (.more (step_more (low_le _) (le_high _)) (.last ?_)))
  · split <;> simp only [UInt8.reduceToNat] <;> omega
  · split <;> simp only [UInt8.reduceToNat] <;> omega
  · rw [step_last (low_le _) (le_high _), ← hvalue]

theorem spells_utf8EncodeChar (c : Char) : Spells none (String.utf8EncodeChar c) c := by
  have hvalid : c.val.toNat < 0xD800 ∨ 0xDFFF < c.val.toNat ∧ c.val.toNat < 0x110000 := c.valid
  have hc : Char.ofNat c.val.toNat = c := Char.ofNat_toNat c
  unfold String.utf8EncodeChar
  generalize c.val.toNat = v at hvalid hc
  rw [← hc]
  dsimp only
  split
  · exact .last (first_one (by omega))
  split
  · exact spells_two (by omega) (by omega)
  split
  · exact spells_three (by omega) (by omega) (by omega)
  · exact spells_four (by omega) (by omega)

/-! ## Whole and broken characters -/

theorem decodeFrom_cons (st : Option Pending) (b : UInt8) (bs : Bytes) :
    decodeFrom st (b :: bs) = (step st b).1 ++ decodeFrom (step st b).2 bs := by
  cases st <;> rfl

theorem Spells.decodeFrom_append (h : Spells st bs c) (rest : Bytes) :
    decodeFrom st (bs ++ rest) = c :: decodeFrom none rest := by
  induction h with
  | last hb => rw [List.singleton_append, decodeFrom_cons, hb, List.singleton_append]
  | more hb _ ih => rw [List.cons_append, decodeFrom_cons, hb, List.nil_append, ih]

/-- A character that breaks off is read as one replacement. -/
theorem Spells.decodeFrom_take (h : Spells st bs c) (hn : n < bs.length)
    (h₀ : st = none → 0 < n) : decodeFrom st (bs.take n) = [replacement] := by
  induction h generalizing n with
  | @last st b c hb =>
      obtain rfl : n = 0 := Nat.lt_one_iff.1 hn
      cases st with
      | none => exact absurd (h₀ rfl) (Nat.lt_irrefl 0)
      | some p => rfl
  | @more st p b bs c hb _ ih =>
      cases n with
      | zero =>
          cases st with
          | none => exact absurd (h₀ rfl) (Nat.lt_irrefl 0)
          | some p => rfl
      | succ n =>
          rw [List.take_succ_cons, decodeFrom_cons, hb, List.nil_append]
          exact ih (Nat.lt_of_succ_lt_succ hn) nofun

theorem decodeFrom_encode_append (cs : List Char) (rest : Bytes) :
    decodeFrom none (encode cs ++ rest) = cs ++ decodeFrom none rest := by
  induction cs with
  | nil => rfl
  | cons c cs ih =>
      rw [encode_cons, List.append_assoc, (spells_utf8EncodeChar c).decodeFrom_append, ih,
        List.cons_append]

/-- A byte of a character that is not its first. -/
def Continues (b : UInt8) : Prop := 0x80 ≤ b ∧ b < 0xC0

theorem Continues.first_eq (h : Continues b) : first b = ([replacement], none) := by
  obtain ⟨hl, hh⟩ := h
  rw [UInt8.le_iff_toNat_le] at hl
  rw [UInt8.lt_iff_toNat_lt] at hh
  simp only [first, UInt8.lt_iff_toNat_lt]
  simp only [UInt8.reduceToNat] at hl hh ⊢
  rw [if_neg (by omega), if_pos (by omega)]

/-- Each of the last bytes of a character is read as a replacement. -/
theorem decodeFrom_continues_append (h : ∀ b ∈ bs, Continues b) (rest : Bytes) :
    decodeFrom none (bs ++ rest) =
      List.replicate bs.length replacement ++ decodeFrom none rest := by
  induction bs with
  | nil => rfl
  | cons b bs ih =>
      obtain ⟨hb, hbs⟩ := List.forall_mem_cons.1 h
      have hstep : step none b = ([replacement], none) := hb.first_eq
      rw [List.cons_append, decodeFrom_cons, hstep, ih hbs]
      rfl

theorem continues_ofNat (n : Nat) : Continues (UInt8.ofNat (n % 64 + 128)) := by
  have hb := UInt8.toNat_ofNat_of_lt' (show n % 64 + 128 < 256 by omega)
  rw [Continues, UInt8.le_iff_toNat_le, UInt8.lt_iff_toNat_lt, hb]
  simp only [UInt8.reduceToNat]
  omega

theorem le_ofNat (h : 0xC0 ≤ n) (h' : n < 0x100) : 0xC0 ≤ UInt8.ofNat n := by
  rw [UInt8.le_iff_toNat_le, UInt8.toNat_ofNat_of_lt' h']
  exact h

/-- A character is an ASCII byte, or a byte above and up to three bytes that continue it. -/
theorem utf8EncodeChar_cases (c : Char) :
    (∃ b, b < 0x80 ∧ String.utf8EncodeChar c = [b]) ∨
      ∃ b bs, 0xC0 ≤ b ∧ bs.length ≤ 3 ∧ (∀ b ∈ bs, Continues b) ∧
        String.utf8EncodeChar c = b :: bs := by
  unfold String.utf8EncodeChar
  dsimp only
  split
  · next h =>
      refine .inl ⟨_, ?_, rfl⟩
      rw [UInt8.lt_iff_toNat_lt, UInt8.toNat_ofNat_of_lt' (Nat.lt_of_le_of_lt h (by decide))]
      exact Nat.lt_succ_of_le h
  refine .inr ?_
  split
  rotate_left
  split
  all_goals
    refine ⟨_, _, le_ofNat (by omega) (by omega), by simp, ?_, rfl⟩
    simp only [List.forall_mem_cons, continues_ofNat, true_and]
    exact nofun

/-! ## Parts of a text -/

/-- The last bytes of a character, but not all. -/
theorem continues_of_mem_drop (c : Char) (hn : 0 < n) :
    ∀ b ∈ (String.utf8EncodeChar c).drop n, Continues b := by
  obtain ⟨m, rfl⟩ := Nat.exists_eq_add_one.2 hn
  rcases utf8EncodeChar_cases c with ⟨b, _, hc⟩ | ⟨b, bs, _, _, hbs, hc⟩
  · rw [hc, List.drop_succ_cons, List.drop_nil]
    exact nofun
  · rw [hc, List.drop_succ_cons]
    exact fun b hb => hbs b (List.mem_of_mem_drop hb)

theorem length_utf8EncodeChar_le (c : Char) : (String.utf8EncodeChar c).length ≤ 4 := by
  rw [String.length_utf8EncodeChar]
  exact c.utf8Size_le_four

theorem exists_drop_encode (cs : List Char) {i : Nat} (hi : i ≤ (encode cs).length) :
    ∃ before after broken, cs = before ++ after ∧ (encode cs).drop i = broken ++ encode after ∧
      (∀ b ∈ broken, Continues b) ∧ broken.length ≤ 3 ∧
      i + broken.length = (encode before).length := by
  induction cs generalizing i with
  | nil =>
      obtain rfl : i = 0 := Nat.le_zero.1 hi
      exact ⟨[], [], [], rfl, rfl, nofun, Nat.zero_le 3, rfl⟩
  | cons c cs ih =>
      rcases Nat.eq_zero_or_pos i with rfl | hpos
      · exact ⟨[], c :: cs, [], rfl, rfl, nofun, Nat.zero_le 3, rfl⟩
      rcases Nat.lt_or_ge i (String.utf8EncodeChar c).length with hlt | hge
      · have hlength := length_utf8EncodeChar_le c
        refine ⟨[c], cs, (String.utf8EncodeChar c).drop i, rfl, ?_, continues_of_mem_drop c hpos,
          ?_, ?_⟩
        · rw [encode_cons, List.drop_append_of_le_length (Nat.le_of_lt hlt)]
        · rw [List.length_drop]
          omega
        · rw [List.length_drop, encode_cons, encode_nil, List.append_nil]
          omega
      · rw [encode_cons, List.length_append] at hi
        obtain ⟨before, after, broken, rfl, hdrop, hbroken, hle, hlength⟩ :=
          ih (i := i - (String.utf8EncodeChar c).length) (by omega)
        refine ⟨c :: before, after, broken, rfl, ?_, hbroken, hle, ?_⟩
        · rw [encode_cons, List.drop_append, List.drop_eq_nil_of_le hge, List.nil_append, hdrop]
        · rw [encode_cons, List.length_append]
          omega

/-- The first bytes of a character, but not all. -/
def BreaksOff (bs : Bytes) : Prop :=
  ∃ c n, n < (String.utf8EncodeChar c).length ∧ bs = (String.utf8EncodeChar c).take n

theorem breaksOff_nil : BreaksOff [] :=
  ⟨'a', 0, by decide, rfl⟩

theorem BreaksOff.exists_decodeFrom_eq (h : BreaksOff bs) :
    ∃ m, decodeFrom none bs = List.replicate m replacement ∧ m ≤ 1 ∧ (m = 0 ↔ bs = []) := by
  obtain ⟨c, n, hn, rfl⟩ := h
  rcases Nat.eq_zero_or_pos n with rfl | hpos
  · exact ⟨0, rfl, Nat.zero_le 1, by simp⟩
  · refine ⟨1, (spells_utf8EncodeChar c).decodeFrom_take hn fun _ => hpos, Nat.le_refl 1, ?_⟩
    rw [List.take_eq_nil_iff, ← List.length_eq_zero_iff]
    omega

theorem exists_take_encode (cs : List Char) (i : Nat) :
    ∃ before after broken, cs = before ++ after ∧ (encode cs).take i = encode before ++ broken ∧
      BreaksOff broken ∧ (before = [] → ∀ c ∈ cs.head?, i < (String.utf8EncodeChar c).length) := by
  induction cs generalizing i with
  | nil => exact ⟨[], [], [], rfl, by simp, breaksOff_nil, nofun⟩
  | cons c cs ih =>
      rcases Nat.lt_or_ge i (String.utf8EncodeChar c).length with hlt | hge
      · refine ⟨[], c :: cs, (String.utf8EncodeChar c).take i, rfl, ?_, ⟨c, i, hlt, rfl⟩, ?_⟩
        · rw [encode_cons, List.take_append_of_le_length (Nat.le_of_lt hlt)]
          rfl
        · rintro - c ⟨⟩
          exact hlt
      · obtain ⟨before, after, broken, rfl, htake, hbroken, _⟩ :=
          ih (i - (String.utf8EncodeChar c).length)
        refine ⟨c :: before, after, broken, rfl, ?_, hbroken, nofun⟩
        rw [encode_cons, List.take_append, List.take_of_length_le hge, htake, encode_cons,
          List.append_assoc]

/-- An ASCII byte begins a character, which has no other byte. -/
theorem exists_boundary (cs : List Char) {i : Nat} (hi : i ≤ (encode cs).length)
    (h : ∀ b ∈ (encode cs)[i]?, b < 0x80) :
    ∃ before after, cs = before ++ after ∧ (encode before).length = i ∧
      ∀ c ∈ after.head?, (String.utf8EncodeChar c).length = 1 := by
  obtain ⟨before, after, broken, rfl, hdrop, hbroken, _, hlength⟩ := exists_drop_encode cs hi
  rw [← List.head?_drop, hdrop] at h
  have hnil : broken = [] := by
    cases broken with
    | nil => rfl
    | cons b bs =>
        have hlt : b < 0x80 := h b rfl
        exact absurd hlt (UInt8.not_lt.2 (hbroken b List.mem_cons_self).1)
  subst hnil
  refine ⟨before, after, rfl, hlength.symm, ?_⟩
  cases after with
  | nil => exact nofun
  | cons c after =>
      rintro _ ⟨⟩
      rw [encode_cons] at h
      rcases utf8EncodeChar_cases c with ⟨b, _, hc⟩ | ⟨b, bs, hb, _, _, hc⟩
      · rw [hc]
        rfl
      · rw [hc] at h
        have hlt : b < 0x80 := h b rfl
        exact absurd (UInt8.lt_of_lt_of_le hlt (by decide)) (UInt8.not_lt.2 hb)

/-- Of two texts, the last bytes of the one and the first of the other are read as characters that
stand together, between replacements for a broken character on each side. -/
theorem exists_decodeFrom_part (cs ds : List Char) {i j : Nat} (hi : i ≤ (encode cs).length)
    (hj : j ≤ (encode ds).length) :
    ∃ before left right behind k m, cs = before ++ left ∧ ds = right ++ behind ∧
      decodeFrom none ((encode cs).drop i ++ (encode ds).take j) =
        List.replicate k replacement ++ (left ++ right) ++ List.replicate m replacement ∧
      k ≤ 3 ∧ i + k = (encode before).length ∧ m ≤ 1 ∧ (m = 0 ↔ j = (encode right).length) ∧
      (right = [] → ∀ c ∈ ds.head?, j < (String.utf8EncodeChar c).length) := by
  obtain ⟨before, left, last, rfl, hdrop, hlast, hk, hlength⟩ := exists_drop_encode cs hi
  obtain ⟨right, behind, first, rfl, htake, hfirst, hright⟩ := exists_take_encode ds j
  obtain ⟨m, hm, hm₁, hm₀⟩ := hfirst.exists_decodeFrom_eq
  refine ⟨before, left, right, behind, last.length, m, rfl, rfl, ?_, hk, hlength, hm₁, ?_, hright⟩
  · rw [hdrop, htake, List.append_assoc, decodeFrom_continues_append hlast,
      decodeFrom_encode_append, decodeFrom_encode_append, hm]
    simp only [List.append_assoc]
  · have hsum := congrArg List.length htake
    rw [List.length_take_of_le hj, List.length_append] at hsum
    rw [hm₀, ← List.length_eq_zero_iff]
    omega

end ByteRegex.Utf8
