import ByteRegex.Proofs.ErrorOffset
import ByteRegex.Proofs.Utf8

/-! # What an error shows of its pattern

The window of an error holds the byte at its offset, which is ASCII, or ends with the pattern. So
the offset is never within a character, and the characters before it and behind it are cut only
where the window begins and ends. -/

namespace ByteRegex

open Utf8

/-! ## Windows -/

namespace Window

variable {pattern : Bytes} {offset : Nat}

theorem start_eq (h : offset ≤ pattern.length) : start pattern offset = offset - radius := by
  unfold start stop
  omega

theorem le_stop (h : offset ≤ pattern.length) : offset ≤ stop pattern offset :=
  Nat.le_min.2 ⟨Nat.le_add_right .., h⟩

theorem lt_stop (h : offset < pattern.length) : offset < stop pattern offset :=
  Nat.lt_min.2 ⟨Nat.lt_add_of_pos_right (by decide), h⟩

theorem stop_le_add (pattern : Bytes) (offset : Nat) : stop pattern offset ≤ offset + radius :=
  Nat.min_le_left ..

/-- The offset divides the window into the bytes in front of it and those behind. -/
theorem bytes_append (u v : Bytes) :
    bytes (u ++ v) u.length =
      u.drop (start (u ++ v) u.length) ++ v.take (stop (u ++ v) u.length - u.length) := by
  have hle : u.length ≤ (u ++ v).length := by simp
  have hstart : start (u ++ v) u.length ≤ u.length := by
    rw [start_eq hle]
    exact Nat.sub_le ..
  rw [bytes, List.take_append, List.take_of_length_le (le_stop hle),
    List.drop_append_of_le_length hstart]

/-- What is read of a text through a window whose offset is between two characters. -/
theorem exists_decode_bytes (cs ds : List Char) (hp : pattern = encode (cs ++ ds))
    (ho : offset = (encode cs).length) :
    ∃ before left right behind k m, cs = before ++ left ∧ ds = right ++ behind ∧
      (decode (bytes pattern offset)).toList =
        List.replicate k replacement ++ (left ++ right) ++ List.replicate m replacement ∧
      k ≤ 3 ∧ start pattern offset + k = (encode before).length ∧
      m ≤ 1 ∧ (m = 0 ↔ stop pattern offset = (encode (before ++ left ++ right)).length) ∧
      (right = [] → ∀ c ∈ ds.head?, stop pattern offset < offset + c.utf8Size) := by
  rw [encode_append] at hp
  subst hp ho
  have hle : (encode cs).length ≤ (encode cs ++ encode ds).length := by simp
  have hstart := start_eq hle
  have hstop := le_stop hle
  have hstop' := stop_le_length (encode cs ++ encode ds) (encode cs).length
  rw [List.length_append] at hstop'
  rw [bytes_append, decode, String.toList_ofList]
  generalize start (encode cs ++ encode ds) (encode cs).length = i at hstart ⊢
  generalize stop (encode cs ++ encode ds) (encode cs).length = j at hstop hstop' ⊢
  obtain ⟨before, left, right, behind, k, m, rfl, rfl, hread, hk, hbefore, hm, hbehind, hright⟩ :=
    exists_decodeFrom_part cs ds (i := i) (j := j - (encode cs).length) (by omega) (by omega)
  refine ⟨before, left, right, behind, k, m, rfl, rfl, hread, hk, hbefore, hm, ?_, ?_⟩
  · rw [hbehind, encode_append _ right, List.length_append]
    omega
  · intro hnil c hc
    have hlt := hright hnil c hc
    rw [String.length_utf8EncodeChar] at hlt
    omega

end Window

namespace Pattern

variable {p : Bytes} {e : CompileError}

theorem context_of_error (h : compile p = .error e) :
    e.context = decode (Window.bytes p e.offset) := by
  obtain ⟨f, _, rfl⟩ := compile_eq_error_iff_fault.1 h
  rfl

/-- The byte at the offset of an error is a `)` or a `*`. -/
theorem ascii_at_offset_of_error (h : compile p = .error e) :
    e.offset ≤ p.length ∧ ∀ b ∈ p[e.offset]?, b < 0x80 := by
  obtain ⟨u, v, t, rfl, hoffset, _, hv⟩ := exists_leads_of_error h
  rw [hoffset, List.getElem?_append_right (Nat.le_refl _), Nat.sub_self]
  refine ⟨by simp, ?_⟩
  cases v with
  | nil => exact nofun
  | cons b v =>
      rintro _ ⟨⟩
      have hrefuses := Scan.refuses_of_next_eq_error (p := v) (hv b v rfl)
      rcases hrefuses.eq_rparen_or_asterisk with rfl | rfl
      · decide
      · decide

/-- **The context of an error is an honest window of the pattern.** It is read from at most twenty
bytes, which hold the byte at the offset if there is one. If the pattern is UTF-8, the offset is
between two characters. The context then is a part of the pattern's characters that goes from some
character up to the offset and on to some character behind, with the character at the offset if
there is one. Up to three replacements in front of the part stand for the bytes of a character that
the window cuts at its start, and one behind it for a character that it cuts at its end. -/
theorem context_is_window (h : compile p = .error e) :
    Window.start p e.offset = e.offset - Window.radius ∧
      Window.start p e.offset ≤ e.offset ∧
      Window.start p e.offset ≤ Window.stop p e.offset ∧
      Window.stop p e.offset ≤ p.length ∧
      Window.stop p e.offset - Window.start p e.offset ≤ 20 ∧
      (e.offset < p.length → e.offset < Window.stop p e.offset) ∧
      e.context = decode ((p.take (Window.stop p e.offset)).drop (Window.start p e.offset)) ∧
      ∀ s : String, Bytes.ofString s = p →
        ∃ before left right behind k m, s.toList = before ++ left ++ (right ++ behind) ∧
          (encode (before ++ left)).length = e.offset ∧
          e.context.toList = List.replicate k replacement ++ (left ++ right) ++
            List.replicate m replacement ∧
          (e.offset < p.length → right ≠ []) ∧
          k ≤ 3 ∧ Window.start p e.offset + k = (encode before).length ∧
          m ≤ 1 ∧ (m = 0 ↔ Window.stop p e.offset = (encode (before ++ left ++ right)).length) := by
  obtain ⟨hle, hascii⟩ := ascii_at_offset_of_error h
  have hcontext := context_of_error h
  have hstart := Window.start_eq hle
  have hstop := Window.le_stop hle
  have hspan := Window.stop_le_add p e.offset
  refine ⟨hstart, by omega, Window.start_le_stop p e.offset, Window.stop_le_length p e.offset, ?_,
    Window.lt_stop, hcontext, ?_⟩
  · unfold Window.radius at hstart hspan
    omega
  rintro s rfl
  obtain ⟨cs, ds, hs, hoffset, hone⟩ := exists_boundary s.toList hle hascii
  have hp : Bytes.ofString s = encode (cs ++ ds) := congrArg encode hs
  obtain ⟨before, left, right, behind, k, m, rfl, rfl, hread, hk, hbefore, hm, hbehind, hright⟩ :=
    Window.exists_decode_bytes cs ds hp hoffset.symm
  rw [← hcontext] at hread
  refine ⟨before, left, right, behind, k, m, hs, hoffset, hread, fun hlt hnil => ?_, hk, hbefore,
    hm, hbehind⟩
  -- The character at the offset is one byte long, and this byte is in the window.
  subst hnil
  cases behind with
  | nil =>
      rw [hp, List.nil_append, List.append_nil, hoffset] at hlt
      exact Nat.lt_irrefl _ hlt
  | cons c behind =>
      have hsize : c.utf8Size = 1 := by
        rw [← String.length_utf8EncodeChar]
        exact hone c rfl
      have hcut := hright rfl c rfl
      have hin := Window.lt_stop hlt
      omega

/-- A window that cuts a character on each side: three bytes are left of the one, and one byte of
the other. -/
theorem context_is_window_cut :
    ∃ e, compile (Bytes.ofString "😀😀😀abc)😀😀😀") = .error e ∧ e.offset = 15 ∧
      e.context = "\uFFFD\uFFFD\uFFFD😀abc)😀😀\uFFFD" ∧
      ∃ before left right behind k m,
        "😀😀😀abc)😀😀😀".toList = before ++ left ++ (right ++ behind) ∧
        (encode (before ++ left)).length = 15 ∧
        e.context.toList = List.replicate k replacement ++ (left ++ right) ++
          List.replicate m replacement ∧
        right ≠ [] ∧ k ≤ 3 ∧ 5 + k = (encode before).length ∧
        m ≤ 1 ∧ (m = 0 ↔ 25 = (encode (before ++ left ++ right)).length) := by
  have hfault : Scan.fault? (Bytes.ofString "😀😀😀abc)😀😀😀") =
      some ⟨.unexpected Ascii.rparen, Bytes.ofString ")😀😀😀"⟩ := by decide +kernel
  have he := compile_eq_error_iff_fault.2 ⟨_, hfault, rfl⟩
  have hoffset : (CompileError.ofFault (Bytes.ofString "😀😀😀abc)😀😀😀")
      ⟨.unexpected Ascii.rparen, Bytes.ofString ")😀😀😀"⟩).offset = 15 := by decide +kernel
  have hstart : Window.start (Bytes.ofString "😀😀😀abc)😀😀😀") 15 = 5 := by decide +kernel
  have hstop : Window.stop (Bytes.ofString "😀😀😀abc)😀😀😀") 15 = 25 := by decide +kernel
  have hlt : 15 < (Bytes.ofString "😀😀😀abc)😀😀😀").length := by decide +kernel
  obtain ⟨-, -, -, -, -, -, -, hshown⟩ := context_is_window he
  rw [hoffset, hstart, hstop] at hshown
  obtain ⟨before, left, right, behind, k, m, hs, hbefore, hread, hright, hk, hcut, hm, hbehind⟩ :=
    hshown _ rfl
  exact ⟨_, he, hoffset, by decide +kernel, before, left, right, behind, k, m, hs, hbefore, hread,
    hright hlt, hk, hcut, hm, hbehind⟩

end Pattern

end ByteRegex
