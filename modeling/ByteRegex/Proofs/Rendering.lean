import Mathlib.Data.List.Basic
import Mathlib.Tactic.Tauto
import ByteRegex.Pattern.Basic
import ByteRegex.Proofs.Parse
import ByteRegex.Proofs.Search
import ByteRegex.Regex.Render

/-! # Reading what was rendered

The text of an expression is the text of a derivation, which `Branch.spell` writes down, and so it
is a pattern that can be read. The derivation is built on the branch that stands in front: a
concatenation is spelled by its left operand and then its right one, and nothing needs to be put
together again. If a byte above the ASCII range occurs, its spelling stands for other bytes.
Otherwise the branch matches what the branch in front and the expression match one after the
other. -/

namespace ByteRegex

/-! ## ASCII -/

/-- The bytes that an expression mentions. -/
def Regex.symbols : Regex → Bytes
  | .empty | .epsilon => []
  | .literal b => [b]
  | .oneOf s => s.toList
  | .alt a b | .concat a b => a.symbols ++ b.symbols
  | .star a => a.symbols

/-- All the bytes are in the ASCII range. -/
def Bytes.IsAscii (bs : Bytes) : Prop := ∀ b ∈ bs, b < 0x80

instance (bs : Bytes) : Decidable bs.IsAscii := List.decidableBAll (· < 0x80) bs

namespace Bytes

variable {b : UInt8} {as bs : Bytes}

@[simp] theorem isAscii_nil : IsAscii [] := nofun

@[simp] theorem isAscii_cons : IsAscii (b :: bs) ↔ b < 0x80 ∧ IsAscii bs := List.forall_mem_cons

@[simp] theorem isAscii_append : IsAscii (as ++ bs) ↔ IsAscii as ∧ IsAscii bs :=
  List.forall_mem_append

theorem utf8EncodeChar_ascii (h : b < 0x80) :
    String.utf8EncodeChar (Char.ofNat b.toNat) = [b] := by
  have hb : b.toNat < 0x80 := h
  have hv : (Char.ofNat b.toNat).val.toNat = b.toNat := by
    rw [Char.ofNat, dif_pos (Or.inl (by omega))]
    rfl
  rw [String.utf8EncodeChar, hv]
  simp only [Nat.le_of_lt_succ hb, ↓reduceIte, UInt8.ofNat_toNat]

/-- An ASCII text has the bytes it was made from. -/
theorem ofString_toAscii (h : IsAscii bs) : ofString (toAscii bs) = bs := by
  rw [ofString, toAscii, String.toList_ofList, List.flatMap_map]
  induction bs with
  | nil => rfl
  | cons b bs ih =>
      obtain ⟨hb, hbs⟩ := isAscii_cons.1 h
      rw [List.flatMap_cons, utf8EncodeChar_ascii hb, ih hbs, List.singleton_append]

end Bytes

namespace Grammar

variable {b d : UInt8}

/-! ## Bytes -/

theorem isAscii_special : Regex.special.IsAscii := by decide

theorem isAscii_specialInClass : Regex.specialInClass.IsAscii := by decide

theorem hexDigit_spec {n : UInt8} (hn : n < 16) :
    hexDigit n < 0x80 ∧ isPlain (hexDigit n) = true ∧ isPlainMember (hexDigit n) = true := by
  have h : ∀ m : Fin 16, hexDigit (UInt8.ofNat m) < 0x80 ∧
      isPlain (hexDigit (UInt8.ofNat m)) = true ∧
      isPlainMember (hexDigit (UInt8.ofNat m)) = true := by decide
  simpa using h ⟨n.toNat, hn⟩

theorem hexPair_spec (b : UInt8) (hd : d ∈ hexPair b) :
    d < 0x80 ∧ isPlain d = true ∧ isPlainMember d = true := by
  simp only [hexPair, List.mem_cons, List.not_mem_nil, or_false] at hd
  rcases hd with rfl | rfl
  · apply hexDigit_spec
    rw [UInt8.lt_iff_toNat_lt, UInt8.toNat_div]
    exact Nat.div_lt_of_lt_mul b.toNat_lt
  · apply hexDigit_spec
    rw [UInt8.lt_iff_toNat_lt, UInt8.toNat_mod]
    exact Nat.mod_lt _ (by decide)

theorem isAscii_renderByte {escaped : Bytes} (h : escaped.IsAscii) (b : UInt8) :
    (Regex.renderByte escaped b).IsAscii := by
  unfold Regex.renderByte
  split
  · next hb => exact Bytes.isAscii_cons.2 ⟨by decide, by simpa using h b hb⟩
  · split
    · next hb => simpa using hb
    · have hx : Bytes.IsAscii (hexPair b) := fun d hd => (hexPair_spec b hd).1
      exact Bytes.isAscii_cons.2 ⟨by decide, Bytes.isAscii_cons.2 ⟨by decide, hx⟩⟩

/-- A byte outside a class, behind a backslash if it does not stand for itself. -/
def Atom.ofByte (b : UInt8) : Atom := if h : isPlain b = true then .plain b h else .escaped b

/-- A byte within a class, behind a backslash if it does not stand for itself. -/
def Member.ofByte (b : UInt8) : Member :=
  if h : isPlainMember b = true then .plain b h else .escaped b

theorem isPlain_iff_not_mem_special : isPlain b = true ↔ b ∉ Regex.special := by
  simp only [isPlain, Regex.special, Bool.not_eq_true', Bool.or_eq_false_iff, beq_eq_false_iff_ne,
    List.mem_cons, List.not_mem_nil, or_false]
  tauto

theorem isPlainMember_iff_not_mem_special :
    isPlainMember b = true ↔ b ∉ Regex.specialInClass := by
  simp only [isPlainMember, Regex.specialInClass, Bool.not_eq_true', Bool.or_eq_false_iff,
    beq_eq_false_iff_ne, List.mem_cons, List.not_mem_nil, or_false]
  tauto

theorem Atom.text_ofByte (b : UInt8) :
    (ofByte b).text = if b ∈ Regex.special then [Ascii.backslash, b] else [b] := by
  by_cases hb : isPlain b = true
  · rw [ofByte, dif_pos hb, if_neg (isPlain_iff_not_mem_special.1 hb), Atom.text]
  · rw [ofByte, dif_neg hb, if_pos (by simpa [isPlain_iff_not_mem_special] using hb), Atom.text]

theorem Member.text_ofByte (b : UInt8) :
    (ofByte b).text = if b ∈ Regex.specialInClass then [Ascii.backslash, b] else [b] := by
  by_cases hb : isPlainMember b = true
  · rw [ofByte, dif_pos hb, if_neg (isPlainMember_iff_not_mem_special.1 hb), Member.text]
  · rw [ofByte, dif_neg hb, if_pos (by simpa [isPlainMember_iff_not_mem_special] using hb),
      Member.text]

@[simp] theorem Atom.literally_ofByte (b : UInt8) : (ofByte b).literally = .literal b := by
  unfold ofByte
  split <;> rfl

@[simp] theorem Member.byte_ofByte (b : UInt8) : (ofByte b).byte = b := by
  unfold ofByte
  split <;> rfl

/-- The pieces that the text of a byte is made of: one in the ASCII range, and three above it. -/
def spelling {α : Type} (ofByte escaped : UInt8 → α) (b : UInt8) : List α :=
  if b < 0x80 then [ofByte b] else escaped Ascii.letterX :: (hexPair b).map ofByte

theorem text_spelling {α : Type} {ofByte escaped : UInt8 → α} {text : α → Bytes}
    {special : Bytes} (hspecial : special.IsAscii)
    (hofByte : ∀ b, text (ofByte b) = if b ∈ special then [Ascii.backslash, b] else [b])
    (hescaped : ∀ b, text (escaped b) = [Ascii.backslash, b])
    (hhex : ∀ b, ∀ d ∈ hexPair b, d ∉ special) (b : UInt8) :
    (spelling ofByte escaped b).flatMap text = Regex.renderByte special b := by
  unfold spelling Regex.renderByte
  by_cases hb : b < 0x80
  · rw [if_pos hb, if_pos hb, List.flatMap_singleton, hofByte]
  · have hmem : b ∉ special := fun h => hb (hspecial b h)
    have hpair : (hexPair b).flatMap (fun d => text (ofByte d)) = hexPair b := by
      rw [List.flatMap_congr fun d hd => (hofByte d).trans (if_neg (hhex b d hd))]
      simp
    rw [if_neg hb, if_neg hmem, if_neg hb, List.flatMap_cons, List.flatMap_map, hescaped, hpair]
    rfl

theorem Atom.text_spelling (b : UInt8) :
    (spelling ofByte escaped b).flatMap text = Regex.renderByte Regex.special b :=
  Grammar.text_spelling isAscii_special text_ofByte (fun _ => rfl)
    (fun c _ hd => isPlain_iff_not_mem_special.1 (hexPair_spec c hd).2.1) b

theorem Member.text_spelling (b : UInt8) :
    (spelling ofByte escaped b).flatMap text = Regex.renderByte Regex.specialInClass b :=
  Grammar.text_spelling isAscii_specialInClass text_ofByte (fun _ => rfl)
    (fun c _ hd => isPlainMember_iff_not_mem_special.1 (hexPair_spec c hd).2.2) b

/-! ## Expressions -/

/-- The last factor of a branch repeated. -/
def Branch.repeatLast : Branch → Branch
  | .nothing => .nothing
  | .snoc b f => .snoc b f.repeated

/-- The members that the text of a class is made of. -/
def membersOf (s : ByteClass) : List Member :=
  s.toList.flatMap (spelling Member.ofByte Member.escaped)

/-- A branch with the text of an expression behind it. -/
def Branch.spell (left : Branch) : Regex → Branch
  | .empty => left.snoc (.single (.oneOf []))
  | .epsilon => left.snoc (.single (.group (.single .nothing)))
  | .literal b => left.extend ((spelling Atom.ofByte Atom.escaped b).map .single)
  | .oneOf s => left.snoc (.single (.oneOf (membersOf s)))
  | .alt a b =>
      left.snoc (.single (.group (.or (.single (spell .nothing a)) (spell .nothing b))))
  | .concat a b => spell (spell left a) b
  | .star a =>
      if a.isAtomic then (spell left a).repeatLast
      else left.snoc (.repeated (.single (.group (.single (spell .nothing a)))))

theorem Branch.exists_snoc_spell (left : Branch) (r : Regex) :
    ∃ b f, left.spell r = .snoc b f := by
  induction r generalizing left with
  | empty | epsilon | oneOf | alt => exact ⟨_, _, rfl⟩
  | literal b =>
      unfold spell spelling
      split <;> exact ⟨_, _, rfl⟩
  | concat a b _ ihb => exact ihb (left.spell a)
  | star a ih =>
      rcases ih left with ⟨b, f, h⟩
      unfold spell
      split
      · exact ⟨b, f.repeated, by rw [h, repeatLast]⟩
      · exact ⟨_, _, rfl⟩

theorem text_membersOf (s : ByteClass) :
    (membersOf s).flatMap Member.text =
      s.toList.flatMap (Regex.renderByte Regex.specialInClass) := by
  rw [membersOf, List.flatMap_assoc]
  exact List.flatMap_congr fun b _ => Member.text_spelling b

theorem Branch.text_spell (left : Branch) (r : Regex) :
    (left.spell r).text = left.text ++ r.render := by
  induction r generalizing left with
  | empty | epsilon => rfl
  | literal b =>
      rw [spell, Branch.text_extend, List.flatMap_map, Regex.render_literal, ← Atom.text_spelling]
      rfl
  | oneOf s =>
      simp [spell, Branch.text, Factor.text, Atom.text, Regex.renderClass, text_membersOf]
  | alt a b iha ihb =>
      simp [spell, Branch.text, Factor.text, Atom.text, Alternation.text, iha, ihb]
  | concat a b iha ihb => rw [spell, ihb, iha, Regex.render_concat, List.append_assoc]
  | star a ih =>
      obtain ⟨b, f, h⟩ := left.exists_snoc_spell a
      have hsnoc : b.text ++ f.text = left.text ++ a.render := by rw [← ih left, h, Branch.text]
      rw [spell, Regex.render_star]
      split
      · rw [h, repeatLast, Branch.text, Factor.text, ← List.append_assoc, hsnoc,
          List.append_assoc]
      · simp [Branch.text, Factor.text, Atom.text, Alternation.text, ih]

/-! ## Languages -/

open Regex (SameLanguage)

theorem spelling_of_ascii {α : Type} {ofByte escaped : UInt8 → α} (hb : b < 0x80) :
    spelling ofByte escaped b = [ofByte b] := if_pos hb

/-- In the ASCII range the class that is read back has the members it was written with. -/
theorem contains_classOf_membersOf {s : ByteClass} (h : s.toList.IsAscii) (c : UInt8) :
    (classOf (membersOf s)).contains c = s.contains c := by
  have hbytes : (membersOf s).map Member.byte = s.toList := by
    rw [membersOf, List.flatMap_congr fun b hb => spelling_of_ascii (h b hb), List.map_flatMap]
    simp
  rw [classOf, ByteClass.contains_ofList, hbytes, Bool.eq_iff_iff, List.contains_iff_mem,
    ByteClass.mem_toList]

/-- A single atom is spelled by a single factor. -/
theorem Branch.spell_of_isAtomic {a : Regex} (ha : a.isAtomic = true) (h : a.symbols.IsAscii) :
    ∃ f : Factor, ∀ left : Branch, left.spell a = .snoc left f := by
  cases a with
  | literal b =>
      have hb : b < 0x80 := (Bytes.isAscii_cons.1 h).1
      exact ⟨.single (.ofByte b), fun left => by rw [spell, spelling_of_ascii hb]; rfl⟩
  | oneOf | alt => exact ⟨_, fun _ => rfl⟩
  | empty | epsilon | concat | star => cases ha

/-- Of the last factor of a branch only the language matters. -/
theorem Branch.sameLanguage_snoc (left : Branch) {f : Factor} {r : Regex}
    (h : SameLanguage f.literally r) :
    SameLanguage (left.snoc f).literally (.concat left.literally r) :=
  (SameLanguage.refl left.literally).concat h

/-- A branch with an expression spelled behind it matches what the two match one after the
other. -/
theorem Branch.sameLanguage_spell (left : Branch) {r : Regex} (h : r.symbols.IsAscii) :
    SameLanguage (left.spell r).literally (.concat left.literally r) := by
  induction r generalizing left with
  | empty =>
      apply left.sameLanguage_snoc
      intro w
      simp [Factor.literally, Atom.literally, classOf]
  | epsilon => exact .refl _
  | literal b =>
      obtain ⟨hb, _⟩ := Bytes.isAscii_cons.1 h
      rw [spell, spelling_of_ascii hb]
      apply left.sameLanguage_snoc
      rw [Factor.literally, Atom.literally_ofByte]
      exact .refl _
  | oneOf s =>
      apply left.sameLanguage_snoc
      intro w
      simp [Factor.literally, Atom.literally, contains_classOf_membersOf h]
  | alt a b iha ihb =>
      obtain ⟨ha, hb⟩ := Bytes.isAscii_append.1 h
      have ha' := (iha .nothing ha).trans (.epsilon_concat a)
      have hb' := (ihb .nothing hb).trans (.epsilon_concat b)
      exact left.sameLanguage_snoc (ha'.alt hb')
  | concat a b iha ihb =>
      obtain ⟨ha, hb⟩ := Bytes.isAscii_append.1 h
      rw [spell]
      exact (ihb _ hb).trans (((iha left ha).concat (.refl b)).trans (.concat_assoc _ a b))
  | star a ih =>
      have ha := (ih .nothing h).trans (.epsilon_concat a)
      by_cases hatomic : a.isAtomic = true
      · obtain ⟨f, hf⟩ := spell_of_isAtomic hatomic h
        rw [hf] at ha
        have hfa := (SameLanguage.epsilon_concat f.literally).symm.trans ha
        rw [spell, if_pos hatomic, hf, repeatLast]
        exact left.sameLanguage_snoc hfa.star
      · rw [spell, if_neg hatomic]
        exact left.sameLanguage_snoc ha.star

end Grammar

/-! ## Patterns -/

namespace Regex

open Grammar

/-- The derivation of the text of an expression. -/
def spelled (r : Regex) : Alternation := .single (Branch.nothing.spell r)

theorem text_spelled (r : Regex) : r.spelled.text = r.render := Branch.nothing.text_spell r

theorem sameLanguage_spelled {r : Regex} (h : r.symbols.IsAscii) :
    SameLanguage r.spelled.literally r :=
  (Branch.nothing.sameLanguage_spell h).trans (.epsilon_concat r)

theorem parse_render (r : Regex) : parse r.render = .ok r.spelled.value := by
  rw [← text_spelled, parse_text]

theorem isAscii_render (r : Regex) : r.render.IsAscii := by
  induction r with
  | empty => simp [Ascii.lbracket, Ascii.rbracket]
  | epsilon => simp [Ascii.lparen, Ascii.rparen]
  | literal b =>
      rw [render_literal]
      exact isAscii_renderByte isAscii_special b
  | oneOf s =>
      have hs : Bytes.IsAscii (s.toList.flatMap (renderByte specialInClass)) := by
        intro d hd
        obtain ⟨b, _, hb⟩ := List.mem_flatMap.1 hd
        exact isAscii_renderByte isAscii_specialInClass b d hb
      simp [renderClass, hs, Ascii.lbracket, Ascii.rbracket]
  | alt a b iha ihb => simp [iha, ihb, Ascii.lparen, Ascii.bar, Ascii.rparen]
  | concat a b iha ihb => simp [iha, ihb]
  | star a ih =>
      rw [render_star]
      split <;> simp [ih, Ascii.lparen, Ascii.rparen, Ascii.asterisk]

theorem compile_render (r : Regex) :
    ∃ p, Pattern.compile r.render = .ok p ∧ p.regex = r.spelled.value :=
  ⟨⟨r.render, r.spelled.value, parse_render r⟩, Pattern.compile_eq_ok_iff.2 rfl, rfl⟩

/-- **What was rendered can be read again.** The text of an expression is ASCII and compiles,
whatever the shape of its tree and whatever bytes it mentions. If it mentions ASCII bytes only, then
it is found in the same texts, before and after. -/
theorem render_compiles_to_same_language (r : Regex) :
    r.render.IsAscii ∧ Bytes.ofString r.text = r.render ∧
      ∃ p, Pattern.compile r.render = .ok p ∧
        (r.symbols.IsAscii →
          (∀ w, Matches p.regex w ↔ Matches r w) ∧
            ∀ w, p.accepts w = r.accepts w ∧ p.occursIn w = r.occursIn w) := by
  obtain ⟨p, hp, hv⟩ := compile_render r
  refine ⟨isAscii_render r, Bytes.ofString_toAscii (isAscii_render r), p, hp, fun h => ?_⟩
  have hlang : SameLanguage p.regex r := by
    rw [hv]
    exact r.spelled.sameLanguage_value.trans (sameLanguage_spelled h)
  exact ⟨hlang, fun w => ⟨hlang.accepts_eq w, hlang.occursIn_eq w⟩⟩

/-- A repetition of a repetition, with bytes that need a backslash: the text is `((\*[\\\]])*)*`. -/
theorem render_compiles_to_same_language_star :
    let r : Regex := .star (.star (.concat (.literal 0x2A) (.oneOf (.ofList [0x5D, 0x5C]))))
    r.symbols.IsAscii ∧ r.render = Bytes.ofString "((\\*[\\\\\\]])*)*" ∧
      ∃ p, Pattern.compile r.render = .ok p ∧ ∀ w, Matches p.regex w ↔ Matches r w := by
  intro r
  have hr : r.symbols.IsAscii := by decide +kernel
  obtain ⟨_, _, p, hp, hlang⟩ := render_compiles_to_same_language r
  exact ⟨hr, by decide +kernel, p, hp, (hlang hr).1⟩

end Regex

end ByteRegex
