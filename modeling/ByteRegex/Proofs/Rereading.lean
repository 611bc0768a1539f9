import ByteRegex.Proofs.Association
import ByteRegex.Proofs.Rendering
import ByteRegex.Proofs.Simplification

/-! # Reading a residual back

The text of a compiled pattern, or of a residual of one, reads back as the same tree with its
concatenations regrouped to the left. Such a tree is normal, so that no node of it is simplified a
second time while its text is read.

A branch takes in the operands of a chain of concatenations one by one, however the chain is grouped;
`operands` lists them, and `Branch.value_spell` says that reading appends them from the left. -/

namespace ByteRegex

namespace Regex

variable {a b r x : Regex}

/-! ## Regrouped nodes

The simplifying constructors change no node of a normal tree, and none of the tree regrouped. -/

theorem Normal.union_leftAssoc (h : (alt a b).Normal) :
    a.leftAssoc.union b.leftAssoc = (alt a b).leftAssoc := by
  obtain ⟨ha₀, hb₀, hab, _, _⟩ := h
  exact union_eq_alt (by simpa) (by simpa) (by simpa using hab)

theorem Normal.many_leftAssoc (h : (star a).Normal) : a.leftAssoc.many = (star a).leftAssoc := by
  obtain ⟨ha₀, ha₁, hstar, _⟩ := h
  exact many_eq_star (by simpa) (by simpa) (by simpa)

/-! ## Operands -/

/-- The operands of a chain of concatenations, each with its own chains regrouped to the left. -/
def operands : Regex → List Regex
  | .concat a b => a.operands ++ b.operands
  | r => [r.leftAssoc]

/-- The operands appended to what stands in front make a chain that leans to the left. -/
theorem Normal.foldl_append_operands (hr : r.Normal) (h₀ : r ≠ .empty) (h₁ : r ≠ .epsilon)
    (hx₀ : x ≠ .empty) (hx₁ : x ≠ .epsilon) :
    r.operands.foldl Regex.append x = chain x r.leftAssoc := by
  induction r generalizing x with
  | empty => exact absurd rfl h₀
  | epsilon => exact absurd rfl h₁
  | concat a b iha ihb =>
      obtain ⟨ha₀, ha₁, hb₀, hb₁, ha, hb⟩ := hr
      rw [operands, List.foldl_append, iha ha ha₀ ha₁ hx₀ hx₁,
        ihb hb hb₀ hb₁ (chain_ne_empty _ _) (chain_ne_epsilon _ _), leftAssoc, chain_assoc]
  | literal | oneOf | alt | star => exact append_eq_concat hx₀ (by simp) hx₁ (by simp)

theorem Normal.foldl_append_operands_epsilon (hr : r.Normal) :
    r.operands.foldl Regex.append .epsilon = r.leftAssoc := by
  induction r with
  | concat a b iha _ =>
      obtain ⟨ha₀, ha₁, hb₀, hb₁, ha, hb⟩ := hr
      rw [operands, List.foldl_append, iha ha,
        hb.foldl_append_operands hb₀ hb₁ (by simpa using ha₀) (by simpa using ha₁), leftAssoc]
  | empty | epsilon | literal | oneOf | alt | star => simp [operands]

end Regex

/-! ## Spelling a normal tree -/

namespace Grammar

/-- In the ASCII range a class is read back as it was written. -/
theorem classOf_membersOf {s : ByteClass} (h : s.toList.IsAscii) : classOf (membersOf s) = s :=
  ByteClass.ext_contains (contains_classOf_membersOf h)

@[simp] theorem Atom.value_ofByte (b : UInt8) : (ofByte b).value = .literal b := by
  unfold ofByte
  split <;> rfl

/-- A branch with a normal tree spelled behind it has the operands of the tree appended. -/
theorem Branch.value_spell (left : Branch) {r : Regex} (hr : r.Normal) (h : r.symbols.IsAscii) :
    (left.spell r).value = r.operands.foldl Regex.append left.value := by
  induction r generalizing left with
  | empty | epsilon => rfl
  | literal b =>
      rw [spell, spelling_of_ascii (Bytes.isAscii_cons.1 h).1]
      change left.value.append (Atom.ofByte b).value = _
      rw [Atom.value_ofByte]
      rfl
  | oneOf s =>
      change left.value.append (.ofClass (classOf (membersOf s))) = _
      rw [classOf_membersOf h]
      exact congrArg _ hr.simplify_eq_self
  | alt a b iha ihb =>
      have hunion := hr.union_leftAssoc
      obtain ⟨_, _, _, ha, hb⟩ := hr
      obtain ⟨has, hbs⟩ := Bytes.isAscii_append.1 h
      have ha' := (iha .nothing ha has).trans ha.foldl_append_operands_epsilon
      have hb' := (ihb .nothing hb hbs).trans hb.foldl_append_operands_epsilon
      change left.value.append ((spell .nothing a).value.union (spell .nothing b).value) = _
      rw [ha', hb', hunion]
      rfl
  | concat a b iha ihb =>
      obtain ⟨_, _, _, _, ha, hb⟩ := hr
      obtain ⟨has, hbs⟩ := Bytes.isAscii_append.1 h
      rw [spell, ihb _ hb hbs, iha _ ha has, Regex.operands, List.foldl_append]
  | star a ih =>
      have hmany := hr.many_leftAssoc
      obtain ⟨_, _, _, ha⟩ := hr
      have ha' := (ih .nothing ha h).trans ha.foldl_append_operands_epsilon
      by_cases hatomic : a.isAtomic = true
      · obtain ⟨f, hf⟩ := spell_of_isAtomic hatomic h
        have hvalue : f.value = a.leftAssoc := by
          rw [← ha', hf]
          exact (Regex.append_epsilon_left _).symm
        rw [spell, if_pos hatomic, hf, repeatLast, Branch.value, Factor.value, hvalue, hmany]
        rfl
      · rw [spell, if_neg hatomic]
        change left.value.append (spell .nothing a).value.many = _
        rw [ha', hmany]
        rfl

end Grammar

/-! ## Patterns -/

namespace Regex

variable {r r' : Regex}

theorem ofString_text (r : Regex) : Bytes.ofString r.text = r.render :=
  Bytes.ofString_toAscii (isAscii_render r)

theorem text_eq_iff : r'.text = r.text ↔ r'.render = r.render := by
  constructor
  · intro h
    rw [← ofString_text, h, ofString_text]
  · exact congrArg Bytes.toAscii

theorem Normal.parse_text (hr : r.Normal) (h : r.symbols.IsAscii) :
    parse (Bytes.ofString r.text) = .ok r.leftAssoc := by
  have hvalue := Grammar.Branch.nothing.value_spell hr h
  rw [ofString_text, parse_render]
  exact congrArg Except.ok (hvalue.trans hr.foldl_append_operands_epsilon)

/-- Normal trees with one text differ at most in how their concatenations are grouped. -/
theorem Normal.text_eq_iff (hr : r.Normal) (h : r.symbols.IsAscii) (hr' : r'.Normal)
    (h' : r'.symbols.IsAscii) : r'.text = r.text ↔ Reassociated r' r := by
  constructor
  · intro heq
    have hparse := hr'.parse_text h'
    rw [heq, hr.parse_text h] at hparse
    exact reassociated_iff_leftAssoc_eq.2 (Except.ok.inj hparse).symm
  · exact fun heq => Regex.text_eq_iff.2 heq.render_eq

/-- A compiled pattern, or what a text leaves of one. -/
def IsResidual (r : Regex) : Prop := ∃ (p : Pattern) (w : Bytes), p.regex.residual w = r

theorem IsResidual.normal (h : r.IsResidual) : r.Normal := by
  obtain ⟨p, w, rfl⟩ := h
  exact p.normal_regex.residual w

/-- **Reading back regroups to the left.** The text of a residual in ASCII compiles, and the tree
is the residual with its concatenations regrouped to the left: nothing else has changed, and no other
regrouping leans to the left. So the text and the size are the same, and compiling the text of what
was read gives it again. Residuals with one text differ at most in how their concatenations are
grouped. -/
theorem reading_back_regroups_left (hr : r.IsResidual) (h : r.symbols.IsAscii) :
    ∃ q, Pattern.compile (Bytes.ofString r.text) = .ok q ∧ q.regex = r.leftAssoc ∧
      (∀ t, t = q.regex ↔ Reassociated r t ∧ t.LeansLeft) ∧
      q.regex.text = r.text ∧ q.regex.size = r.size ∧
      Pattern.compile (Bytes.ofString q.regex.text) = .ok q ∧
      ∀ r' : Regex, r'.IsResidual → r'.symbols.IsAscii →
        (r'.text = r.text ↔ Reassociated r' r) := by
  have hq := Pattern.compile_eq_ok (hr.normal.parse_text h)
  have htext : r.leftAssoc.text = r.text := Regex.text_eq_iff.2 (render_leftAssoc r)
  refine ⟨_, hq, rfl, fun t => eq_leftAssoc_iff, htext, size_leftAssoc r, ?_,
    fun r' hr' h' => hr.normal.text_eq_iff h hr'.normal h'⟩
  rwa [htext]

/-- What `a` leaves of `(a(b(c|\*)))*` has a chain that leans to the right within a repetition. -/
theorem reading_back_regroups_left_star :
    let tail : Regex := .alt (.literal 0x63) (.literal 0x2A)
    let r : Regex := .concat (.concat (.literal 0x62) tail)
      (.star (.concat (.literal 0x61) (.concat (.literal 0x62) tail)))
    let r' : Regex := .concat (.concat (.literal 0x62) tail)
      (.star (.concat (.concat (.literal 0x61) (.literal 0x62)) tail))
    r.IsResidual ∧ r.symbols.IsAscii ∧ r.text = "b(c|\\*)(ab(c|\\*))*" ∧
      (∃ q, Pattern.compile (Bytes.ofString r.text) = .ok q ∧ q.regex = r') ∧
      r'.IsResidual ∧ r'.symbols.IsAscii ∧ r'.text = r.text ∧ Reassociated r' r := by
  intro tail r r'
  let body : Regex := .concat (.literal 0x61) (.concat (.literal 0x62) tail)
  have hparse : parse (Bytes.ofString "(a(b(c|\\*)))*") = .ok (.star body) := by cbv
  have hr : r.IsResidual := ⟨⟨_, _, hparse⟩, [0x61], rfl⟩
  have h : r.symbols.IsAscii := by decide
  have h' : r'.symbols.IsAscii := by decide
  obtain ⟨q, hq, hregex, _, htext, _, _, hiff⟩ := reading_back_regroups_left hr h
  have hr' : r'.IsResidual := ⟨q, [], hregex⟩
  rw [hregex] at htext
  exact ⟨hr, h, by decide +kernel, ⟨q, hq, hregex⟩, hr', h', htext, (hiff r' hr' h').1 htext⟩

/-- A tree that is not normal is simplified while it is read back. -/
example : text (.star (.star (.literal 0x61))) = "(a*)*" ∧
    parse (Bytes.ofString "(a*)*") = .ok (.star (.literal 0x61)) :=
  ⟨by decide +kernel, by cbv⟩

end Regex

end ByteRegex
