import ByteRegex.Proofs.Grammar

/-! # Reading accepts the grammar

Reading a pattern succeeds exactly on the texts of derivations, and gives the value of the
derivation. That a phrase which was read has a derivation follows the recursion of the readers:
reading on adds the values of further branches or factors to what there is so far. The other way
round the induction is over the derivation. Its statement says what is left to do behind the text of
a phrase, so that a reader which has come to the end of a shorter phrase can go on to a longer
one. -/

namespace ByteRegex.Phrase

open Grammar

variable {n : Nat} {b : UInt8} {p q rest : Bytes}

/-! ## Classes -/

theorem members_rbracket (s : ByteClass) (h : (Ascii.rbracket :: p).length ≤ n) :
    members s (Ascii.rbracket :: p) h = .ok ⟨.ofClass s, p, Nat.le_of_succ_le h⟩ := by
  rw [members.eq_def]
  rfl

theorem members_member (s : ByteClass) (m : Member) (h : (m.text ++ p).length ≤ n) :
    members s (m.text ++ p) h =
      members (s.insert m.byte) p (Nat.le_trans (List.suffix_append m.text p).length_le h) := by
  cases m with
  | escaped b => rfl
  | plain b hb =>
      obtain ⟨hb, hb'⟩ := isPlainMember_iff.1 hb
      simp only [Member.text, List.singleton_append]
      rw [members.eq_def]
      simp only [hb, hb', ↓reduceIte, Member.byte]

theorem exists_members_of_ok {s : ByteClass} {h : p.length ≤ n} {φ : Phrase n}
    (hφ : members s p h = .ok φ) :
    ∃ ms : List Member, ms.flatMap Member.text ++ Ascii.rbracket :: φ.rest = p ∧
      φ.value = .ofClass ((ms.map Member.byte).foldl ByteClass.insert s) := by
  induction s, p, h using members.induct with
  | case1 s h => cases hφ
  | case2 s p h =>
      rw [members_rbracket] at hφ
      cases hφ
      exact ⟨[], rfl, rfl⟩
  | case3 s hb h => cases hφ
  | case4 s c p hb h ih =>
      rcases ih (members_member s (.escaped c) h ▸ hφ) with ⟨ms, rfl, hv⟩
      exact ⟨.escaped c :: ms, rfl, hv⟩
  | case5 s b p h hb hb' ih =>
      let m : Member := .plain b (isPlainMember_iff.2 ⟨hb, hb'⟩)
      rcases ih (members_member s m h ▸ hφ) with ⟨ms, rfl, hv⟩
      exact ⟨m :: ms, rfl, hv⟩

theorem members_text (ms : List Member) (s : ByteClass)
    (h : (ms.flatMap Member.text ++ Ascii.rbracket :: rest).length ≤ n) :
    ∃ h', members s (ms.flatMap Member.text ++ Ascii.rbracket :: rest) h =
      .ok ⟨.ofClass ((ms.map Member.byte).foldl ByteClass.insert s), rest, h'⟩ := by
  induction ms generalizing s with
  | nil => exact ⟨Nat.le_of_succ_le h, members_rbracket s h⟩
  | cons m ms ih =>
      simp only [List.flatMap_cons, List.append_assoc]
      rw [members_member]
      exact ih (s.insert m.byte) _

/-! ## Factors -/

theorem exists_factor_of_stars (f : Factor) (p : Bytes) (h : p.length ≤ n) :
    ∃ f' : Factor, f'.text ++ (stars f.value p h).rest = f.text ++ p ∧
      (stars f.value p h).value = f'.value := by
  induction p generalizing f with
  | nil => exact ⟨f, rfl, rfl⟩
  | cons c p ih =>
      by_cases hc : c = Ascii.asterisk
      · rcases ih f.repeated (Nat.le_of_succ_le h) with ⟨f', ht, hv⟩
        rw [stars, if_pos hc]
        refine ⟨f', ht.trans ?_, hv⟩
        rw [Factor.text, hc, List.append_assoc, List.singleton_append]
      · rw [stars, if_neg hc]
        exact ⟨f, rfl, rfl⟩

/-! ## Atoms -/

theorem atom_lparen_of_error {f : Fault} (h : alternation p = .error f) :
    atom (Ascii.lparen :: p) = .error f := by
  rw [atom.eq_def]
  simp only [↓reduceIte, h]

theorem atom_lparen_of_closed {value : Regex} {hle : (Ascii.rparen :: rest).length ≤ p.length}
    (h : alternation p = .ok ⟨value, Ascii.rparen :: rest, hle⟩) :
    atom (Ascii.lparen :: p) = .ok ⟨value, rest, Nat.le_of_succ_le hle⟩ := by
  rw [atom.eq_def]
  simp only [↓reduceIte, h]

theorem atom_lparen_of_unclosed {φ : Phrase p.length} (h : alternation p = .ok φ)
    (hr : φ.rest.head? ≠ some Ascii.rparen) :
    atom (Ascii.lparen :: p) = .error ⟨.unclosedGroup, φ.rest⟩ := by
  rw [atom.eq_def]
  match φ, hr with
  | ⟨value, [], _⟩, _ => simp only [↓reduceIte, h]
  | ⟨value, c :: rest, _⟩, hr =>
      have hc : c ≠ Ascii.rparen := by simpa using hr
      simp only [↓reduceIte, h, hc]

theorem atom_lbracket :
    atom (Ascii.lbracket :: p) = members .empty p (Nat.le_refl p.length) := by
  rw [atom.eq_def]
  rfl

theorem atom_backslash_nil : atom [Ascii.backslash] = .error ⟨.danglingEscape, []⟩ := by
  rw [atom.eq_def]
  rfl

theorem atom_backslash_cons :
    atom (Ascii.backslash :: b :: p) = .ok ⟨.literal b, p, Nat.le_succ p.length⟩ := by
  rw [atom.eq_def]
  rfl

theorem atom_plain (hb : isPlain b = true) :
    atom (b :: p) = .ok ⟨.literal b, p, Nat.le_refl p.length⟩ := by
  obtain ⟨hb, hl, hc, he⟩ := isPlain_iff.1 hb
  rw [atom.eq_def]
  simp only [hb, hl, hc, he, ↓reduceIte]

theorem atom_of_not_startsAtom (hb : ¬ startsAtom b = true) :
    atom (b :: p) = .error ⟨.atomExpected, b :: p⟩ := by
  have hl : b ≠ Ascii.lparen := by
    rintro rfl
    exact hb rfl
  have hc : b ≠ Ascii.lbracket := by
    rintro rfl
    exact hb rfl
  have he : b ≠ Ascii.backslash := by
    rintro rfl
    exact hb rfl
  rw [atom.eq_def]
  simp only [hl, hc, he, ↓reduceIte, if_neg hb]

/-! ## A phrase that was read has a derivation -/

/-- A reader that is given a tree to go on from adds what it reads to it, whatever the tree is. -/
theorem exists_derivation_of_ok :
    (∀ (p : Bytes) (φ : Phrase p.length), alternation p = .ok φ →
      ∃ a : Alternation, a.text ++ φ.rest = p ∧ φ.value = a.value) ∧
    (∀ (n : Nat) (left : Regex) (p : Bytes) (h : p.length ≤ n) (φ : Phrase n),
      branches left p h = .ok φ → ∃ bs : List Branch, bs.flatMap barText ++ φ.rest = p ∧
        φ.value = (bs.map Branch.value).foldl .union left) ∧
    (∀ (n : Nat) (left : Regex) (p : Bytes) (h : p.length ≤ n) (φ : Phrase n),
      branch left p h = .ok φ → ∃ fs : List Factor, fs.flatMap Factor.text ++ φ.rest = p ∧
        φ.value = (fs.map Factor.value).foldl .append left) ∧
    (∀ (p : Bytes) (φ : Phrase (p.length - 1)), factor p = .ok φ →
      ∃ f : Factor, f.text ++ φ.rest = p ∧ φ.value = f.value) ∧
    ∀ (p : Bytes) (φ : Phrase (p.length - 1)), atom p = .ok φ →
      ∃ a : Atom, a.text ++ φ.rest = p ∧ φ.value = a.value := by
  apply alternation.mutual_induct
  -- An alternation is its first branch and the branches behind.
  case case1 =>
    intro p f hf _ φ hφ
    rw [alternation, hf] at hφ
    cases hφ
  case case2 =>
    intro p first rest _ hfirst ihb ihbs φ hφ
    rw [alternation, hfirst] at hφ
    rcases ihb _ hfirst with ⟨fs, hfs, rfl⟩
    rcases ihbs φ hφ with ⟨bs, hbs, hv⟩
    refine ⟨(Alternation.single (Branch.nothing.extend fs)).extend bs, ?_, ?_⟩
    · rw [Alternation.text_extend, Alternation.text, Branch.text_extend, List.append_assoc, hbs]
      exact hfs
    · rw [hv, Alternation.value_extend, Alternation.value, Branch.value_extend]
      rfl
  case case3 =>
    intro n left h _ φ hφ
    rw [branches] at hφ
    cases hφ
    exact ⟨[], rfl, rfl⟩
  case case4 =>
    intro n left p f hf h _ _ φ hφ
    rw [branches, if_pos rfl, hf] at hφ
    cases hφ
  case case5 =>
    intro n left p right rest _ hright h _ ihb ihbs φ hφ
    rw [branches, if_pos rfl, hright] at hφ
    rcases ihb _ hright with ⟨fs, hfs, rfl⟩
    rcases ihbs φ hφ with ⟨bs, hbs, hv⟩
    refine ⟨Branch.nothing.extend fs :: bs, ?_, ?_⟩
    · rw [List.flatMap_cons, List.append_assoc, hbs, barText, Branch.text_extend, List.cons_append]
      exact congrArg _ hfs
    · rw [hv, List.map_cons, List.foldl_cons, Branch.value_extend]
      rfl
  case case6 =>
    intro n left b p h hb _ φ hφ
    rw [branches, if_neg hb] at hφ
    cases hφ
    exact ⟨[], rfl, rfl⟩
  -- A branch goes on as long as an atom can start.
  case case7 =>
    intro n left h _ φ hφ
    rw [branch] at hφ
    cases hφ
    exact ⟨[], rfl, rfl⟩
  case case8 =>
    intro n left c p h hc f hf _ _ φ hφ
    rw [branch, if_pos hc, hf] at hφ
    cases hφ
  case case9 =>
    intro n left c p h hc right rest _ hright _ _ ihf ihb φ hφ
    rw [branch, if_pos hc, hright] at hφ
    rcases ihf _ hright with ⟨f, hf, rfl⟩
    rcases ihb φ hφ with ⟨fs, hfs, hv⟩
    refine ⟨f :: fs, ?_, hv⟩
    rw [List.flatMap_cons, List.append_assoc, hfs, hf]
  case case10 =>
    intro n left c p h hc _ φ hφ
    rw [branch, if_neg hc] at hφ
    cases hφ
    exact ⟨[], rfl, rfl⟩
  case case11 =>
    intro p f hf _ φ hφ
    rw [factor, hf] at hφ
    cases hφ
  case case12 =>
    intro p value rest h hvalue iha φ hφ
    rw [factor, hvalue] at hφ
    cases hφ
    rcases iha _ hvalue with ⟨a, ha, rfl⟩
    obtain ⟨f, hf, hv⟩ := exists_factor_of_stars (.single a) rest h
    exact ⟨f, hf.trans ha, hv⟩
  case case13 =>
    intro φ hφ
    rw [atom] at hφ
    cases hφ
  case case14 =>
    intro p f hf _ φ hφ
    rw [atom_lparen_of_error hf] at hφ
    cases hφ
  case case15 =>
    intro p value h hvalue _ φ hφ
    rw [atom_lparen_of_unclosed hvalue (by simp)] at hφ
    cases hφ
  case case16 =>
    intro p value rest h hvalue iha φ hφ
    rw [atom_lparen_of_closed hvalue] at hφ
    cases hφ
    rcases iha _ hvalue with ⟨a, ha, hv⟩
    refine ⟨.group a, ?_, hv⟩
    rw [Atom.text, List.cons_append, List.append_assoc, List.singleton_append, ha]
  case case17 =>
    intro p value c rest h hvalue hc _ φ hφ
    rw [atom_lparen_of_unclosed hvalue (by simpa using hc)] at hφ
    cases hφ
  case case18 =>
    intro p _ φ hφ
    rw [atom_lbracket] at hφ
    obtain ⟨ms, hms, hv⟩ := exists_members_of_ok hφ
    refine ⟨.oneOf ms, ?_, hv⟩
    rw [Atom.text, List.cons_append, List.append_assoc, List.singleton_append, hms]
  case case19 =>
    intro _ _ φ hφ
    rw [atom_backslash_nil] at hφ
    cases hφ
  case case20 =>
    intro c p _ _ φ hφ
    rw [atom_backslash_cons] at hφ
    cases hφ
    exact ⟨.escaped c, rfl, rfl⟩
  case case21 =>
    intro b p hl hc he hb φ hφ
    have hplain : isPlain b = true := isPlain_iff.2 ⟨hb, hl, hc, he⟩
    rw [atom_plain hplain] at hφ
    cases hφ
    exact ⟨.plain b hplain, rfl, rfl⟩
  case case22 =>
    intro b p _ _ _ hb φ hφ
    rw [atom_of_not_startsAtom hb] at hφ
    cases hφ

/-! ## A derivation is read -/

theorem branch_of_endsBranch (left : Regex) (h : p.length ≤ n) (hp : EndsBranch p) :
    branch left p h = .ok ⟨left, p, h⟩ := by
  cases p with
  | nil => rw [branch]
  | cons c p =>
      have hc : ¬ startsAtom c = true := by
        rw [startsAtom_iff]
        rintro ⟨hbar, hparen, _⟩
        exact (endsBranch_cons.1 hp).elim hbar hparen
      rw [branch, if_neg hc]

theorem branches_of_endsAlternation (left : Regex) (h : p.length ≤ n) (hp : EndsAlternation p) :
    branches left p h = .ok ⟨left, p, h⟩ := by
  cases p with
  | nil => rw [branches]
  | cons c p =>
      have hc : c ≠ Ascii.bar := by
        rw [endsAlternation_cons.1 hp]
        rintro ⟨⟩
      rw [branches, if_neg hc]

theorem stars_of_endsFactor (value : Regex) (h : p.length ≤ n) (hp : EndsFactor p) :
    stars value p h = ⟨value, p, h⟩ := by
  cases p with
  | nil => rfl
  | cons c p => rw [stars, if_neg (endsFactor_cons.1 hp)]

/-- A branch goes on behind a factor. -/
theorem branch_of_factor (left : Regex) {f : Factor} (hp : p = f.text ++ rest) (h : p.length ≤ n)
    {hle : rest.length ≤ p.length - 1} (hf : factor p = .ok ⟨f.value, rest, hle⟩) :
    ∃ h', branch left p h = branch (left.append f.value) rest h' := by
  obtain ⟨c, q, hq, hc⟩ := f.text_eq_cons
  rw [hq, List.cons_append] at hp
  subst hp
  rw [branch, if_pos hc, hf]
  exact ⟨_, rfl⟩

mutual

theorem atom_text : ∀ (a : Atom) {p rest : Bytes}, p = a.text ++ rest →
    ∃ h, atom p = .ok ⟨a.value, rest, h⟩
  | .group a, p, rest, hp => by
      rw [Atom.text, List.cons_append, List.append_assoc, List.singleton_append] at hp
      subst hp
      obtain ⟨h, ha⟩ := alternation_text a (p := a.text ++ Ascii.rparen :: rest) rfl (by simp)
      rw [branches_of_endsAlternation _ h (by simp)] at ha
      exact ⟨_, atom_lparen_of_closed ha⟩
  | .oneOf ms, p, rest, hp => by
      rw [Atom.text, List.cons_append, List.append_assoc, List.singleton_append] at hp
      subst hp
      rw [atom_lbracket]
      exact members_text ms .empty _
  | .escaped b, p, rest, hp => by
      subst hp
      exact ⟨_, atom_backslash_cons⟩
  | .plain b hb, p, rest, hp => by
      subst hp
      exact ⟨_, atom_plain hb⟩

theorem factor_text : ∀ (f : Factor) {p rest : Bytes}, p = f.text ++ rest →
    ∃ h, factor p = .ok (stars f.value rest h)
  | .single a, p, rest, hp => by
      obtain ⟨h, ha⟩ := atom_text a hp
      rw [factor, ha]
      exact ⟨h, rfl⟩
  | .repeated f, p, rest, hp => by
      rw [Factor.text, List.append_assoc, List.singleton_append] at hp
      obtain ⟨h, hf⟩ := factor_text f hp
      rw [stars, if_pos rfl] at hf
      exact ⟨_, hf⟩

theorem branch_text : ∀ (b : Branch) {n : Nat} {p rest : Bytes} (h : p.length ≤ n),
    p = b.text ++ rest → EndsFactor rest → ∃ h', branch .epsilon p h = branch b.value rest h'
  | .nothing, n, p, rest, h, hp, _ => by
      subst hp
      exact ⟨h, rfl⟩
  | .snoc b f, n, p, rest, h, hp, hrest => by
      rw [Branch.text, List.append_assoc] at hp
      obtain ⟨h', hb⟩ := branch_text b h hp (endsFactor_factor_text f rest)
      obtain ⟨hle, hf⟩ := factor_text f (p := f.text ++ rest) rfl
      rw [stars_of_endsFactor f.value hle hrest] at hf
      rw [hb]
      exact branch_of_factor b.value rfl h' hf

theorem alternation_text : ∀ (a : Alternation) {p rest : Bytes}, p = a.text ++ rest →
    EndsBranch rest → ∃ h, alternation p = branches a.value rest h
  | .single b, p, rest, hp, hrest => by
      obtain ⟨h, hb⟩ := branch_text b (Nat.le_refl p.length) hp hrest.endsFactor
      rw [branch_of_endsBranch _ h hrest] at hb
      rw [alternation, hb]
      exact ⟨h, rfl⟩
  | .or a b, p, rest, hp, hrest => by
      rw [Alternation.text, List.append_assoc, List.cons_append] at hp
      obtain ⟨h, ha⟩ := alternation_text a hp (by simp)
      obtain ⟨h', hb⟩ := branch_text b (Nat.le_refl _) rfl hrest.endsFactor
      rw [branch_of_endsBranch _ h' hrest] at hb
      rw [branches, if_pos rfl, hb] at ha
      exact ⟨_, ha⟩

end

end ByteRegex.Phrase

namespace ByteRegex.Regex

open Grammar

theorem parse_text (a : Alternation) : parse a.text = .ok a.value := by
  obtain ⟨h, ha⟩ := Phrase.alternation_text a (List.append_nil a.text).symm endsBranch_nil
  rw [Phrase.branches_of_endsAlternation _ h endsAlternation_nil] at ha
  rw [parse, ha]

theorem exists_derivation_of_parse {p : Bytes} {r : Regex} (h : parse p = .ok r) :
    ∃ a : Alternation, a.text = p ∧ a.value = r := by
  unfold parse at h
  split at h
  · cases h
  · next value hle hφ =>
      cases h
      obtain ⟨a, ha, hv⟩ := Phrase.exists_derivation_of_ok.1 p _ hφ
      exact ⟨a, (List.append_nil a.text).symm.trans ha, hv.symm⟩
  · cases h

theorem parse_eq_ok_iff {p : Bytes} {r : Regex} :
    parse p = .ok r ↔ ∃ a : Alternation, a.text = p ∧ a.value = r := by
  constructor
  · exact exists_derivation_of_parse
  · rintro ⟨a, rfl, rfl⟩
    exact parse_text a

/-- **Reading decides the grammar.** A pattern is read exactly if it has a derivation, which is then
the only one. The expression is the value of the derivation, and simplification has not changed the
language that the derivation spells. -/
theorem parse_decides_grammar (p : Bytes) :
    (∀ r, parse p = .ok r ↔ ∃ a : Alternation, a.text = p ∧ a.value = r) ∧
      (∀ a a' : Alternation, a.text = p → a'.text = p → a = a') ∧
      ∀ r, parse p = .ok r →
        ∃ a : Alternation, a.text = p ∧ a.value = r ∧ ∀ w, Matches r w ↔ Matches a.literally w := by
  refine ⟨fun r => parse_eq_ok_iff, fun a a' ha ha' => ?_, fun r hr => ?_⟩
  · exact Alternation.text_injective (ha.trans ha'.symm)
  · obtain ⟨a, ha, rfl⟩ := exists_derivation_of_parse hr
    exact ⟨a, ha, rfl, a.sameLanguage_value⟩

/-- A group that is repeated twice: the derivation has two stars, its value has one. -/
theorem parse_decides_grammar_group :
    ∃ a : Alternation, a.text = Bytes.ofString "(a|b)**" ∧
      (∀ a' : Alternation, a'.text = Bytes.ofString "(a|b)**" → a = a') ∧
      parse (Bytes.ofString "(a|b)**") = .ok (.star (.alt (.literal 0x61) (.literal 0x62))) ∧
      ∀ w, Matches (.star (.alt (.literal 0x61) (.literal 0x62))) w ↔ Matches a.literally w := by
  let byte (b : UInt8) (h : isPlain b = true) : Branch := .snoc .nothing (.single (.plain b h))
  let group : Atom := .group (.or (.single (byte 0x61 rfl)) (byte 0x62 rfl))
  let a : Alternation := .single (.snoc .nothing (.repeated (.repeated (.single group))))
  obtain ⟨hread, hunique, hlang⟩ := parse_decides_grammar (Bytes.ofString "(a|b)**")
  have hr := (hread (.star (.alt (.literal 0x61) (.literal 0x62)))).2 ⟨a, rfl, rfl⟩
  obtain ⟨a', ha', _, hw⟩ := hlang _ hr
  obtain rfl := hunique a a' rfl ha'
  exact ⟨a, ha', fun a'' ha'' => hunique a a'' rfl ha'', hr, hw⟩

end ByteRegex.Regex
