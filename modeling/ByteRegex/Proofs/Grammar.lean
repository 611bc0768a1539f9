import ByteRegex.Pattern.Grammar
import ByteRegex.Pattern.Phrase
import ByteRegex.Proofs.Language

/-! # Derivations of the grammar

A text has at most one derivation of each kind, if what follows the text cannot belong to it. The
grammar is recursive on the left, while the bytes that tell two derivations apart come from the
left too. So uniqueness is proved in a form that an induction over the left derivation can use: if
some text begins with a branch, and all of it is a longer branch, then the longer branch has the
shorter one as its beginning.

The two expressions of a derivation have one language. -/

namespace ByteRegex.Grammar

/-! ## What may follow a phrase -/

/-- No `*` follows, which would repeat the factor in front. -/
def EndsFactor (r : Bytes) : Prop := ∀ c ∈ r.head?, c ≠ Ascii.asterisk

/-- What follows can neither repeat nor lengthen the branch in front. -/
def EndsBranch (r : Bytes) : Prop := ∀ c ∈ r.head?, c = Ascii.bar ∨ c = Ascii.rparen

/-- What follows cannot lengthen the alternation in front. -/
def EndsAlternation (r : Bytes) : Prop := ∀ c ∈ r.head?, c = Ascii.rparen

variable {b c : UInt8} {p q r r' : Bytes}

@[simp] theorem endsFactor_nil : EndsFactor [] := nofun
@[simp] theorem endsBranch_nil : EndsBranch [] := nofun
@[simp] theorem endsAlternation_nil : EndsAlternation [] := nofun

@[simp] theorem endsFactor_cons : EndsFactor (c :: q) ↔ c ≠ Ascii.asterisk := by
  simp [EndsFactor]

@[simp] theorem endsBranch_cons : EndsBranch (c :: q) ↔ c = Ascii.bar ∨ c = Ascii.rparen := by
  simp [EndsBranch]

@[simp] theorem endsAlternation_cons : EndsAlternation (c :: q) ↔ c = Ascii.rparen := by
  simp [EndsAlternation]

theorem EndsAlternation.endsBranch (h : EndsAlternation r) : EndsBranch r :=
  fun c hc => .inr (h c hc)

theorem EndsBranch.endsFactor (h : EndsBranch r) : EndsFactor r := by
  intro c hc
  rcases h c hc with rfl | rfl
  · rintro ⟨⟩
  · rintro ⟨⟩

/-! ## First bytes -/

theorem startsAtom_iff : Phrase.startsAtom b = true ↔
    b ≠ Ascii.bar ∧ b ≠ Ascii.rparen ∧ b ≠ Ascii.asterisk := by
  simp [Phrase.startsAtom, and_assoc]

theorem isPlain_iff : isPlain b = true ↔
    Phrase.startsAtom b = true ∧ b ≠ Ascii.lparen ∧ b ≠ Ascii.lbracket ∧ b ≠ Ascii.backslash := by
  simp [isPlain, Phrase.startsAtom, and_assoc]

theorem isPlainMember_iff :
    isPlainMember b = true ↔ b ≠ Ascii.rbracket ∧ b ≠ Ascii.backslash := by
  simp [isPlainMember]

theorem Atom.text_eq_cons : ∀ a : Atom, ∃ c q, a.text = c :: q ∧ Phrase.startsAtom c = true
  | .group _ => ⟨_, _, rfl, rfl⟩
  | .oneOf _ => ⟨_, _, rfl, rfl⟩
  | .escaped _ => ⟨_, _, rfl, rfl⟩
  | .plain b h => ⟨b, [], rfl, (isPlain_iff.1 h).1⟩

theorem Factor.text_eq_cons : ∀ f : Factor, ∃ c q, f.text = c :: q ∧ Phrase.startsAtom c = true
  | .single a => a.text_eq_cons
  | .repeated f => by
      obtain ⟨c, q, hq, hc⟩ := f.text_eq_cons
      exact ⟨c, q ++ [Ascii.asterisk], by rw [Factor.text, hq, List.cons_append], hc⟩

theorem endsFactor_factor_text (f : Factor) (r : Bytes) : EndsFactor (f.text ++ r) := by
  obtain ⟨c, q, hq, hc⟩ := f.text_eq_cons
  rw [hq, List.cons_append, endsFactor_cons]
  exact (startsAtom_iff.1 hc).2.2

theorem not_endsBranch_factor_text (f : Factor) (r : Bytes) : ¬ EndsBranch (f.text ++ r) := by
  obtain ⟨c, q, hq, hc⟩ := f.text_eq_cons
  rw [hq, List.cons_append, endsBranch_cons]
  rintro (hbar | hparen)
  · exact (startsAtom_iff.1 hc).1 hbar
  · exact (startsAtom_iff.1 hc).2.1 hparen

/-! ## Longer phrases -/

/-- A factor with `n` more `*` behind it. -/
def Factor.extend (f : Factor) : Nat → Factor
  | 0 => f
  | n + 1 => f.repeated.extend n

/-- A branch with more factors behind it. -/
def Branch.extend (b : Branch) (fs : List Factor) : Branch := fs.foldl .snoc b

/-- An alternation with more branches behind it. -/
def Alternation.extend (a : Alternation) (bs : List Branch) : Alternation := bs.foldl .or a

@[simp] theorem Branch.extend_nil (b : Branch) : b.extend [] = b := rfl

@[simp] theorem Branch.extend_cons (b : Branch) (f : Factor) (fs : List Factor) :
    b.extend (f :: fs) = (b.snoc f).extend fs := rfl

@[simp] theorem Alternation.extend_nil (a : Alternation) : a.extend [] = a := rfl

@[simp] theorem Alternation.extend_cons (a : Alternation) (b : Branch) (bs : List Branch) :
    a.extend (b :: bs) = (a.or b).extend bs := rfl

/-- The text of a branch that stands behind another. -/
def barText (b : Branch) : Bytes := Ascii.bar :: b.text

theorem Factor.text_extend (f : Factor) (n : Nat) :
    (f.extend n).text = f.text ++ List.replicate n Ascii.asterisk := by
  induction n generalizing f with
  | zero => simp [extend]
  | succ n ih => simp [extend, ih, Factor.text, List.replicate_succ]

theorem Branch.text_extend (b : Branch) (fs : List Factor) :
    (b.extend fs).text = b.text ++ fs.flatMap Factor.text := by
  induction fs generalizing b with
  | nil => simp
  | cons f fs ih => simp [ih, Branch.text]

theorem Alternation.text_extend (a : Alternation) (bs : List Branch) :
    (a.extend bs).text = a.text ++ bs.flatMap barText := by
  induction bs generalizing a with
  | nil => simp
  | cons b bs ih => simp [ih, Alternation.text, barText]

theorem Branch.value_extend (b : Branch) (fs : List Factor) :
    (b.extend fs).value = (fs.map Factor.value).foldl .append b.value := by
  induction fs generalizing b with
  | nil => rfl
  | cons f fs ih => exact ih (b.snoc f)

theorem Alternation.value_extend (a : Alternation) (bs : List Branch) :
    (a.extend bs).value = (bs.map Branch.value).foldl .union a.value := by
  induction bs generalizing a with
  | nil => rfl
  | cons b bs ih => exact ih (a.or b)

theorem Factor.repeated_extend (f : Factor) (n : Nat) :
    (f.extend n).repeated = f.extend (n + 1) := by
  induction n generalizing f with
  | zero => rfl
  | succ n ih => exact ih f.repeated

theorem Factor.exists_extend : ∀ f : Factor, ∃ a n, f = (Factor.single a).extend n
  | .single a => ⟨a, 0, rfl⟩
  | .repeated f => by
      obtain ⟨a, n, rfl⟩ := f.exists_extend
      exact ⟨a, n + 1, Factor.repeated_extend _ n⟩

theorem Branch.exists_extend : ∀ b : Branch, ∃ fs, b = Branch.nothing.extend fs
  | .nothing => ⟨[], rfl⟩
  | .snoc b f => by
      obtain ⟨fs, rfl⟩ := b.exists_extend
      exact ⟨fs ++ [f], by simp [Branch.extend]⟩

theorem Alternation.exists_extend :
    ∀ a : Alternation, ∃ b bs, a = (Alternation.single b).extend bs
  | .single b => ⟨b, [], rfl⟩
  | .or a b => by
      obtain ⟨b₀, bs, rfl⟩ := a.exists_extend
      exact ⟨b₀, bs ++ [b], by simp [Alternation.extend]⟩

theorem endsFactor_factors_text (fs : List Factor) (h : EndsFactor r) :
    EndsFactor (fs.flatMap Factor.text ++ r) := by
  cases fs with
  | nil => exact h
  | cons f fs =>
      rw [List.flatMap_cons, List.append_assoc]
      exact endsFactor_factor_text f _

theorem endsBranch_branches_text (bs : List Branch) (h : EndsBranch r) :
    EndsBranch (bs.flatMap barText ++ r) := by
  cases bs with
  | nil => exact h
  | cons b bs => exact endsBranch_cons.2 (.inl rfl)

theorem eq_zero_of_endsFactor {n : Nat}
    (h : EndsFactor (List.replicate n Ascii.asterisk ++ r)) : n = 0 := by
  cases n with
  | zero => rfl
  | succ n => exact absurd rfl (endsFactor_cons.1 h)

theorem eq_nil_of_endsBranch {fs : List Factor}
    (h : EndsBranch (fs.flatMap Factor.text ++ r)) : fs = [] := by
  cases fs with
  | nil => rfl
  | cons f fs =>
      rw [List.flatMap_cons, List.append_assoc] at h
      exact absurd h (not_endsBranch_factor_text f _)

/-! ## Uniqueness -/

theorem members_unique {ms ms' : List Member}
    (h : ms.flatMap Member.text ++ Ascii.rbracket :: r =
      ms'.flatMap Member.text ++ Ascii.rbracket :: r') : ms = ms' ∧ r = r' := by
  induction ms generalizing ms' with
  | nil =>
      match ms' with
      | [] => exact ⟨rfl, (List.cons.inj h).2⟩
      | .escaped b :: _ => cases (List.cons.inj h).1
      | .plain b hb :: _ => exact absurd (List.cons.inj h).1.symm (isPlainMember_iff.1 hb).1
  | cons m ms ih =>
      match m, ms' with
      | .escaped b, [] => cases (List.cons.inj h).1
      | .plain b hb, [] => exact absurd (List.cons.inj h).1 (isPlainMember_iff.1 hb).1
      | .escaped b, .plain c hc :: _ =>
          exact absurd (List.cons.inj h).1.symm (isPlainMember_iff.1 hc).2
      | .plain b hb, .escaped c :: _ =>
          exact absurd (List.cons.inj h).1 (isPlainMember_iff.1 hb).2
      | .escaped b, .escaped c :: ms' =>
          simp only [List.flatMap_cons, Member.text, List.cons_append, List.nil_append,
            List.cons.injEq, true_and] at h
          obtain ⟨rfl, h⟩ := h
          rcases ih h with ⟨rfl, rfl⟩
          exact ⟨rfl, rfl⟩
      | .plain b hb, .plain c hc :: ms' =>
          simp only [List.flatMap_cons, Member.text, List.cons_append, List.nil_append,
            List.cons.injEq] at h
          obtain ⟨rfl, h⟩ := h
          rcases ih h with ⟨rfl, rfl⟩
          exact ⟨rfl, rfl⟩

mutual

/-- An atom is told from the bytes behind it without a look at them. -/
theorem Atom.unique : ∀ (a a' : Atom) {r r' : Bytes}, a.text ++ r = a'.text ++ r' →
    a = a' ∧ r = r'
  | .group x, .group x', r, r', h => by
      simp only [Atom.text, List.cons_append, List.append_assoc, List.cons.injEq, true_and,
        List.nil_append] at h
      obtain ⟨bs, rfl, hr⟩ := x.eq_extend_of_text x' (by simp) (by simp) h
      cases bs with
      | nil => exact ⟨rfl, (List.cons.inj hr).2⟩
      | cons b bs => cases (List.cons.inj hr).1
  | .oneOf ms, .oneOf ms', r, r', h => by
      simp only [Atom.text, List.cons_append, List.append_assoc, List.cons.injEq, true_and,
        List.nil_append] at h
      obtain ⟨rfl, rfl⟩ := members_unique h
      exact ⟨rfl, rfl⟩
  | .escaped b, .escaped b', r, r', h => by
      obtain ⟨rfl, rfl⟩ : b = b' ∧ r = r' := by simpa [Atom.text] using h
      exact ⟨rfl, rfl⟩
  | .plain b hb, .plain b' hb', r, r', h => by
      obtain ⟨rfl, rfl⟩ := List.cons.inj h
      exact ⟨rfl, rfl⟩
  | .plain b hb, .group _, r, r', h => absurd (List.cons.inj h).1 (isPlain_iff.1 hb).2.1
  | .plain b hb, .oneOf _, r, r', h => absurd (List.cons.inj h).1 (isPlain_iff.1 hb).2.2.1
  | .plain b hb, .escaped _, r, r', h => absurd (List.cons.inj h).1 (isPlain_iff.1 hb).2.2.2
  | .group _, .plain b hb, r, r', h => absurd (List.cons.inj h).1.symm (isPlain_iff.1 hb).2.1
  | .oneOf _, .plain b hb, r, r', h => absurd (List.cons.inj h).1.symm (isPlain_iff.1 hb).2.2.1
  | .escaped _, .plain b hb, r, r', h => absurd (List.cons.inj h).1.symm (isPlain_iff.1 hb).2.2.2
  | .group _, .oneOf _, r, r', h => nomatch (List.cons.inj h).1
  | .group _, .escaped _, r, r', h => nomatch (List.cons.inj h).1
  | .oneOf _, .group _, r, r', h => nomatch (List.cons.inj h).1
  | .oneOf _, .escaped _, r, r', h => nomatch (List.cons.inj h).1
  | .escaped _, .group _, r, r', h => nomatch (List.cons.inj h).1
  | .escaped _, .oneOf _, r, r', h => nomatch (List.cons.inj h).1

/-- A text that begins with a factor and is itself one begins with the same atom. -/
theorem Factor.eq_extend_of_text : ∀ (f f' : Factor) {r r' : Bytes}, EndsFactor r' →
    f.text ++ r = f'.text ++ r' →
    ∃ n, f' = f.extend n ∧ r = List.replicate n Ascii.asterisk ++ r'
  | .single a, f', r, r', _, h => by
      obtain ⟨a', n, rfl⟩ := f'.exists_extend
      rw [Factor.text_extend, List.append_assoc] at h
      obtain ⟨rfl, rfl⟩ := a.unique a' h
      exact ⟨n, rfl, rfl⟩
  | .repeated f, f', r, r', hr', h => by
      rw [Factor.text, List.append_assoc] at h
      obtain ⟨n, rfl, hn⟩ := f.eq_extend_of_text f' hr' h
      cases n with
      | zero =>
          rw [List.replicate_zero, List.nil_append, List.singleton_append] at hn
          exact absurd rfl (endsFactor_cons.1 (hn ▸ hr'))
      | succ n => exact ⟨n, rfl, (List.cons.inj hn).2⟩

/-- A text that begins with a branch and is itself one begins with the same factors. -/
theorem Branch.eq_extend_of_text : ∀ (b b' : Branch) {r r' : Bytes}, EndsFactor r →
    EndsBranch r' → b.text ++ r = b'.text ++ r' →
    ∃ fs, b' = b.extend fs ∧ r = fs.flatMap Factor.text ++ r'
  | .nothing, b', r, r', _, _, h => by
      obtain ⟨fs, rfl⟩ := b'.exists_extend
      rw [Branch.text_extend, List.append_assoc] at h
      exact ⟨fs, rfl, h⟩
  | .snoc b f, b', r, r', hr, hr', h => by
      rw [Branch.text, List.append_assoc] at h
      obtain ⟨fs, rfl, hfs⟩ := b.eq_extend_of_text b' (endsFactor_factor_text f r) hr' h
      cases fs with
      | nil => exact absurd (hfs ▸ hr') (not_endsBranch_factor_text f r)
      | cons g fs =>
          rw [List.flatMap_cons, List.append_assoc] at hfs
          have hfs' := endsFactor_factors_text fs hr'.endsFactor
          obtain ⟨n, rfl, rfl⟩ := f.eq_extend_of_text g hfs' hfs
          obtain rfl := eq_zero_of_endsFactor hr
          exact ⟨fs, rfl, rfl⟩

/-- A text that begins with an alternation and is itself one begins with the same branches. -/
theorem Alternation.eq_extend_of_text : ∀ (a a' : Alternation) {r r' : Bytes}, EndsBranch r →
    EndsAlternation r' → a.text ++ r = a'.text ++ r' →
    ∃ bs, a' = a.extend bs ∧ r = bs.flatMap barText ++ r'
  | .single b, a', r, r', hr, hr', h => by
      obtain ⟨b', bs, rfl⟩ := a'.exists_extend
      rw [Alternation.text_extend, List.append_assoc] at h
      have hbs := endsBranch_branches_text bs hr'.endsBranch
      obtain ⟨fs, rfl, rfl⟩ := b.eq_extend_of_text b' hr.endsFactor hbs h
      obtain rfl := eq_nil_of_endsBranch hr
      exact ⟨bs, rfl, rfl⟩
  | .or a b, a', r, r', hr, hr', h => by
      rw [Alternation.text, List.append_assoc, List.cons_append] at h
      obtain ⟨bs, rfl, hbs⟩ := a.eq_extend_of_text a' (by simp) hr' h
      cases bs with
      | nil =>
          rw [List.flatMap_nil, List.nil_append] at hbs
          rw [← hbs, endsAlternation_cons] at hr'
          cases hr'
      | cons b' bs =>
          rw [List.flatMap_cons, barText, List.cons_append, List.cons_append,
            List.append_assoc] at hbs
          have hb := (List.cons.inj hbs).2
          have hbs' := endsBranch_branches_text bs hr'.endsBranch
          obtain ⟨fs, rfl, rfl⟩ := b.eq_extend_of_text b' hr.endsFactor hbs' hb
          obtain rfl := eq_nil_of_endsBranch hr
          exact ⟨bs, rfl, rfl⟩

end

theorem Alternation.text_injective {a a' : Alternation} (h : a.text = a'.text) : a = a' := by
  have h' : a.text ++ [] = a'.text ++ [] := by rw [h]
  obtain ⟨bs, rfl, hbs⟩ := a.eq_extend_of_text a' endsBranch_nil endsAlternation_nil h'
  cases bs with
  | nil => rfl
  | cons b bs => cases hbs

/-! ## The two expressions of a derivation -/

open Regex (SameLanguage)

mutual

theorem Alternation.sameLanguage_value : ∀ a : Alternation, SameLanguage a.value a.literally
  | .single b => b.sameLanguage_value
  | .or a b =>
      (Regex.sameLanguage_union a.value b.value).trans
        (a.sameLanguage_value.alt b.sameLanguage_value)

theorem Branch.sameLanguage_value : ∀ b : Branch, SameLanguage b.value b.literally
  | .nothing => .refl .epsilon
  | .snoc b f =>
      (Regex.sameLanguage_append b.value f.value).trans
        (b.sameLanguage_value.concat f.sameLanguage_value)

theorem Factor.sameLanguage_value : ∀ f : Factor, SameLanguage f.value f.literally
  | .single a => a.sameLanguage_value
  | .repeated f => (Regex.sameLanguage_many f.value).trans f.sameLanguage_value.star

theorem Atom.sameLanguage_value : ∀ a : Atom, SameLanguage a.value a.literally
  | .group a => a.sameLanguage_value
  | .oneOf ms => Regex.sameLanguage_ofClass (classOf ms)
  | .escaped b => .refl (.literal b)
  | .plain b _ => .refl (.literal b)

end

end ByteRegex.Grammar
