import ByteRegex.Pattern.Scan
import ByteRegex.Proofs.Parse

/-! # Reading and checking agree

The readers descend into groups and come back with the bytes behind a phrase; the scan goes through
all bytes once and keeps a count. They find the same fault. While a reader is at work the scan passes
over the bytes of its phrase, at the same depth before and after, and what the scan comes to is
either the fault of the reader or what it comes to from the bytes behind the phrase. The readers
end each phrase at a byte that the phrase cannot go on with; of these bytes `*` alone needs a flag,
which is set exactly if there is nothing to repeat. -/

namespace ByteRegex.Scan

open Grammar Phrase

variable {n d : Nat} {fresh : Bool} {b : UInt8} {p rest : Bytes} {o : Option Fault}

/-! ## Bytes -/

theorem run_plain (hb : isPlain b = true) :
    run ⟨d, .outside, fresh⟩ (b :: p) = run ⟨d, .outside, false⟩ p := by
  obtain ⟨hb, hl, hc, he⟩ := isPlain_iff.1 hb
  obtain ⟨hbar, hr, hs⟩ := startsAtom_iff.1 hb
  rw [run]
  simp only [State.next, State.outside, hbar, hr, hs, hl, hc, he, ↓reduceIte]

theorem run_member (m : Member) :
    run ⟨d, .inClass, fresh⟩ (m.text ++ p) = run ⟨d, .inClass, fresh⟩ p := by
  cases m with
  | escaped b => rfl
  | plain b hb =>
      obtain ⟨hr, he⟩ := isPlainMember_iff.1 hb
      rw [Member.text, List.singleton_append, run]
      simp only [State.next, hr, he, ↓reduceIte]

/-! ## What a phrase does to a scan -/

/-- No more of a branch can follow, and a `*` only if nothing stands in front of it. -/
def BranchEnd (fresh : Bool) (p : Bytes) : Prop :=
  ∀ c ∈ p.head?, c = Ascii.bar ∨ c = Ascii.rparen ∨ c = Ascii.asterisk ∧ fresh = true

/-- No more of an alternation can follow, and a `*` only if nothing stands in front of it. -/
def AlternationEnd (fresh : Bool) (p : Bytes) : Prop :=
  ∀ c ∈ p.head?, c = Ascii.rparen ∨ c = Ascii.asterisk ∧ fresh = true

/-- A `*` follows only if nothing stands in front of it. -/
def StarEnd (fresh : Bool) (p : Bytes) : Prop := ∀ c ∈ p.head?, c = Ascii.asterisk → fresh = true

/-- An atom follows. -/
def AtomStart (p : Bytes) : Prop := ∃ c ∈ p.head?, startsAtom c = true

/-- A scan that comes to `o` agrees with the reader of a phrase: `o` is the fault of the reader, or
what the scan comes to from the bytes behind the phrase, at depth `d`. -/
def Reads (o : Option Fault) (d : Nat) (ends : Bool → Bytes → Prop) :
    Except Fault (Phrase n) → Prop
  | .error f => o = some f
  | .ok φ => ∃ fresh, o = run ⟨d, .outside, fresh⟩ φ.rest ∧ ends fresh φ.rest

theorem reads_members (s : ByteClass) (p : Bytes) (h : p.length ≤ n) :
    Reads (run ⟨d, .inClass, fresh⟩ p) d (fun fresh _ => fresh = false) (members s p h) := by
  induction s, p, h using members.induct with
  | case1 s h => exact rfl
  | case2 s p h =>
      rw [members_rbracket]
      exact ⟨false, rfl, rfl⟩
  | case3 s hb h => exact rfl
  | case4 s c p hb h ih => exact ih
  | case5 s b p h hb hb' ih =>
      let m : Member := .plain b (isPlainMember_iff.2 ⟨hb, hb'⟩)
      have hrun : run ⟨d, .inClass, fresh⟩ (b :: p) = run ⟨d, .inClass, fresh⟩ p := run_member m
      have hread : members s (b :: p) h = members (s.insert b) p (Nat.le_of_succ_le h) :=
        members_member s m h
      rw [hrun, hread]
      exact ih

theorem run_stars (value : Regex) (p : Bytes) (h : p.length ≤ n) :
    run ⟨d, .outside, false⟩ p = run ⟨d, .outside, false⟩ (stars value p h).rest ∧
      EndsFactor (stars value p h).rest := by
  induction p generalizing value with
  | nil => exact ⟨rfl, endsFactor_nil⟩
  | cons c p ih =>
      by_cases hc : c = Ascii.asterisk
      · subst hc
        exact ih value.many (Nat.le_of_succ_le h)
      · rw [stars, if_neg hc]
        exact ⟨rfl, endsFactor_cons.2 hc⟩

theorem alternationEnd_nil (fresh : Bool) : AlternationEnd fresh [] := nofun

theorem branchEnd_nil (fresh : Bool) : BranchEnd fresh [] := nofun

theorem AlternationEnd.of_branchEnd (h : BranchEnd fresh (b :: p)) (hb : b ≠ Ascii.bar) :
    AlternationEnd fresh (b :: p) := by
  rintro c ⟨⟩
  exact (h _ rfl).resolve_left hb

theorem BranchEnd.of_starEnd (h : StarEnd fresh (b :: p)) (hb : ¬ startsAtom b = true) :
    BranchEnd fresh (b :: p) := by
  rintro c ⟨⟩
  rw [startsAtom_iff] at hb
  by_cases hbar : b = Ascii.bar
  · exact .inl hbar
  by_cases hr : b = Ascii.rparen
  · exact .inr (.inl hr)
  · have hs : b = Ascii.asterisk := Decidable.byContradiction fun hs => hb ⟨hbar, hr, hs⟩
    exact .inr (.inr ⟨hs, h _ rfl hs⟩)

theorem StarEnd.of_endsFactor (h : EndsFactor p) : StarEnd fresh p :=
  fun c hc hs => absurd hs (h c hc)

/-- Within a group, a reader that does not come to its end has come to the end of the pattern or to
a `*` that stands behind nothing. -/
theorem run_unclosed (h : AlternationEnd fresh p) (hp : p.head? ≠ some Ascii.rparen) :
    run ⟨d + 1, .outside, fresh⟩ p = some ⟨.unclosedGroup, p⟩ := by
  match p with
  | [] => rfl
  | c :: p =>
      obtain hc | ⟨rfl, rfl⟩ := h c rfl
      · exact absurd (congrArg some hc) hp
      · rfl

/-! ## All phrases -/

theorem reads_phrases :
    (∀ p d, Reads (run ⟨d, .outside, true⟩ p) d AlternationEnd (alternation p)) ∧
    (∀ (n : Nat) (left : Regex) (p : Bytes) (h : p.length ≤ n) (d : Nat) (fresh : Bool),
      BranchEnd fresh p →
      Reads (run ⟨d, .outside, fresh⟩ p) d AlternationEnd (branches left p h)) ∧
    (∀ (n : Nat) (left : Regex) (p : Bytes) (h : p.length ≤ n) (d : Nat) (fresh : Bool),
      StarEnd fresh p → Reads (run ⟨d, .outside, fresh⟩ p) d BranchEnd (branch left p h)) ∧
    (∀ (p : Bytes) (d : Nat) (fresh : Bool), AtomStart p →
      Reads (run ⟨d, .outside, fresh⟩ p) d (fun fresh p => fresh = false ∧ EndsFactor p)
        (factor p)) ∧
    ∀ (p : Bytes) (d : Nat) (fresh : Bool), AtomStart p →
      Reads (run ⟨d, .outside, fresh⟩ p) d (fun fresh _ => fresh = false) (atom p) := by
  apply alternation.mutual_induct
  -- The first branch is read from a fresh state, the branches behind it from where it ends.
  case case1 =>
    intro p f hf ihb d
    have hb := ihb d true fun _ _ _ => rfl
    rw [hf] at hb
    rw [alternation, hf]
    exact hb
  case case2 =>
    intro p first rest h hfirst ihb ihbs d
    have hb := ihb d true fun _ _ _ => rfl
    rw [hfirst] at hb
    obtain ⟨fresh, hrun, hend⟩ := hb
    rw [alternation, hfirst, hrun]
    exact ihbs d fresh hend
  case case3 =>
    intro n left h _ d fresh hp
    rw [branches]
    exact ⟨fresh, rfl, alternationEnd_nil fresh⟩
  case case4 =>
    intro n left p f hf h _ ihb d fresh hp
    have hb := ihb d true fun _ _ _ => rfl
    rw [hf] at hb
    rw [branches, if_pos rfl, hf]
    exact hb
  case case5 =>
    intro n left p right rest _ hright h _ ihb ihbs d fresh hp
    have hb := ihb d true fun _ _ _ => rfl
    rw [hright] at hb
    obtain ⟨fresh', hrun, hend⟩ := hb
    rw [branches, if_pos rfl, hright]
    exact hrun ▸ ihbs d fresh' hend
  case case6 =>
    intro n left b p h hb _ d fresh hp
    rw [branches, if_neg hb]
    exact ⟨fresh, rfl, .of_branchEnd hp hb⟩
  -- A branch goes on from behind each factor, where no `*` is left.
  case case7 =>
    intro n left h _ d fresh hp
    rw [branch]
    exact ⟨fresh, rfl, branchEnd_nil fresh⟩
  case case8 =>
    intro n left c p h hc f hf _ ihf d fresh hp
    have hfac := ihf d fresh ⟨c, rfl, hc⟩
    rw [hf] at hfac
    rw [branch, if_pos hc, hf]
    exact hfac
  case case9 =>
    intro n left c p h hc right rest _ hright _ _ ihf ihb d fresh hp
    have hfac := ihf d fresh ⟨c, rfl, hc⟩
    rw [hright] at hfac
    obtain ⟨fresh', hrun, rfl, hend⟩ := hfac
    rw [branch, if_pos hc, hright, hrun]
    exact ihb d false (.of_endsFactor hend)
  case case10 =>
    intro n left c p h hc _ d fresh hp
    rw [branch, if_neg hc]
    exact ⟨fresh, rfl, .of_starEnd hp hc⟩
  case case11 =>
    intro p f hf iha d fresh hp
    have ha := iha d fresh hp
    rw [hf] at ha
    rw [factor, hf]
    exact ha
  case case12 =>
    intro p value rest h hvalue iha d fresh hp
    have ha := iha d fresh hp
    rw [hvalue] at ha
    obtain ⟨fresh', hrun, rfl⟩ := ha
    obtain ⟨hstars, hend⟩ := run_stars (d := d) value rest h
    rw [factor, hvalue, hrun, hstars]
    exact ⟨false, rfl, rfl, hend⟩
  case case13 =>
    rintro d fresh ⟨c, ⟨⟩, _⟩
  -- A group is read one level deeper, from a fresh state.
  case case14 =>
    intro p f hf iha d fresh hp
    have ha := iha (d + 1)
    rw [hf] at ha
    rw [atom_lparen_of_error hf]
    exact ha
  case case15 =>
    intro p value h hvalue iha d fresh hp
    have ha := iha (d + 1)
    rw [hvalue] at ha
    obtain ⟨fresh', hrun, hend⟩ := ha
    rw [atom_lparen_of_unclosed hvalue (by simp)]
    exact hrun.trans (run_unclosed hend (by simp))
  case case16 =>
    intro p value rest h hvalue iha d fresh hp
    have ha := iha (d + 1)
    rw [hvalue] at ha
    obtain ⟨fresh', hrun, hend⟩ := ha
    rw [atom_lparen_of_closed hvalue]
    exact ⟨false, hrun, rfl⟩
  case case17 =>
    intro p value c rest h hvalue hc iha d fresh hp
    have ha := iha (d + 1)
    rw [hvalue] at ha
    obtain ⟨fresh', hrun, hend⟩ := ha
    have hne : (c :: rest).head? ≠ some Ascii.rparen := by simpa using hc
    rw [atom_lparen_of_unclosed hvalue hne]
    exact hrun.trans (run_unclosed hend hne)
  case case18 =>
    intro p hl d fresh hp
    rw [atom_lbracket]
    exact reads_members .empty p (Nat.le_refl _)
  case case19 =>
    intro _ _ d fresh hp
    rw [atom_backslash_nil]
    rfl
  case case20 =>
    intro c p _ _ d fresh hp
    rw [atom_backslash_cons]
    exact ⟨false, rfl, rfl⟩
  case case21 =>
    intro b p hl hc he hb d fresh hp
    have hplain : isPlain b = true := isPlain_iff.2 ⟨hb, hl, hc, he⟩
    rw [atom_plain hplain]
    exact ⟨false, run_plain hplain, rfl⟩
  case case22 =>
    intro b p _ _ _ hb d fresh hp
    obtain ⟨c, ⟨⟩, hc⟩ := hp
    exact absurd hc hb

end ByteRegex.Scan

namespace ByteRegex.Regex

open Scan

/-- The reader of a whole pattern and the scan come to the same end. -/
theorem fault?_eq (p : Bytes) :
    fault? p = match parse p with
      | .error f => some f
      | .ok _ => none := by
  have hread := reads_phrases.1 p 0
  unfold parse
  generalize Phrase.alternation p = result at hread ⊢
  match result, hread with
  | .error f, hrun => exact hrun
  | .ok ⟨value, [], _⟩, ⟨fresh, hrun, _⟩ => exact hrun
  | .ok ⟨value, b :: rest, _⟩, ⟨fresh, hrun, hend⟩ =>
      obtain rfl | ⟨rfl, rfl⟩ := hend b rfl
      · exact hrun
      · exact hrun

theorem parse_eq_error_iff {p : Bytes} {f : Fault} :
    parse p = .error f ↔ fault? p = some f := by
  rw [fault?_eq]
  cases parse p <;> simp

theorem exists_parse_eq_ok_iff {p : Bytes} : (∃ r, parse p = .ok r) ↔ fault? p = none := by
  rw [fault?_eq]
  cases parse p <;> simp

end ByteRegex.Regex
