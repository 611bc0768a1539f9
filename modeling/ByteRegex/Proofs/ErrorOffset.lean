import ByteRegex.Pattern.Basic
import ByteRegex.Proofs.Scan

/-! # Error offsets

The scan is in some state at the offset of a fault. It refuses what stands there: a byte, or the end
of the pattern. The error of a pattern that does not compile has the cause and the offset of this
fault.

The bytes in front of the offset have led to the state and count no more, so that what closes the
state's groups and class completes them to a pattern. If a byte stands at the offset, this byte is
refused in the state, whatever comes behind it. -/

namespace ByteRegex.Scan

variable {s t : State} {b : UInt8} {p q u v : Bytes} {f : Fault} {cause : Cause}

/-! ## What a state refuses -/

/-- The cause for which a state does not go on with the bytes ahead. -/
inductive State.Refuses (s : State) : Cause → Bytes → Prop
  | rparen {p : Bytes} : s.place = .outside → s.depth = 0 →
      Refuses s (.unexpected Ascii.rparen) (Ascii.rparen :: p)
  | asterisk {p : Bytes} : s.place = .outside → s.fresh = true → s.depth = 0 →
      Refuses s (.unexpected Ascii.asterisk) (Ascii.asterisk :: p)
  | asteriskInGroup {p : Bytes} : s.place = .outside → s.fresh = true → 0 < s.depth →
      Refuses s .unclosedGroup (Ascii.asterisk :: p)
  | endEscaped : s.place = .escaped → Refuses s .danglingEscape []
  | endEscapedInClass : s.place = .escapedInClass → Refuses s .danglingEscape []
  | endInClass : s.place = .inClass → Refuses s .unclosedClass []
  | endInGroup : s.place = .outside → 0 < s.depth → Refuses s .unclosedGroup []

theorem State.Refuses.cause_ne (h : s.Refuses cause p) :
    cause ≠ .missing ∧ cause ≠ .atomExpected := by
  cases h <;> exact ⟨nofun, nofun⟩

theorem State.Refuses.eq_rparen_or_asterisk (h : s.Refuses cause (b :: p)) :
    b = Ascii.rparen ∨ b = Ascii.asterisk := by
  cases h with
  | rparen => exact .inl rfl
  | asterisk | asteriskInGroup => exact .inr rfl

theorem next_eq_error_of_refuses (h : s.Refuses cause (b :: p)) : s.next b = .error cause := by
  obtain ⟨depth, place, fresh⟩ := s
  cases h with
  | rparen hp hd =>
      subst hp hd
      rfl
  | asterisk hp hf hd =>
      subst hp hf hd
      rfl
  | asteriskInGroup hp hf hd =>
      subst hp hf
      obtain ⟨depth, rfl⟩ := Nat.exists_eq_add_one.2 hd
      rfl

theorem refuses_of_next_eq_error (h : s.next b = .error cause) : s.Refuses cause (b :: p) := by
  obtain ⟨depth, place, fresh⟩ := s
  cases place with
  | escaped | escapedInClass => cases h
  | inClass =>
      simp only [State.next] at h
      split at h
      · cases h
      · split at h <;> cases h
  | outside =>
      simp only [State.next, State.outside] at h
      split at h
      · next hb =>
          subst hb
          cases depth with
          | zero =>
              cases h
              exact .rparen rfl rfl
          | succ depth => cases h
      split at h
      · next hb =>
          subst hb
          cases fresh with
          | false => cases h
          | true =>
              cases depth with
              | zero =>
                  cases h
                  exact .asterisk rfl rfl rfl
              | succ depth =>
                  cases h
                  exact .asteriskInGroup rfl rfl (Nat.succ_pos depth)
      -- Every other byte is taken.
      · repeat' split at h
        all_goals cases h

theorem next_eq_error_iff : s.next b = .error cause ↔ s.Refuses cause (b :: p) :=
  ⟨refuses_of_next_eq_error, next_eq_error_of_refuses⟩

theorem ending_eq_some_iff : s.ending = some cause ↔ s.Refuses cause [] := by
  obtain ⟨depth, place, fresh⟩ := s
  constructor
  · intro h
    cases place with
    | escaped =>
        cases h
        exact .endEscaped rfl
    | escapedInClass =>
        cases h
        exact .endEscapedInClass rfl
    | inClass =>
        cases h
        exact .endInClass rfl
    | outside =>
        cases depth with
        | zero => cases h
        | succ depth =>
            cases h
            exact .endInGroup rfl (Nat.succ_pos depth)
  · intro h
    cases h with
    | endEscaped hp | endEscapedInClass hp | endInClass hp =>
        subst hp
        rfl
    | endInGroup hp hd =>
        subst hp
        obtain ⟨depth, rfl⟩ := Nat.exists_eq_add_one.2 hd
        rfl

theorem ending_eq_none_iff : s.ending = none ↔ s.place = .outside ∧ s.depth = 0 := by
  obtain ⟨depth, place, fresh⟩ := s
  cases place <;> simp [State.ending]

/-! ## Up to the fault -/

/-- The bytes `u` lead the scan from one state to another. -/
def Leads (s : State) (u : Bytes) (t : State) : Prop := ∀ q, run s (u ++ q) = run t q

theorem Leads.nil (s : State) : Leads s [] s := fun _ => rfl

theorem Leads.cons {s' : State} (hb : s.next b = .ok s') (h : Leads s' u t) :
    Leads s (b :: u) t := by
  intro q
  rw [List.cons_append, run, hb]
  exact h q

/-- A refused byte is a fault, whatever comes behind it. -/
theorem run_of_next_eq_error (hb : s.next b = .error cause) (q : Bytes) :
    run s (b :: q) = some ⟨cause, b :: q⟩ := by
  rw [run, hb]

theorem leads_of_foldlM (h : u.foldlM State.next s = .ok t) : Leads s u t := by
  induction u generalizing s with
  | nil =>
      cases h
      exact .nil _
  | cons b u ih =>
      rw [List.foldlM_cons] at h
      cases hb : s.next b with
      | error cause =>
          rw [hb] at h
          cases h
      | ok s' =>
          rw [hb] at h
          exact (ih h).cons hb

theorem run_of_refuses (h : s.Refuses cause p) : run s p = some ⟨cause, p⟩ := by
  cases p with
  | nil => rw [run, ending_eq_some_iff.2 h, Option.map_some]
  | cons b p => exact run_of_next_eq_error (next_eq_error_iff.2 h) p

/-- The fault is at the first place where the scan comes to a state that refuses what is ahead. -/
theorem run_eq_some_iff :
    run s p = some f ↔
      ∃ u t, p = u ++ f.unread ∧ u.foldlM State.next s = .ok t ∧ t.Refuses f.cause f.unread := by
  constructor
  · intro h
    induction p generalizing s with
    | nil =>
        obtain ⟨_, hend, rfl⟩ := Option.map_eq_some_iff.1 h
        exact ⟨[], s, rfl, rfl, ending_eq_some_iff.1 hend⟩
    | cons b p ih =>
        cases hb : s.next b with
        | error cause =>
            rw [run_of_next_eq_error hb] at h
            cases h
            exact ⟨[], s, rfl, rfl, next_eq_error_iff.1 hb⟩
        | ok s' =>
            rw [run, hb] at h
            obtain ⟨u, t, rfl, hu, ht⟩ := ih h
            refine ⟨b :: u, t, rfl, ?_, ht⟩
            rw [List.foldlM_cons, hb]
            exact hu
  · rintro ⟨u, t, rfl, hu, ht⟩
    rw [leads_of_foldlM hu, run_of_refuses ht]

theorem run_eq_none_iff :
    run s p = none ↔
      ∃ t, p.foldlM State.next s = .ok t ∧ t.place = .outside ∧ t.depth = 0 := by
  simp only [← ending_eq_none_iff]
  constructor
  · intro h
    induction p generalizing s with
    | nil => exact ⟨s, rfl, Option.map_eq_none_iff.1 h⟩
    | cons b p ih =>
        cases hb : s.next b with
        | error cause =>
            rw [run_of_next_eq_error hb] at h
            cases h
        | ok s' =>
            rw [run, hb] at h
            obtain ⟨t, ht, hend⟩ := ih h
            refine ⟨t, ?_, hend⟩
            rw [List.foldlM_cons, hb]
            exact ht
  · rintro ⟨t, ht, hend⟩
    rw [← List.append_nil p, leads_of_foldlM ht, run, hend, Option.map_none]

/-- A fault splits the bytes in two: those in front of it lead to a state, and there the pattern
ends or the next byte is refused. -/
theorem exists_leads_of_fault (h : run s p = some f) :
    ∃ u t, p = u ++ f.unread ∧ Leads s u t ∧
      ∀ b q, f.unread = b :: q → t.next b = .error f.cause := by
  obtain ⟨u, t, hp, hu, ht⟩ := run_eq_some_iff.1 h
  refine ⟨u, t, hp, leads_of_foldlM hu, fun b q hq => ?_⟩
  rw [hq] at ht
  exact next_eq_error_iff.2 ht

/-! ## Completions -/

/-- What closes the groups and the class that are open in a state. -/
def State.completion (s : State) : Bytes :=
  let closing := List.replicate s.depth Ascii.rparen
  match s.place with
  | .outside => closing
  | .escaped => Ascii.letterX :: closing
  | .inClass => Ascii.rbracket :: closing
  | .escapedInClass => Ascii.letterX :: Ascii.rbracket :: closing

theorem run_replicate_rparen (d : Nat) (fresh : Bool) :
    run ⟨d, .outside, fresh⟩ (List.replicate d Ascii.rparen) = none := by
  induction d generalizing fresh with
  | zero => rfl
  | succ d ih => exact ih false

theorem run_completion (s : State) : run s s.completion = none := by
  obtain ⟨d, place, fresh⟩ := s
  cases place with
  | outside => exact run_replicate_rparen d fresh
  | escaped | inClass | escapedInClass => exact run_replicate_rparen d false

end ByteRegex.Scan

namespace ByteRegex.Pattern

open Scan

variable {p p' u : Bytes} {e : CompileError} {s : State} {cause : Cause}

theorem exists_compile_eq_ok_iff : (∃ q, compile p = .ok q) ↔ fault? p = none := by
  rw [← Regex.exists_parse_eq_ok_iff]
  constructor
  · rintro ⟨q, hq⟩
    obtain rfl := compile_eq_ok_iff.1 hq
    exact ⟨q.regex, q.parse_source⟩
  · rintro ⟨r, hr⟩
    exact ⟨_, compile_eq_ok hr⟩

theorem compile_eq_error_iff_fault :
    compile p = .error e ↔ ∃ f, fault? p = some f ∧ e = .ofFault p f := by
  simp only [compile_eq_error_iff, Regex.parse_eq_error_iff]

/-- **One pass over a pattern tells whether it compiles, and if not, where and why.** A pattern
compiles exactly if the scan comes to its end outside classes, escapes and groups. Otherwise the
error has the cause and the offset of the scan's fault, which is at the first place where a state
refuses what is ahead. That a pattern is missing or that an atom is expected is never said of a
pattern that is there. -/
theorem compile_agrees_with_scan (p : Bytes) :
    ((∃ q, compile p = .ok q) ↔ fault? p = none) ∧
      (∀ e, compile p = .error e ↔ ∃ f, fault? p = some f ∧ e = .within p f.cause (f.offset p)) ∧
      (fault? p = none ↔
        ∃ s, p.foldlM State.next .start = .ok s ∧ s.place = .outside ∧ s.depth = 0) ∧
      (∀ f, fault? p = some f ↔ ∃ u s, p = u ++ f.unread ∧
        u.foldlM State.next .start = .ok s ∧ s.Refuses f.cause f.unread) ∧
      ¬ ∃ e, compile? (some p) = .error e ∧ (e.cause = .missing ∨ e.cause = .atomExpected) := by
  refine ⟨exists_compile_eq_ok_iff, fun e => compile_eq_error_iff_fault, run_eq_none_iff,
    fun f => run_eq_some_iff, ?_⟩
  rintro ⟨e, he, hcause⟩
  obtain ⟨f, hf, rfl⟩ := compile_eq_error_iff_fault.1 he
  obtain ⟨_, _, _, _, hrefuses⟩ := run_eq_some_iff.1 hf
  obtain ⟨hmissing, hatom⟩ := hrefuses.cause_ne
  exact hcause.elim hmissing hatom

/-- The offset of an error splits the pattern: the bytes in front of it lead to a state, and there
the pattern ends or the next byte is refused. -/
theorem exists_leads_of_error (h : compile p = .error e) :
    ∃ u v t, p = u ++ v ∧ e.offset = u.length ∧ Leads .start u t ∧
      ∀ b q, v = b :: q → t.next b = .error e.cause := by
  obtain ⟨f, hf, rfl⟩ := compile_eq_error_iff_fault.1 h
  obtain ⟨u, t, rfl, hu, ht⟩ := exists_leads_of_fault hf
  refine ⟨u, f.unread, t, rfl, ?_, hu, ht⟩
  change (u ++ f.unread).length - f.unread.length = u.length
  rw [List.length_append, Nat.add_sub_cancel]

theorem exists_completion_of_leads (hu : Leads .start u s) : ∃ v q, compile (u ++ v) = .ok q :=
  ⟨s.completion, exists_compile_eq_ok_iff.2 ((hu s.completion).trans (run_completion s))⟩

/-- A pattern with a refused byte has its error at this byte. -/
theorem exists_error_of_leads (hu : Leads .start u s)
    (hb : s.next b = .error cause) (v : Bytes) :
    ∃ e, compile (u ++ b :: v) = .error e ∧ e.cause = cause ∧ e.offset = u.length := by
  have hfault : fault? (u ++ b :: v) = some ⟨cause, b :: v⟩ :=
    (hu (b :: v)).trans (run_of_next_eq_error hb v)
  refine ⟨_, compile_eq_error_iff_fault.2 ⟨_, hfault, rfl⟩, rfl, ?_⟩
  change (u ++ b :: v).length - (b :: v).length = u.length
  rw [List.length_append, Nat.add_sub_cancel]

/-- **Up to its offset, a pattern with an error can be completed.** If the offset is not the end of
the pattern, the byte at the offset is what makes the error: every pattern that begins with the
same bytes up to this one fails there, and for the same cause. So a pattern is repaired by more
bytes at its end exactly if its error is at its end. -/
theorem error_offset_viable (h : compile p = .error e) :
    e.offset ≤ p.length ∧
      (∃ v q, compile (p.take e.offset ++ v) = .ok q) ∧
      (e.offset < p.length → ∀ p', p.take (e.offset + 1) <+: p' →
        ∃ e', compile p' = .error e' ∧ e'.cause = e.cause ∧ e'.offset = e.offset) ∧
      ((∃ v q, compile (p ++ v) = .ok q) ↔ e.offset = p.length) := by
  obtain ⟨u, v, t, rfl, hoffset, hu, hv⟩ := exists_leads_of_error h
  rw [hoffset]
  cases v with
  | nil =>
      have hdone := exists_completion_of_leads hu
      simpa using hdone
  | cons b v =>
      have herror := exists_error_of_leads hu (hv b v rfl)
      refine ⟨by simp, by simpa using exists_completion_of_leads hu, ?_, ?_⟩
      · intro _ p' hp'
        rw [List.take_length_add_append] at hp'
        obtain ⟨v', rfl⟩ := hp'
        simpa using herror v'
      · refine iff_of_false ?_ (by simp)
        rintro ⟨v', q, hq⟩
        obtain ⟨e', he', _⟩ := herror (v ++ v')
        rw [List.append_assoc, List.cons_append, he'] at hq
        cases hq

/-- A `*` with nothing to repeat, within a group: the bytes in front of it can be completed, and no
byte behind it is looked at. -/
theorem error_offset_viable_star :
    ∃ e, compile (Bytes.ofString "(a|*b") = .error e ∧ e.cause = .unclosedGroup ∧ e.offset = 3 ∧
      (∃ v q, compile (Bytes.ofString "(a|" ++ v) = .ok q) ∧
      (∀ p', Bytes.ofString "(a|*" <+: p' →
        ∃ e', compile p' = .error e' ∧ e'.cause = .unclosedGroup ∧ e'.offset = 3) ∧
      ¬ ∃ v q, compile (Bytes.ofString "(a|*b" ++ v) = .ok q := by
  have hfault : fault? (Bytes.ofString "(a|*b") = some ⟨.unclosedGroup, Bytes.ofString "*b"⟩ := by
    decide
  have he := compile_eq_error_iff_fault.2 ⟨_, hfault, rfl⟩
  obtain ⟨_, hcomplete, hlocal, hrepair⟩ := error_offset_viable he
  exact ⟨_, he, rfl, rfl, hcomplete, hlocal (by decide), fun h => absurd (hrepair.1 h) (by decide)⟩

end ByteRegex.Pattern
