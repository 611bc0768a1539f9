import ByteRegex.Proofs.Program

/-! # Streams that fail

The program writes to one stream at most, piece by piece. If the stream takes only so many bytes,
the run ends with the first byte it refuses, and what it has taken is the beginning of what the
program writes; no other outcome is made up. The input is asked for before anything is written, and
the output is flushed when all of it has been. -/

namespace ByteRegex.Cli

variable {o : Options} {p : Pattern} {s : Streams}

/-- Whether the lines of the input are filtered: the pattern compiles, and there is no text. -/
def Options.Filters (o : Options) : Prop :=
  o.text = none ∧ ∃ p, Pattern.compile? (o.pattern.map Bytes.ofString) = .ok p

namespace Script

/-! ## Which runs can fail -/

theorem exists_ofOptions_eq_filter (h : o.Filters) : ∃ p, ofOptions o = filter o p := by
  obtain ⟨ht, p, hp⟩ := h
  refine ⟨p, ?_⟩
  simp only [ofOptions, hp, ht]

/-- Without a filter there is a single piece to write. -/
theorem exists_ofOptions_eq_write (h : ¬ o.Filters) :
    ∃ k piece status, ofOptions o = .write k piece (.exit status) := by
  unfold ofOptions
  split
  · exact ⟨_, _, _, rfl⟩
  · next p hp =>
      split
      · exact ⟨_, _, _, rfl⟩
      · next ht => exact absurd ⟨ht, p, hp⟩ h

theorem run_ofOptions_of_unreadable {reason : String} (h : o.Filters)
    (hinput : s.input = .error reason) :
    (ofOptions o).run s = ⟨[], [], true, .error (.input reason)⟩ := by
  obtain ⟨p, ho⟩ := exists_ofOptions_eq_filter h
  rw [ho, run_filter_of_error o p hinput]

section

variable (hs : ∀ k, s.room k = none)
include hs

theorem result_ofOptions_of_not_filters (h : ¬ o.Filters) :
    ∃ status, ((ofOptions o).run s).result = .ok status := by
  obtain ⟨k, piece, status, ho⟩ := exists_ofOptions_eq_write h
  refine ⟨status, ?_⟩
  rw [ho, run_write (hs k), Outcome.result_preceded]
  rfl

/-- On streams without limit only a filter can fail, and with its input before its output. -/
theorem result_ofOptions_eq_error_iff {f : Failure} :
    ((ofOptions o).run s).result = .error f ↔
      o.Filters ∧ ((∃ reason, s.input = .error reason ∧ f = .input reason) ∨
        (∃ input, s.input = .ok input) ∧
          ∃ reason, s.flushing = .error reason ∧ f = .flush reason) := by
  by_cases h : o.Filters
  · obtain ⟨p, ho⟩ := exists_ofOptions_eq_filter h
    rw [ho, and_iff_right h]
    cases hinput : s.input with
    | error reason =>
        rw [run_filter_of_error o p hinput]
        simp [eq_comm]
    | ok input =>
        rw [run_filter (hs .output) o p hinput]
        cases s.flushing with
        | ok _ =>
            change (Except.ok _ : Except Failure Status) = .error f ↔ _
            simp
        | error reason =>
            change (Except.error (.flush reason) : Except Failure Status) = .error f ↔ _
            simp [eq_comm]
  · obtain ⟨status, hresult⟩ := result_ofOptions_of_not_filters hs h
    simp [hresult, h]

/-- A run writes to one stream at most. -/
theorem output_or_errors_ofOptions_eq_nil (o : Options) :
    ((ofOptions o).run s).output = [] ∨ ((ofOptions o).run s).errors = [] := by
  by_cases h : o.Filters
  · obtain ⟨p, ho⟩ := exists_ofOptions_eq_filter h
    rw [ho]
    cases hinput : s.input with
    | error reason =>
        rw [run_filter_of_error o p hinput]
        exact .inl rfl
    | ok input =>
        rw [run_filter (hs .output) o p hinput]
        exact .inr rfl
  · obtain ⟨k, piece, status, ho⟩ := exists_ofOptions_eq_write h
    rw [ho, run_write (hs k)]
    cases k
    · exact .inr rfl
    · exact .inl rfl

variable {reason : String}

/-- The report of a flush that fails stands alone on the error stream. -/
theorem toExit_ofOptions_of_flush
    (h : ((ofOptions o).run s).result = .error (.flush reason)) :
    ((ofOptions o).run s).toExit = ⟨((ofOptions o).run s).output,
      Bytes.ofString ("writing matches: " ++ reason ++ "\n"), true, .trouble⟩ := by
  obtain ⟨hf, ⟨r, -, hfail⟩ | ⟨⟨input, hinput⟩, r, hflush, hfail⟩⟩ :=
    (result_ofOptions_eq_error_iff hs).1 h
  · cases hfail
  · cases hfail
    obtain ⟨p, ho⟩ := exists_ofOptions_eq_filter hf
    rw [ho, run_filter (hs .output) o p hinput, hflush]
    rfl

theorem result_ofOptions_eq_input_iff :
    ((ofOptions o).run s).result = .error (.input reason) ↔
      o.Filters ∧ s.input = .error reason := by
  rw [result_ofOptions_eq_error_iff hs]
  simp

theorem result_ofOptions_eq_flush_iff :
    ((ofOptions o).run s).result = .error (.flush reason) ↔
      s.flushing = .error reason ∧ o.Filters ∧ ∃ input, s.input = .ok input := by
  rw [result_ofOptions_eq_error_iff hs, and_left_comm]
  simp [and_comm]

/-- Since the input is asked for before anything is written, a limit does not hide that it cannot
be read. -/
theorem result_ofOptions_setRoom_eq_input_iff {k : Channel} {n : Nat} {refusal : String} :
    ((ofOptions o).run (s.setRoom k (some ⟨n, refusal⟩))).result = .error (.input reason) ↔
      o.Filters ∧ s.input = .error reason := by
  constructor
  · intro h
    have hcut : CutAt k n refusal _ _ := (ofOptions o).run_cutAt (hs k) n
    have hwhole := (hcut.result_eq_error_iff (f := .input reason) nofun).1 h
    exact (result_ofOptions_eq_input_iff hs).1 hwhole.2
  · rintro ⟨ho, hi⟩
    rw [run_ofOptions_of_unreadable ho ((Streams.input_setRoom s k _).trans hi)]

end

end Script

/-! ## A limit on one stream of the program -/

/-- The report of an output that refuses a byte stands alone on the error stream. -/
theorem CutAt.toExit_of_lt {whole cut : Outcome} {n : Nat} {reason : String}
    (h : CutAt .output n reason whole cut) (hlt : n < whole.output.length)
    (hone : whole.output = [] ∨ whole.errors = []) :
    cut.toExit =
      ⟨whole.output.take n, Bytes.ofString (reason ++ "\n"), cut.inputRead, .trouble⟩ := by
  have hwhole : whole.errors = [] :=
    hone.resolve_left (List.ne_nil_of_length_pos (Nat.zero_lt_of_lt hlt))
  have herrors : cut.errors = [] := by
    have hbegins : cut.errors <+: whole.errors := h.begins .errors
    rw [hwhole] at hbegins
    exact List.prefix_nil.1 hbegins
  have houtput : cut.output = whole.output.take n := h.taken
  rw [Outcome.toExit, h.full_of_lt hlt, herrors, houtput]
  rfl

/-- **A stream that fails cuts the run of a script short, and corrupts nothing.** Let one stream
take `n` bytes and refuse more for a reason. It takes just the beginning of what it takes without
the limit, and the run fails with this reason exactly if bytes are left over; else the limit makes
no difference. A flush that fails is reported by a filter only, behind all of its output, and an
input that cannot be read leaves both streams empty. What the process reports of an output that
refuses a byte or cannot be flushed is the reason, in the latter case with the step that failed. -/
theorem run_ofOptions_truncates (o : Options) (input : Except String Bytes)
    (flushing : Except String Unit) (k : Channel) (n : Nat) (refusal : String) :
    let s : Streams := ⟨input, none, none, flushing⟩
    let whole := (Script.ofOptions o).run s
    let cut := (Script.ofOptions o).run (s.setRoom k (some ⟨n, refusal⟩))
    cut.taken k = (whole.taken k).take n ∧
      (∀ k', cut.taken k' <+: whole.taken k') ∧
      (∀ reason, cut.result = .error (.full reason) ↔
        reason = refusal ∧ n < (whole.taken k).length) ∧
      (n < (whole.taken k).length ∨ cut = whole) ∧
      (∀ reason, cut.result = .error (.flush reason) ↔ (whole.taken k).length ≤ n ∧
        flushing = .error reason ∧ o.Filters ∧ ∃ bytes, input = .ok bytes) ∧
      (∀ reason, cut.result = .error (.input reason) ↔ o.Filters ∧ input = .error reason) ∧
      (∀ reason, cut.result = .error (.input reason) ↔
        cut = ⟨[], [], true, .error (.input reason)⟩) ∧
      (k = .output → n < whole.output.length → cut.toExit =
        ⟨whole.output.take n, Bytes.ofString (refusal ++ "\n"), cut.inputRead, .trouble⟩) ∧
      ∀ reason, cut.result = .error (.flush reason) → cut.toExit =
        ⟨whole.output, Bytes.ofString ("writing matches: " ++ reason ++ "\n"), true,
          .trouble⟩ := by
  intro s whole cut
  have hs : ∀ k, s.room k = none := fun k => by cases k <;> rfl
  have hcut : CutAt k n refusal whole cut := Script.run_cutAt _ (hs k) n
  have hinput : ∀ reason,
      cut.result = .error (.input reason) ↔ o.Filters ∧ input = .error reason := fun _ =>
    Script.result_ofOptions_setRoom_eq_input_iff hs
  refine ⟨hcut.taken, hcut.begins, fun _ => hcut.result_eq_full_iff (Script.run_ne_full _ hs), ?_,
    ?_, hinput, ?_, ?_, ?_⟩
  · exact (Nat.lt_or_ge n _).imp_right hcut.eq_of_le
  · intro reason
    rw [hcut.result_eq_error_iff (f := .flush reason) nofun,
      Script.result_ofOptions_eq_flush_iff hs]
  · intro reason
    constructor
    · intro h
      obtain ⟨ho, hi⟩ := (hinput reason).1 h
      exact Script.run_ofOptions_of_unreadable ho ((Streams.input_setRoom s k _).trans hi)
    · intro h
      rw [h]
  · rintro rfl hlt
    exact hcut.toExit_of_lt hlt (Script.output_or_errors_ofOptions_eq_nil hs o)
  · intro reason h
    have hwhole := (hcut.result_eq_error_iff (f := .flush reason) nofun).1 h
    rw [hcut.eq_of_le hwhole.1]
    exact Script.toExit_ofOptions_of_flush hs hwhole.2

end ByteRegex.Cli
