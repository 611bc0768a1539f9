import ByteRegex.Cli.Program
import ByteRegex.Proofs.Script

/-! # What an invocation does

An invocation writes to one stream at most: to the error stream if it does not understand its
arguments or its pattern, else to the output. It asks for its input only if there is no text to
judge. What it prints of the input are the lines that the decision picks, each with its number among
all lines, and its exit code tells whether there are any. -/

namespace ByteRegex.Cli

variable {o : Options} {p : Pattern} {s : Streams}

/-! ## The lines of a filter -/

namespace Options

/-- A line as it is printed. -/
def printed (o : Options) (l : NumberedLine) : Bytes :=
  (if o.numbered then Bytes.ofString (toString l.number) ++ [Ascii.colon] else []) ++
    (l.line ++ [Ascii.newline])

theorem flatten_pieces (o : Options) (l : NumberedLine) : (o.pieces l).flatten = o.printed l := by
  unfold pieces printed
  split <;> simp

theorem printed_ne_nil (o : Options) (l : NumberedLine) : o.printed l ≠ [] := by
  simp [printed]

theorem flatten_pieces_hits (o : Options) (p : Pattern) (input : Bytes) :
    ((o.hits p input).flatMap o.pieces).flatten = (o.hits p input).flatMap o.printed := by
  rw [List.flatMap_def, List.flatten_flatten, List.map_map, List.flatMap_def]
  simp only [Function.comp_def, flatten_pieces]

theorem flatMap_printed_eq_nil_iff {ls : List NumberedLine} :
    ls.flatMap o.printed = [] ↔ ls = [] := by
  rw [List.flatMap_eq_nil_iff, List.eq_nil_iff_forall_not_mem]
  simp only [printed_ne_nil, imp_false]

/-- Numbering, picking and printing lines, as one pass that counts on from `k`. -/
theorem flatMap_printed_filter_zipIdx (o : Options) (d : Bytes → Bool) (ls : List Bytes) (k : Nat) :
    (((ls.zipIdx k).filter fun l => d l.1).map fun l => ⟨l.2, l.1⟩).flatMap o.printed =
      (ls.mapIdx fun i l => if d l then o.printed ⟨i + k, l⟩ else []).flatten := by
  induction ls generalizing k with
  | nil => rfl
  | cons l ls ih =>
      have hcount : ∀ i, i + 1 + k = i + (k + 1) := fun i => by omega
      simp only [List.zipIdx_cons, List.mapIdx_cons, List.flatten_cons, hcount, Nat.zero_add,
        List.filter_cons]
      rw [← ih (k + 1)]
      split
      · rw [List.map_cons, List.flatMap_cons]
      · rw [List.nil_append]

end Options

/-! ## Runs on streams without limit -/

namespace Script

theorem run_complaint (h : s.room .errors = none) (complaint : Bytes) :
    (write .errors complaint (.exit .trouble)).run s =
      ⟨[], complaint, false, .ok .trouble⟩ := by
  rw [run_write h, run, Outcome.preceded, Outcome.finished, List.append_nil]

theorem run_judge (h : s.room .output = none) (o : Options) (p : Pattern) (text : Bytes) :
    (judge o p text).run s =
      ⟨verdict (o.decides p text), [], false, .ok (.ofFound (o.decides p text))⟩ := by
  rw [judge, run_write h, run, Outcome.preceded, Outcome.finished, List.append_nil]

theorem run_filter (h : s.room .output = none) (o : Options) (p : Pattern) {input : Bytes}
    (hinput : s.input = .ok input) :
    (filter o p).run s =
      ⟨(o.hits p input).flatMap o.printed, [], true,
        (s.flushing.mapError .flush).map fun _ => .ofFound !(o.hits p input).isEmpty⟩ := by
  rw [filter, run, hinput]
  simp only [run_writeAll h, Options.flatten_pieces_hits, run]
  cases s.flushing <;> simp only [Outcome.preceded, Outcome.finished, List.append_nil] <;> rfl

theorem run_filter_of_error (o : Options) (p : Pattern) {reason : String}
    (hinput : s.input = .error reason) :
    (filter o p).run s = ⟨[], [], true, .error (.input reason)⟩ := by
  rw [filter, run, hinput]
  rfl

end Script

/-! ## The program -/

theorem Outcome.toExit_ok (output errors : Bytes) (inputRead : Bool) (status : Status) :
    toExit ⟨output, errors, inputRead, .ok status⟩ = ⟨output, errors, inputRead, status⟩ := rfl

section

variable {args : List String}

theorem program_of_usageError {e : UsageError} (h : Options.ofArguments args = .error e)
    (input : Bytes) :
    program args input = ⟨[], Bytes.ofString (e.message ++ "\n"), false, .trouble⟩ := by
  rw [program, Script.ofArguments, h, Script.run_complaint rfl, Outcome.toExit_ok]

theorem program_of_compileError {e : CompileError} (h : Options.ofArguments args = .ok o)
    (he : Pattern.compile? (o.pattern.map Bytes.ofString) = .error e) (input : Bytes) :
    program args input = ⟨[], compileReport e, false, .trouble⟩ := by
  rw [program, Script.ofArguments, h]
  simp only [Script.ofOptions, he]
  rw [Script.run_complaint rfl, Outcome.toExit_ok]

theorem program_of_text {text : String} (h : Options.ofArguments args = .ok o)
    (hp : Pattern.compile? (o.pattern.map Bytes.ofString) = .ok p) (ht : o.text = some text)
    (input : Bytes) :
    program args input = ⟨verdict (o.decides p (Bytes.ofString text)), [], false,
      .ofFound (o.decides p (Bytes.ofString text))⟩ := by
  rw [program, Script.ofArguments, h]
  simp only [Script.ofOptions, hp, ht]
  rw [Script.run_judge rfl, Outcome.toExit_ok]

theorem program_of_lines (h : Options.ofArguments args = .ok o)
    (hp : Pattern.compile? (o.pattern.map Bytes.ofString) = .ok p) (ht : o.text = none)
    (input : Bytes) :
    program args input = ⟨(o.hits p input).flatMap o.printed, [], true,
      .ofFound !(o.hits p input).isEmpty⟩ := by
  rw [program, Script.ofArguments, h]
  simp only [Script.ofOptions, hp, ht]
  rw [Script.run_filter rfl o p rfl]
  exact Outcome.toExit_ok ..

end

theorem Options.decides_eq (o : Options) (p : Pattern) :
    o.decides p = if o.whole then p.accepts else p.occursIn := by
  funext w
  unfold Options.decides
  split <;> rfl

theorem Options.flatMap_printed_hits (o : Options) (p : Pattern) (input : Bytes) :
    (o.hits p input).flatMap o.printed =
      ((Lines.split input).mapIdx fun i l =>
        if o.decides p l then o.printed ⟨i + 1, l⟩ else []).flatten :=
  o.flatMap_printed_filter_zipIdx (o.decides p) (Lines.split input) 1

/-- The exit code of a filter tells whether anything has been printed. -/
theorem Options.code_ofFound_hits (o : Options) (p : Pattern) (input : Bytes) :
    (Status.ofFound !(o.hits p input).isEmpty).code =
      if (o.hits p input).flatMap o.printed = [] then 1 else 0 := by
  simp only [flatMap_printed_eq_nil_iff]
  cases o.hits p input <;> rfl

/-- What is seen of a process from outside: its output, its errors, whether it has asked for its
input, and its exit code. -/
def Exit.observed (x : Exit) : Bytes × Bytes × Bool × Nat :=
  (x.output, x.errors, x.inputRead, x.status.code)

/-- **What an invocation does, seen from outside.** Arguments that are not understood and a pattern
that does not compile are reported on the error stream, and the exit code is 2. A text gets a
verdict. Without one, each line of the input is printed in its place if the same decision picks it,
with its number among all lines if this is asked for, and the exit code tells whether anything has
been printed. The input is asked for in this last case only, and one of the two streams stays
empty. -/
theorem program_observed (args : List String) (input : Bytes) :
    (program args input).observed =
        (match Options.ofArguments args with
        | .error e => ([], Bytes.ofString (e.message ++ "\n"), false, 2)
        | .ok o =>
          match Pattern.compile? (o.pattern.map Bytes.ofString) with
          | .error e => ([], Bytes.ofString ("compile error: " ++ e.message ++ "\n"), false, 2)
          | .ok p =>
            let decision := if o.whole then p.accepts else p.occursIn
            match o.text with
            | some text =>
              if decision (Bytes.ofString text) then (Bytes.ofString "MATCH\n", [], false, 0)
              else (Bytes.ofString "NO MATCH\n", [], false, 1)
            | none =>
              let printed := (Lines.split input).mapIdx fun i l =>
                if decision l then
                  (if o.numbered then Bytes.ofString (toString (i + 1)) ++ [Ascii.colon] else []) ++
                    (l ++ [Ascii.newline])
                else []
              (printed.flatten, [], true, if printed.flatten = [] then 1 else 0)) ∧
      ((program args input).output = [] ∨ (program args input).errors = []) := by
  cases h : Options.ofArguments args with
  | error e =>
      rw [program_of_usageError h]
      exact ⟨rfl, .inl rfl⟩
  | ok o =>
      cases hp : Pattern.compile? (o.pattern.map Bytes.ofString) with
      | error e =>
          rw [program_of_compileError h hp]
          refine ⟨?_, .inl rfl⟩
          simp only [hp, Exit.observed, compileReport, Status.code]
      | ok p =>
          simp only [hp, ← Options.decides_eq]
          cases ht : o.text with
          | some text =>
              rw [program_of_text h hp ht]
              refine ⟨?_, .inr rfl⟩
              simp only [Exit.observed, verdict, Status.ofFound]
              split
              · rw [Status.code]
              · rw [Status.code]
          | none =>
              rw [program_of_lines h hp ht]
              refine ⟨?_, .inr rfl⟩
              rw [Exit.observed]
              simp only [Options.code_ofFound_hits, Options.flatMap_printed_hits, Options.printed]

/-- Skipped and empty lines count. -/
example : program ["-n", "-E", "ab"] (Bytes.ofString "b\n\nab\nxab") =
    ⟨Bytes.ofString "3:ab\n4:xab\n", [], true, .found⟩ := by decide +kernel

end ByteRegex.Cli
