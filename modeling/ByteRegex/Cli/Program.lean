import ByteRegex.Cli.Arguments
import ByteRegex.Cli.Script
import ByteRegex.Lines

/-! # The program

The script of an invocation. With a text it prints a verdict on the text; without one it filters
the lines of the input. A pattern that does not compile is reported on the error stream and nothing
is read. -/

namespace ByteRegex.Cli

/-- A line of the input with its number, counted from one. -/
structure NumberedLine where
  number : Nat
  line : Bytes
deriving DecidableEq

/-- The lines that count as matches, with their numbers among all lines. -/
def Options.hits (o : Options) (p : Pattern) (input : Bytes) : List NumberedLine :=
  (((Lines.split input).zipIdx 1).filter fun l => o.decides p l.1).map fun l => ⟨l.2, l.1⟩

/-- The pieces in which a line is printed. -/
def Options.pieces (o : Options) (l : NumberedLine) : List Bytes :=
  (if o.numbered then [Bytes.ofString (toString l.number), [Ascii.colon]] else []) ++
    [l.line, [Ascii.newline]]

def verdict (found : Bool) : Bytes := Bytes.ofString (if found then "MATCH\n" else "NO MATCH\n")

def compileReport (e : CompileError) : Bytes :=
  Bytes.ofString ("compile error: " ++ e.message ++ "\n")

namespace Script

/-- Judge a text. -/
def judge (o : Options) (p : Pattern) (text : Bytes) : Script :=
  let found := o.decides p text
  .write .output (verdict found) (.exit (.ofFound found))

/-- Print the lines of the input that match. -/
def filter (o : Options) (p : Pattern) : Script :=
  .read fun input =>
    let hits := o.hits p input
    writeAll (hits.flatMap o.pieces) (.flush (.exit (.ofFound (!hits.isEmpty))))

def ofOptions (o : Options) : Script :=
  match Pattern.compile? (o.pattern.map Bytes.ofString) with
  | .error e => .write .errors (compileReport e) (.exit .trouble)
  | .ok p =>
      match o.text with
      | some text => judge o p (Bytes.ofString text)
      | none => filter o p

/-- The script of a whole invocation, which also reports arguments it does not understand. -/
def ofArguments (args : List String) : Script :=
  match Options.ofArguments args with
  | .error e => .write .errors (Bytes.ofString (e.message ++ "\n")) (.exit .trouble)
  | .ok o => ofOptions o

end Script

/-- What a process leaves behind. -/
structure Exit where
  output : Bytes
  errors : Bytes
  inputRead : Bool
  status : Status
deriving DecidableEq

/-- A failure is reported on the error stream. -/
def Outcome.toExit (o : Outcome) : Exit :=
  match o.result with
  | .ok status => ⟨o.output, o.errors, o.inputRead, status⟩
  | .error f =>
      ⟨o.output, o.errors ++ Bytes.ofString (f.message ++ "\n"), o.inputRead, .trouble⟩

/-- The streams of a process that can read its input and write without limit. -/
def Streams.unlimited (input : Bytes) : Streams := ⟨.ok input, none, none, .ok ()⟩

/-- The program on some arguments and some input. -/
def program (args : List String) (input : Bytes) : Exit :=
  ((Script.ofArguments args).run (.unlimited input)).toExit

end ByteRegex.Cli
