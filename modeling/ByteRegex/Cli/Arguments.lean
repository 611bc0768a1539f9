import ByteRegex.Pattern.Basic

/-! # Arguments

Two arguments of which the first is not `-E` are a pattern and a text, whatever they look like.
Otherwise flags come first, `-E` ends them, and a pattern and a text may follow. -/

namespace ByteRegex.Cli

structure Options where
  /-- The pattern, unless `-E` stands last. -/
  pattern : Option String
  /-- The text to judge; without one the lines of the input are filtered. -/
  text : Option String
  /-- Whether the whole of a text or line has to match. -/
  whole : Bool
  /-- Whether lines are printed with their numbers. -/
  numbered : Bool
deriving DecidableEq

inductive UsageError where
  /-- There is no `-E`. -/
  | incomplete
  | unexpected (argument : String)
  | tooMany
deriving DecidableEq

def usage : String :=
  "usage: deriv-grep PATTERN TEXT\n       deriv-grep [-x] [-n] -E PATTERN [TEXT]"

def UsageError.message : UsageError → String
  | .incomplete => usage
  | .unexpected argument => "unexpected argument '" ++ argument ++ "'\n" ++ usage
  | .tooMany => "too many arguments\n" ++ usage

namespace Options

/-- The arguments behind `-E`. -/
def operands (whole numbered : Bool) : List String → Except UsageError Options
  | [] => .ok ⟨none, none, whole, numbered⟩
  | [pattern] => .ok ⟨some pattern, none, whole, numbered⟩
  | [pattern, text] => .ok ⟨some pattern, some text, whole, numbered⟩
  | _ :: _ :: _ :: _ => .error .tooMany

/-- Flags up to `-E`, and the operands behind it. -/
def flagged (whole numbered : Bool) : List String → Except UsageError Options
  | [] => .error .incomplete
  | a :: args =>
      if a = "-x" then flagged true numbered args
      else if a = "-n" then flagged whole true args
      else if a = "-E" then operands whole numbered args
      else .error (.unexpected a)

def ofArguments (args : List String) : Except UsageError Options :=
  match args with
  | [pattern, text] =>
      if pattern = "-E" then flagged false false args
      else .ok ⟨some pattern, some text, false, false⟩
  | _ => flagged false false args

/-- Whether a text or line counts as a match. -/
def decides (o : Options) (p : Pattern) (w : Bytes) : Bool :=
  if o.whole then p.accepts w else p.occursIn w

end Options

end ByteRegex.Cli
