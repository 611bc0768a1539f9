import ByteRegex.Pattern.Fault

/-! # Checking a pattern in one pass

Whether a pattern is well-formed can be told without reading its expression, in one pass from left
to right that keeps no more than a count of open groups, where the next byte stands, and whether
the current branch is still without an atom. -/

namespace ByteRegex.Scan

/-- Where the next byte stands. -/
inductive Place where
  | outside
  | escaped
  | inClass
  | escapedInClass
deriving DecidableEq

structure State where
  /-- How many groups are open. -/
  depth : Nat
  place : Place
  /-- Whether the current branch has no atom yet. -/
  fresh : Bool
deriving DecidableEq

namespace State

def start : State := ⟨0, .outside, true⟩

/-- A byte outside classes and not behind a backslash. A `)` needs an open group, and a `*` an
atom to repeat. -/
def outside (depth : Nat) (fresh : Bool) (b : UInt8) : Except Cause State :=
  if b = Ascii.rparen then
    match depth with
    | 0 => .error (.unexpected b)
    | depth + 1 => .ok ⟨depth, .outside, false⟩
  else if b = Ascii.asterisk then
    if fresh then .error (if depth = 0 then .unexpected b else .unclosedGroup)
    else .ok ⟨depth, .outside, false⟩
  else if b = Ascii.lparen then .ok ⟨depth + 1, .outside, true⟩
  else if b = Ascii.bar then .ok ⟨depth, .outside, true⟩
  else if b = Ascii.lbracket then .ok ⟨depth, .inClass, fresh⟩
  else if b = Ascii.backslash then .ok ⟨depth, .escaped, fresh⟩
  else .ok ⟨depth, .outside, false⟩

def next (s : State) (b : UInt8) : Except Cause State :=
  match s.place with
  | .outside => outside s.depth s.fresh b
  | .escaped => .ok ⟨s.depth, .outside, false⟩
  | .inClass =>
      if b = Ascii.rbracket then .ok ⟨s.depth, .outside, false⟩
      else if b = Ascii.backslash then .ok ⟨s.depth, .escapedInClass, s.fresh⟩
      else .ok s
  | .escapedInClass => .ok ⟨s.depth, .inClass, s.fresh⟩

/-- What is wrong if the pattern ends here. -/
def ending (s : State) : Option Cause :=
  match s.place with
  | .escaped | .escapedInClass => some .danglingEscape
  | .inClass => some .unclosedClass
  | .outside => if s.depth = 0 then none else some .unclosedGroup

end State

/-- The fault of the bytes that remain, if there is one. -/
def run (s : State) : Bytes → Option Fault
  | [] => s.ending.map fun cause => ⟨cause, []⟩
  | b :: p =>
      match s.next b with
      | .error cause => some ⟨cause, b :: p⟩
      | .ok s => run s p

/-- The fault of a pattern, if there is one. -/
def fault? (pattern : Bytes) : Option Fault := run .start pattern

end ByteRegex.Scan
