import ByteRegex.Pattern.Basic
import ByteRegex.Regex.Render

/-! # Journal

What compiling and searching report while they work. Compiling reports its outcome for debugging,
and a search traces each start offset that it tries. Matching a whole text reports nothing. -/

namespace ByteRegex

inductive Level where
  | info
  | debug
  | trace
deriving DecidableEq

/-- The higher the rank, the more detailed the record. -/
def Level.rank : Level → Nat
  | .info => 0
  | .debug => 1
  | .trace => 2

structure Record where
  level : Level
  message : String
deriving DecidableEq

namespace Record

/-- Whether a record is kept under a limit; without one, none is. -/
def kept : Option Level → Record → Bool
  | none, _ => false
  | some limit, r => r.level.rank ≤ limit.rank

/-- The record of a start offset that is tried. -/
def tryingOffset (n : Nat) : Record := ⟨.trace, "search: trying offset " ++ toString n⟩

end Record

/-- The source of a pattern as the records show it. -/
def Pattern.shown (source : Bytes) : String := (Escape.quoted (Escape.bytes source)).toAscii

/-- The record of compiling a pattern. -/
def Pattern.compileRecord (source : Bytes) : Record :=
  match Pattern.compile source with
  | .ok p => ⟨.debug, "compiled " ++ shown source ++ " to " ++ p.regex.text ++
      " (" ++ toString p.regex.size ++ " nodes)"⟩
  | .error e => ⟨.debug, "failed to compile " ++ shown source ++ ": " ++ e.message⟩

/-- The records of compiling what may be absent: nothing is said of an absent pattern. -/
def Pattern.compileRecords : Option Bytes → List Record
  | some source => [compileRecord source]
  | none => []

/-- One record for each offset that a search tries. -/
def Regex.searchRecords (r : Regex) (w : Bytes) : List Record :=
  (r.search w).tried.map fun n => ⟨.trace, "search: trying offset " ++ toString n⟩

theorem Regex.searchRecords_eq_map (r : Regex) (w : Bytes) :
    r.searchRecords w = (r.search w).tried.map Record.tryingOffset := rfl

end ByteRegex
