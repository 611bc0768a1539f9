import ByteRegex.Pattern.Phrase

/-! # Reading with a cursor

The readers once more, as they work on a whole pattern. A cursor moves over its bytes, and a reader
that needs another one starts it where the cursor stands. That this ends is not built in: readers
may be started within each other down to some depth, and a reading that goes deeper has no outcome.
A reading that never ends has none at any depth. The cursor keeps a list of the readers that were
started, and of the places where they were. -/

namespace ByteRegex

/-- A reader, with what it goes on from. `branches`, `factors`, `stars` and `members` are loops, and
each of their rounds is a reader of its own. -/
inductive Reader where
  | pattern
  | alternation
  | branches (left : Regex)
  | branch
  | factors (left : Regex)
  | factor
  | stars (value : Regex)
  | atom
  | members (s : ByteClass)

structure Call where
  reader : Reader
  position : Nat

structure Cursor where
  position : Nat
  calls : List Call

/-- The cursor, with one more reader started where it stands. -/
def Cursor.noting (c : Cursor) (r : Reader) : Cursor := ⟨c.position, c.calls ++ [⟨r, c.position⟩]⟩

/-- A computation that moves the cursor. It may fail, and it may have no outcome. -/
abbrev Reading := ExceptT Cause (StateT Cursor Option)

namespace Reading

variable {α : Type}

/-- What a reading comes to from a cursor on; `none` if it has no outcome. -/
def startingAt (x : Reading α) (c : Cursor) : Option (Except Cause α × Cursor) := x.run.run c

def never : Reading α := ExceptT.mk fun _ => none

/-- The byte at the cursor. -/
def peek (pattern : Bytes) : Reading (Option UInt8) := do return pattern[(← get).position]?

def advance : Reading Unit := modify fun c => ⟨c.position + 1, c.calls⟩

/-- The byte at the cursor, which moves on behind it. -/
def next (pattern : Bytes) : Reading (Option UInt8) := do
  match ← peek pattern with
  | some b =>
      advance
      return some b
  | none => return none

/-- Note that a reader is started. -/
def note (r : Reader) : Reading Unit := modify fun c => c.noting r

end Reading

namespace Reader

open Reading

/-- What a reader does, given how to start readers. -/
def body (pattern : Bytes) (start : Reader → Reading Regex) : Reader → Reading Regex
  | .pattern => do
      let value ← start .alternation
      match ← peek pattern with
      | some b => throw (.unexpected b)
      | none => return value
  | .alternation => do start (.branches (← start .branch))
  | .branches left => do
      if (← peek pattern) = some Ascii.bar then
        advance
        start (.branches (left.union (← start .branch)))
      else return left
  | .branch => start (.factors .epsilon)
  | .factors left => do
      if (← peek pattern).any Phrase.startsAtom then
        start (.factors (left.append (← start .factor)))
      else return left
  | .factor => do start (.stars (← start .atom))
  | .stars value => do
      if (← peek pattern) = some Ascii.asterisk then
        advance
        start (.stars value.many)
      else return value
  | .atom => do
      match ← peek pattern with
      | none => throw .atomExpected
      | some b =>
          if b = Ascii.lparen then
            advance
            let inside ← start .alternation
            if (← peek pattern) = some Ascii.rparen then
              advance
              return inside
            else throw .unclosedGroup
          else if b = Ascii.lbracket then
            advance
            start (.members .empty)
          else if b = Ascii.backslash then
            advance
            match ← next pattern with
            | some c => return .literal c
            | none => throw .danglingEscape
          else if Phrase.startsAtom b then
            advance
            return .literal b
          else throw .atomExpected
  | .members s => do
      match ← next pattern with
      | none => throw .unclosedClass
      | some b =>
          if b = Ascii.rbracket then return .ofClass s
          else if b = Ascii.backslash then
            match ← next pattern with
            | some c => start (.members (s.insert c))
            | none => throw .danglingEscape
          else start (.members (s.insert b))

/-- Start a reader, and within it others, less than `depth` deep. -/
def read (pattern : Bytes) : Nat → Reader → Reading Regex
  | 0, _ => never
  | depth + 1, r => do
      note r
      r.body pattern (read pattern depth)

end Reader

end ByteRegex
