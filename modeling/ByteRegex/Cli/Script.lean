import ByteRegex.Bytes

/-! # Scripts

A script is a program as data: what it writes, piece by piece, where it asks for the input, and the
status with which it exits. Running it on given streams tells what the streams take and how it
ends; the same script is performed on the streams of the process. -/

namespace ByteRegex.Cli

inductive Status where
  | found
  | notFound
  | trouble
deriving DecidableEq

namespace Status

def code : Status → Nat
  | .found => 0
  | .notFound => 1
  | .trouble => 2

def ofFound (found : Bool) : Status := if found then .found else .notFound

end Status

inductive Channel where
  | output
  | errors
deriving DecidableEq

inductive Script where
  | exit (status : Status)
  | write (target : Channel) (piece : Bytes) (next : Script)
  | flush (next : Script)
  | read (next : Bytes → Script)

namespace Script

/-- Write some pieces to the output, one after the other. -/
def writeAll (pieces : List Bytes) (next : Script) : Script := pieces.foldr (.write .output) next

@[simp] theorem writeAll_nil (next : Script) : writeAll [] next = next := rfl

@[simp] theorem writeAll_cons (piece : Bytes) (pieces : List Bytes) (next : Script) :
    writeAll (piece :: pieces) next = .write .output piece (writeAll pieces next) := rfl

end Script

/-- What can fail while a script runs, with the reason that the stream gives. -/
inductive Failure where
  | input (reason : String)
  | full (reason : String)
  | flush (reason : String)
deriving DecidableEq

def Failure.message : Failure → String
  | .input reason | .full reason => reason
  | .flush reason => "writing matches: " ++ reason

/-- How many bytes a stream still takes, and why it refuses more. -/
structure Limit where
  bytes : Nat
  reason : String

/-- What a stream still takes; without a limit it takes all. -/
abbrev Room := Option Limit

/-- The part of a piece that a stream takes, and the room left behind it. If a byte of the piece is
refused, there is a reason instead. -/
def Room.take : Room → Bytes → Bytes × Except String Room
  | none, piece => (piece, .ok none)
  | some ⟨n, reason⟩, piece =>
      (piece.take n,
        if piece.length ≤ n then .ok (some ⟨n - piece.length, reason⟩) else .error reason)

/-- The streams a script runs on. -/
structure Streams where
  /-- The whole input, or why it cannot be read. -/
  input : Except String Bytes
  output : Room
  errors : Room
  /-- Why flushing the output fails, if it does. -/
  flushing : Except String Unit

/-- What a run leaves behind: what each stream has taken, whether the input was asked for, and how
the run ended. -/
structure Outcome where
  output : Bytes
  errors : Bytes
  inputRead : Bool
  result : Except Failure Status

namespace Outcome

def finished (result : Except Failure Status) : Outcome := ⟨[], [], false, result⟩

/-- An outcome with a piece in front of what one of its streams has taken. -/
def preceded (target : Channel) (piece : Bytes) (o : Outcome) : Outcome :=
  match target with
  | .output => { o with output := piece ++ o.output }
  | .errors => { o with errors := piece ++ o.errors }

end Outcome

namespace Streams

def room (s : Streams) : Channel → Room
  | .output => s.output
  | .errors => s.errors

def setRoom (s : Streams) (target : Channel) (room : Room) : Streams :=
  match target with
  | .output => { s with output := room }
  | .errors => { s with errors := room }

end Streams

/-- Run a script on streams. A write that is not taken whole ends the run, and so does an input
that cannot be read or an output that cannot be flushed. -/
def Script.run : Script → Streams → Outcome
  | .exit status, _ => .finished (.ok status)
  | .write target piece next, s =>
      match (s.room target).take piece with
      | (taken, .ok room) => (next.run (s.setRoom target room)).preceded target taken
      | (taken, .error reason) =>
          (Outcome.finished (.error (.full reason))).preceded target taken
  | .flush next, s =>
      match s.flushing with
      | .ok _ => next.run s
      | .error reason => .finished (.error (.flush reason))
  | .read next, s =>
      match s.input with
      | .ok input => { (next input).run s with inputRead := true }
      | .error reason => { Outcome.finished (.error (.input reason)) with inputRead := true }

end ByteRegex.Cli
