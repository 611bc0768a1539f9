import ByteRegex.Pattern.Fault
import ByteRegex.Text.Utf8

/-! # Compile errors

A compile error names its cause and offset and shows a window of the pattern around the offset,
read as UTF-8. -/

namespace ByteRegex

/-- How far a window reaches to each side of the offset. -/
def Window.radius : Nat := 10

namespace Window

variable (pattern : Bytes) (offset : Nat)

/-- Where the window ends: not beyond the pattern. -/
def stop : Nat := min (offset + radius) pattern.length

/-- Where the window starts: not before the pattern, and not behind its end. -/
def start : Nat := min (offset - radius) (stop pattern offset)

/-- The bytes of the pattern in the window. -/
def bytes : Bytes := (pattern.take (stop pattern offset)).drop (start pattern offset)

theorem start_le_stop : start pattern offset ≤ stop pattern offset := Nat.min_le_right ..

theorem stop_le_length : stop pattern offset ≤ pattern.length := Nat.min_le_right ..

@[simp] theorem length_bytes :
    (bytes pattern offset).length = stop pattern offset - start pattern offset := by
  simp [bytes, Nat.min_eq_left (stop_le_length pattern offset)]

end Window

structure CompileError where
  cause : Cause
  offset : Nat
  context : String
deriving DecidableEq

namespace CompileError

/-- The error that a cause at an offset of a pattern makes. -/
def within (pattern : Bytes) (cause : Cause) (offset : Nat) : CompileError :=
  ⟨cause, offset, Utf8.decode (Window.bytes pattern offset)⟩

def ofFault (pattern : Bytes) (f : Fault) : CompileError :=
  within pattern f.cause (f.offset pattern)

def message (e : CompileError) : String :=
  "parse error at pos " ++ toString e.offset ++ ": " ++ e.cause.message ++
    "\ncontext: \"" ++ e.context ++ "\""

end CompileError

end ByteRegex
