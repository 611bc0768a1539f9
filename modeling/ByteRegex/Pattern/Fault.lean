import ByteRegex.Text.Escape

/-! # What can be wrong with a pattern -/

namespace ByteRegex

inductive Cause where
  | missing
  | unexpected (b : UInt8)
  | atomExpected
  | unclosedGroup
  | unclosedClass
  | danglingEscape
deriving DecidableEq

namespace Cause

def message : Cause → String
  | .missing => "pattern is missing"
  | .unexpected b => "unexpected character '" ++ (Escape.byte b).toAscii ++ "'"
  | .atomExpected => "expected atom"
  | .unclosedGroup => "expected ')'"
  | .unclosedClass => "unterminated character class (missing ']')"
  | .danglingEscape => "dangling escape at end of pattern"

end Cause

/-- Where reading a pattern stopped: the cause, and the bytes not yet read. -/
structure Fault where
  cause : Cause
  unread : Bytes
deriving DecidableEq

/-- The offset of a fault within the pattern it was found in. -/
def Fault.offset (f : Fault) (pattern : Bytes) : Nat := pattern.length - f.unread.length

end ByteRegex
