import ByteRegex.Bytes

/-! # Bytes in messages

A message shows a byte as itself where it is printable ASCII, and with a backslash where it is not
or would be mistaken for something else. -/

namespace ByteRegex.Escape

/-- Tab, carriage return, newline, both quotes and the backslash have escapes of two characters;
other bytes that are not printable are a backslash, `x` and two digits. -/
def byte (b : UInt8) : Bytes :=
  if b = 0x09 then [Ascii.backslash, 0x74]
  else if b = 0x0D then [Ascii.backslash, 0x72]
  else if b = Ascii.newline then [Ascii.backslash, 0x6E]
  else if b = Ascii.quote ∨ b = Ascii.doubleQuote ∨ b = Ascii.backslash then [Ascii.backslash, b]
  else if 0x20 ≤ b ∧ b ≤ 0x7E then [b]
  else Ascii.backslash :: Ascii.letterX :: hexPair b

def bytes (bs : Bytes) : Bytes := bs.flatMap byte

/-- A text in double quotes, with a backslash before each double quote and each backslash. -/
def quoted (bs : Bytes) : Bytes :=
  Ascii.doubleQuote ::
    (bs.flatMap fun b =>
      if b = Ascii.doubleQuote ∨ b = Ascii.backslash then [Ascii.backslash, b] else [b]) ++
    [Ascii.doubleQuote]

end ByteRegex.Escape
