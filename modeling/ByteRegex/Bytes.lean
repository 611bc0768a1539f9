/-! # Byte strings

Patterns, texts and everything a program reads or writes are lists of bytes. The bytes with a
meaning in patterns have names here. -/

namespace ByteRegex

abbrev Bytes := List UInt8

namespace Ascii

abbrev newline : UInt8 := 0x0A
abbrev quote : UInt8 := 0x27
abbrev doubleQuote : UInt8 := 0x22
abbrev lparen : UInt8 := 0x28
abbrev rparen : UInt8 := 0x29
abbrev asterisk : UInt8 := 0x2A
abbrev colon : UInt8 := 0x3A
abbrev lbracket : UInt8 := 0x5B
abbrev backslash : UInt8 := 0x5C
abbrev rbracket : UInt8 := 0x5D
abbrev bar : UInt8 := 0x7C
abbrev letterX : UInt8 := 0x78

end Ascii

/-- The lower-case hexadecimal digit of a value below sixteen. -/
def hexDigit (n : UInt8) : UInt8 := if n < 10 then 0x30 + n else 0x57 + n

/-- Two lower-case hexadecimal digits, the high one first. -/
def hexPair (b : UInt8) : Bytes := [hexDigit (b / 16), hexDigit (b % 16)]

namespace Bytes

/-- The UTF-8 form of a text. -/
def ofString (s : String) : Bytes := s.toList.flatMap String.utf8EncodeChar

/-- Each byte as the character of the same number. On ASCII bytes this undoes `ofString`. -/
def toAscii (bs : Bytes) : String := String.ofList (bs.map fun b => Char.ofNat b.toNat)

end Bytes

end ByteRegex
