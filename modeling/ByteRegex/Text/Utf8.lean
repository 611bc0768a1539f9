import ByteRegex.Bytes

/-! # Reading UTF-8 that may be broken

Any list of bytes is read as text. Where a well-formed sequence breaks off, its beginning is read
as one replacement character, and so is each byte that begins no sequence. The reader goes byte by
byte and holds at most one unfinished character. -/

namespace ByteRegex.Utf8

/-- What stands in the text for bytes that are not well-formed. -/
def replacement : Char := Char.ofNat 0xFFFD

/-- A character whose first bytes have been read: the number they spell, the range in which the
next byte has to lie, and how many bytes come after that one. -/
structure Pending where
  value : Nat
  low : UInt8
  high : UInt8
  more : Nat
deriving DecidableEq

/-- A byte where a character begins: the text it completes, and what it leaves pending. The second
byte is in a narrower range behind `E0`, `ED`, `F0` and `F4`, which keeps out overlong forms,
surrogates and numbers beyond the last character. -/
def first (b : UInt8) : List Char × Option Pending :=
  if b < 0x80 then ([Char.ofNat b.toNat], none)
  else if b < 0xC2 then ([replacement], none)
  else if b < 0xE0 then ([], some ⟨b.toNat - 0xC0, 0x80, 0xBF, 0⟩)
  else if b < 0xF0 then
    ([], some ⟨b.toNat - 0xE0, if b = 0xE0 then 0xA0 else 0x80, if b = 0xED then 0x9F else 0xBF, 1⟩)
  else if b < 0xF5 then
    ([], some ⟨b.toNat - 0xF0, if b = 0xF0 then 0x90 else 0x80, if b = 0xF4 then 0x8F else 0xBF, 2⟩)
  else ([replacement], none)

/-- One byte: the text it completes, and what is pending behind it. -/
def step : Option Pending → UInt8 → List Char × Option Pending
  | none, b => first b
  | some p, b =>
      if p.low ≤ b ∧ b ≤ p.high then
        let value := p.value * 64 + (b.toNat - 0x80)
        match p.more with
        | 0 => ([Char.ofNat value], none)
        | more + 1 => ([], some ⟨value, 0x80, 0xBF, more⟩)
      else (replacement :: (first b).1, (first b).2)

def decodeFrom : Option Pending → Bytes → List Char
  | none, [] => []
  | some _, [] => [replacement]
  | pending, b :: bs => (step pending b).1 ++ decodeFrom (step pending b).2 bs

/-- The text that some bytes spell, broken sequences replaced. -/
def decode (bs : Bytes) : String := String.ofList (decodeFrom none bs)

@[simp] theorem decode_nil : decode [] = "" := rfl

end ByteRegex.Utf8
