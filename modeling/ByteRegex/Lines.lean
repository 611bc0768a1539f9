import ByteRegex.Bytes

/-! # Lines

A newline ends a line. A last line without one is a line all the same, and behind a final newline
there is none. All other bytes belong to their line. -/

namespace ByteRegex.Lines

/-- The lines of some bytes, without their newlines. -/
def split (bs : Bytes) : List Bytes :=
  let pieces := bs.splitOn Ascii.newline
  if pieces.getLast? = some [] then pieces.dropLast else pieces

/-- Each line with a newline behind it. -/
def join (lines : List Bytes) : Bytes := lines.flatMap fun l => l ++ [Ascii.newline]

@[simp] theorem join_nil : join [] = [] := rfl

@[simp] theorem join_cons (l : Bytes) (ls : List Bytes) :
    join (l :: ls) = l ++ Ascii.newline :: join ls := by
  simp [join]

end ByteRegex.Lines
