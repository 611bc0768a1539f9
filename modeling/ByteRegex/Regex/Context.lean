import ByteRegex.Regex.Basic

/-! # Contexts

An expression with a hole, at any depth. Filling the hole gives an expression. -/

namespace ByteRegex

inductive Regex.Context where
  | hole
  | altLeft (inner : Regex.Context) (right : Regex)
  | altRight (left : Regex) (inner : Regex.Context)
  | concatLeft (inner : Regex.Context) (right : Regex)
  | concatRight (left : Regex) (inner : Regex.Context)
  | star (inner : Regex.Context)

namespace Regex.Context

def fill : Context → Regex → Regex
  | .hole, r => r
  | .altLeft inner b, r => .alt (inner.fill r) b
  | .altRight a inner, r => .alt a (inner.fill r)
  | .concatLeft inner b, r => .concat (inner.fill r) b
  | .concatRight a inner, r => .concat a (inner.fill r)
  | .star inner, r => .star (inner.fill r)

@[simp] theorem fill_hole (r : Regex) : fill .hole r = r := rfl

end Regex.Context

end ByteRegex
