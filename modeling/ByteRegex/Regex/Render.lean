import ByteRegex.Regex.Basic

/-! # Expressions as patterns

The text of an expression is a pattern again. Every alternation stands in parentheses, a repeated
body does unless it is a single atom, and what matches nothing or only the empty text is `[]` or
`()`. The text is ASCII: a byte above that range is written as a backslash, `x` and two digits. -/

namespace ByteRegex.Regex

/-- The bytes that need a backslash outside a class. -/
def special : Bytes :=
  [Ascii.backslash, Ascii.bar, Ascii.lparen, Ascii.rparen, Ascii.asterisk, Ascii.lbracket]

/-- The bytes that need a backslash inside a class. -/
def specialInClass : Bytes := [Ascii.backslash, Ascii.rbracket]

/-- The text of one byte, where the bytes in `escaped` need a backslash. -/
def renderByte (escaped : Bytes) (b : UInt8) : Bytes :=
  if b ∈ escaped then [Ascii.backslash, b]
  else if b < 0x80 then [b]
  else Ascii.backslash :: Ascii.letterX :: hexPair b

def renderClass (s : ByteClass) : Bytes :=
  Ascii.lbracket :: (s.toList.flatMap (renderByte specialInClass) ++ [Ascii.rbracket])

/-- Whether the text of an expression is a single atom: a `*` behind it repeats all of it. -/
def isAtomic : Regex → Bool
  | .literal _ | .oneOf _ | .alt _ _ => true
  | .empty | .epsilon | .concat _ _ | .star _ => false

/-- The text of an expression in front of the bytes `k`. -/
def renderBefore : Regex → Bytes → Bytes
  | .empty, k => Ascii.lbracket :: Ascii.rbracket :: k
  | .epsilon, k => Ascii.lparen :: Ascii.rparen :: k
  | .literal b, k => renderByte special b ++ k
  | .oneOf s, k => renderClass s ++ k
  | .alt a b, k =>
      Ascii.lparen :: a.renderBefore (Ascii.bar :: b.renderBefore (Ascii.rparen :: k))
  | .concat a b, k => a.renderBefore (b.renderBefore k)
  | .star a, k =>
      if a.isAtomic then a.renderBefore (Ascii.asterisk :: k)
      else Ascii.lparen :: a.renderBefore (Ascii.rparen :: Ascii.asterisk :: k)

def render (r : Regex) : Bytes := r.renderBefore []

/-- The text of an expression as a string. -/
def text (r : Regex) : String := r.render.toAscii

theorem renderBefore_eq (r : Regex) (k : Bytes) : r.renderBefore k = r.render ++ k := by
  induction r generalizing k with
  | empty | epsilon => rfl
  | literal b => simp [render, renderBefore]
  | oneOf s => simp [render, renderBefore]
  | alt a b iha ihb =>
      simp only [render, renderBefore]
      rw [iha, ihb, iha (_ :: b.renderBefore _), ihb [_]]
      simp
  | concat a b iha ihb =>
      simp only [render, renderBefore]
      rw [iha, ihb, iha (b.renderBefore _)]
      simp [render]
  | star a ih =>
      simp only [render, renderBefore]
      split
      · rw [ih, ih [_]]
        simp
      · rw [ih, ih [_, _]]
        simp

@[simp] theorem render_empty : render .empty = [Ascii.lbracket, Ascii.rbracket] := rfl
@[simp] theorem render_epsilon : render .epsilon = [Ascii.lparen, Ascii.rparen] := rfl

@[simp] theorem render_literal (b : UInt8) : render (.literal b) = renderByte special b := by
  simp [render, renderBefore]

@[simp] theorem render_oneOf (s : ByteClass) : render (.oneOf s) = renderClass s := by
  simp [render, renderBefore]

@[simp] theorem render_alt (a b : Regex) :
    render (.alt a b) =
      Ascii.lparen :: (a.render ++ Ascii.bar :: (b.render ++ [Ascii.rparen])) := by
  simp only [render, renderBefore]
  rw [renderBefore_eq, renderBefore_eq b]
  rfl

@[simp] theorem render_concat (a b : Regex) : render (.concat a b) = a.render ++ b.render := by
  simp only [render, renderBefore]
  rw [renderBefore_eq]
  rfl

@[simp] theorem render_star (a : Regex) :
    render (.star a) = if a.isAtomic then a.render ++ [Ascii.asterisk]
      else Ascii.lparen :: (a.render ++ [Ascii.rparen, Ascii.asterisk]) := by
  simp only [render, renderBefore]
  rw [renderBefore_eq, renderBefore_eq a [_, _]]
  rfl

end ByteRegex.Regex
