import ByteRegex.Regex.Basic

/-! # Derivatives

The derivative of an expression by a byte matches what may follow that byte. Deriving by the bytes
of a text one after the other leaves the residual of the expression after that text. Both functions
recurse over the tree alone. -/

namespace ByteRegex.Regex

/-- Whether the empty text matches. -/
def nullable : Regex → Bool
  | .empty | .literal _ | .oneOf _ => false
  | .epsilon | .star _ => true
  | .alt a b => a.nullable || b.nullable
  | .concat a b => a.nullable && b.nullable

def derivative (c : UInt8) : Regex → Regex
  | .empty | .epsilon => .empty
  | .literal b => if b = c then .epsilon else .empty
  | .oneOf s => if s.contains c then .epsilon else .empty
  | .alt a b => union (a.derivative c) (b.derivative c)
  | .concat a b =>
      let first := append (a.derivative c) b
      if a.nullable then union first (b.derivative c) else first
  | .star a => append (a.derivative c) (many a)

/-- What is left of an expression once a text has been read. -/
def residual (r : Regex) (w : Bytes) : Regex := w.foldl (fun r c => r.derivative c) r

@[simp] theorem residual_nil (r : Regex) : r.residual [] = r := rfl

@[simp] theorem residual_cons (r : Regex) (c : UInt8) (w : Bytes) :
    r.residual (c :: w) = (r.derivative c).residual w := rfl

@[simp] theorem residual_append (r : Regex) (v w : Bytes) :
    r.residual (v ++ w) = (r.residual v).residual w := List.foldl_append

/-- The residuals after each beginning of a text, from the whole expression on. -/
def residuals (r : Regex) : Bytes → List Regex
  | [] => [r]
  | c :: w => r :: (r.derivative c).residuals w

theorem residuals_eq_map_inits (r : Regex) (w : Bytes) :
    r.residuals w = (List.range (w.length + 1)).map fun n => r.residual (w.take n) := by
  induction w generalizing r with
  | nil => rfl
  | cons c w ih =>
      rw [residuals, ih, List.length_cons, List.range_succ_eq_map (n := w.length + 1)]
      simp [Function.comp_def]

end ByteRegex.Regex
