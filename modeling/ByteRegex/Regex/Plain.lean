import ByteRegex.Regex.Derivative

/-! # Derivatives without simplification

The textbook derivative writes down the bare constructors, so that its trees grow with every byte.
`simplify` rebuilds a tree from its leaves with the simplifying constructors. -/

namespace ByteRegex.Regex

def plainDerivative (c : UInt8) : Regex → Regex
  | .empty | .epsilon => .empty
  | .literal b => if b = c then .epsilon else .empty
  | .oneOf s => if s.contains c then .epsilon else .empty
  | .alt a b => .alt (a.plainDerivative c) (b.plainDerivative c)
  | .concat a b =>
      if a.nullable then .alt (.concat (a.plainDerivative c) b) (b.plainDerivative c)
      else .concat (a.plainDerivative c) b
  | .star a => .concat (a.plainDerivative c) (.star a)

def plainResidual (r : Regex) (w : Bytes) : Regex := w.foldl (fun r c => r.plainDerivative c) r

def simplify : Regex → Regex
  | .empty => .empty
  | .epsilon => .epsilon
  | .literal b => .literal b
  | .oneOf s => .ofClass s
  | .alt a b => a.simplify.union b.simplify
  | .concat a b => a.simplify.append b.simplify
  | .star a => a.simplify.many

@[simp] theorem plainResidual_nil (r : Regex) : r.plainResidual [] = r := rfl

@[simp] theorem plainResidual_cons (r : Regex) (c : UInt8) (w : Bytes) :
    r.plainResidual (c :: w) = (r.plainDerivative c).plainResidual w := rfl

end ByteRegex.Regex
