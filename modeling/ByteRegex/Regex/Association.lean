import ByteRegex.Regex.Basic

/-! # Association of concatenations

Concatenations group to the left when a pattern is read. `leftAssoc` regroups every chain of them
that way, at any depth, and changes nothing else. What it may change is `Reassociated`, and what it
arrives at is `LeansLeft`. -/

namespace ByteRegex.Regex

/-- Concatenate with the right operand's own chain taken apart, so that the result leans left. -/
def chain (a : Regex) : Regex → Regex
  | .concat b c => .concat (chain a b) c
  | b => .concat a b

def leftAssoc : Regex → Regex
  | .empty => .empty
  | .epsilon => .epsilon
  | .literal b => .literal b
  | .oneOf s => .oneOf s
  | .alt a b => .alt a.leftAssoc b.leftAssoc
  | .concat a b => chain a.leftAssoc b.leftAssoc
  | .star a => .star a.leftAssoc

def isConcat : Regex → Bool
  | .concat _ _ => true
  | _ => false

/-- No concatenation is the right operand of another. -/
def LeansLeft : Regex → Prop
  | .empty | .epsilon | .literal _ | .oneOf _ => True
  | .alt a b => a.LeansLeft ∧ b.LeansLeft
  | .concat a b => b.isConcat = false ∧ a.LeansLeft ∧ b.LeansLeft
  | .star a => a.LeansLeft

/-- The least congruence for which concatenation is associative. -/
inductive Reassociated : Regex → Regex → Prop
  | refl (a : Regex) : Reassociated a a
  | symm {a b : Regex} : Reassociated a b → Reassociated b a
  | trans {a b c : Regex} : Reassociated a b → Reassociated b c → Reassociated a c
  | alt {a a' b b' : Regex} :
      Reassociated a a' → Reassociated b b' → Reassociated (.alt a b) (.alt a' b')
  | concat {a a' b b' : Regex} :
      Reassociated a a' → Reassociated b b' → Reassociated (.concat a b) (.concat a' b')
  | star {a a' : Regex} : Reassociated a a' → Reassociated (.star a) (.star a')
  | assoc (a b c : Regex) : Reassociated (.concat (.concat a b) c) (.concat a (.concat b c))

@[simp] theorem chain_concat (a b c : Regex) :
    chain a (.concat b c) = .concat (chain a b) c := rfl

@[simp] theorem size_chain (a b : Regex) : (chain a b).size = 1 + a.size + b.size := by
  induction b with
  | concat b c ihb _ =>
      simp only [chain, size, ihb]
      omega
  | empty | epsilon | literal | oneOf | alt | star => rfl

@[simp] theorem size_leftAssoc (a : Regex) : a.leftAssoc.size = a.size := by
  induction a with
  | empty | epsilon | literal | oneOf => rfl
  | alt a b iha ihb | concat a b iha ihb => simp [leftAssoc, size, iha, ihb]
  | star a ih => simp [leftAssoc, size, ih]

end ByteRegex.Regex
