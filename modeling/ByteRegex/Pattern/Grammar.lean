import ByteRegex.Regex.Basic

/-! # The grammar of patterns

```
alternation := branch | alternation '|' branch
branch      := (nothing) | branch factor
factor      := atom | factor '*'
atom        := '(' alternation ')' | '[' member* ']' | '\' byte | plain byte
member      := '\' byte | plain byte
```

A plain byte outside a class is none of `|`, `)`, `*`, `(`, `[` and the backslash; within a class
only `]` and the backslash are not plain. A derivation is a tree of one of these five kinds. It has
a text, the bytes it derives, and two expressions: `value`, built with the simplifying
constructors, and `literally`, built with the bare ones. -/

namespace ByteRegex.Grammar

/-- Whether a byte stands for itself outside a class. -/
def isPlain (b : UInt8) : Bool :=
  !(b == Ascii.bar || b == Ascii.rparen || b == Ascii.asterisk || b == Ascii.lparen ||
    b == Ascii.lbracket || b == Ascii.backslash)

/-- Whether a byte stands for itself within a class. -/
def isPlainMember (b : UInt8) : Bool := !(b == Ascii.rbracket || b == Ascii.backslash)

inductive Member where
  | escaped (b : UInt8)
  | plain (b : UInt8) (plain : isPlainMember b = true)
deriving DecidableEq

namespace Member

def byte : Member → UInt8
  | .escaped b | .plain b _ => b

def text : Member → Bytes
  | .escaped b => [Ascii.backslash, b]
  | .plain b _ => [b]

end Member

/-- The class of some members. -/
def classOf (members : List Member) : ByteClass := .ofList (members.map Member.byte)

mutual

inductive Alternation where
  | single (branch : Branch)
  | or (left : Alternation) (right : Branch)

inductive Branch where
  | nothing
  | snoc (left : Branch) (right : Factor)

inductive Factor where
  | single (atom : Atom)
  | repeated (body : Factor)

inductive Atom where
  | group (inside : Alternation)
  | oneOf (members : List Member)
  | escaped (b : UInt8)
  | plain (b : UInt8) (plain : isPlain b = true)

end

/-! ## Texts -/

mutual

def Alternation.text : Alternation → Bytes
  | .single b => b.text
  | .or a b => a.text ++ Ascii.bar :: b.text

def Branch.text : Branch → Bytes
  | .nothing => []
  | .snoc b f => b.text ++ f.text

def Factor.text : Factor → Bytes
  | .single a => a.text
  | .repeated f => f.text ++ [Ascii.asterisk]

def Atom.text : Atom → Bytes
  | .group a => Ascii.lparen :: (a.text ++ [Ascii.rparen])
  | .oneOf ms => Ascii.lbracket :: (ms.flatMap Member.text ++ [Ascii.rbracket])
  | .escaped b => [Ascii.backslash, b]
  | .plain b _ => [b]

end

/-! ## Values -/

mutual

def Alternation.value : Alternation → Regex
  | .single b => b.value
  | .or a b => a.value.union b.value

def Branch.value : Branch → Regex
  | .nothing => .epsilon
  | .snoc b f => b.value.append f.value

def Factor.value : Factor → Regex
  | .single a => a.value
  | .repeated f => f.value.many

def Atom.value : Atom → Regex
  | .group a => a.value
  | .oneOf ms => .ofClass (classOf ms)
  | .escaped b | .plain b _ => .literal b

end

/-! ## Values without simplification -/

mutual

def Alternation.literally : Alternation → Regex
  | .single b => b.literally
  | .or a b => .alt a.literally b.literally

def Branch.literally : Branch → Regex
  | .nothing => .epsilon
  | .snoc b f => .concat b.literally f.literally

def Factor.literally : Factor → Regex
  | .single a => a.literally
  | .repeated f => .star f.literally

def Atom.literally : Atom → Regex
  | .group a => a.literally
  | .oneOf ms => .oneOf (classOf ms)
  | .escaped b | .plain b _ => .literal b

end

end ByteRegex.Grammar
