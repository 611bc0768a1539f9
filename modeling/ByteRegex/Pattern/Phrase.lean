import ByteRegex.Pattern.Fault
import ByteRegex.Regex.Basic

/-! # Reading a pattern

A pattern is an alternation of branches, a branch is a sequence of factors, and a factor is an atom
with any number of `*` behind it. An atom is a group, a class, an escaped byte or a byte that
stands for itself. Reading one of these phrases from the front of some bytes gives its expression
and the bytes behind it, or a fault. The expressions are built with the simplifying constructors,
branches and factors folded to the left.

A phrase carries a bound on the bytes behind it. A factor or an atom leaves fewer bytes than it was
given, and this is why the mutual recursion of the phrases ends. -/

namespace ByteRegex

/-- A phrase that has been read, with at most `n` bytes behind it. -/
structure Phrase (n : Nat) where
  value : Regex
  rest : Bytes
  rest_le : rest.length ≤ n

namespace Phrase

/-- The bytes that end a branch or a factor: no atom starts with one of them. -/
def startsAtom (b : UInt8) : Bool := !(b == Ascii.bar || b == Ascii.rparen || b == Ascii.asterisk)

/-- Each `*` behind an atom repeats what stands before it. -/
def stars {n : Nat} (value : Regex) : (p : Bytes) → p.length ≤ n → Phrase n
  | [], h => ⟨value, [], h⟩
  | b :: p, h =>
      if b = Ascii.asterisk then stars value.many p (Nat.le_of_succ_le h) else ⟨value, b :: p, h⟩

/-- The members of a class, up to the bracket that closes it. -/
def members {n : Nat} (s : ByteClass) : (p : Bytes) → p.length ≤ n → Except Fault (Phrase n)
  | [], _ => .error ⟨.unclosedClass, []⟩
  | b :: p, h =>
      if b = Ascii.rbracket then .ok ⟨.ofClass s, p, Nat.le_of_succ_le h⟩
      else if b = Ascii.backslash then
        match p, h with
        | [], _ => .error ⟨.danglingEscape, []⟩
        | c :: p, h => members (s.insert c) p (Nat.le_of_succ_le (Nat.le_of_succ_le h))
      else members (s.insert b) p (Nat.le_of_succ_le h)

mutual

/-- Branches with `|` between them. -/
def alternation (p : Bytes) : Except Fault (Phrase p.length) :=
  match branch .epsilon p (Nat.le_refl _) with
  | .error f => .error f
  | .ok ⟨first, rest, h⟩ => branches first rest h
termination_by 4 * p.length + 3
decreasing_by all_goals omega

/-- The branches behind the first, each led by a `|`. -/
def branches {n : Nat} (left : Regex) (p : Bytes) (h : p.length ≤ n) : Except Fault (Phrase n) :=
  match p, h with
  | [], h => .ok ⟨left, [], h⟩
  | b :: p, h =>
      if b = Ascii.bar then
        match branch .epsilon p (Nat.le_refl _) with
        | .error f => .error f
        | .ok ⟨right, rest, h'⟩ =>
            branches (left.union right) rest (Nat.le_trans h' (Nat.le_of_succ_le h))
      else .ok ⟨left, b :: p, h⟩
termination_by 4 * p.length
decreasing_by
  all_goals
    simp only [List.length_cons]
    omega

/-- Factors, as long as an atom can start. -/
def branch {n : Nat} (left : Regex) (p : Bytes) (h : p.length ≤ n) : Except Fault (Phrase n) :=
  match p, h with
  | [], h => .ok ⟨left, [], h⟩
  | b :: p, h =>
      if startsAtom b then
        match factor (b :: p) with
        | .error f => .error f
        | .ok ⟨right, rest, h'⟩ =>
            have h' : rest.length ≤ p.length := h'
            branch (left.append right) rest (Nat.le_trans h' (Nat.le_of_succ_le h))
      else .ok ⟨left, b :: p, h⟩
termination_by 4 * p.length + 2
decreasing_by
  all_goals
    simp only [List.length_cons]
    omega

/-- An atom and each `*` behind it. -/
def factor (p : Bytes) : Except Fault (Phrase (p.length - 1)) :=
  match atom p with
  | .error f => .error f
  | .ok ⟨value, rest, h⟩ => .ok (stars value rest h)
termination_by 4 * p.length + 1
decreasing_by omega

/-- A group, a class, an escaped byte or a byte that stands for itself. -/
def atom (p : Bytes) : Except Fault (Phrase (p.length - 1)) :=
  match p with
  | [] => .error ⟨.atomExpected, []⟩
  | b :: p =>
      if b = Ascii.lparen then
        match alternation p with
        | .error f => .error f
        | .ok ⟨_, [], _⟩ => .error ⟨.unclosedGroup, []⟩
        | .ok ⟨value, c :: rest, h⟩ =>
            if c = Ascii.rparen then .ok ⟨value, rest, Nat.le_of_succ_le h⟩
            else .error ⟨.unclosedGroup, c :: rest⟩
      else if b = Ascii.lbracket then members .empty p (Nat.le_refl _)
      else if b = Ascii.backslash then
        match p with
        | [] => .error ⟨.danglingEscape, []⟩
        | c :: p => .ok ⟨.literal c, p, Nat.le_succ _⟩
      else if startsAtom b then .ok ⟨.literal b, p, Nat.le_refl _⟩
      else .error ⟨.atomExpected, b :: p⟩
termination_by 4 * p.length
decreasing_by
  simp only [List.length_cons]
  omega

end

end Phrase

/-- The expression of a pattern, all of which has to be one alternation. -/
def Regex.parse (pattern : Bytes) : Except Fault Regex :=
  match Phrase.alternation pattern with
  | .error f => .error f
  | .ok ⟨value, [], _⟩ => .ok value
  | .ok ⟨_, b :: rest, _⟩ => .error ⟨.unexpected b, b :: rest⟩

end ByteRegex
