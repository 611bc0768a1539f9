import ByteRegex.Pattern.Error
import ByteRegex.Pattern.Phrase
import ByteRegex.Regex.Match

/-! # Compiled patterns

A compiled pattern keeps the bytes it was read from beside their expression. Where a pattern or a
text may be absent, an absent pattern does not compile and nothing matches an absent text. -/

namespace ByteRegex

structure Pattern where
  source : Bytes
  regex : Regex
  /-- The expression is the one that the source spells. -/
  parse_source : Regex.parse source = .ok regex
deriving DecidableEq

namespace Pattern

def compile (source : Bytes) : Except CompileError Pattern :=
  match h : Regex.parse source with
  | .ok regex => .ok ⟨source, regex, h⟩
  | .error f => .error (.ofFault source f)

def compile? : Option Bytes → Except CompileError Pattern
  | some source => compile source
  | none => .error (.within [] .missing 0)

/-- Whether the whole of a text matches. -/
def accepts (p : Pattern) (w : Bytes) : Bool := p.regex.accepts w

/-- Whether some part of a text matches. -/
def occursIn (p : Pattern) (w : Bytes) : Bool := p.regex.occursIn w

def accepts? : Option Pattern → Option Bytes → Bool
  | some p, some w => p.accepts w
  | _, _ => false

def occursIn? : Option Pattern → Option Bytes → Bool
  | some p, some w => p.occursIn w
  | _, _ => false

theorem compile_eq_ok_iff {source : Bytes} {p : Pattern} :
    compile source = .ok p ↔ p.source = source := by
  unfold compile
  constructor
  · intro h
    split at h
    · cases h
      rfl
    · cases h
  · rintro rfl
    split
    · next r hr =>
        have := p.parse_source
        rw [hr] at this
        cases this
        rfl
    · next f hf =>
        have := p.parse_source
        rw [hf] at this
        cases this

theorem compile_eq_ok {source : Bytes} {r : Regex} (h : Regex.parse source = .ok r) :
    compile source = .ok ⟨source, r, h⟩ := compile_eq_ok_iff.2 rfl

theorem compile_eq_error_iff {source : Bytes} {e : CompileError} :
    compile source = .error e ↔ ∃ f, Regex.parse source = .error f ∧ e = .ofFault source f := by
  unfold compile
  constructor
  · intro h
    split at h
    · cases h
    · next f hf =>
        cases h
        exact ⟨f, hf, rfl⟩
  · rintro ⟨f, hf, rfl⟩
    split
    · next r hr =>
        rw [hf] at hr
        cases hr
    · next g hg =>
        rw [hf] at hg
        cases hg
        rfl

end Pattern

end ByteRegex
