import ByteRegex.Regex.Basic

/-! # Similarity

Two expressions are similar if they differ only in the order, the grouping and the repetition of
the branches of their alternations, at any depth. -/

namespace ByteRegex.Regex

/-- The least congruence for which alternation is associative, commutative and idempotent. -/
inductive Similar : Regex → Regex → Prop
  | refl (a : Regex) : Similar a a
  | symm {a b : Regex} : Similar a b → Similar b a
  | trans {a b c : Regex} : Similar a b → Similar b c → Similar a c
  | alt {a a' b b' : Regex} : Similar a a' → Similar b b' → Similar (.alt a b) (.alt a' b')
  | concat {a a' b b' : Regex} :
      Similar a a' → Similar b b' → Similar (.concat a b) (.concat a' b')
  | star {a a' : Regex} : Similar a a' → Similar (.star a) (.star a')
  | altAssoc (a b c : Regex) : Similar (.alt (.alt a b) c) (.alt a (.alt b c))
  | altComm (a b : Regex) : Similar (.alt a b) (.alt b a)
  | altSelf (a : Regex) : Similar (.alt a a) a

theorem Similar.equivalence : Equivalence Similar := ⟨.refl, .symm, .trans⟩

end ByteRegex.Regex
