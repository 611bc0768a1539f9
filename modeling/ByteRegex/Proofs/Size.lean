import ByteRegex.Proofs.Height
import ByteRegex.Regex.Depth

/-! # How large compiled trees are

A pattern pays for its tree with its bytes. Each byte buys two constructors and one level, and one
constructor is left over at the end. A branch that is empty has no bytes of its own, but it stands
next to a `|`, which pays for it; two empty branches are one, since the empty text is not offered
twice. The walks over a tree open no more calls than the tree has levels, so that the first of them
goes no deeper than the pattern is long. -/

namespace ByteRegex.Regex

variable {a b r : Regex} {m n : Nat}

/-! ## Nodes -/

theorem size_union_le (a b : Regex) : (a.union b).size ≤ 1 + a.size + b.size := by
  unfold union
  split <;> simp only [size] <;> omega

theorem size_append_le (a b : Regex) : (a.append b).size ≤ 1 + a.size + b.size := by
  unfold append
  split <;> simp only [size] <;> omega

theorem size_many_le (a : Regex) : a.many.size ≤ 1 + a.size := by
  unfold many
  split <;> simp only [size] <;> omega

/-! ## Trees that bytes pay for -/

/-- A tree that `n` bytes pay for. Without bytes there is the empty text only. -/
structure PaidBy (r : Regex) (n : Nat) : Prop where
  size_le : r.size ≤ max 1 (2 * n - 1)
  height_le : r.height ≤ max 1 n
  eq_epsilon : n = 0 → r = .epsilon

namespace PaidBy

theorem epsilon (n : Nat) : PaidBy .epsilon n :=
  ⟨Nat.le_max_left .., Nat.le_max_left .., fun _ => rfl⟩

theorem of_leaf (hs : r.size = 1) (hh : r.height = 1) (hn : 0 < n) : r.PaidBy n :=
  ⟨by omega, by omega, by omega⟩

theorem ofClass (s : ByteClass) (hn : 0 < n) : (Regex.ofClass s).PaidBy n := by
  unfold Regex.ofClass
  split
  all_goals exact .of_leaf rfl rfl hn

theorem mono (h : r.PaidBy m) (hmn : m < n) : r.PaidBy n := by
  have hsize := h.size_le
  have hheight := h.height_le
  exact ⟨by omega, by omega, by omega⟩

/-- The `|` between two branches pays for their alternation, or for one of them if it is empty. -/
theorem union (ha : a.PaidBy m) (hb : b.PaidBy n) : (a.union b).PaidBy (m + (n + 1)) := by
  by_cases hmn : m = 0 ∧ n = 0
  · rw [ha.eq_epsilon hmn.1, hb.eq_epsilon hmn.2]
    exact .epsilon _
  · have hsize := size_union_le a b
    have hheight := height_union_le a b
    have hsizes := And.intro ha.size_le hb.size_le
    have hheights := And.intro ha.height_le hb.height_le
    exact ⟨by omega, by omega, by omega⟩

/-- A factor that is behind something else is not the first of its branch, and its bytes pay for
the concatenation. -/
theorem append (ha : a.PaidBy m) (hb : b.PaidBy n) (hn : 0 < n) : (a.append b).PaidBy (m + n) := by
  rcases Nat.eq_zero_or_pos m with rfl | hm
  · rwa [ha.eq_epsilon rfl, append_epsilon_left, Nat.zero_add]
  · have hsize := size_append_le a b
    have hheight := height_append_le a b
    have hsizes := And.intro ha.size_le hb.size_le
    have hheights := And.intro ha.height_le hb.height_le
    exact ⟨by omega, by omega, by omega⟩

theorem many (ha : a.PaidBy m) (hm : 0 < m) : a.many.PaidBy (m + 1) := by
  have hsize := size_many_le a
  have hheight := height_many_le a
  have hsize' := ha.size_le
  have hheight' := ha.height_le
  exact ⟨by omega, by omega, by omega⟩

end PaidBy

end ByteRegex.Regex

/-! ## Phrases -/

namespace ByteRegex.Grammar

theorem Factor.length_text_pos (f : Factor) : 0 < f.text.length := by
  obtain ⟨c, p, hp, _⟩ := f.text_eq_cons
  rw [hp]
  exact Nat.succ_pos p.length

mutual

theorem Alternation.paid : ∀ a : Alternation, a.value.PaidBy a.text.length
  | .single b => b.paid
  | .or a b => by
      rw [Alternation.text, List.length_append, List.length_cons]
      exact a.paid.union b.paid

theorem Branch.paid : ∀ b : Branch, b.value.PaidBy b.text.length
  | .nothing => .epsilon 0
  | .snoc b f => by
      rw [Branch.text, List.length_append]
      exact b.paid.append f.paid f.length_text_pos

theorem Factor.paid : ∀ f : Factor, f.value.PaidBy f.text.length
  | .single a => a.paid
  | .repeated f => by
      rw [Factor.text, List.length_append]
      exact f.paid.many f.length_text_pos

theorem Atom.paid : ∀ a : Atom, a.value.PaidBy a.text.length
  | .group a => by
      rw [Atom.text, List.length_cons, List.length_append, List.length_singleton]
      exact a.paid.mono (by omega)
  | .oneOf ms => .ofClass _ (Nat.succ_pos _)
  | .escaped _ | .plain _ _ => .of_leaf rfl rfl (Nat.succ_pos _)

end

/-- A byte, and `n` empty branches behind it. -/
def barred : Nat → Alternation
  | 0 => .single (.snoc .nothing (.single (.plain 0x61 rfl)))
  | n + 1 => .or (barred n) .nothing

theorem length_text_barred (n : Nat) : (barred n).text.length = n + 1 := by
  induction n with
  | zero => rfl
  | succ n ih =>
      rw [barred, Alternation.text, List.length_append, ih]
      rfl

theorem value_barred_succ (n : Nat) : (barred (n + 1)).value = .alt (barred n).value .epsilon := by
  induction n with
  | zero => rfl
  | succ n ih =>
      rw [barred, Alternation.value, ih]
      rfl

end ByteRegex.Grammar

/-! ## Walks -/

namespace ByteRegex.Regex

theorem value_nullableNested (r : Regex) : r.nullableNested.value = r.nullable := by
  induction r with
  | empty | epsilon | literal | oneOf | star => rfl
  | alt a b iha ihb =>
      simp only [nullableNested, Nested.value_call, Nested.value_bind, iha, nullable]
      cases a.nullable
      · exact ihb
      · rfl
  | concat a b iha ihb =>
      simp only [nullableNested, Nested.value_call, Nested.value_bind, iha, nullable]
      cases a.nullable
      · rfl
      · exact ihb

theorem depth_nullableNested_le (r : Regex) : r.nullableNested.depth ≤ r.height := by
  induction r with
  | empty | epsilon | literal | oneOf => exact Nat.le_refl 1
  | star a => exact Nat.le_add_right 1 a.height
  | alt a b iha ihb =>
      simp only [nullableNested, Nested.depth_call, Nested.depth_bind, height]
      split
      · simp only [Nested.depth_pure]
        omega
      · omega
  | concat a b iha ihb =>
      simp only [nullableNested, Nested.depth_call, Nested.depth_bind, height]
      split
      · omega
      · simp only [Nested.depth_pure]
        omega

theorem value_derivativeNested (r : Regex) (c : UInt8) :
    (r.derivativeNested c).value = r.derivative c := by
  induction r with
  | empty | epsilon | literal | oneOf => rfl
  | alt a b iha ihb =>
      simp only [derivativeNested, Nested.value_call, Nested.value_bind, Nested.value_pure, iha,
        ihb, derivative]
  | concat a b iha ihb =>
      simp only [derivativeNested, Nested.value_call, Nested.value_bind, value_nullableNested, iha,
        derivative]
      split
      · rw [Nested.value_bind, ihb]
        rfl
      · rfl
  | star a ih =>
      simp only [derivativeNested, Nested.value_call, Nested.value_bind, Nested.value_pure, ih,
        derivative]

theorem depth_derivativeNested_le (r : Regex) (c : UInt8) :
    (r.derivativeNested c).depth ≤ r.height := by
  induction r with
  | empty | epsilon | literal | oneOf => exact Nat.le_refl 1
  | alt a b iha ihb =>
      simp only [derivativeNested, Nested.depth_call, Nested.depth_bind, Nested.depth_pure, height]
      omega
  | concat a b iha ihb =>
      have hnullable := depth_nullableNested_le a
      simp only [derivativeNested, Nested.depth_call, Nested.depth_bind, height]
      split
      · simp only [Nested.depth_bind, Nested.depth_pure]
        omega
      · simp only [Nested.depth_pure]
        omega
  | star a ih =>
      simp only [derivativeNested, Nested.depth_call, Nested.depth_bind, Nested.depth_pure, height]
      omega

/-- **Compiled trees are linear in the pattern.** A pattern of `n` bytes has at most `2 * n - 1`
constructors on at most `n` levels, except that the empty pattern has one. The walks that decide
whether the empty text matches and that derive by a first byte open at most as many calls at one
time. -/
theorem size_compiled_le (p : Pattern) :
    p.regex.size ≤ max 1 (2 * p.source.length - 1) ∧
      p.regex.height ≤ max 1 p.source.length ∧
      (p.regex.nullableNested.value = p.regex.nullable ∧
        p.regex.nullableNested.depth ≤ max 1 p.source.length) ∧
      ∀ c, (p.regex.derivativeNested c).value = p.regex.derivative c ∧
        (p.regex.derivativeNested c).depth ≤ max 1 p.source.length := by
  obtain ⟨a, ha, hv⟩ := exists_derivation_of_parse p.parse_source
  have hpaid := a.paid
  rw [ha, hv] at hpaid
  have hnullable := (depth_nullableNested_le p.regex).trans hpaid.height_le
  have hderivative := fun c => (depth_derivativeNested_le p.regex c).trans hpaid.height_le
  exact ⟨hpaid.size_le, hpaid.height_le, ⟨value_nullableNested _, hnullable⟩,
    fun c => ⟨value_derivativeNested _ c, hderivative c⟩⟩

/-- For every length there is a pattern that has as many constructors and levels as it may, and on
which both walks open as many calls at one time as they may. -/
theorem exists_size_compiled_eq (n : Nat) :
    ∃ p : Pattern, p.source.length = n + 1 ∧ p.regex.size = 2 * n + 1 ∧
      p.regex.height = n + 1 ∧ p.regex.nullableNested.depth = n + 1 ∧
      ∀ c, (p.regex.derivativeNested c).depth = n + 1 := by
  refine ⟨⟨_, _, parse_text (Grammar.barred n)⟩, Grammar.length_text_barred n, ?_⟩
  dsimp only
  induction n with
  | zero => exact ⟨rfl, rfl, rfl, fun _ => rfl⟩
  | succ n ih =>
      obtain ⟨hsize, hheight, hnullable, hderivative⟩ := ih
      rw [Grammar.value_barred_succ]
      refine ⟨?_, ?_, ?_, fun c => ?_⟩
      · simp only [size, hsize]
        omega
      · simp only [height, hheight]
        omega
      · simp only [nullableNested, Nested.depth_call, Nested.depth_bind, hnullable]
        split
        · simp only [Nested.depth_pure]
          omega
        · simp only [Nested.depth_call, Nested.depth_pure]
          omega
      · simp only [derivativeNested, Nested.depth_call, Nested.depth_bind, Nested.depth_pure,
          hderivative]
        omega

end ByteRegex.Regex
