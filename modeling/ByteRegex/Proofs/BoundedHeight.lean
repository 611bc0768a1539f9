import ByteRegex.Proofs.Rounds

/-! # Patterns whose residuals stay low

The residuals of a pattern stay below some height if and only if none of its concatenations splits
texts in more and more ways and none of its repetitions divides a text into rounds in two ways.
Alternatives do no harm. A deterministic pattern is of this kind; `a*a*` is not, and the height of
its residuals grows with each `a`. -/

namespace ByteRegex.Regex

open InformationTheory (UniquelyDecodable)

variable {a b r : Regex} {c : UInt8} {u w : Bytes}

/-- Some height is not exceeded by any residual. -/
def HeightBounded (r : Regex) : Prop := ∃ n, ∀ w, (r.residual w).height ≤ n

namespace HeightBounded

theorem of_leaf (h : r.height = 1) : r.HeightBounded :=
  ⟨1, fun w => (height_residual_of_leaf h w).le⟩

theorem union (ha : a.HeightBounded) (hb : b.HeightBounded) : (a.union b).HeightBounded := by
  obtain ⟨m, hm⟩ := ha
  obtain ⟨n, hn⟩ := hb
  refine ⟨1 + max m n, fun w => ?_⟩
  have hle := height_union_le (a.residual w) (b.residual w)
  have ha := hm w
  have hb := hn w
  rw [residual_union]
  omega

theorem of_union (h : (a.union b).HeightBounded) : a.HeightBounded ∧ b.HeightBounded := by
  obtain ⟨n, hn⟩ := h
  simp only [residual_union] at hn
  exact ⟨⟨n, fun w => (height_le_height_union ..).1.trans (hn w)⟩,
    ⟨n, fun w => (height_le_height_union ..).2.trans (hn w)⟩⟩

theorem append (hn : b.Normal) (ha : a.HeightBounded) (hb : b.HeightBounded)
    (h : ∃ n, ∀ w, a.splits b w ≤ n) : (a.append b).HeightBounded := by
  obtain ⟨k, hk⟩ := ha
  obtain ⟨m, hm⟩ := hb
  obtain ⟨n, hsplits⟩ := h
  refine ⟨n * b.finite_residualLanguages.toFinset.card + 1 + max k m, fun w => ?_⟩
  have hle := height_residual_append_le_forks (m := max k m)
    (fun u => (hk u).trans (Nat.le_max_left ..)) (fun v => (hm v).trans (Nat.le_max_right ..)) w
  have hforks := hn.forks_le hsplits w
  omega

theorem left_of_append (hb : b ≠ .empty) (h : (a.append b).HeightBounded) : a.HeightBounded := by
  obtain ⟨n, hn⟩ := h
  refine ⟨n, fun w => (height_le_height_append hb).trans ?_⟩
  exact (branch_residual_append a b w).height_le.trans (hn w)

theorem right_of_append (hu : Matches a u) (h : (a.append b).HeightBounded) : b.HeightBounded := by
  obtain ⟨n, hn⟩ := h
  refine ⟨max n b.height, fun v => ?_⟩
  by_cases hv : v = []
  · rw [hv]
    exact Nat.le_max_right ..
  · have hbranch := branch_residual_append_of_matches (b := b) hu hv
    exact le_max_of_le_left (hbranch.height_le.trans (hn _))

theorem exists_splits_le (hn : b.Normal) (h : (a.append b).HeightBounded) :
    ∃ n, ∀ w, a.splits b w ≤ n := by
  obtain ⟨n, hle⟩ := h
  refine ⟨2 ^ n + 2, fun w => ?_⟩
  rcases List.eq_nil_or_concat' w with rfl | ⟨w, c, rfl⟩
  · exact (splits_nil_le a b).trans (Nat.le_add_left_of_le one_le_two)
  · have hwidth := width_le_two_pow_height ((a.append b).residual w)
    have hpow := Nat.pow_le_pow_right Nat.two_pos (hle w)
    have hsplits := hn.splits_le_width (a := a) w c
    omega

theorem star (hs : a.many = .star a) (hn : a.Normal) (ha : a.HeightBounded)
    (h : UniquelyDecodable a.rounds) : (Regex.star a).HeightBounded := by
  obtain ⟨m, hm⟩ := ha
  exact ⟨_, height_residual_star_le hs hn h hm⟩

theorem body_of_star (hs : a.many = .star a) (h : (Regex.star a).HeightBounded) :
    a.HeightBounded := by
  obtain ⟨n, hn⟩ := h
  refine ⟨max n a.height, fun w => ?_⟩
  cases w with
  | nil => exact Nat.le_max_right ..
  | cons c w =>
      have hround : (a.residual (c :: w)).height ≤ ((a.residual (c :: w)).append (.star a)).height :=
        height_le_height_append nofun
      have hbranch := branch_residual_append (a.derivative c) (.star a) w
      rw [← residual_star_cons hs] at hbranch
      exact le_max_of_le_left (hround.trans (hbranch.height_le.trans (hn _)))

theorem uniquelyDecodable_rounds (hs : a.many = .star a) (hw : Matches a (c :: w))
    (h : (Regex.star a).HeightBounded) : UniquelyDecodable a.rounds := by
  obtain ⟨n, hn⟩ := h
  have hc : a.derivative c ≠ .empty := fun hc =>
    not_matches_empty (hc ▸ matches_derivative_iff.2 hw)
  have hone : 0 < ((Regex.star a).residual [c]).width := by
    rw [residual_star_cons hs, residual_nil, width_append_star hc]
    exact Nat.one_pos
  have hwidth : ∀ v, ((Regex.star a).residual v).width ≤ 2 ^ n := fun v =>
    (width_le_two_pow_height _).trans (Nat.pow_le_pow_right Nat.two_pos (hn v))
  exact Regex.uniquelyDecodable_rounds hs (List.cons_ne_nil c []) hone hwidth

end HeightBounded

/-! ## When heights are bounded -/

theorem Normal.heightBounded_alt_iff (h : (alt a b).Normal) :
    (alt a b).HeightBounded ↔ a.HeightBounded ∧ b.HeightBounded := by
  obtain ⟨ha₀, hb₀, hab, -, -⟩ := h
  rw [← union_eq_alt ha₀ hb₀ hab]
  exact ⟨fun h => h.of_union, fun h => h.1.union h.2⟩

theorem Normal.heightBounded_concat_iff (h : (concat a b).Normal) :
    (concat a b).HeightBounded ↔
      a.HeightBounded ∧ b.HeightBounded ∧ ∃ n, ∀ w, a.splits b w ≤ n := by
  obtain ⟨ha₀, ha₁, hb₀, hb₁, ha, hb⟩ := h
  obtain ⟨u, hu⟩ := ha.exists_matches ha₀
  rw [← append_eq_concat ha₀ hb₀ ha₁ hb₁]
  constructor
  · intro h
    exact ⟨h.left_of_append hb₀, h.right_of_append hu, h.exists_splits_le hb⟩
  · rintro ⟨ha', hb', hsplits⟩
    exact .append hb ha' hb' hsplits

theorem Normal.heightBounded_star_iff (h : (star a).Normal) :
    (star a).HeightBounded ↔ a.HeightBounded ∧ UniquelyDecodable a.rounds := by
  obtain ⟨ha₀, ha₁, hstar, ha⟩ := h
  obtain ⟨c, w, hw⟩ := ha.exists_matches_cons ha₀ ha₁
  have hs := many_eq_star ha₀ ha₁ hstar
  constructor
  · intro h
    exact ⟨h.body_of_star hs, h.uniquelyDecodable_rounds hs hw⟩
  · rintro ⟨ha', hrounds⟩
    exact .star hs ha ha' hrounds

/-- The concatenations in an expression do not split texts in more and more ways, and the
repetitions in it divide a text into rounds in one way only. -/
def BoundedSplits : Regex → Prop
  | .empty | .epsilon | .literal _ | .oneOf _ => True
  | .alt a b => a.BoundedSplits ∧ b.BoundedSplits
  | .concat a b => a.BoundedSplits ∧ b.BoundedSplits ∧ ∃ n, ∀ w, a.splits b w ≤ n
  | .star a => a.BoundedSplits ∧ UniquelyDecodable a.rounds

theorem Normal.heightBounded_iff (h : r.Normal) : r.HeightBounded ↔ r.BoundedSplits := by
  induction r with
  | empty | epsilon | literal | oneOf => exact iff_of_true (.of_leaf rfl) trivial
  | alt a b iha ihb =>
      rw [h.heightBounded_alt_iff]
      obtain ⟨-, -, -, ha, hb⟩ := h
      exact and_congr (iha ha) (ihb hb)
  | concat a b iha ihb =>
      rw [h.heightBounded_concat_iff]
      obtain ⟨-, -, -, -, ha, hb⟩ := h
      exact and_congr (iha ha) (and_congr_left' (ihb hb))
  | star a ih =>
      rw [h.heightBounded_star_iff]
      obtain ⟨-, -, -, ha⟩ := h
      exact and_congr_left' (ih ha)

theorem Normal.boundedSplits_of_deterministic (h : r.Normal) (hr : r.Deterministic) :
    r.BoundedSplits :=
  h.heightBounded_iff.1 ⟨_, h.height_residual_le_of_deterministic hr⟩

/-! ## A residual that grows with the text -/

/-- A repeated byte twice over, as in `a*a*`, with `n` alternations piled upon it. -/
def piled (b : UInt8) : Nat → Regex
  | 0 => .concat (.star (.literal b)) (.star (.literal b))
  | n + 1 => .alt (piled b n) (.star (.literal b))

theorem height_piled (b : UInt8) (n : Nat) : (piled b n).height = n + 3 := by
  induction n with
  | zero => rfl
  | succ n ih =>
      rw [piled, height, ih, height, height]
      omega

theorem derivative_piled (b : UInt8) (n : Nat) : (piled b n).derivative b = piled b (n + 1) := by
  induction n with
  | zero => simp [piled, derivative, nullable, union, append, many]
  | succ n ih =>
      rw [piled, derivative, ih]
      simp [derivative, many, piled, union]

theorem residual_piled (b : UInt8) (n k : Nat) :
    (piled b n).residual (List.replicate k b) = piled b (n + k) := by
  induction k generalizing n with
  | zero => rfl
  | succ k ih =>
      rw [List.replicate_succ, residual_cons, derivative_piled, ih]
      congr 1
      omega

/-- **Heights of residuals.** For every pattern the height of a residual is bounded by the length of
the text, times the height of the pattern. A bound that does not grow with the text exists if and
only if the concatenations of the pattern split texts in boundedly many ways and its repetitions
divide them into rounds in one way only. If the pattern is deterministic, the residuals are at most
one level higher than the pattern. -/
theorem height_residual_bounds (p : Pattern) :
    (∀ w, (p.regex.residual w).height ≤ p.regex.height * (w.length + 1)) ∧
      ((∃ n, ∀ w, (p.regex.residual w).height ≤ n) ↔ p.regex.BoundedSplits) ∧
      (p.regex.Deterministic → ∀ w, (p.regex.residual w).height ≤ p.regex.height + 1) :=
  ⟨p.normal_regex.height_residual_le, p.normal_regex.heightBounded_iff,
    p.normal_regex.height_residual_le_of_deterministic⟩

/-- A repetition of choices that their first bytes tell apart, behind a byte: one level more at most,
whatever the text. -/
theorem height_residual_bounds_choice :
    ∃ p, Pattern.compile (Bytes.ofString "d(a|bc)*") = .ok p ∧ p.regex.Deterministic ∧
      ∀ w, (p.regex.residual w).height ≤ 6 := by
  let body : Regex := .alt (.literal 0x61) (.concat (.literal 0x62) (.literal 0x63))
  have hr : parse (Bytes.ofString "d(a|bc)*") = .ok (.concat (.literal 0x64) (.star body)) := by cbv
  have hbody : ∀ w, Matches body w ↔ w = [0x61] ∨ w = [0x62, 0x63] := by
    simp [body, matches_concat_iff]
  -- Nothing that the parts match is the beginning of something longer that they match.
  have hd : Deterministic (.concat (.literal 0x64) (.star body)) := by
    refine ⟨trivial, ⟨⟨trivial, trivial, trivial, ?_⟩, ?_⟩, ?_⟩
    · rintro _ c u v ⟨⟩ ⟨⟩
    · intro w c u v _ hw hu
      rw [hbody] at hw hu
      rcases hw with rfl | rfl <;> simp at hu
    · rintro _ c u v ⟨⟩ ⟨⟩
  exact ⟨_, Pattern.compile_eq_ok hr, hd, (height_residual_bounds ⟨_, _, hr⟩).2.2 hd⟩

/-- The residuals of `a*a*` have no common bound: the height grows with each `a`. -/
theorem height_residual_unbounded :
    ∃ p, Pattern.compile (Bytes.ofString "a*a*") = .ok p ∧
      (∀ n, (p.regex.residual (List.replicate n 0x61)).height = p.regex.height + n) ∧
      ¬ ∃ m, ∀ w, (p.regex.residual w).height ≤ m := by
  have hr : parse (Bytes.ofString "a*a*") = .ok (piled 0x61 0) := by cbv
  have hheight : ∀ n, ((piled 0x61 0).residual (List.replicate n 0x61)).height = 3 + n := by
    intro n
    rw [residual_piled, height_piled]
    omega
  refine ⟨_, Pattern.compile_eq_ok hr, hheight, ?_⟩
  rintro ⟨m, hm⟩
  have hle := hm (List.replicate m 0x61)
  rw [hheight] at hle
  omega

end ByteRegex.Regex
