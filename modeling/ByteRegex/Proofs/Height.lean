import ByteRegex.Proofs.Dead
import ByteRegex.Proofs.Simplification

/-! # Heights of residuals

Deriving recurses as deep as the tree is high. The derivative of a concatenation whose left operand
is nullable is an alternation, and alternations keep equal branches, so that they pile up: the
residual of `a*a*` grows by a level with each `a`. For every pattern the height grows at most
linearly with the text, by no more than the height of the pattern for each byte.

An alternation appears only where the next byte can belong to the left operand and to the right
one, or to the round of a repetition that has been begun and to a new round. In a deterministic
expression this never happens. There the residuals are at most one level higher than the
expression, whatever the length of the text. -/

namespace ByteRegex.Regex

variable {a b r : Regex} {c : UInt8} {w : Bytes} {m : Nat}

/-! ## Nodes -/

theorem height_pos (r : Regex) : 0 < r.height := by
  cases r <;> simp only [height] <;> omega

theorem height_union_le (a b : Regex) : (a.union b).height ≤ 1 + max a.height b.height := by
  unfold union
  split <;> simp only [height] <;> omega

theorem height_append_le (a b : Regex) : (a.append b).height ≤ 1 + max a.height b.height := by
  unfold append
  split <;> simp only [height] <;> omega

theorem height_many_le (a : Regex) : a.many.height ≤ 1 + a.height := by
  unfold many
  split <;> simp only [height] <;> omega

/-- The derivative of a leaf is a leaf. -/
theorem height_derivative_of_leaf (h : r.height = 1) (c : UInt8) : (r.derivative c).height = 1 := by
  cases r with
  | empty | epsilon => rfl
  | literal | oneOf =>
      unfold derivative
      split <;> rfl
  | alt a | concat a | star a =>
      have := a.height_pos
      simp only [height] at h
      omega

theorem height_residual_of_leaf (h : r.height = 1) (w : Bytes) : (r.residual w).height = 1 := by
  induction w generalizing r with
  | nil => exact h
  | cons c w ih => exact ih (height_derivative_of_leaf h c)

/-! ## Linear growth -/

/-- Each byte piles at most one alternation on the residual of a concatenation. -/
theorem height_residual_append_le (ha : ∀ u, u.length ≤ w.length → (a.residual u).height ≤ m)
    (hb : ∀ v, v.length ≤ w.length → (b.residual v).height ≤ v.length + m) :
    ((a.append b).residual w).height ≤ w.length + 1 + m := by
  induction w generalizing a with
  | nil =>
      have hle := height_append_le a b
      have ha₀ := ha [] (Nat.le_refl 0)
      have hb₀ := hb [] (Nat.le_refl 0)
      simp only [residual_nil, List.length_nil] at ha₀ hb₀ ⊢
      omega
  | cons c w ih =>
      have hfirst : (((a.derivative c).append b).residual w).height ≤ w.length + 1 + m :=
        ih (fun u hu => ha (c :: u) (Nat.succ_le_succ hu)) fun v hv => hb v (Nat.le_succ_of_le hv)
      have hsecond := hb (c :: w) (Nat.le_refl _)
      rw [residual_cons, derivative_append]
      rw [List.length_cons] at hsecond ⊢
      split
      · have hle := height_union_le (((a.derivative c).append b).residual w) (b.residual (c :: w))
        rw [residual_union]
        rw [residual_cons] at hle hsecond
        omega
      · omega

/-- A new round of a repetition begins where the alternations of the last one have piled up, and
goes on with the bytes that are left. -/
theorem height_residual_many_le (hstar : a.isStar = false) : ∀ w : Bytes,
    (∀ u, u.length ≤ w.length → (a.residual u).height ≤ m) →
      (a.many.residual w).height ≤ w.length + (1 + m)
  | [], ha => by
      have hle := height_many_le a
      have ha₀ := ha [] (Nat.le_refl 0)
      simp only [residual_nil, List.length_nil] at ha₀ ⊢
      omega
  | c :: w, ha => by
      have hround : ∀ u, u.length ≤ w.length → ((a.derivative c).residual u).height ≤ 1 + m := by
        intro u hu
        have := ha (c :: u) (Nat.succ_le_succ hu)
        rw [residual_cons] at this
        omega
      have hrest : ∀ v, v.length ≤ w.length → (a.many.residual v).height ≤ v.length + (1 + m) :=
        fun v hv => height_residual_many_le hstar v fun u hu =>
          ha u (Nat.le_succ_of_le (Nat.le_trans hu hv))
      have hle := height_residual_append_le hround hrest
      rw [residual_cons, derivative_many hstar, List.length_cons]
      omega
termination_by w => w.length

theorem Normal.height_residual_le (h : r.Normal) (w : Bytes) :
    (r.residual w).height ≤ r.height * (w.length + 1) := by
  induction r generalizing w with
  | empty | epsilon | literal | oneOf =>
      rw [height_residual_of_leaf rfl, height]
      omega
  | alt a b iha ihb =>
      obtain ⟨ha₀, hb₀, hab, ha, hb⟩ := h
      have hle := height_union_le (a.residual w) (b.residual w)
      have ha' := (iha ha w).trans (Nat.mul_le_mul_right _ (Nat.le_max_left a.height b.height))
      have hb' := (ihb hb w).trans (Nat.mul_le_mul_right _ (Nat.le_max_right a.height b.height))
      rw [← residual_union, union_eq_alt ha₀ hb₀ hab] at hle
      rw [height, Nat.add_mul, Nat.one_mul]
      omega
  | concat a b iha ihb =>
      obtain ⟨ha₀, ha₁, hb₀, hb₁, ha, hb⟩ := h
      have ha' : ∀ u, u.length ≤ w.length →
          (a.residual u).height ≤ max a.height b.height * (w.length + 1) := fun u hu =>
        (iha ha u).trans (Nat.mul_le_mul (Nat.le_max_left ..) (Nat.succ_le_succ hu))
      have hb' : ∀ v, v.length ≤ w.length →
          (b.residual v).height ≤ v.length + max a.height b.height * (w.length + 1) := fun v hv =>
        Nat.le_add_left_of_le
          ((ihb hb v).trans (Nat.mul_le_mul (Nat.le_max_right ..) (Nat.succ_le_succ hv)))
      have hle := height_residual_append_le ha' hb'
      rw [append_eq_concat ha₀ hb₀ ha₁ hb₁] at hle
      rw [height, Nat.add_mul, Nat.one_mul]
      omega
  | star a ih =>
      obtain ⟨ha₀, ha₁, hstar, ha⟩ := h
      have ha' : ∀ u, u.length ≤ w.length → (a.residual u).height ≤ a.height * (w.length + 1) :=
        fun u hu => (ih ha u).trans (Nat.mul_le_mul_left _ (Nat.succ_le_succ hu))
      have hle := height_residual_many_le hstar w ha'
      rw [many_eq_star ha₀ ha₁ hstar] at hle
      rw [height, Nat.add_mul, Nat.one_mul]
      omega

/-! ## Deterministic expressions -/

/-- At the end of a left operand, or of a round of a repetition, the next byte tells whether to go
on with it or to leave it. -/
def Deterministic : Regex → Prop
  | .empty | .epsilon | .literal _ | .oneOf _ => True
  | .alt a b => a.Deterministic ∧ b.Deterministic
  | .concat a b => a.Deterministic ∧ b.Deterministic ∧
      ∀ w c u v, Matches a w → Matches a (w ++ c :: u) → ¬ Matches b (c :: v)
  | .star a => a.Deterministic ∧
      ∀ w c u v, w ≠ [] → Matches a w → Matches a (w ++ c :: u) → ¬ Matches a (c :: v)

/-- Where `a` may end, no byte has a derivative both in `a` and in `b`. -/
def Forkless (a b : Regex) : Prop :=
  ∀ w c, (a.residual w).nullable = true → a.residual (w ++ [c]) = .empty ∨ b.derivative c = .empty

theorem Forkless.derivative (h : Forkless a b) (c : UInt8) : Forkless (a.derivative c) b :=
  fun w => h (c :: w)

theorem Forkless.many (h : Forkless a b) (hstar : b.isStar = false) : Forkless a b.many := by
  intro w c hw
  rw [derivative_many hstar]
  exact (h w c hw).imp_right fun hb => by rw [hb, append_empty_left]

theorem forkless_of_matches (ha : a.Normal) (hb : b.Normal)
    (h : ∀ w c u v, Matches a w → Matches a (w ++ c :: u) → ¬ Matches b (c :: v)) :
    Forkless a b := by
  intro w c hw
  by_contra hfork
  obtain ⟨hu, hv⟩ := not_or.1 hfork
  obtain ⟨u, hu⟩ := (ha.residual _).exists_matches hu
  obtain ⟨v, hv⟩ := (hb.derivative c).exists_matches hv
  have hw : Matches a w := accepts_iff_matches.1 hw
  rw [matches_residual_iff, List.append_assoc] at hu
  exact h w c u v hw hu (matches_derivative_iff.1 hv)

/-- Without a fork the residual of a concatenation is one branch: it is still at its left operand
or already within its right one. -/
theorem residual_append_of_forkless (h : Forkless a b) (w : Bytes) :
    (a.append b).residual w = (a.residual w).append b ∨
      ∃ v, v.length ≤ w.length ∧ (a.append b).residual w = b.residual v := by
  induction w generalizing a with
  | nil => exact .inl rfl
  | cons c w ih =>
      have hlater : ((a.derivative c).append b).residual w = (a.residual (c :: w)).append b ∨
          ∃ v, v.length ≤ (c :: w).length ∧
            ((a.derivative c).append b).residual w = b.residual v := by
        refine (ih (h.derivative c)).imp_right ?_
        rintro ⟨v, hv, hw⟩
        exact ⟨v, Nat.le_succ_of_le hv, hw⟩
      rw [residual_cons, derivative_append]
      split
      · next hn =>
          rcases h [] c hn with ha | hb
          · have ha : a.derivative c = .empty := ha
            rw [ha, append_empty_left, union_empty_left]
            exact .inr ⟨c :: w, Nat.le_refl _, rfl⟩
          · rw [hb, union_empty_right]
            exact hlater
      · exact hlater

/-- Without a fork a repetition is at the end of a round or within one round. -/
theorem residual_many_of_forkless (hstar : a.isStar = false)
    (h : ∀ c, Forkless (a.derivative c) a.many) : ∀ w : Bytes,
    a.many.residual w = a.many ∨ ∃ u, a.many.residual w = (a.residual u).append a.many
  | [] => .inl rfl
  | c :: w => by
      rw [residual_cons, derivative_many hstar]
      rcases residual_append_of_forkless (h c) w with hw | ⟨v, hv, hw⟩
      · exact .inr ⟨c :: w, hw⟩
      · rw [hw]
        exact residual_many_of_forkless hstar h v
termination_by w => w.length
decreasing_by exact Nat.lt_succ_of_le hv

theorem Normal.height_residual_le_of_deterministic (h : r.Normal) (hr : r.Deterministic)
    (w : Bytes) : (r.residual w).height ≤ r.height + 1 := by
  induction r generalizing w with
  | empty | epsilon | literal | oneOf =>
      rw [height_residual_of_leaf rfl]
      exact Nat.le_add_left 1 _
  | alt a b iha ihb =>
      obtain ⟨ha₀, hb₀, hab, ha, hb⟩ := h
      have hle := height_union_le (a.residual w) (b.residual w)
      have ha' := iha ha hr.1 w
      have hb' := ihb hb hr.2 w
      rw [← residual_union, union_eq_alt ha₀ hb₀ hab] at hle
      rw [height]
      omega
  | concat a b iha ihb =>
      obtain ⟨ha₀, ha₁, hb₀, hb₁, ha, hb⟩ := h
      obtain ⟨hda, hdb, hfork⟩ := hr
      have hone := residual_append_of_forkless (forkless_of_matches ha hb hfork) w
      rw [append_eq_concat ha₀ hb₀ ha₁ hb₁] at hone
      rcases hone with hw | ⟨v, _, hw⟩
      · have hle := height_append_le (a.residual w) b
        have ha' := iha ha hda w
        rw [hw, height]
        omega
      · have hb' := ihb hb hdb v
        rw [hw, height]
        omega
  | star a ih =>
      obtain ⟨ha₀, ha₁, hstar, ha⟩ := h
      obtain ⟨hda, hfork⟩ := hr
      have hforkless : ∀ c, Forkless (a.derivative c) a.many := fun d =>
        Forkless.many (forkless_of_matches (ha.derivative d) ha fun w c u v hw hu => by
          rw [matches_derivative_iff] at hw hu
          exact hfork (d :: w) c u v nofun hw hu) hstar
      have hone := residual_many_of_forkless hstar hforkless w
      rw [many_eq_star ha₀ ha₁ hstar] at hone
      rcases hone with hw | ⟨u, hw⟩
      · rw [hw]
        exact Nat.le_succ _
      · have hle := height_append_le (a.residual u) (star a)
        have ha' := ih ha hda u
        rw [height] at hle
        rw [hw, height]
        omega

end ByteRegex.Regex
