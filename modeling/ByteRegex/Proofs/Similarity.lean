import Mathlib.Data.Finite.Prod
import Mathlib.Order.SupClosed
import ByteRegex.Proofs.Simplification
import ByteRegex.Regex.Similar

/-! # Finitely many residuals up to similarity

Deriving an expression by longer and longer texts makes trees without number. Up to similarity they
are finitely many, so that deriving is running a finite automaton whose states are never written
down.

Residuals are put together with `union`, which is associative, commutative and idempotent up to
similarity: the states form a semilattice with `union` for its join. The residuals of a
concatenation are joins of two kinds of trees, residuals of the left operand with the right one
behind them and residuals of the right operand; those of a repetition are joins of residuals of the
body with the repetition behind them. Finitely many states have finitely many joins. -/

namespace ByteRegex.Regex

variable {a a' b b' d r : Regex} {s : Set Regex} {c : UInt8} {w : Bytes}

theorem Similar.sameLanguage (h : Similar a b) : SameLanguage a b := by
  induction h with
  | refl a => exact .refl a
  | symm _ ih => exact ih.symm
  | trans _ _ ih ih' => exact ih.trans ih'
  | alt _ _ iha ihb => exact iha.alt ihb
  | concat _ _ iha ihb => exact iha.concat ihb
  | star _ ih => exact ih.star
  | altAssoc a b c =>
      intro w
      simp only [matches_alt_iff, or_assoc]
  | altComm a b =>
      intro w
      simp only [matches_alt_iff, or_comm]
  | altSelf a =>
      intro w
      simp only [matches_alt_iff, or_self]

/-! ## Unions up to similarity -/

theorem similar_union (ha : a ≠ .empty) (hb : b ≠ .empty) : Similar (a.union b) (.alt a b) := by
  by_cases hab : a = .epsilon ∧ b = .epsilon
  · rw [hab.1, hab.2]
    exact .symm (.altSelf .epsilon)
  · rw [union_eq_alt ha hb hab]
    exact .refl _

theorem union_eq_empty_iff : a.union b = .empty ↔ a = .empty ∧ b = .empty := by
  unfold union
  split <;> simp_all

theorem union_eq_epsilon_iff (ha : a ≠ .empty) (hb : b ≠ .empty) :
    a.union b = .epsilon ↔ a = .epsilon ∧ b = .epsilon := by
  by_cases hab : a = .epsilon ∧ b = .epsilon
  · simp [hab]
  · simp [union_eq_alt ha hb hab, hab]

/-- Similar expressions that the simplifying constructors treat alike. Similarity does not tell
`empty` from an alternation of `empty` with itself, of which `union` drops only the first. -/
structure Alike (a b : Regex) : Prop where
  similar : Similar a b
  empty_iff : a = .empty ↔ b = .empty
  epsilon_iff : a = .epsilon ↔ b = .epsilon

namespace Alike

theorem refl (a : Regex) : Alike a a := ⟨.refl a, .rfl, .rfl⟩

theorem symm (h : Alike a b) : Alike b a := ⟨h.similar.symm, h.empty_iff.symm, h.epsilon_iff.symm⟩

theorem trans (h : Alike a b) (h' : Alike b d) : Alike a d :=
  ⟨h.similar.trans h'.similar, h.empty_iff.trans h'.empty_iff, h.epsilon_iff.trans h'.epsilon_iff⟩

theorem equivalence : Equivalence Alike := ⟨refl, symm, trans⟩

theorem union (ha : Alike a a') (hb : Alike b b') : Alike (a.union b) (a'.union b') := by
  rcases eq_or_ne a .empty with rfl | ha₀
  · obtain rfl := ha.empty_iff.1 rfl
    rwa [union_empty_left, union_empty_left]
  rcases eq_or_ne b .empty with rfl | hb₀
  · obtain rfl := hb.empty_iff.1 rfl
    rwa [union_empty_right, union_empty_right]
  have ha₀' := ha.empty_iff.not.1 ha₀
  have hb₀' := hb.empty_iff.not.1 hb₀
  constructor
  · have halt : Similar (.alt a b) (.alt a' b') := ha.similar.alt hb.similar
    exact (similar_union ha₀ hb₀).trans (halt.trans (similar_union ha₀' hb₀').symm)
  · rw [union_eq_empty_iff, union_eq_empty_iff, ha.empty_iff, hb.empty_iff]
  · rw [union_eq_epsilon_iff ha₀ hb₀, union_eq_epsilon_iff ha₀' hb₀', ha.epsilon_iff,
      hb.epsilon_iff]

theorem union_comm (a b : Regex) : Alike (a.union b) (b.union a) := by
  rcases eq_or_ne a .empty with rfl | ha
  · rw [union_empty_left, union_empty_right]
    exact refl b
  rcases eq_or_ne b .empty with rfl | hb
  · rw [union_empty_left, union_empty_right]
    exact refl a
  constructor
  · exact (similar_union ha hb).trans (.trans (.altComm a b) (similar_union hb ha).symm)
  · rw [union_eq_empty_iff, union_eq_empty_iff, and_comm]
  · rw [union_eq_epsilon_iff ha hb, union_eq_epsilon_iff hb ha, and_comm]

theorem union_assoc (a b d : Regex) : Alike ((a.union b).union d) (a.union (b.union d)) := by
  rcases eq_or_ne a .empty with rfl | ha
  · rw [union_empty_left, union_empty_left]
    exact refl _
  rcases eq_or_ne b .empty with rfl | hb
  · rw [union_empty_left, union_empty_right]
    exact refl _
  rcases eq_or_ne d .empty with rfl | hd
  · rw [union_empty_right, union_empty_right]
    exact refl _
  have hab : a.union b ≠ .empty := fun h => ha (union_eq_empty_iff.1 h).1
  have hbd : b.union d ≠ .empty := fun h => hb (union_eq_empty_iff.1 h).1
  constructor
  · have hleft : Similar ((a.union b).union d) (.alt (.alt a b) d) :=
      (similar_union hab hd).trans (.alt (similar_union ha hb) (.refl d))
    have hright : Similar (a.union (b.union d)) (.alt a (.alt b d)) :=
      (similar_union ha hbd).trans (.alt (.refl a) (similar_union hb hd))
    exact hleft.trans (.trans (.altAssoc a b d) hright.symm)
  · simp only [union_eq_empty_iff, and_assoc]
  · rw [union_eq_epsilon_iff hab hd, union_eq_epsilon_iff ha hb, union_eq_epsilon_iff ha hbd,
      union_eq_epsilon_iff hb hd, and_assoc]

theorem union_self (a : Regex) : Alike (a.union a) a := by
  rcases eq_or_ne a .empty with rfl | ha
  · rw [union_empty_left]
    exact refl _
  constructor
  · exact (similar_union ha ha).trans (.altSelf a)
  · rw [union_eq_empty_iff, and_self_iff]
  · rw [union_eq_epsilon_iff ha ha, and_self_iff]

theorem append_left (h : Alike a a') (b : Regex) : Alike (a.append b) (a'.append b) := by
  rcases eq_or_ne a .empty with rfl | ha₀
  · obtain rfl := h.empty_iff.1 rfl
    exact refl _
  rcases eq_or_ne a .epsilon with rfl | ha₁
  · obtain rfl := h.epsilon_iff.1 rfl
    exact refl _
  rcases eq_or_ne b .empty with rfl | hb₀
  · rw [append_empty_right, append_empty_right]
    exact refl _
  rcases eq_or_ne b .epsilon with rfl | hb₁
  · rwa [append_epsilon_right, append_epsilon_right]
  rw [append_eq_concat ha₀ hb₀ ha₁ hb₁,
    append_eq_concat (h.empty_iff.not.1 ha₀) hb₀ (h.epsilon_iff.not.1 ha₁) hb₁]
  exact ⟨h.similar.concat (.refl b), iff_of_false nofun nofun, iff_of_false nofun nofun⟩

end Alike

/-! ## States -/

/-- A state of the automaton whose steps are derivatives: an expression up to likeness. -/
def AutomatonState : Type := Quotient ⟨Alike, Alike.equivalence⟩

/-- The state that an expression stands for. -/
def state (r : Regex) : AutomatonState := Quotient.mk _ r

theorem state_eq_iff : state a = state b ↔ Alike a b := Quotient.eq

namespace AutomatonState

instance : Max AutomatonState := ⟨Quotient.map₂ union fun _ _ ha _ _ hb => ha.union hb⟩

instance : SemilatticeSup AutomatonState := SemilatticeSup.mk'
  (by
    rintro ⟨a⟩ ⟨b⟩
    exact state_eq_iff.2 (.union_comm a b))
  (by
    rintro ⟨a⟩ ⟨b⟩ ⟨d⟩
    exact state_eq_iff.2 (.union_assoc a b d))
  (by
    rintro ⟨a⟩
    exact state_eq_iff.2 (.union_self a))

/-- The state of an expression with another one behind it. -/
def followedBy (b : Regex) : AutomatonState → AutomatonState :=
  Quotient.map (append · b) fun _ _ h => h.append_left b

/-- Some expression of a state. -/
noncomputable def tree : AutomatonState → Regex := Quotient.out

end AutomatonState

theorem similar_tree_state (r : Regex) : Similar r (state r).tree :=
  (state_eq_iff.1 (Quotient.out_eq (state r))).similar.symm

theorem state_union (a b : Regex) : state (a.union b) = state a ⊔ state b := rfl

theorem state_append (a b : Regex) : state (a.append b) = (state a).followedBy b := rfl

/-- The states of all residuals. -/
def states (r : Regex) : Set AutomatonState := Set.range fun w => state (r.residual w)

theorem finite_states_of_cons {t : Set AutomatonState} (ht : t.Finite)
    (h : ∀ c w, state (r.residual (c :: w)) ∈ t) : r.states.Finite := by
  refine (ht.insert (state r)).subset ?_
  rintro _ ⟨_ | ⟨c, w⟩, rfl⟩
  · exact .inl rfl
  · exact .inr (h c w)

/-! ## Sets of trees with finitely many joins -/

/-- Some members of a set, put together with `union`. -/
inductive UnionOf (s : Set Regex) : Regex → Prop
  | single {r : Regex} : r ∈ s → UnionOf s r
  | union {a b : Regex} : UnionOf s a → UnionOf s b → UnionOf s (a.union b)

/-- Deriving the members of a set leads to unions of members. -/
def DerivativeClosed (s : Set Regex) : Prop := ∀ r ∈ s, ∀ c, UnionOf s (r.derivative c)

namespace UnionOf

theorem mono {t : Set Regex} (h : UnionOf s r) (hst : s ⊆ t) : UnionOf t r := by
  induction h with
  | single hr => exact .single (hst hr)
  | union _ _ iha ihb => exact .union iha ihb

theorem derivative (hs : DerivativeClosed s) (h : UnionOf s r) (c : UInt8) :
    UnionOf s (r.derivative c) := by
  induction h with
  | single hr => exact hs _ hr c
  | union _ _ iha ihb =>
      rw [derivative_union]
      exact iha.union ihb

theorem residual (hs : DerivativeClosed s) (h : UnionOf s r) (w : Bytes) :
    UnionOf s (r.residual w) := by
  induction w generalizing r with
  | nil => exact h
  | cons c w ih => exact ih (h.derivative hs c)

theorem state_mem (h : UnionOf s r) : state r ∈ supClosure (state '' s) := by
  induction h with
  | single hr => exact subset_supClosure (Set.mem_image_of_mem state hr)
  | union _ _ iha ihb => exact supClosed_supClosure iha ihb

end UnionOf

/-- What derives into unions from a set with finitely many states has itself finitely many. -/
theorem finite_states_of_closed (hfin : (state '' s).Finite) (hs : DerivativeClosed s)
    (h : ∀ c, UnionOf s (r.derivative c)) : r.states.Finite :=
  finite_states_of_cons hfin.supClosure fun c w => ((h c).residual hs w).state_mem

/-! ## Residuals in front of an expression -/

theorem derivative_residual (r : Regex) (w : Bytes) (c : UInt8) :
    (r.residual w).derivative c = r.residual (w ++ [c]) := by
  rw [residual_append, residual_cons, residual_nil]

/-- All residuals of `a` with `b` behind them. -/
def residualsBefore (a b : Regex) : Set Regex := Set.range fun w => (a.residual w).append b

theorem append_mem_residualsBefore (a b : Regex) (w : Bytes) :
    (a.residual w).append b ∈ a.residualsBefore b :=
  ⟨w, rfl⟩

theorem finite_states_residualsBefore (ha : a.states.Finite) (b : Regex) :
    (state '' a.residualsBefore b).Finite := by
  refine (ha.image (AutomatonState.followedBy b)).subset ?_
  rintro _ ⟨_, ⟨w, rfl⟩, rfl⟩
  exact ⟨_, ⟨w, rfl⟩, (state_append _ b).symm⟩

/-- The next byte belongs to `a`, or to `b` if `a` may end. -/
theorem unionOf_derivative_append (hs : a.residualsBefore b ⊆ s)
    (hb : UnionOf s (b.derivative c)) (w : Bytes) :
    UnionOf s (((a.residual w).append b).derivative c) := by
  have hfirst : UnionOf s (((a.residual w).derivative c).append b) := by
    rw [derivative_residual]
    exact .single (hs (append_mem_residualsBefore a b _))
  rw [derivative_append]
  split
  · exact hfirst.union hb
  · exact hfirst

theorem derivativeClosed_range_residual (b : Regex) :
    DerivativeClosed (Set.range b.residual) := by
  rintro _ ⟨w, rfl⟩ c
  rw [derivative_residual]
  exact .single ⟨w ++ [c], rfl⟩

/-- Residuals of `a` in front of `b`, together with residuals of `b`. -/
theorem derivativeClosed_residualsBefore_union (a b : Regex) :
    DerivativeClosed (a.residualsBefore b ∪ Set.range b.residual) := by
  have hb : ∀ x ∈ Set.range b.residual, ∀ c,
      UnionOf (a.residualsBefore b ∪ Set.range b.residual) (x.derivative c) := fun x hx c =>
    (derivativeClosed_range_residual b x hx c).mono Set.subset_union_right
  rintro _ (⟨w, rfl⟩ | hx) c
  · exact unionOf_derivative_append Set.subset_union_left (hb b ⟨[], rfl⟩ c) w
  · exact hb _ hx c

theorem finite_states_of_append (ha : a.states.Finite) (hb : b.states.Finite)
    (h : ∀ c, UnionOf (a.residualsBefore b ∪ Set.range b.residual) (r.derivative c)) :
    r.states.Finite := by
  refine finite_states_of_closed ?_ (derivativeClosed_residualsBefore_union a b) h
  rw [Set.image_union, ← Set.range_comp]
  exact (finite_states_residualsBefore ha b).union hb

/-! ## Leaves -/

theorem residual_empty (w : Bytes) : empty.residual w = .empty := by
  induction w with
  | nil => rfl
  | cons c w ih => exact ih

/-- A leaf can only stay as it is, or become one of the two leaves that match no byte. -/
theorem residual_of_leaf (h : ∀ c, r.derivative c = .epsilon ∨ r.derivative c = .empty)
    (w : Bytes) : r.residual w = r ∨ r.residual w = .epsilon ∨ r.residual w = .empty := by
  have hepsilon : ∀ v, epsilon.residual v = .epsilon ∨ epsilon.residual v = .empty := by
    rintro (_ | ⟨c, v⟩)
    · exact .inl rfl
    · exact .inr (residual_empty v)
  cases w with
  | nil => exact .inl rfl
  | cons c w =>
      rw [residual_cons]
      rcases h c with hc | hc
      · rw [hc]
        exact .inr (hepsilon w)
      · rw [hc, residual_empty]
        exact .inr (.inr rfl)

theorem finite_states_of_leaf (h : ∀ c, r.derivative c = .epsilon ∨ r.derivative c = .empty) :
    r.states.Finite := by
  refine (Set.toFinite {state r, state .epsilon, state .empty}).subset ?_
  rintro _ ⟨w, rfl⟩
  rcases residual_of_leaf h w with hw | hw | hw <;> simp [hw]

/-! ## Nodes -/

theorem finite_states_alt (ha : a.states.Finite) (hb : b.states.Finite) :
    (alt a b).states.Finite := by
  refine finite_states_of_cons (ha.image2 (· ⊔ ·) hb) fun c w => ?_
  have hunion : (alt a b).residual (c :: w) =
      (a.residual (c :: w)).union (b.residual (c :: w)) := by
    rw [residual_cons, derivative, residual_union, residual_cons, residual_cons]
  rw [hunion, state_union]
  exact Set.mem_image2_of_mem ⟨c :: w, rfl⟩ ⟨c :: w, rfl⟩

theorem finite_states_concat (ha : a.states.Finite) (hb : b.states.Finite) :
    (concat a b).states.Finite := by
  refine finite_states_of_append ha hb fun c => ?_
  have happend : (concat a b).derivative c = (a.append b).derivative c := by
    rw [derivative_append, derivative]
  rw [happend]
  exact derivativeClosed_residualsBefore_union a b _ (.inl ⟨[], rfl⟩) c

theorem finite_states_star (ha : a.states.Finite) : (star a).states.Finite := by
  have hround : ∀ c, (star a).derivative c ∈ a.residualsBefore a.many := fun c => ⟨[c], rfl⟩
  cases hstar : a.isStar with
  | false =>
      -- A round may be followed by a new one, which is of the same kind.
      refine finite_states_of_closed (finite_states_residualsBefore ha a.many) ?_ fun c =>
        .single (hround c)
      rintro _ ⟨w, rfl⟩ c
      have hnew := hround c
      rw [derivative, ← derivative_many hstar] at hnew
      exact unionOf_derivative_append subset_rfl (.single hnew) w
  | true =>
      -- Here `many` adds nothing to the body, and the two are a concatenation.
      have hmany : a.many = a := by
        cases a with
        | star a => rfl
        | empty | epsilon | literal | oneOf | alt | concat => cases hstar
      rw [hmany] at hround
      exact finite_states_of_append ha ha fun c => .single (.inl (hround c))

theorem finite_states (r : Regex) : r.states.Finite := by
  induction r with
  | empty | epsilon => exact finite_states_of_leaf fun _ => .inr rfl
  | literal | oneOf =>
      refine finite_states_of_leaf fun c => ?_
      unfold derivative
      split <;> simp
  | alt a b iha ihb => exact finite_states_alt iha ihb
  | concat a b iha ihb => exact finite_states_concat iha ihb
  | star a ih => exact finite_states_star ih

/-- **The implicit automaton is finite.** For a tree of any shape there are finitely many trees
such that the residual after any text is similar to one of them, which accepts just what may follow
the text. -/
theorem residuals_finite_up_to_similarity (r : Regex) :
    ∃ trees : List Regex, ∀ w, ∃ t ∈ trees,
      Similar (r.residual w) t ∧ ∀ v, t.accepts v = r.accepts (w ++ v) := by
  refine ⟨r.finite_states.toFinset.toList.map AutomatonState.tree, fun w => ?_⟩
  have hmem : state (r.residual w) ∈ r.finite_states.toFinset.toList := by
    rw [Finset.mem_toList, Set.Finite.mem_toFinset]
    exact ⟨w, rfl⟩
  have hsimilar := similar_tree_state (r.residual w)
  refine ⟨_, List.mem_map_of_mem hmem, hsimilar, fun v => ?_⟩
  rw [← hsimilar.sameLanguage.accepts_eq, accepts_residual]

/-- The residuals of `a*a*` grow by an alternation with each `a`, and stay similar. -/
example : Similar ((concat (star (literal 0x61)) (star (literal 0x61))).residual [0x61, 0x61])
    ((concat (star (literal 0x61)) (star (literal 0x61))).residual [0x61]) :=
  .trans (.altAssoc _ _ _) (.alt (.refl _) (.altSelf _))

end ByteRegex.Regex
