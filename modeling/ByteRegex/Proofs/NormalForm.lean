import ByteRegex.Proofs.ErrorOffset
import ByteRegex.Proofs.Normal

/-! # Normal form, node by node

That a tree is normal says five things about each of its nodes. The simplifying constructors keep
normal form, and so does whatever builds its trees with them: the readers, on patterns that compile
and on those that do not, and the derivative, at each node on its way. -/

namespace ByteRegex.Regex

variable {a b n r : Regex} {s : ByteClass}

/-! ## Nodes -/

/-- The operands of the constructor at the root. -/
def children : Regex → List Regex
  | .empty | .epsilon | .literal _ | .oneOf _ => []
  | .alt a b | .concat a b => [a, b]
  | .star a => [a]

/-- The tree itself and every tree below it. -/
def nodes : Regex → List Regex
  | .empty => [.empty]
  | .epsilon => [.epsilon]
  | .literal b => [.literal b]
  | .oneOf s => [.oneOf s]
  | .alt a b => .alt a b :: (a.nodes ++ b.nodes)
  | .concat a b => .concat a b :: (a.nodes ++ b.nodes)
  | .star a => .star a :: a.nodes

/-- What normal form says about one node. -/
structure NormalAt (n : Regex) : Prop where
  child_ne_empty : ∀ a ∈ n.children, a ≠ .empty
  ne_epsilon_concat : ∀ b, n ≠ .concat .epsilon b
  ne_concat_epsilon : ∀ a, n ≠ .concat a .epsilon
  ne_star_epsilon : n ≠ .star .epsilon
  ne_star_star : ∀ a, n ≠ .star (.star a)
  ne_epsilon_alt_epsilon : n ≠ .alt .epsilon .epsilon
  two_members : ∀ s, n = .oneOf s → ∃ b c, b ≠ c ∧ s.contains b = true ∧ s.contains c = true

theorem normalAt_of_leaf (h : n = .empty ∨ n = .epsilon ∨ ∃ b, n = .literal b) : NormalAt n := by
  rcases h with rfl | rfl | ⟨b, rfl⟩
  all_goals exact ⟨nofun, nofun, nofun, nofun, nofun, nofun, nofun⟩

theorem normalAt_oneOf_iff : NormalAt (.oneOf s) ↔ 2 ≤ s.toList.length := by
  rw [ByteClass.two_le_length_toList_iff]
  constructor
  · exact fun h => h.two_members s rfl
  · refine fun h => ⟨nofun, nofun, nofun, nofun, nofun, nofun, ?_⟩
    rintro _ ⟨⟩
    exact h

theorem normalAt_alt_iff :
    NormalAt (.alt a b) ↔ a ≠ .empty ∧ b ≠ .empty ∧ ¬ (a = .epsilon ∧ b = .epsilon) := by
  constructor
  · intro h
    refine ⟨h.child_ne_empty a (by simp [children]), h.child_ne_empty b (by simp [children]), ?_⟩
    rintro ⟨rfl, rfl⟩
    exact h.ne_epsilon_alt_epsilon rfl
  · rintro ⟨ha, hb, hab⟩
    refine ⟨by simp [children, ha, hb], nofun, nofun, nofun, nofun, ?_, nofun⟩
    rintro ⟨⟩
    exact hab ⟨rfl, rfl⟩

theorem normalAt_concat_iff :
    NormalAt (.concat a b) ↔ a ≠ .empty ∧ a ≠ .epsilon ∧ b ≠ .empty ∧ b ≠ .epsilon := by
  constructor
  · intro h
    refine ⟨h.child_ne_empty a (by simp [children]), ?_, h.child_ne_empty b (by simp [children]), ?_⟩
    · rintro rfl
      exact h.ne_epsilon_concat b rfl
    · rintro rfl
      exact h.ne_concat_epsilon a rfl
  · rintro ⟨ha, ha', hb, hb'⟩
    refine ⟨by simp [children, ha, hb], ?_, ?_, nofun, nofun, nofun, nofun⟩
    · rintro _ ⟨⟩
      exact ha' rfl
    · rintro _ ⟨⟩
      exact hb' rfl

theorem normalAt_star_iff :
    NormalAt (.star a) ↔ a ≠ .empty ∧ a ≠ .epsilon ∧ a.isStar = false := by
  constructor
  · intro h
    refine ⟨h.child_ne_empty a (by simp [children]), ?_, ?_⟩
    · rintro rfl
      exact h.ne_star_epsilon rfl
    · cases a with
      | star a => exact absurd rfl (h.ne_star_star a)
      | _ => rfl
  · rintro ⟨ha, ha', hstar⟩
    refine ⟨by simp [children, ha], nofun, nofun, ?_, ?_, nofun, nofun⟩
    · rintro ⟨⟩
      exact ha' rfl
    · rintro _ ⟨⟩
      cases hstar

/-- A tree is normal if it is at each of its nodes. -/
theorem normal_iff : r.Normal ↔ ∀ n ∈ r.nodes, NormalAt n := by
  induction r with
  | empty => simp [Normal, nodes, normalAt_of_leaf]
  | epsilon => simp [Normal, nodes, normalAt_of_leaf]
  | literal b => simp [Normal, nodes, normalAt_of_leaf]
  | oneOf s => simp [Normal, nodes, normalAt_oneOf_iff]
  | alt a b iha ihb =>
      rw [Normal, iha, ihb, nodes, List.forall_mem_cons, List.forall_mem_append, normalAt_alt_iff]
      simp only [and_assoc]
  | concat a b iha ihb =>
      rw [Normal, iha, ihb, nodes, List.forall_mem_cons, List.forall_mem_append,
        normalAt_concat_iff]
      simp only [and_assoc]
  | star a ih =>
      rw [Normal, ih, nodes, List.forall_mem_cons, normalAt_star_iff]
      simp only [and_assoc]

theorem mem_nodes_trans {m : Regex} (hm : m ∈ n.nodes) (hn : n ∈ r.nodes) : m ∈ r.nodes := by
  induction r with
  | empty | epsilon | literal | oneOf =>
      obtain rfl := List.mem_singleton.1 hn
      exact hm
  | alt a b iha ihb | concat a b iha ihb =>
      rcases List.mem_cons.1 hn with rfl | hn
      · exact hm
      rcases List.mem_append.1 hn with hn | hn
      · exact List.mem_cons_of_mem _ (List.mem_append_left _ (iha hn))
      · exact List.mem_cons_of_mem _ (List.mem_append_right _ (ihb hn))
  | star a ih =>
      rcases List.mem_cons.1 hn with rfl | hn
      · exact hm
      · exact List.mem_cons_of_mem _ (ih hn)

theorem Normal.of_mem_nodes (h : r.Normal) (hn : n ∈ r.nodes) : n.Normal :=
  normal_iff.2 fun m hm => normal_iff.1 h m (mem_nodes_trans hm hn)

end ByteRegex.Regex

/-! ## Readers -/

namespace ByteRegex.Phrase

open Regex Grammar

variable {n : Nat} {P : Regex → Prop}

theorem stars_of_kept (hP : Kept P) {value : Regex} (hvalue : P value) (p : Bytes)
    (h : p.length ≤ n) : P (stars value p h).value := by
  induction p generalizing value with
  | nil => exact hvalue
  | cons b p ih =>
      rw [stars]
      split
      · exact ih (hP.many hvalue) (Nat.le_of_succ_le h)
      · exact hvalue

/-- Whatever bytes a reader is given, the tree it makes has the property, if the tree that it goes on
from has it. -/
structure ReadersKeep (P : Regex → Prop) : Prop where
  alternation {p : Bytes} {φ : Phrase p.length} : alternation p = .ok φ → P φ.value
  branches {n : Nat} {left : Regex} {p : Bytes} {h : p.length ≤ n} {φ : Phrase n} :
    branches left p h = .ok φ → P left → P φ.value
  branch {n : Nat} {left : Regex} {p : Bytes} {h : p.length ≤ n} {φ : Phrase n} :
    branch left p h = .ok φ → P left → P φ.value
  factor {p : Bytes} {φ : Phrase (p.length - 1)} : factor p = .ok φ → P φ.value
  stars {n : Nat} {value : Regex} (p : Bytes) (h : p.length ≤ n) :
    P value → P (stars value p h).value
  atom {p : Bytes} {φ : Phrase (p.length - 1)} : atom p = .ok φ → P φ.value
  members {n : Nat} {s : ByteClass} {p : Bytes} {h : p.length ≤ n} {φ : Phrase n} :
    members s p h = .ok φ → P φ.value

theorem readersKeep_of_kept (hP : Kept P) : ReadersKeep P := by
  obtain ⟨halternation, hbranches, hbranch, hfactor, hatom⟩ := exists_derivation_of_ok
  constructor
  case alternation =>
    intro p φ hφ
    obtain ⟨a, _, hv⟩ := halternation p φ hφ
    exact hv ▸ a.value_of_kept hP
  case branches =>
    intro n left p h φ hφ hleft
    obtain ⟨bs, _, hv⟩ := hbranches n left p h φ hφ
    have hvalues : ∀ r ∈ bs.map Branch.value, P r :=
      List.forall_mem_map.2 fun b _ => b.value_of_kept hP
    rw [hv]
    exact List.foldlRecOn _ _ hleft fun _ ha r hr => hP.union ha (hvalues r hr)
  case branch =>
    intro n left p h φ hφ hleft
    obtain ⟨fs, _, hv⟩ := hbranch n left p h φ hφ
    have hvalues : ∀ r ∈ fs.map Factor.value, P r :=
      List.forall_mem_map.2 fun f _ => f.value_of_kept hP
    rw [hv]
    exact List.foldlRecOn _ _ hleft fun _ ha r hr => hP.append ha (hvalues r hr)
  case factor =>
    intro p φ hφ
    obtain ⟨f, _, hv⟩ := hfactor p φ hφ
    exact hv ▸ f.value_of_kept hP
  case stars =>
    intro n value p h hvalue
    exact stars_of_kept hP hvalue p h
  case atom =>
    intro p φ hφ
    obtain ⟨a, _, hv⟩ := hatom p φ hφ
    exact hv ▸ a.value_of_kept hP
  case members =>
    intro n s p h φ hφ
    obtain ⟨ms, _, hv⟩ := exists_members_of_ok hφ
    exact hv ▸ hP.ofClass _

end ByteRegex.Phrase

/-! ## Derivatives -/

namespace ByteRegex.Regex

variable {r : Regex}

/-- Deriving calls itself on nodes. What it makes at each of them, and of what, is normal. -/
theorem Normal.derivative_node (h : r.Normal) (c : UInt8) :
    ∀ n ∈ r.nodes, (n.derivative c).Normal ∧
      (∀ a b, n = .concat a b → ((a.derivative c).append b).Normal) ∧
      ∀ a, n = .star a → a.many.Normal := by
  intro n hn
  have hnode := h.of_mem_nodes hn
  refine ⟨hnode.derivative c, ?_, ?_⟩
  · rintro a b rfl
    obtain ⟨_, _, _, _, ha, hb⟩ := hnode
    exact (ha.derivative c).append hb
  · rintro a rfl
    obtain ⟨_, _, _, ha⟩ := hnode
    exact ha.many

/-- **Reading establishes normal form and deriving keeps it.** A tree is normal if five things hold at
each node: no operand matches nothing; no operand of a concatenation and no repeated body is the
empty text; no repetition repeats a repetition; no alternation offers the empty text twice; a class
has two members. This is so for a compiled pattern after every text. It is so for every tree made on
the way, since the simplifying constructors keep it: those that the readers make, of whatever bytes,
and those that the derivative makes at each node. -/
theorem normal_form_kept :
    (∀ r : Regex, r.Normal ↔ ∀ n ∈ r.nodes, NormalAt n) ∧
      (∀ (p : Pattern) (w : Bytes), ∀ n ∈ (p.regex.residual w).nodes, NormalAt n) ∧
      Kept Normal ∧
      Phrase.ReadersKeep Normal ∧
      ∀ (r : Regex) (c : UInt8), r.Normal → ∀ n ∈ r.nodes, (n.derivative c).Normal ∧
        (∀ a b, n = .concat a b → ((a.derivative c).append b).Normal) ∧
        ∀ a, n = .star a → a.many.Normal :=
  ⟨fun _ => normal_iff, fun p w => normal_iff.1 (p.normal_regex.residual w), kept_normal,
    Phrase.readersKeep_of_kept kept_normal, fun _ c h => h.derivative_node c⟩

/-- A repeated choice in front of a class, after a byte; and what is read of a pattern that does not
compile, up to the byte at which it fails. -/
theorem normal_form_kept_group :
    (∃ p, Pattern.compile (Bytes.ofString "(a|bc)*[de]") = .ok p ∧
      (∀ n ∈ (p.regex.residual (Bytes.ofString "b")).nodes, NormalAt n) ∧
      ∀ n ∈ p.regex.nodes, (n.derivative 0x62).Normal) ∧
      ∃ φ, Phrase.alternation (Bytes.ofString "a||b)") = .ok φ ∧ φ.value.Normal := by
  obtain ⟨hiff, hresidual, -, hreaders, hnode⟩ := normal_form_kept
  obtain ⟨p, hp⟩ := Pattern.exists_compile_eq_ok_iff.2
    (show Scan.fault? (Bytes.ofString "(a|bc)*[de]") = none by decide)
  have hnormal : p.regex.Normal := (hiff _).2 (hresidual p [])
  have hread : Phrase.alternation (Bytes.ofString "a||b)") =
      .ok ⟨.alt (.alt (.literal 0x61) .epsilon) (.literal 0x62), [Ascii.rparen], by decide⟩ := by
    cbv
  exact ⟨⟨p, hp, hresidual p _, fun n hn => (hnode _ _ hnormal n hn).1⟩, _, hread,
    hreaders.alternation hread⟩

end ByteRegex.Regex
