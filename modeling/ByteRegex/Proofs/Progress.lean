import ByteRegex.Pattern.Cursor
import ByteRegex.Proofs.ErrorOffset

/-! # Reading makes progress

The readers that work on a whole pattern always end: some depth is enough for them. The cursor does
not go back and does not leave the pattern, and the outcome is the one of the readers that are given
the bytes ahead. This is proved along the recursion of the latter, which is known to end: each step
of a reader moves the cursor as `Comes` says, and what a reader comes to is put together from its
steps.

A factor and an atom need the start of an atom ahead. The readers do not start them elsewhere, so
that no pattern comes to the point where an atom is expected. -/

namespace ByteRegex

open Scan (AtomStart)

/-- Where a reader may be started. A factor and an atom need the start of an atom ahead. -/
def Reader.Admits : Reader → Bytes → Prop
  | .factor, p | .atom, p => AtomStart p
  | _, _ => True

namespace Cursor

/-- The cursor stands in front of the bytes `p`, and has come there from `start` on without going
back: the readers were started one behind the other, none in front of `start` and none behind where
the cursor stands. -/
structure StandsBefore (c : Cursor) (pattern : Bytes) (start : Nat) (p : Bytes) : Prop where
  le_length : c.position ≤ pattern.length
  drop_eq : pattern.drop c.position = p
  start_le : start ≤ c.position
  sorted : c.calls.Pairwise fun call later => call.position ≤ later.position
  between : ∀ call ∈ c.calls, start ≤ call.position ∧ call.position ≤ c.position

/-- Every reader so far was started where it may be. -/
def Admitted (c : Cursor) (pattern : Bytes) : Prop :=
  ∀ call ∈ c.calls, call.reader.Admits (pattern.drop call.position)

variable {c : Cursor} {pattern p : Bytes} {start : Nat}

theorem StandsBefore.noting (hc : c.StandsBefore pattern start p) (r : Reader) :
    (c.noting r).StandsBefore pattern start p := by
  refine ⟨hc.le_length, hc.drop_eq, hc.start_le, ?_, ?_⟩
  · refine List.pairwise_append.2 ⟨hc.sorted, List.pairwise_singleton .., fun call hcall => ?_⟩
    exact List.forall_mem_singleton.2 (hc.between call hcall).2
  · refine List.forall_mem_append.2 ⟨hc.between, ?_⟩
    exact List.forall_mem_singleton.2 ⟨hc.start_le, Nat.le_refl _⟩

theorem Admitted.noting (h : c.Admitted pattern) (hc : c.StandsBefore pattern start p) {r : Reader}
    (hr : r.Admits p) : (c.noting r).Admitted pattern := by
  refine List.forall_mem_append.2 ⟨h, List.forall_mem_singleton.2 ?_⟩
  rw [hc.drop_eq]
  exact hr

end Cursor

namespace Reading

variable {α β : Type} {pattern p q : Bytes} {a : α} {b : UInt8} {e : Cause} {A : Prop} {r : Reader}
variable {c c' : Cursor} {o : Except Cause β × Bytes}

section Bind

variable {x : Reading α} {f : α → Reading β}

theorem startingAt_bind_of_ok (h : x.startingAt c = some (.ok a, c')) :
    (x >>= f).startingAt c = (f a).startingAt c' := by
  simp only [startingAt, ExceptT.run_bind, StateT.run_bind] at h ⊢
  rw [h]
  rfl

theorem startingAt_bind_of_error (h : x.startingAt c = some (.error e, c')) :
    (x >>= f).startingAt c = some (.error e, c') := by
  simp only [startingAt, ExceptT.run_bind, StateT.run_bind] at h ⊢
  rw [h]
  rfl

end Bind

-- What starts readers is given for every depth: `x n` may start them `n` deep.
variable {x : Nat → Reading α} {f : Nat → α → Reading β}

/-- If it may go deep enough, a reading ends with the outcome `o`. -/
def Ends (x : Nat → Reading α) (c : Cursor) (o : Except Cause α × Cursor) : Prop :=
  ∃ depth, ∀ n, depth ≤ n → (x n).startingAt c = some o

theorem ends_of_forall {o : Except Cause α × Cursor} (h : ∀ n, (x n).startingAt c = some o) :
    Ends x c o :=
  ⟨0, fun n _ => h n⟩

theorem Ends.bind {o : Except Cause β × Cursor} (hx : Ends x c (.ok a, c'))
    (hf : Ends (fun n => f n a) c' o) : Ends (fun n => x n >>= f n) c o := by
  obtain ⟨d, hd⟩ := hx
  obtain ⟨d', hd'⟩ := hf
  refine ⟨max d d', fun n hn => ?_⟩
  rw [startingAt_bind_of_ok (hd n (Nat.le_trans (Nat.le_max_left ..) hn))]
  exact hd' n (Nat.le_trans (Nat.le_max_right ..) hn)

theorem Ends.bind_error (hx : Ends x c (.error e, c')) :
    Ends (fun n => x n >>= f n) c (.error e, c') := by
  obtain ⟨d, hd⟩ := hx
  exact ⟨d, fun n hn => startingAt_bind_of_error (hd n hn)⟩

/-- Started in front of the bytes `p`, a reading ends with an outcome `o.1` in front of the bytes
`o.2`, without going back and without losing a call. If `A` holds, it starts no reader where it may
not be. -/
def Comes (x : Nat → Reading α) (pattern p : Bytes) (A : Prop) (o : Except Cause α × Bytes) :
    Prop :=
  ∀ start c, c.StandsBefore pattern start p → ∃ last, Ends x c (o.1, last) ∧
    last.StandsBefore pattern start o.2 ∧ c.calls <+: last.calls ∧
    (A → c.Admitted pattern → last.Admitted pattern)

theorem comes_pure (a : α) : Comes (fun _ => pure a) pattern p A (.ok a, p) :=
  fun _ c hc => ⟨c, ends_of_forall fun _ => rfl, hc, List.prefix_rfl, fun _ h => h⟩

theorem comes_throw (e : Cause) : Comes (fun _ => (throw e : Reading α)) pattern p A (.error e, p) :=
  fun _ c hc => ⟨c, ends_of_forall fun _ => rfl, hc, List.prefix_rfl, fun _ h => h⟩

theorem Comes.bind (hx : Comes x pattern p A (.ok a, q))
    (hf : Comes (fun n => f n a) pattern q A o) : Comes (fun n => x n >>= f n) pattern p A o := by
  intro start c hc
  obtain ⟨c', hends, hc', hcalls, hadm⟩ := hx start c hc
  obtain ⟨last, hends', hlast, hcalls', hadm'⟩ := hf start c' hc'
  exact ⟨last, hends.bind hends', hlast, hcalls.trans hcalls', fun hA h => hadm' hA (hadm hA h)⟩

theorem Comes.bind_error (hx : Comes x pattern p A (.error e, q)) :
    Comes (fun n => x n >>= f n) pattern p A (.error e, q) := by
  intro start c hc
  obtain ⟨last, hends, hlast⟩ := hx start c hc
  exact ⟨last, hends.bind_error, hlast⟩

theorem Comes.mono {B : Prop} {o : Except Cause α × Bytes} (hx : Comes x pattern p B o)
    (h : A → B) : Comes x pattern p A o := by
  intro start c hc
  obtain ⟨last, hends, hlast, hcalls, hadm⟩ := hx start c hc
  exact ⟨last, hends, hlast, hcalls, fun hA => hadm (h hA)⟩

theorem comes_peek : Comes (fun _ => peek pattern) pattern p A (.ok p.head?, p) := by
  intro start c hc
  refine ⟨c, ends_of_forall fun _ => ?_, hc, List.prefix_rfl, fun _ h => h⟩
  have hb : p.head? = pattern[c.position]? := by rw [← hc.drop_eq, List.head?_drop]
  rw [hb]
  rfl

theorem comes_advance : Comes (fun _ => advance) pattern (b :: p) A (.ok (), p) := by
  intro start c hc
  refine ⟨⟨c.position + 1, c.calls⟩, ends_of_forall fun _ => rfl,
    ⟨?_, ?_, Nat.le_succ_of_le hc.start_le, hc.sorted, ?_⟩, List.prefix_rfl, fun _ h => h⟩
  · have hlength := congrArg List.length hc.drop_eq
    rw [List.length_drop, List.length_cons] at hlength
    change c.position + 1 ≤ pattern.length
    omega
  · change pattern.drop (c.position + 1) = p
    rw [← List.tail_drop, hc.drop_eq, List.tail_cons]
  · intro call hcall
    obtain ⟨hstart, hle⟩ := hc.between call hcall
    exact ⟨hstart, Nat.le_succ_of_le hle⟩

theorem comes_next : Comes (fun _ => next pattern) pattern p A (.ok p.head?, p.tail) := by
  cases p with
  | nil => exact comes_peek.bind (comes_pure none)
  | cons b p => exact comes_peek.bind (comes_advance.bind (comes_pure (some b)))

end Reading

/-! ## The outcomes of the readers -/

/-- The outcome of reading a phrase, and the bytes that are not read then. -/
def Phrase.outcome {n : Nat} : Except Fault (Phrase n) → Except Cause Regex × Bytes
  | .ok φ => (.ok φ.value, φ.rest)
  | .error f => (.error f.cause, f.unread)

/-- What reading some bytes comes to, and the bytes that are not read then. -/
def Reader.outcome {n : Nat} : Reader → (p : Bytes) → p.length ≤ n → Except Cause Regex × Bytes
  | .pattern, p, _ =>
      match Regex.parse p with
      | .ok value => (.ok value, [])
      | .error f => (.error f.cause, f.unread)
  | .alternation, p, _ => Phrase.outcome (Phrase.alternation p)
  | .branches left, p, h => Phrase.outcome (Phrase.branches left p h)
  | .branch, p, h => Phrase.outcome (Phrase.branch .epsilon p h)
  | .factors left, p, h => Phrase.outcome (Phrase.branch left p h)
  | .factor, p, _ => Phrase.outcome (Phrase.factor p)
  | .stars value, p, h => Phrase.outcome (.ok (Phrase.stars value p h))
  | .atom, p, _ => Phrase.outcome (Phrase.atom p)
  | .members s, p, h => Phrase.outcome (Phrase.members s p h)

namespace Reader

open Reading Grammar

variable {pattern p : Bytes} {n : Nat} {r : Reader} {o : Except Cause Regex × Bytes}

/-- What the reader does, on the whole pattern in front of the bytes `p`, comes to `o`. -/
def Comes (r : Reader) (pattern p : Bytes) (o : Except Cause Regex × Bytes) : Prop :=
  Reading.Comes (fun n => r.body pattern (read pattern n)) pattern p (r.Admits p) o

/-- To start a reader is to note it and to let it go one level deeper. -/
theorem ends_read {c : Cursor} {o : Except Cause Regex × Cursor}
    (h : Ends (fun n => r.body pattern (read pattern n)) (c.noting r) o) :
    Ends (fun n => r.read pattern n) c o := by
  obtain ⟨depth, hdepth⟩ := h
  refine ⟨depth + 1, fun n hn => ?_⟩
  obtain ⟨n, rfl⟩ := Nat.exists_eq_add_one_of_ne_zero (Nat.ne_zero_of_lt hn)
  exact hdepth n (Nat.le_of_succ_le_succ hn)

/-- A reader that is started is in the list of calls, behind those made before. -/
theorem Comes.exists_read (h : r.Comes pattern p o) {start : Nat} {c : Cursor}
    (hc : c.StandsBefore pattern start p) :
    ∃ last, Ends (fun n => r.read pattern n) c (o.1, last) ∧
      last.StandsBefore pattern start o.2 ∧ (c.noting r).calls <+: last.calls ∧
      (r.Admits p → c.Admitted pattern → last.Admitted pattern) := by
  obtain ⟨last, hends, hlast, hcalls, hadm⟩ := h start _ (hc.noting r)
  exact ⟨last, ends_read hends, hlast, hcalls, fun hr hA => hadm hr (hA.noting hc hr)⟩

theorem Comes.read (h : r.Comes pattern p o) :
    Reading.Comes (fun n => r.read pattern n) pattern p (r.Admits p) o := by
  intro start c hc
  obtain ⟨last, hends, hlast, hcalls, hadm⟩ := h.exists_read hc
  exact ⟨last, hends, hlast, (List.prefix_append ..).trans hcalls, hadm⟩

theorem comes_stars (value : Regex) (p : Bytes) (h : p.length ≤ n) :
    (stars value).Comes pattern p (Phrase.outcome (.ok (Phrase.stars value p h))) := by
  induction p generalizing value with
  | nil => exact comes_peek.bind (comes_pure value)
  | cons b p ih =>
      refine comes_peek.bind ?_
      by_cases hb : b = Ascii.asterisk
      · subst hb
        exact comes_advance.bind (ih value.many (Nat.le_of_succ_le h)).read
      · simp only [Phrase.stars, List.head?_cons, Option.some_inj, if_neg hb]
        exact comes_pure value

theorem comes_members (s : ByteClass) (p : Bytes) (h : p.length ≤ n) :
    (members s).Comes pattern p (Phrase.outcome (Phrase.members s p h)) := by
  induction s, p, h using Phrase.members.induct with
  | case1 s h => exact comes_next.bind (comes_throw _)
  | case2 s p h =>
      rw [Phrase.members_rbracket]
      exact comes_next.bind (comes_pure _)
  | case3 s hb h => exact comes_next.bind (comes_next.bind (comes_throw _))
  | case4 s c p hb h ih => exact comes_next.bind (comes_next.bind ih.read)
  | case5 s b p h hb hb' ih =>
      let m : Member := .plain b (isPlainMember_iff.2 ⟨hb, hb'⟩)
      have hread : Phrase.members s (b :: p) h = Phrase.members (s.insert b) p _ :=
        Phrase.members_member s m h
      rw [hread]
      refine comes_next.bind ?_
      simp only [List.head?_cons, if_neg hb, if_neg hb']
      exact ih.read

/-- A branch is read by its loop, from nothing on. -/
theorem Comes.branch (h : (factors .epsilon).Comes pattern p o) : branch.Comes pattern p o :=
  h.read

/-- The readers that start each other come to the outcomes of the readers of the same phrases. -/
theorem comes_phrases (pattern : Bytes) :
    (∀ p, alternation.Comes pattern p (Phrase.outcome (Phrase.alternation p))) ∧
    (∀ (n : Nat) (left : Regex) (p : Bytes) (h : p.length ≤ n),
      (branches left).Comes pattern p (Phrase.outcome (Phrase.branches left p h))) ∧
    (∀ (n : Nat) (left : Regex) (p : Bytes) (h : p.length ≤ n),
      (factors left).Comes pattern p (Phrase.outcome (Phrase.branch left p h))) ∧
    (∀ p, factor.Comes pattern p (Phrase.outcome (Phrase.factor p))) ∧
    ∀ p, atom.Comes pattern p (Phrase.outcome (Phrase.atom p)) := by
  apply Phrase.alternation.mutual_induct
  -- The branches of an alternation. A reader that fails fails the one that has started it.
  case case1 =>
    intro p f hf ihb
    rw [hf] at ihb
    rw [Phrase.alternation, hf]
    exact ihb.branch.read.bind_error
  case case2 =>
    intro p first rest h hfirst ihb ihbs
    rw [hfirst] at ihb
    rw [Phrase.alternation, hfirst]
    exact ihb.branch.read.bind ihbs.read
  case case3 =>
    intro n left h _
    rw [Phrase.branches]
    exact comes_peek.bind (comes_pure left)
  case case4 =>
    intro n left p f hf h _ ihb
    rw [hf] at ihb
    rw [Phrase.branches, if_pos rfl, hf]
    exact comes_peek.bind (comes_advance.bind ihb.branch.read.bind_error)
  case case5 =>
    intro n left p right rest _ hright h _ ihb ihbs
    rw [hright] at ihb
    rw [Phrase.branches, if_pos rfl, hright]
    exact comes_peek.bind (comes_advance.bind (ihb.branch.read.bind ihbs.read))
  case case6 =>
    intro n left b p h hb _
    rw [Phrase.branches, if_neg hb]
    refine comes_peek.bind ?_
    simp only [List.head?_cons, Option.some_inj, if_neg hb]
    exact comes_pure left
  -- A branch starts a factor only where it has seen the start of an atom.
  case case7 =>
    intro n left h _
    rw [Phrase.branch]
    exact comes_peek.bind (comes_pure left)
  case case8 =>
    intro n left c p h hc f hf _ ihf
    rw [hf] at ihf
    rw [Phrase.branch, if_pos hc, hf]
    refine comes_peek.bind ?_
    simp only [List.head?_cons, Option.any_some, hc, ↓reduceIte]
    exact (ihf.read.mono fun _ => ⟨c, rfl, hc⟩).bind_error
  case case9 =>
    intro n left c p h hc right rest _ hright _ _ ihf ihb
    rw [hright] at ihf
    rw [Phrase.branch, if_pos hc, hright]
    refine comes_peek.bind ?_
    simp only [List.head?_cons, Option.any_some, hc, ↓reduceIte]
    exact (ihf.read.mono fun _ => ⟨c, rfl, hc⟩).bind ihb.read
  case case10 =>
    intro n left c p h hc _
    rw [Phrase.branch, if_neg hc]
    refine comes_peek.bind ?_
    simp only [List.head?_cons, Option.any_some, hc]
    exact comes_pure left
  -- A factor starts its atom where it was started itself.
  case case11 =>
    intro p f hf iha
    rw [hf] at iha
    rw [Phrase.factor, hf]
    exact iha.read.bind_error
  case case12 =>
    intro p value rest h hvalue iha
    rw [hvalue] at iha
    rw [Phrase.factor, hvalue]
    exact iha.read.bind ((comes_stars value rest h).read.mono fun _ => trivial)
  case case13 =>
    rw [Phrase.atom]
    exact comes_peek.bind (comes_throw _)
  -- What a group or a class has inside may be started anywhere.
  case case14 =>
    intro p f hf iha
    rw [hf] at iha
    rw [Phrase.atom_lparen_of_error hf]
    exact comes_peek.bind (comes_advance.bind (iha.read.mono fun _ => trivial).bind_error)
  case case15 =>
    intro p value h hvalue iha
    rw [hvalue] at iha
    rw [Phrase.atom_lparen_of_unclosed hvalue (by simp)]
    exact comes_peek.bind (comes_advance.bind
      ((iha.read.mono fun _ => trivial).bind (comes_peek.bind (comes_throw _))))
  case case16 =>
    intro p value rest h hvalue iha
    rw [hvalue] at iha
    rw [Phrase.atom_lparen_of_closed hvalue]
    exact comes_peek.bind (comes_advance.bind
      ((iha.read.mono fun _ => trivial).bind (comes_peek.bind (comes_advance.bind (comes_pure value)))))
  case case17 =>
    intro p value c rest h hvalue hc iha
    rw [hvalue] at iha
    rw [Phrase.atom_lparen_of_unclosed hvalue (by simpa using hc)]
    refine comes_peek.bind (comes_advance.bind
      ((iha.read.mono fun _ => trivial).bind (comes_peek.bind ?_)))
    simp only [List.head?_cons, Option.some_inj, if_neg hc]
    exact comes_throw _
  case case18 =>
    intro p _
    rw [Phrase.atom_lbracket]
    exact comes_peek.bind (comes_advance.bind
      ((comes_members .empty p _).read.mono fun _ => trivial))
  case case19 =>
    intro _ _
    rw [Phrase.atom_backslash_nil]
    exact comes_peek.bind (comes_advance.bind (comes_next.bind (comes_throw _)))
  case case20 =>
    intro c p _ _
    rw [Phrase.atom_backslash_cons]
    exact comes_peek.bind (comes_advance.bind (comes_next.bind (comes_pure _)))
  case case21 =>
    intro b p hl hc he hb
    rw [Phrase.atom_plain (isPlain_iff.2 ⟨hb, hl, hc, he⟩)]
    refine comes_peek.bind ?_
    simp only [List.head?_cons, if_neg hl, if_neg hc, if_neg he, if_pos hb]
    exact comes_advance.bind (comes_pure _)
  case case22 =>
    intro b p hl hc he hb
    rw [Phrase.atom_of_not_startsAtom hb]
    refine comes_peek.bind ?_
    simp only [List.head?_cons, if_neg hl, if_neg hc, if_neg he, if_neg hb]
    exact comes_throw _

/-- Every reader comes to its outcome. -/
theorem comes_outcome (r : Reader) (pattern p : Bytes) (h : p.length ≤ n) :
    r.Comes pattern p (r.outcome p h) := by
  obtain ⟨halternation, hbranches, hfactors, hfactor, hatom⟩ := comes_phrases pattern
  cases r with
  | pattern =>
      have ha := halternation p
      rw [outcome]
      refine ?_
      unfold Regex.parse
      generalize Phrase.alternation p = result at ha ⊢
      match result, ha with
      | .error f, ha => exact ha.read.bind_error
      | .ok ⟨value, [], _⟩, ha => exact ha.read.bind (comes_peek.bind (comes_pure value))
      | .ok ⟨value, b :: rest, _⟩, ha => exact ha.read.bind (comes_peek.bind (comes_throw _))
  | alternation => exact halternation p
  | branches left => exact hbranches n left p h
  | branch => exact (hfactors n .epsilon p h).branch
  | factors left => exact hfactors n left p h
  | factor => exact hfactor p
  | stars value => exact comes_stars value p h
  | atom => exact hatom p
  | members s => exact comes_members s p h

end Reader

/-! ## What an outcome says -/

namespace Scan

variable {s : State} {p : Bytes} {f : Fault}

theorem AtomStart.ne_nil (h : AtomStart p) : p ≠ [] := by
  rintro rfl
  obtain ⟨_, ⟨⟩, _⟩ := h

theorem cause_ne_atomExpected_of_run (h : run s p = some f) : f.cause ≠ .atomExpected := by
  obtain ⟨_, _, _, _, hrefuses⟩ := run_eq_some_iff.1 h
  exact hrefuses.cause_ne.2

end Scan

namespace Phrase

open Scan

variable {n : Nat} {p q : Bytes} {b : UInt8} {left value : Regex}

theorem exists_eq_ok_of_outcome {result : Except Fault (Phrase n)}
    (h : outcome result = (.ok value, q)) : ∃ φ, result = .ok φ ∧ φ.rest = q := by
  cases result with
  | ok φ => exact ⟨φ, rfl, congrArg Prod.snd h⟩
  | error f => cases h

theorem eq_of_mem_head?_of_alternation (h : outcome (alternation p) = (.ok value, q))
    (hb : b ∈ q.head?) : b = Ascii.rparen ∨ b = Ascii.asterisk := by
  obtain ⟨φ, hφ, rfl⟩ := exists_eq_ok_of_outcome h
  have hread := reads_phrases.1 p 0
  rw [hφ] at hread
  obtain ⟨fresh, _, hend⟩ := hread
  exact (hend b hb).imp_right And.left

theorem eq_of_mem_head?_of_branch {hp : p.length ≤ n}
    (h : outcome (branch left p hp) = (.ok value, q)) (hb : b ∈ q.head?) :
    b = Ascii.bar ∨ b = Ascii.rparen ∨ b = Ascii.asterisk := by
  obtain ⟨φ, hφ, rfl⟩ := exists_eq_ok_of_outcome h
  have hread := reads_phrases.2.2.1 n left p hp 0 true fun _ _ _ => rfl
  rw [hφ] at hread
  obtain ⟨fresh, _, hend⟩ := hread
  exact (hend b hb).imp_right (Or.imp_right And.left)

/-- If there is a byte ahead, the bound on the bytes behind a factor or an atom makes them fewer. -/
theorem length_lt_of_outcome {result : Except Fault (Phrase (p.length - 1))} (hp : p ≠ [])
    (h : outcome result = (.ok value, q)) : q.length < p.length := by
  obtain ⟨φ, _, rfl⟩ := exists_eq_ok_of_outcome h
  exact Nat.lt_of_le_pred (List.length_pos_iff.2 hp) φ.rest_le

theorem atom_of_not_atomStart (h : ¬ AtomStart p) : atom p = .error ⟨.atomExpected, p⟩ := by
  cases p with
  | nil => rw [atom]
  | cons b p => exact atom_of_not_startsAtom fun hb => h ⟨b, rfl, hb⟩

/-- A scan never expects an atom, nor does a reader that it agrees with. -/
theorem outcome_ne_atomExpected {s : State} {d : Nat} {ends : Bool → Bytes → Prop}
    {result : Except Fault (Phrase n)} (h : Reads (run s p) d ends result) :
    (outcome result).1 ≠ .error .atomExpected := by
  cases result with
  | ok φ => nofun
  | error f => exact fun he => cause_ne_atomExpected_of_run h (Except.error.inj he)

end Phrase

namespace Reader

open Scan

variable {r : Reader} {n : Nat} {p q : Bytes} {h : p.length ≤ n} {value : Regex}

theorem outcome_ne_atomExpected (hr : r.Admits p) : (r.outcome p h).1 ≠ .error .atomExpected := by
  obtain ⟨halternation, hbranches, hbranch, hfactor, hatom⟩ := reads_phrases
  have hstar : StarEnd true p := fun _ _ _ => rfl
  cases r with
  | pattern =>
      rw [outcome]
      cases hp : Regex.parse p with
      | ok value => nofun
      | error f =>
          have hf := cause_ne_atomExpected_of_run (Regex.parse_eq_error_iff.1 hp)
          exact fun he => hf (Except.error.inj he)
  | alternation => exact Phrase.outcome_ne_atomExpected (halternation p 0)
  | branches left =>
      -- Only behind a `|` is there anything to read.
      match p, h with
      | [], h =>
          rw [outcome, Phrase.branches]
          nofun
      | b :: p, h =>
          by_cases hb : b = Ascii.bar
          · have hend : BranchEnd true (b :: p) := by
              rintro c ⟨⟩
              exact .inl hb
            exact Phrase.outcome_ne_atomExpected (hbranches n left _ h 0 true hend)
          · rw [outcome, Phrase.branches, if_neg hb]
            nofun
  | branch => exact Phrase.outcome_ne_atomExpected (hbranch n .epsilon p h 0 true hstar)
  | factors left => exact Phrase.outcome_ne_atomExpected (hbranch n left p h 0 true hstar)
  | factor => exact Phrase.outcome_ne_atomExpected (hfactor p 0 true hr)
  | stars value => nofun
  | atom => exact Phrase.outcome_ne_atomExpected (hatom p 0 true hr)
  | members s =>
      have hmembers : Reads (run ⟨0, .inClass, true⟩ p) 0 (fun fresh _ => fresh = false)
          (Phrase.members s p h) :=
        reads_members s p h
      exact Phrase.outcome_ne_atomExpected hmembers

theorem outcome_of_not_admits (hr : ¬ r.Admits p) :
    r.outcome p h = (.error .atomExpected, p) := by
  cases r with
  | factor => rw [outcome, Phrase.factor, Phrase.atom_of_not_atomStart hr, Phrase.outcome]
  | atom => rw [outcome, Phrase.atom_of_not_atomStart hr, Phrase.outcome]
  | _ => exact absurd trivial hr

/-- A reader expects an atom exactly where it must not be started. -/
theorem outcome_eq_atomExpected_iff :
    (r.outcome p h).1 = .error .atomExpected ↔ ¬ r.Admits p := by
  refine ⟨fun he hr => outcome_ne_atomExpected hr he, fun hr => ?_⟩
  rw [outcome_of_not_admits hr]

theorem admits_of_outcome (hq : r.outcome p h = (.ok value, q)) : r.Admits p := by
  refine Classical.byContradiction fun hr => ?_
  rw [outcome_of_not_admits hr] at hq
  cases hq

/-- **Every reader ends, and makes progress.** Started at any place of any pattern, a reader comes to
its outcome. The cursor does not go back, neither in the end nor between the readers that are
started, of which the reader itself is the first, and it does not leave the pattern; a factor or an
atom that is read has moved it on. A reader expects an atom only if it is started where it must not
be, and the readers that it starts never are. Behind an alternation that is read stands `)`, `*` or
nothing, and behind a branch one of these or `|`. -/
theorem read_progress (pattern : Bytes) (start : Nat) (hstart : start ≤ pattern.length)
    (r : Reader) :
    ∃ result last,
      (∃ depth, ∀ n, depth ≤ n →
        (r.read pattern n).startingAt ⟨start, []⟩ = some (result, last)) ∧
      r.outcome (pattern.drop start) (Nat.le_refl _) =
        (result, pattern.drop last.position) ∧
      start ≤ last.position ∧ last.position ≤ pattern.length ∧
      last.calls.head? = some ⟨r, start⟩ ∧
      (last.calls.Pairwise fun call later => call.position ≤ later.position) ∧
      (∀ call ∈ last.calls, start ≤ call.position ∧ call.position ≤ last.position) ∧
      (∀ value, result = .ok value →
        (r = .factor ∨ r = .atom → start < last.position) ∧
        (r = .alternation → ∀ b ∈ pattern[last.position]?,
          b = Ascii.rparen ∨ b = Ascii.asterisk) ∧
        (r = .branch → ∀ b ∈ pattern[last.position]?,
          b = Ascii.bar ∨ b = Ascii.rparen ∨ b = Ascii.asterisk)) ∧
      (result = .error .atomExpected ↔ ¬ r.Admits (pattern.drop start)) ∧
      (r.Admits (pattern.drop start) →
        ∀ call ∈ last.calls, call.reader.Admits (pattern.drop call.position)) := by
  have hc : Cursor.StandsBefore ⟨start, []⟩ pattern start (pattern.drop start) :=
    ⟨hstart, rfl, Nat.le_refl _, .nil, nofun⟩
  obtain ⟨last, hends, hlast, ⟨later, hcalls⟩, hadm⟩ :=
    (comes_outcome r pattern (pattern.drop start) (Nat.le_refl _)).exists_read hc
  have houtcome : r.outcome (pattern.drop start) (Nat.le_refl _) =
      ((r.outcome (pattern.drop start) (Nat.le_refl _)).1, pattern.drop last.position) :=
    Prod.ext rfl hlast.drop_eq.symm
  refine ⟨_, last, hends, houtcome, hlast.start_le, hlast.le_length, congrArg List.head? hcalls.symm,
    hlast.sorted, hlast.between, fun value hvalue => ?_, outcome_eq_atomExpected_iff,
    fun hr => hadm hr nofun⟩
  rw [hvalue] at houtcome
  rw [← List.head?_drop]
  refine ⟨?_, ?_, ?_⟩
  · intro hr
    have hstands := admits_of_outcome houtcome
    have hlt : (pattern.drop last.position).length < (pattern.drop start).length := by
      obtain rfl | rfl := hr
      · exact Phrase.length_lt_of_outcome (AtomStart.ne_nil hstands) houtcome
      · exact Phrase.length_lt_of_outcome (AtomStart.ne_nil hstands) houtcome
    rw [List.length_drop, List.length_drop] at hlt
    omega
  · rintro rfl b hb
    exact Phrase.eq_of_mem_head?_of_alternation houtcome hb
  · rintro rfl b hb
    exact Phrase.eq_of_mem_head?_of_branch houtcome hb

/-- An alternation within a group, which ends at a `*` that has nothing to repeat. -/
theorem read_progress_star :
    ∃ last,
      (∃ depth, ∀ n, depth ≤ n →
        (alternation.read (Bytes.ofString "(a|*b") n).startingAt ⟨1, []⟩ =
          some (.ok (.alt (.literal 0x61) .epsilon), last)) ∧
      last.position = 3 ∧ last.calls.head? = some ⟨.alternation, 1⟩ ∧
      ∀ call ∈ last.calls, call.reader.Admits ((Bytes.ofString "(a|*b").drop call.position) := by
  have hread : alternation.outcome ((Bytes.ofString "(a|*b").drop 1) (Nat.le_refl _) =
      (.ok (.alt (.literal 0x61) .epsilon), Bytes.ofString "*b") := by
    cbv
  obtain ⟨result, last, hends, houtcome, _, hle, hcalls, _, _, _, _, hadm⟩ :=
    read_progress (Bytes.ofString "(a|*b") 1 (by decide) .alternation
  obtain ⟨rfl, hrest⟩ := Prod.mk.inj (hread.symm.trans houtcome)
  have hlength := congrArg List.length hrest
  rw [List.length_drop] at hlength
  refine ⟨last, hends, ?_, hcalls, hadm trivial⟩
  have hpattern : (Bytes.ofString "(a|*b").length = 5 := by decide
  have hrest : (Bytes.ofString "*b").length = 2 := by decide
  omega

end Reader

end ByteRegex
