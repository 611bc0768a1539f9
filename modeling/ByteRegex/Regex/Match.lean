import ByteRegex.Regex.Derivative

/-! # Matching

An expression accepts a text if the whole text matches, and finds a match in a text if some part
of it does. A search walks from each start offset in order, and its result keeps the offsets it has
tried with the walks from there. -/

namespace ByteRegex.Regex

/-- Whether the whole text matches. -/
def accepts (r : Regex) (w : Bytes) : Bool := (r.residual w).nullable

/-! ## One start offset -/

/-- Why a walk from one start offset goes no further. -/
inductive Stop where
  | matched
  | dead
  | exhausted
deriving DecidableEq

/-- How many bytes a walk from one start offset has read when it ends, and why it ends. -/
structure Walk where
  read : Nat
  stop : Stop
deriving DecidableEq

/-- The walk with one more byte read in front. -/
def Walk.later (x : Walk) : Walk := ⟨x.read + 1, x.stop⟩

/-- Read a text until some beginning of it, of at least one byte, matches. A residual that is
plainly empty ends the walk early. -/
def walk : Regex → Bytes → Walk
  | _, [] => ⟨0, .exhausted⟩
  | r, c :: w =>
      let next := r.derivative c
      if next.nullable then ⟨1, .matched⟩
      else if next = .empty then ⟨1, .dead⟩
      else (next.walk w).later

/-- Whether some beginning of the text, of at least one byte, matches. -/
def acceptsStart (r : Regex) (w : Bytes) : Bool := decide ((r.walk w).stop = .matched)

/-! ## All start offsets -/

/-- A start offset that a search has tried, and the walk from there. -/
structure Attempt where
  offset : Nat
  walk : Walk
deriving DecidableEq

/-- The outcome of a search: the attempts, in order, and whether there is a match. -/
structure Search where
  attempts : List Attempt
  found : Bool
deriving DecidableEq

/-- The start offsets tried, in order. -/
def Search.tried (s : Search) : List Nat := s.attempts.map Attempt.offset

/-- Search the part of a text that begins at offset `start`, for matches of at least one byte. -/
def searchFrom (r : Regex) (start : Nat) : Bytes → Search
  | [] => ⟨[], false⟩
  | c :: w =>
      let attempt : Attempt := ⟨start, r.walk (c :: w)⟩
      if attempt.walk.stop = .matched then ⟨[attempt], true⟩
      else
        let later := r.searchFrom (start + 1) w
        ⟨attempt :: later.attempts, later.found⟩

/-- An expression that matches the empty text is found in every text, and no offset is tried. -/
def search (r : Regex) (w : Bytes) : Search :=
  if r.nullable then ⟨[], true⟩ else r.searchFrom 0 w

/-- Whether some part of the text matches. -/
def occursIn (r : Regex) (w : Bytes) : Bool := (r.search w).found

/-! ## Equations -/

variable {r : Regex} {c : UInt8} {w : Bytes} {n : Nat}

@[simp] theorem accepts_nil (r : Regex) : r.accepts [] = r.nullable := rfl

@[simp] theorem accepts_cons (r : Regex) (c : UInt8) (w : Bytes) :
    r.accepts (c :: w) = (r.derivative c).accepts w := rfl

@[simp] theorem accepts_residual (r : Regex) (v w : Bytes) :
    (r.residual v).accepts w = r.accepts (v ++ w) := by
  simp [accepts]

theorem Walk.later_eq_iff {x : Walk} {s : Stop} : x.later = ⟨n + 1, s⟩ ↔ x = ⟨n, s⟩ := by
  cases x
  simp [later]

theorem Walk.later_ne_zero {x : Walk} {s : Stop} : x.later ≠ ⟨0, s⟩ := by
  simp [later]

theorem walk_of_nullable (hn : (r.derivative c).nullable = true) :
    r.walk (c :: w) = ⟨1, .matched⟩ := by
  simp [walk, hn]

theorem walk_of_empty (he : r.derivative c = .empty) : r.walk (c :: w) = ⟨1, .dead⟩ := by
  simp [walk, he, nullable]

theorem walk_of_alive (hn : ¬ (r.derivative c).nullable = true) (he : r.derivative c ≠ .empty) :
    r.walk (c :: w) = ((r.derivative c).walk w).later := by
  simp [walk, hn, he]

/-- Induction along a walk, with a case for each way in which it goes on or ends. -/
theorem walk_induction {motive : Regex → Bytes → Prop} (exhausted : ∀ r, motive r [])
    (matched : ∀ r c w, (r.derivative c).nullable = true → motive r (c :: w))
    (dead : ∀ r c w, r.derivative c = .empty → motive r (c :: w))
    (alive : ∀ r c w, ¬ (r.derivative c).nullable = true → r.derivative c ≠ .empty →
      motive (r.derivative c) w → motive r (c :: w))
    (r : Regex) (w : Bytes) : motive r w := by
  induction w generalizing r with
  | nil => exact exhausted r
  | cons c w ih =>
      by_cases hn : (r.derivative c).nullable = true
      · exact matched r c w hn
      · by_cases he : r.derivative c = .empty
        · exact dead r c w he
        · exact alive r c w hn he (ih _)

theorem acceptsStart_iff : r.acceptsStart w = true ↔ (r.walk w).stop = .matched :=
  decide_eq_true_iff

theorem searchFrom_cons_of_match (start : Nat) (h : r.acceptsStart (c :: w) = true) :
    r.searchFrom start (c :: w) = ⟨[⟨start, r.walk (c :: w)⟩], true⟩ :=
  if_pos (acceptsStart_iff.1 h)

theorem searchFrom_cons_of_no_match (start : Nat) (h : r.acceptsStart (c :: w) = false) :
    r.searchFrom start (c :: w) =
      ⟨⟨start, r.walk (c :: w)⟩ :: (r.searchFrom (start + 1) w).attempts,
        (r.searchFrom (start + 1) w).found⟩ :=
  if_neg (decide_eq_false_iff_not.1 h)

end ByteRegex.Regex
