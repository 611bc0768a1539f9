import ByteRegex.Cli.Script

/-! # Scripts on full streams

A stream that takes only so many bytes ends the run of a script with the first byte it refuses. Up
to this byte the run is the same as on a stream without limit: the stream holds the beginning of
what the other one holds, and if no byte is refused there is no difference at all. This is so for
every script, wherever the limit falls within the pieces that the script writes. -/

namespace ByteRegex.Cli

variable {k k' : Channel} {n : Nat} {reason : String} {piece : Bytes} {pieces : List Bytes}
variable {s : Streams}

/-! ## Outcomes and streams -/

namespace Outcome

/-- What one of the streams has taken. -/
def taken (o : Outcome) : Channel → Bytes
  | .output => o.output
  | .errors => o.errors

@[simp] theorem taken_preceded_self (k : Channel) (piece : Bytes) (o : Outcome) :
    (o.preceded k piece).taken k = piece ++ o.taken k := by
  cases k <;> rfl

theorem taken_preceded_of_ne (h : k' ≠ k) (piece : Bytes) (o : Outcome) :
    (o.preceded k' piece).taken k = o.taken k := by
  cases k <;> cases k'
  · exact absurd rfl h
  · rfl
  · rfl
  · exact absurd rfl h

@[simp] theorem result_preceded (k : Channel) (piece : Bytes) (o : Outcome) :
    (o.preceded k piece).result = o.result := by
  cases k <;> rfl

@[simp] theorem taken_finished (result : Except Failure Status) (k : Channel) :
    (finished result).taken k = [] := by
  cases k <;> rfl

@[simp] theorem preceded_append (k : Channel) (p q : Bytes) (o : Outcome) :
    (o.preceded k q).preceded k p = o.preceded k (p ++ q) := by
  cases k <;> simp [preceded]

end Outcome

namespace Streams

@[simp] theorem room_setRoom_self (s : Streams) (k : Channel) (room : Room) :
    (s.setRoom k room).room k = room := by
  cases k <;> rfl

theorem room_setRoom_of_ne (h : k' ≠ k) (s : Streams) (room : Room) :
    (s.setRoom k' room).room k = s.room k := by
  cases k <;> cases k'
  · exact absurd rfl h
  · rfl
  · rfl
  · exact absurd rfl h

@[simp] theorem setRoom_setRoom_self (s : Streams) (k : Channel) (room room' : Room) :
    (s.setRoom k room).setRoom k room' = s.setRoom k room' := by
  cases k <;> rfl

theorem setRoom_comm (h : k' ≠ k) (s : Streams) (room room' : Room) :
    (s.setRoom k room).setRoom k' room' = (s.setRoom k' room').setRoom k room := by
  cases k <;> cases k'
  · exact absurd rfl h
  · rfl
  · rfl
  · exact absurd rfl h

theorem setRoom_eq_self (h : s.room k = none) : s.setRoom k none = s := by
  cases k <;> exact h ▸ rfl

@[simp] theorem input_setRoom (s : Streams) (k : Channel) (room : Room) :
    (s.setRoom k room).input = s.input := by
  cases k <;> rfl

@[simp] theorem flushing_setRoom (s : Streams) (k : Channel) (room : Room) :
    (s.setRoom k room).flushing = s.flushing := by
  cases k <;> rfl

end Streams

namespace Room

theorem take_of_le (h : piece.length ≤ n) :
    take (some ⟨n, reason⟩) piece = (piece, .ok (some ⟨n - piece.length, reason⟩)) := by
  rw [take, List.take_of_length_le h, if_pos h]

theorem take_of_lt (h : n < piece.length) :
    take (some ⟨n, reason⟩) piece = (piece.take n, .error reason) := by
  rw [take, if_neg (Nat.not_le.2 h)]

end Room

/-! ## Writing -/

namespace Script

theorem run_write (h : s.room k = none) (piece : Bytes) (next : Script) :
    (write k piece next).run s = (next.run s).preceded k piece := by
  rw [run, h]
  change (next.run (s.setRoom k none)).preceded k piece = _
  rw [Streams.setRoom_eq_self h]

theorem run_write_of_le (h : piece.length ≤ n) (s : Streams) (next : Script) :
    (write k piece next).run (s.setRoom k (some ⟨n, reason⟩)) =
      (next.run (s.setRoom k (some ⟨n - piece.length, reason⟩))).preceded k piece := by
  rw [run, Streams.room_setRoom_self, Room.take_of_le h]
  simp only [Streams.setRoom_setRoom_self]

theorem run_write_of_lt (h : n < piece.length) (s : Streams) (next : Script) :
    (write k piece next).run (s.setRoom k (some ⟨n, reason⟩)) =
      (Outcome.finished (.error (.full reason))).preceded k (piece.take n) := by
  rw [run, Streams.room_setRoom_self, Room.take_of_lt h]

theorem run_writeAll (h : s.room .output = none) (pieces : List Bytes) (next : Script) :
    (writeAll pieces next).run s = (next.run s).preceded .output pieces.flatten := by
  induction pieces with
  | nil => rfl
  | cons piece pieces ih =>
      rw [writeAll_cons, run_write h, ih, Outcome.preceded_append, List.flatten_cons]

/-- A stream without limit is never full. -/
theorem run_ne_full (p : Script) (h : ∀ k, s.room k = none) (reason : String) :
    (p.run s).result ≠ .error (.full reason) := by
  induction p with
  | exit status => exact nofun
  | write target piece next ih =>
      rw [run_write (h target), Outcome.result_preceded]
      exact ih
  | flush next ih =>
      rw [run]
      split
      · exact ih
      · exact nofun
  | read next ih =>
      rw [run]
      split
      · exact ih _
      · exact nofun

end Script

/-! ## A limit on one stream -/

/-- What the outcome `whole` comes to if the stream `k` takes `n` bytes and refuses more for a
reason. -/
structure CutAt (k : Channel) (n : Nat) (reason : String) (whole cut : Outcome) : Prop where
  taken : cut.taken k = (whole.taken k).take n
  begins : ∀ k', cut.taken k' <+: whole.taken k'
  eq_of_le : (whole.taken k).length ≤ n → cut = whole
  full_of_lt : n < (whole.taken k).length → cut.result = .error (.full reason)

namespace CutAt

variable {whole cut : Outcome}

theorem taken_preceded_begins (h : ∀ k', cut.taken k' <+: whole.taken k') (k : Channel)
    (piece : Bytes) (k' : Channel) :
    (cut.preceded k piece).taken k' <+: (whole.preceded k piece).taken k' := by
  by_cases hk : k = k'
  · subst hk
    rw [Outcome.taken_preceded_self, Outcome.taken_preceded_self, List.prefix_append_right_inj]
    exact h k
  · rw [Outcome.taken_preceded_of_ne hk, Outcome.taken_preceded_of_ne hk]
    exact h k'

theorem of_taken_nil (h : whole.taken k = []) : CutAt k n reason whole whole where
  taken := by rw [h, List.take_nil]
  begins _ := List.prefix_rfl
  eq_of_le _ := rfl
  full_of_lt hlt := by
    rw [h] at hlt
    exact absurd hlt (Nat.not_lt_zero n)

/-- Within the limit a piece is taken whole. -/
theorem preceded (h : CutAt k (n - piece.length) reason whole cut) (hle : piece.length ≤ n) :
    CutAt k n reason (whole.preceded k piece) (cut.preceded k piece) where
  taken := by
    rw [Outcome.taken_preceded_self, Outcome.taken_preceded_self, h.taken, List.take_append,
      List.take_of_length_le hle]
  begins := taken_preceded_begins h.begins k piece
  eq_of_le hn := by
    rw [Outcome.taken_preceded_self, List.length_append] at hn
    rw [h.eq_of_le (Nat.le_sub_of_add_le' hn)]
  full_of_lt hn := by
    rw [Outcome.taken_preceded_self, List.length_append] at hn
    rw [Outcome.result_preceded]
    exact h.full_of_lt (by omega)

/-- A piece of which a byte is refused is the last one. -/
theorem full (h : n < piece.length) (whole : Outcome) :
    CutAt k n reason (whole.preceded k piece)
      ((Outcome.finished (.error (.full reason))).preceded k (piece.take n)) where
  taken := by
    rw [Outcome.taken_preceded_self, Outcome.taken_preceded_self, Outcome.taken_finished,
      List.append_nil, List.take_append_of_le_length (Nat.le_of_lt h)]
  begins k' := by
    by_cases hk : k = k'
    · subst hk
      rw [Outcome.taken_preceded_self, Outcome.taken_preceded_self, Outcome.taken_finished,
        List.append_nil]
      exact (List.take_prefix n piece).trans (List.prefix_append piece _)
    · rw [Outcome.taken_preceded_of_ne hk, Outcome.taken_finished]
      exact List.nil_prefix
  eq_of_le hn := by
    rw [Outcome.taken_preceded_self, List.length_append] at hn
    omega
  full_of_lt _ := Outcome.result_preceded ..

/-- A piece for the other stream does not count. -/
theorem preceded_of_ne (h : CutAt k n reason whole cut) (hk : k' ≠ k) (piece : Bytes) :
    CutAt k n reason (whole.preceded k' piece) (cut.preceded k' piece) where
  taken := by
    rw [Outcome.taken_preceded_of_ne hk, Outcome.taken_preceded_of_ne hk, h.taken]
  begins := taken_preceded_begins h.begins k' piece
  eq_of_le hn := by
    rw [Outcome.taken_preceded_of_ne hk] at hn
    rw [h.eq_of_le hn]
  full_of_lt hn := by
    rw [Outcome.taken_preceded_of_ne hk] at hn
    rw [Outcome.result_preceded]
    exact h.full_of_lt hn

theorem read (h : CutAt k n reason whole cut) :
    CutAt k n reason { whole with inputRead := true } { cut with inputRead := true } where
  taken := by
    cases k
    · exact h.taken
    · exact h.taken
  begins k' := by
    cases k'
    · exact h.begins .output
    · exact h.begins .errors
  eq_of_le hn := by
    cases k
    · rw [h.eq_of_le hn]
    · rw [h.eq_of_le hn]
  full_of_lt hn := by
    cases k
    · exact h.full_of_lt hn
    · exact h.full_of_lt hn

/-- Any other failure is one of the whole run, and only if no byte was refused. -/
theorem result_eq_error_iff (h : CutAt k n reason whole cut) {f : Failure}
    (hf : f ≠ .full reason) :
    cut.result = .error f ↔ (whole.taken k).length ≤ n ∧ whole.result = .error f := by
  rcases Nat.lt_or_ge n (whole.taken k).length with hlt | hle
  · rw [h.full_of_lt hlt]
    refine iff_of_false (fun hfull => hf ?_) fun hle => Nat.not_le.2 hlt hle.1
    exact (Except.error.inj hfull).symm
  · rw [h.eq_of_le hle, and_iff_right hle]

theorem result_eq_full_iff (h : CutAt k n reason whole cut)
    (hw : ∀ refusal, whole.result ≠ .error (.full refusal)) {refusal : String} :
    cut.result = .error (.full refusal) ↔ refusal = reason ∧ n < (whole.taken k).length := by
  constructor
  · intro hfull
    have hlt : n < (whole.taken k).length := Nat.not_le.1 fun hle => by
      rw [h.eq_of_le hle] at hfull
      exact hw refusal hfull
    rw [h.full_of_lt hlt] at hfull
    cases hfull
    exact ⟨rfl, hlt⟩
  · rintro ⟨rfl, hlt⟩
    exact h.full_of_lt hlt

end CutAt

/-- A limit on one stream cuts the outcome of a script, and changes nothing else. -/
theorem Script.run_cutAt (p : Script) (h : s.room k = none) (n : Nat) :
    CutAt k n reason (p.run s) (p.run (s.setRoom k (some ⟨n, reason⟩))) := by
  induction p generalizing s n with
  | exit status => exact .of_taken_nil (Outcome.taken_finished ..)
  | write target piece next ih =>
      by_cases hk : target = k
      · subst hk
        rw [run_write h]
        rcases Nat.lt_or_ge n piece.length with hlt | hle
        · rw [run_write_of_lt hlt]
          exact .full hlt _
        · rw [run_write_of_le hle]
          exact (ih h _).preceded hle
      · rw [run, run, Streams.room_setRoom_of_ne (Ne.symm hk)]
        split
        · next room _ =>
            rw [Streams.setRoom_comm hk]
            have hroom : (s.setRoom target room).room k = none := by
              rw [Streams.room_setRoom_of_ne hk, h]
            exact (ih hroom n).preceded_of_ne hk _
        · refine .of_taken_nil ?_
          rw [Outcome.taken_preceded_of_ne hk, Outcome.taken_finished]
  | flush next ih =>
      rw [run, run, Streams.flushing_setRoom]
      split
      · exact ih h n
      · exact .of_taken_nil (Outcome.taken_finished ..)
  | read next ih =>
      rw [run, run, Streams.input_setRoom]
      split
      · exact (ih _ h n).read
      · refine .of_taken_nil ?_
        cases k <;> rfl

end ByteRegex.Cli
