import ByteRegex.Lines

/-! # Lines and what they are joined to

Splitting into lines and joining lines undo each other, up to a newline that may be missing at the
end. The bytes are read line by line: up to the next newline, which is dropped, or up to the end.
So there are three cases, and `split` has an equation for each: nothing is left, a newline is
ahead, or the rest is a last line without one. `line_induction` is induction over these cases. -/

namespace ByteRegex.Lines

variable {l bs rest : Bytes} {ls : List Bytes}

/-! ## Line by line -/

/-- Induction over the lines of some bytes. -/
theorem line_induction {motive : Bytes → Prop} (nil : motive [])
    (last : ∀ l, l ≠ [] → Ascii.newline ∉ l → motive l)
    (line : ∀ l rest, Ascii.newline ∉ l → motive rest → motive (l ++ Ascii.newline :: rest))
    (bs : Bytes) : motive bs := by
  induction h : bs.length using Nat.strongRecOn generalizing bs with
  | _ n ih =>
      by_cases hbs : bs = []
      · rwa [hbs]
      by_cases hmem : Ascii.newline ∈ bs
      · obtain ⟨l, rest, rfl, hl⟩ := List.eq_append_cons_of_mem hmem
        refine line l rest hl (ih rest.length ?_ rest rfl)
        rw [← h, List.length_append, List.length_cons]
        omega
      · exact last bs hbs hmem

@[simp] theorem split_nil : split [] = [] := rfl

theorem split_of_not_mem (h₀ : l ≠ []) (h : Ascii.newline ∉ l) : split l = [l] := by
  simp [split, List.splitOn_eq_singleton h, h₀]

theorem split_append_newline (h : Ascii.newline ∉ l) (rest : Bytes) :
    split (l ++ Ascii.newline :: rest) = l :: split rest := by
  have hpieces := List.splitOn_ne_nil Ascii.newline rest
  simp only [split, List.splitOn_append_cons_self_of_not_mem h, List.getLast?_cons_of_ne_nil hpieces,
    List.dropLast_cons_of_ne_nil hpieces]
  split <;> rfl

/-! ## The loop -/

/-- Where the reading of lines stands: the bytes ahead, and the lines so far. -/
structure Reading where
  ahead : Bytes
  lines : List Bytes

namespace Reading

/-- One round takes the bytes in front of the next newline, or all of them if there is none. -/
def round (x : Reading) : Reading :=
  match x.ahead.idxOf? Ascii.newline with
  | some n => ⟨(x.ahead.drop n).drop 1, x.lines ++ [x.ahead.take n]⟩
  | none => ⟨[], x.lines ++ [x.ahead]⟩

/-- Going round for as long as there are bytes ahead comes to an end with these lines. -/
inductive EndsWith : Reading → List Bytes → Prop
  | done (ls : List Bytes) : EndsWith ⟨[], ls⟩ ls
  | round {x : Reading} {ls : List Bytes} (h : x.ahead ≠ []) :
      EndsWith x.round ls → EndsWith x ls

theorem idxOf?_append_newline (h : Ascii.newline ∉ l) (rest : Bytes) :
    (l ++ Ascii.newline :: rest).idxOf? Ascii.newline = some l.length := by
  induction l with
  | nil => simp [List.idxOf?_cons]
  | cons b l ih =>
      obtain ⟨hb, hl⟩ := not_or.1 (mt List.mem_cons.2 h)
      simp [List.idxOf?_cons, Ne.symm hb, ih hl]

/-- What a round does. -/
theorem round_cases (x : Reading) :
    (∃ l rest, x.ahead = l ++ Ascii.newline :: rest ∧ Ascii.newline ∉ l ∧
        x.round = ⟨rest, x.lines ++ [l]⟩) ∨
      Ascii.newline ∉ x.ahead ∧ x.round = ⟨[], x.lines ++ [x.ahead]⟩ := by
  obtain ⟨ahead, lines⟩ := x
  by_cases h : Ascii.newline ∈ ahead
  · obtain ⟨l, rest, rfl, hl⟩ := List.eq_append_cons_of_mem h
    exact .inl ⟨l, rest, rfl, hl, by simp [round, idxOf?_append_newline hl]⟩
  · exact .inr ⟨h, by simp [round, List.idxOf?_eq_none_iff.2 h]⟩

/-- Each round shortens what is ahead. -/
theorem length_ahead_round_lt {x : Reading} (h : x.ahead ≠ []) :
    x.round.ahead.length < x.ahead.length := by
  obtain ⟨l, rest, hahead, -, hround⟩ | ⟨-, hround⟩ := x.round_cases
  · rw [hround, hahead, List.length_append, List.length_cons]
    exact Nat.lt_add_left _ (Nat.lt_succ_self _)
  · rw [hround]
    exact List.length_pos_iff.2 h

/-- No round changes which lines there are in all. -/
theorem lines_append_split_round {x : Reading} (h : x.ahead ≠ []) :
    x.round.lines ++ split x.round.ahead = x.lines ++ split x.ahead := by
  obtain ⟨l, rest, hahead, hl, hround⟩ | ⟨hmem, hround⟩ := x.round_cases
  · rw [hround, hahead, split_append_newline hl, List.append_assoc, List.singleton_append]
  · rw [hround, split_of_not_mem h hmem, split_nil, List.append_nil]

theorem exists_endsWith : (x : Reading) → ∃ ls, x.EndsWith ls
  | ⟨[], ls⟩ => ⟨ls, .done ls⟩
  | ⟨b :: bs, ls⟩ => by
      have hlt := length_ahead_round_lt (x := ⟨b :: bs, ls⟩) (List.cons_ne_nil b bs)
      obtain ⟨ls', h⟩ := exists_endsWith (round ⟨b :: bs, ls⟩)
      exact ⟨ls', .round (List.cons_ne_nil b bs) h⟩
termination_by x => x.ahead.length
decreasing_by exact hlt

theorem EndsWith.eq_lines_append_split {x : Reading} (h : x.EndsWith ls) :
    ls = x.lines ++ split x.ahead := by
  induction h with
  | done ls => exact (List.append_nil ls).symm
  | round hx _ ih => rw [ih, lines_append_split_round hx]

theorem endsWith_iff {x : Reading} : x.EndsWith ls ↔ ls = x.lines ++ split x.ahead := by
  refine ⟨EndsWith.eq_lines_append_split, ?_⟩
  rintro rfl
  obtain ⟨ls, hls⟩ := x.exists_endsWith
  rwa [← hls.eq_lines_append_split]

end Reading

/-! ## Splitting and joining -/

theorem newline_not_mem_of_mem_split (h : l ∈ split bs) : Ascii.newline ∉ l := by
  induction bs using line_induction with
  | nil => cases h
  | last l' h₀ hl' =>
      rw [split_of_not_mem h₀ hl', List.mem_singleton] at h
      rwa [h]
  | line l' rest hl' ih =>
      rw [split_append_newline hl', List.mem_cons] at h
      rcases h with rfl | h
      · exact hl'
      · exact ih h

/-- Joining the lines gives the bytes back, with a newline at the end. -/
theorem join_split (bs : Bytes) :
    join (split bs) =
      if bs = [] ∨ bs.getLast? = some Ascii.newline then bs else bs ++ [Ascii.newline] := by
  induction bs using line_induction with
  | nil => rfl
  | last l h₀ hl =>
      have hlast : l.getLast? ≠ some Ascii.newline := fun h => hl (List.mem_of_getLast? h)
      simp [split_of_not_mem h₀ hl, h₀, hlast]
  | line l rest hl ih =>
      rw [split_append_newline hl, join_cons, ih]
      by_cases hrest : rest = []
      · simp [hrest]
      · have hlast : (l ++ Ascii.newline :: rest).getLast? = rest.getLast? := by
          simp [List.getLast?_append, List.getLast?_cons_of_ne_nil hrest,
            List.getLast?_eq_some_getLast hrest]
        by_cases h : rest.getLast? = some Ascii.newline <;> simp [hrest, hlast, h]

/-- The lines hold all bytes but the newlines, in order. -/
theorem flatten_split (bs : Bytes) : (split bs).flatten = bs.filter (· != Ascii.newline) := by
  have hkeep : ∀ l : Bytes, Ascii.newline ∉ l → l.filter (· != Ascii.newline) = l := by
    intro l hl
    refine List.filter_eq_self.2 fun b hb => bne_iff_ne.2 ?_
    rintro rfl
    exact hl hb
  induction bs using line_induction with
  | nil => rfl
  | last l h₀ hl => simp [split_of_not_mem h₀ hl, hkeep l hl]
  | line l rest hl ih => simp [split_append_newline hl, ih, hkeep l hl]

theorem split_join (h : ∀ l ∈ ls, Ascii.newline ∉ l) : split (join ls) = ls := by
  induction ls with
  | nil => rfl
  | cons l ls ih =>
      obtain ⟨hl, hls⟩ := List.forall_mem_cons.1 h
      rw [join_cons, split_append_newline hl, ih hls]

/-- **Splitting and joining are inverse.** Reading line by line comes to an end, and with the lines
of the bytes. No line has a newline in it, and joining the lines gives the bytes back, with a
newline at the end if it was missing; all other bytes are in the lines, as they stood. The other way
round, exactly the lists of lines without newlines are given back by splitting what they are joined
to. -/
theorem split_inverse_join (bs : Bytes) :
    (∀ ls, Reading.EndsWith ⟨bs, []⟩ ls ↔ ls = split bs) ∧
      (∀ l ∈ split bs, Ascii.newline ∉ l) ∧
      (join (split bs) =
        if bs = [] ∨ bs.getLast? = some Ascii.newline then bs else bs ++ [Ascii.newline]) ∧
      (split bs).flatten = bs.filter (· != Ascii.newline) ∧
      ∀ ls, split (join ls) = ls ↔ ∀ l ∈ ls, Ascii.newline ∉ l := by
  refine ⟨fun ls => Reading.endsWith_iff, fun l => newline_not_mem_of_mem_split, join_split bs,
    flatten_split bs, fun ls => ⟨fun h l hl => ?_, split_join⟩⟩
  rw [← h] at hl
  exact newline_not_mem_of_mem_split hl

/-- Empty lines, a carriage return before a newline, and a last line without one. -/
theorem split_inverse_join_blank :
    let bs := Bytes.ofString "\na\r\n\nb"
    let ls := ["", "a\r", "", "b"].map Bytes.ofString
    Reading.EndsWith ⟨bs, []⟩ ls ∧ (∀ l ∈ ls, Ascii.newline ∉ l) ∧
      join ls = bs ++ [Ascii.newline] ∧ split (join ls) = ls := by
  intro bs ls
  have hls : split bs = ls := by decide
  obtain ⟨hends, hmem, hjoin, -, hsplit⟩ := split_inverse_join bs
  rw [hls] at hmem hjoin
  exact ⟨(hends ls).2 hls.symm, hmem, hjoin, (hsplit ls).2 hmem⟩

end ByteRegex.Lines
