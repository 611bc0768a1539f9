import ByteRegex.Cli.Arguments

/-! # What a list of arguments says

Two arguments of which the first is not `-E` are a pattern and a text. Every other list is read up
to the first argument that is not a flag. There are four ways in which this can go: the argument is
`-E` and at most two operands stand behind it, or it is `-E` and there are more, or it is something
else, or there is none. Each list goes exactly one of these ways. -/

namespace ByteRegex.Cli

/-- An argument that sets a switch in front of `-E`. -/
def IsFlag (a : String) : Prop := a = "-x" ∨ a = "-n"

/-! ## Messages -/

namespace UsageError

theorem message_unexpected (a : String) :
    (unexpected a).message = "unexpected argument '" ++ (a ++ ("'\n" ++ usage)) := by
  rw [← String.append_assoc, ← String.append_assoc]
  rfl

theorem take_message (e : UsageError) :
    e.message.toList.take 2 =
      match e with
      | .incomplete => ['u', 's']
      | .unexpected _ => ['u', 'n']
      | .tooMany => ['t', 'o'] := by
  cases e with
  | incomplete | tooMany => decide +kernel
  | unexpected a =>
      have hlength : 2 ≤ "unexpected argument '".toList.length := by decide +kernel
      have htake : "unexpected argument '".toList.take 2 = ['u', 'n'] := by decide +kernel
      rw [message_unexpected, String.toList_append, List.take_append_of_le_length hlength, htake]

/-- The message tells which error it is, and names the argument that is not understood. -/
theorem message_injective : Function.Injective message := by
  intro e e' h
  have htake := congrArg (fun text => text.toList.take 2) h
  simp only [take_message] at htake
  match e, e', h, htake with
  | .incomplete, .incomplete, _, _ | .tooMany, .tooMany, _, _ => rfl
  | .unexpected a, .unexpected a', h, _ =>
      rw [message_unexpected, message_unexpected, String.append_right_inj,
        String.append_left_inj] at h
      rw [h]

end UsageError

namespace Options

variable {args flags rest : List String} {a : String} {whole numbered : Bool}

/-! ## Flags, and what ends them -/

theorem flagged_append (h : ∀ a ∈ flags, IsFlag a) (whole numbered : Bool) (rest : List String) :
    flagged whole numbered (flags ++ rest) =
      flagged (whole || decide ("-x" ∈ flags)) (numbered || decide ("-n" ∈ flags)) rest := by
  induction flags generalizing whole numbered with
  | nil => simp
  | cons a flags ih =>
      obtain ⟨ha, hflags⟩ := List.forall_mem_cons.1 h
      rw [List.cons_append, flagged]
      rcases ha with rfl | rfl
      · rw [if_pos rfl, ih hflags]
        simp
      · rw [if_neg (by decide), if_pos rfl, ih hflags]
        simp

theorem flagged_dashE : flagged whole numbered ("-E" :: rest) = operands whole numbered rest := by
  rw [flagged, if_neg (by decide), if_neg (by decide), if_pos rfl]

theorem flagged_of_not_isFlag (ha : ¬ IsFlag a) (hE : a ≠ "-E") :
    flagged whole numbered (a :: rest) = .error (.unexpected a) := by
  obtain ⟨hx, hn⟩ := not_or.1 ha
  rw [flagged, if_neg hx, if_neg hn, if_neg hE]

theorem operands_of_length_le (h : rest.length ≤ 2) :
    operands whole numbered rest = .ok ⟨rest[0]?, rest[1]?, whole, numbered⟩ := by
  match rest, h with
  | [], _ | [_], _ | [_, _], _ => rfl

theorem operands_of_lt_length (h : 2 < rest.length) :
    operands whole numbered rest = .error .tooMany := by
  match rest, h with
  | _ :: _ :: _ :: _, _ => rfl

/-- A list consists of flags, or it has a first argument that is not a flag. -/
theorem exists_split (args : List String) :
    (∀ a ∈ args, IsFlag a) ∨
      ∃ flags a rest, args = flags ++ a :: rest ∧ (∀ b ∈ flags, IsFlag b) ∧ ¬ IsFlag a := by
  induction args with
  | nil => exact .inl nofun
  | cons b args ih =>
      by_cases hb : IsFlag b
      · rcases ih with h | ⟨flags, a, rest, rfl, hflags, ha⟩
        · exact .inl (List.forall_mem_cons.2 ⟨hb, h⟩)
        · exact .inr ⟨b :: flags, a, rest, rfl, List.forall_mem_cons.2 ⟨hb, hflags⟩, ha⟩
      · exact .inr ⟨[], b, args, rfl, nofun, hb⟩

/-! ## The four ways -/

/-- What a list says that is not a pattern and a text. -/
inductive Says : List String → Except UsageError Options → Prop
  | options {flags rest : List String} : (∀ a ∈ flags, IsFlag a) → rest.length ≤ 2 →
      Says (flags ++ "-E" :: rest)
        (.ok ⟨rest[0]?, rest[1]?, decide ("-x" ∈ flags), decide ("-n" ∈ flags)⟩)
  | tooMany {flags rest : List String} : (∀ a ∈ flags, IsFlag a) → 2 < rest.length →
      Says (flags ++ "-E" :: rest) (.error .tooMany)
  | unexpected {flags rest : List String} {a : String} : (∀ b ∈ flags, IsFlag b) → ¬ IsFlag a →
      a ≠ "-E" → Says (flags ++ a :: rest) (.error (.unexpected a))
  | incomplete {flags : List String} : (∀ a ∈ flags, IsFlag a) → Says flags (.error .incomplete)

theorem Says.eq_flagged {result : Except UsageError Options} (h : Says args result) :
    result = flagged false false args := by
  cases h with
  | options hflags hrest =>
      rw [flagged_append hflags, flagged_dashE, operands_of_length_le hrest, Bool.false_or,
        Bool.false_or]
  | tooMany hflags hrest => rw [flagged_append hflags, flagged_dashE, operands_of_lt_length hrest]
  | unexpected hflags ha hE => rw [flagged_append hflags, flagged_of_not_isFlag ha hE]
  | incomplete hflags => rw [← List.append_nil args, flagged_append hflags, flagged]

theorem exists_says (args : List String) : ∃ result, Says args result := by
  rcases exists_split args with h | ⟨flags, a, rest, rfl, hflags, ha⟩
  · exact ⟨_, .incomplete h⟩
  by_cases hE : a = "-E"
  · subst hE
    rcases Nat.lt_or_ge 2 rest.length with hrest | hrest
    · exact ⟨_, .tooMany hflags hrest⟩
    · exact ⟨_, .options hflags hrest⟩
  · exact ⟨_, .unexpected hflags ha hE⟩

theorem says_iff {result : Except UsageError Options} :
    Says args result ↔ flagged false false args = result := by
  refine ⟨fun h => h.eq_flagged.symm, ?_⟩
  rintro rfl
  obtain ⟨result, h⟩ := exists_says args
  rwa [← h.eq_flagged]

/-! ## Arguments -/

/-- Two arguments, the first of which is not `-E`. -/
def Verbatim (args : List String) : Prop :=
  ∃ pattern text, args = [pattern, text] ∧ pattern ≠ "-E"

theorem ofArguments_of_ne_dashE {pattern text : String} (h : pattern ≠ "-E") :
    ofArguments [pattern, text] = .ok ⟨some pattern, some text, false, false⟩ := by
  rw [ofArguments, if_neg h]

theorem ofArguments_of_not_verbatim (h : ¬ Verbatim args) :
    ofArguments args = flagged false false args := by
  unfold ofArguments
  split
  · next pattern text =>
      split
      · rfl
      · next hE => exact absurd ⟨pattern, text, rfl, hE⟩ h
  · rfl

/-- Of the flags, only which of them occur counts. -/
theorem flagged_congr {flags' : List String} (hflags : ∀ a ∈ flags, IsFlag a)
    (h : ∀ a, a ∈ flags' ↔ a ∈ flags) :
    flagged whole numbered (flags' ++ rest) = flagged whole numbered (flags ++ rest) := by
  have hflags' : ∀ a ∈ flags', IsFlag a := fun a ha => hflags a ((h a).1 ha)
  rw [flagged_append hflags, flagged_append hflags', decide_eq_decide.2 (h "-x"),
    decide_eq_decide.2 (h "-n")]

/-- **Arguments are understood exactly if they are a pattern and a text, or flags, `-E` and at most
two operands.** Two arguments are taken verbatim unless the first is `-E`. In every other list the
switches are the flags in front of the first argument that is not a flag, in any order and any
number. If this argument is `-E`, the operands stand behind it, whatever they look like, and there
may be too many of them. If it is not, the error names it, and if there is no such argument, the
error is the usage alone. -/
theorem ofArguments_understands (args : List String) :
    (∀ pattern text, args = [pattern, text] → pattern ≠ "-E" →
        ofArguments args = .ok ⟨some pattern, some text, false, false⟩) ∧
      (¬ Verbatim args →
        (∀ o, ofArguments args = .ok o ↔ ∃ flags rest, args = flags ++ "-E" :: rest ∧
          (∀ a ∈ flags, IsFlag a) ∧ rest.length ≤ 2 ∧
          o = ⟨rest[0]?, rest[1]?, decide ("-x" ∈ flags), decide ("-n" ∈ flags)⟩) ∧
        (∀ a, ofArguments args = .error (.unexpected a) ↔ ∃ flags rest, args = flags ++ a :: rest ∧
          (∀ b ∈ flags, IsFlag b) ∧ ¬ IsFlag a ∧ a ≠ "-E") ∧
        (ofArguments args = .error .tooMany ↔ ∃ flags rest, args = flags ++ "-E" :: rest ∧
          (∀ a ∈ flags, IsFlag a) ∧ 2 < rest.length) ∧
        (ofArguments args = .error .incomplete ↔ ∀ a ∈ args, IsFlag a) ∧
        ∀ flags flags' rest, args = flags ++ "-E" :: rest → (∀ a ∈ flags, IsFlag a) →
          (∀ a, a ∈ flags' ↔ a ∈ flags) → ¬ Verbatim (flags' ++ "-E" :: rest) →
          ofArguments (flags' ++ "-E" :: rest) = ofArguments args) ∧
      Function.Injective UsageError.message ∧
      (∀ a, (UsageError.unexpected a).message = "unexpected argument '" ++ a ++ "'\n" ++ usage) ∧
      UsageError.tooMany.message = "too many arguments\n" ++ usage ∧
      UsageError.incomplete.message = usage := by
  refine ⟨?_, fun hargs => ?_, UsageError.message_injective, fun _ => rfl, rfl, rfl⟩
  · rintro pattern text rfl hE
    exact ofArguments_of_ne_dashE hE
  rw [ofArguments_of_not_verbatim hargs]
  refine ⟨fun o => ?_, fun a => ?_, ?_, ?_, ?_⟩
  · rw [← says_iff]
    constructor
    · rintro (⟨hflags, hrest⟩ | _)
      exact ⟨_, _, rfl, hflags, hrest, rfl⟩
    · rintro ⟨flags, rest, rfl, hflags, hrest, rfl⟩
      exact .options hflags hrest
  · rw [← says_iff]
    constructor
    · rintro (_ | _ | ⟨hflags, ha, hE⟩)
      exact ⟨_, _, rfl, hflags, ha, hE⟩
    · rintro ⟨flags, rest, rfl, hflags, ha, hE⟩
      exact .unexpected hflags ha hE
  · rw [← says_iff]
    constructor
    · rintro (_ | ⟨hflags, hrest⟩)
      exact ⟨_, _, rfl, hflags, hrest⟩
    · rintro ⟨flags, rest, rfl, hflags, hrest⟩
      exact .tooMany hflags hrest
  · rw [← says_iff]
    constructor
    · rintro (_ | _ | _ | hflags)
      exact hflags
    · exact .incomplete
  · rintro flags flags' rest rfl hflags h hargs'
    rw [ofArguments_of_not_verbatim hargs', flagged_congr hflags h]

/-- The same words as a pattern and a text, as a flag and `-E`, and as operands. -/
theorem ofArguments_understands_words :
    ofArguments ["-x", "-E"] = .ok ⟨some "-x", some "-E", false, false⟩ ∧
      ¬ Verbatim ["-x", "-x", "-E"] ∧
      ofArguments ["-x", "-x", "-E"] = .ok ⟨none, none, true, false⟩ ∧
      ofArguments ["-n", "-x", "-E", "-x", "-E"] = .ok ⟨some "-x", some "-E", true, true⟩ ∧
      ofArguments ["-x", "-n", "-x", "-E", "-x", "-E"] =
        ofArguments ["-n", "-x", "-E", "-x", "-E"] := by
  have hverbatim : ∀ args : List String, 2 < args.length → ¬ Verbatim args := by
    rintro _ h ⟨pattern, text, rfl, _⟩
    exact Nat.lt_irrefl 2 h
  have htwice : ¬ Verbatim ["-x", "-x", "-E"] := hverbatim _ (by decide)
  obtain ⟨haccepts, -, -, -, horder⟩ :=
    (ofArguments_understands ["-n", "-x", "-E", "-x", "-E"]).2.1 (hverbatim _ (by decide))
  refine ⟨(ofArguments_understands ["-x", "-E"]).1 "-x" "-E" rfl (by decide), htwice,
    (((ofArguments_understands _).2.1 htwice).1 _).2 ?_, (haccepts _).2 ?_,
    horder ["-n", "-x"] ["-x", "-n", "-x"] ["-x", "-E"] rfl ?_ ?_ (hverbatim _ (by decide))⟩
  · exact ⟨["-x", "-x"], [], rfl, by simp [IsFlag], by decide, by decide⟩
  · exact ⟨["-n", "-x"], ["-x", "-E"], rfl, by simp [IsFlag], by decide, by decide⟩
  · simp [IsFlag]
  · simp [or_comm]

end Options

end ByteRegex.Cli
