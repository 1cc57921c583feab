import ApiAssembly.Command.Options
import Mathlib.Data.List.Basic

/-!
# Flags on a command line

What an argument does does not depend on the flags before it, unless it gives one of them
again.  It does not matter either whether the last option was settled before the argument is
read.  So a flag may stand anywhere among the options, and without it the other arguments mean
what they mean with it.
-/

namespace ApiAssembly.Command

theorem bind_eq_ok_iff {ε α β : Type} {first : Except ε α} {next : α → Except ε β} {result : β} :
    first >>= next = .ok result ↔ ∃ middle, first = .ok middle ∧ next middle = .ok result := by
  cases first with
  | error error => simp [bind, Except.bind]
  | ok middle => simp [bind, Except.bind]

namespace Reading

section Equations

theorem raise_eq (reading : Reading) (flag : Flag) :
    reading.raise flag = reading.settle >>= fun settled =>
      if flag ∈ settled.flags then .error .repeated
      else .ok { settled with flags := settled.flags ++ [flag] } := by
  rw [raise]
  cases reading.settle with
  | error error => rfl
  | ok settled =>
      by_cases present : flag ∈ settled.flags
      · simp only [bind, Except.bind, present, if_true]
        rfl
      · simp only [bind, Except.bind, present, if_false]
        rfl

theorem await_eq (reading : Reading) (setting : Setting) :
    reading.await setting = reading.settle >>= fun settled =>
      .ok { settled with pending := some (setting, none) } := rfl

theorem attach_eq (reading : Reading) (setting : Setting) (value : String) :
    reading.attach setting value = reading.settle >>= fun settled =>
      settled.give setting value := rfl

theorem request_eq (reading : Reading) (error : UsageError) :
    reading.request error = reading.settle >>= fun _ => .error error := rfl

theorem readFree_eq (reading : Reading) (argument : String) :
    reading.readFree argument =
      if reading.hasProject then .error .unknownArgument
      else reading.settle >>= fun settled =>
        .ok { settled with pending := some (.project, some argument) } := by
  rw [readFree]
  cases reading.hasProject <;> rfl

end Equations

section Frame

/-- The reading with these flags in place of its own. -/
def withFlags (reading : Reading) (flags : List Flag) : Reading :=
  { reading with flags }

@[simp] theorem pending_withFlags (reading : Reading) (flags : List Flag) :
    (reading.withFlags flags).pending = reading.pending := rfl

/-- The second result is the first one with these flags in front, and it is a success just if
the first one is and raises none of them. -/
def Framed (flags : List Flag) (bare full : Except UsageError Reading) : Prop :=
  ∀ result, full = .ok result ↔
    ∃ raised, bare = .ok raised ∧ (∀ flag ∈ raised.flags, flag ∉ flags) ∧
      result = raised.withFlags (flags ++ raised.flags)

/-- To an action the flags that are there do not matter, unless it raises one of them. -/
def IgnoresFlags (action : Reading → Except UsageError Reading) : Prop :=
  ∀ (reading : Reading) (flags : List Flag),
    Framed flags (action (reading.withFlags [])) (action (reading.withFlags flags))

theorem framed_error (flags : List Flag) (first second : UsageError) :
    Framed flags (.error first) (.error second) := by
  intro result
  simp

theorem framed_ok (flags : List Flag) (reading : Reading) :
    Framed flags (.ok (reading.withFlags [])) (.ok (reading.withFlags flags)) := by
  intro result
  simp [withFlags, eq_comm]

theorem withFlags_self (reading : Reading) : reading.withFlags reading.flags = reading := rfl

/-- An action that follows puts its flags behind those of the first. -/
theorem Framed.bind {flags : List Flag} {bare full : Except UsageError Reading}
    (framed : Framed flags bare full) {next : Reading → Except UsageError Reading}
    (ignores : IgnoresFlags next) : Framed flags (bare >>= next) (full >>= next) := by
  intro result
  simp only [bind_eq_ok_iff]
  constructor
  · rintro ⟨middle, first, second⟩
    obtain ⟨raised, bareFirst, fresh, rfl⟩ := (framed middle).mp first
    obtain ⟨later, bareSecond, laterFresh, rfl⟩ := (ignores raised _ result).mp second
    refine ⟨later.withFlags (raised.flags ++ later.flags), ⟨raised, bareFirst, ?_⟩, ?_, ?_⟩
    · refine (ignores raised raised.flags _).mpr ⟨later, bareSecond, ?_, rfl⟩
      exact fun flag member inRaised => laterFresh flag member (List.mem_append_right _ inRaised)
    · intro flag member
      rcases List.mem_append.mp member with inRaised | inLater
      · exact fresh flag inRaised
      · exact fun inFlags => laterFresh flag inLater (List.mem_append_left _ inFlags)
    · rw [List.append_assoc]
      rfl
  · rintro ⟨whole, ⟨raised, bareFirst, second⟩, fresh, rfl⟩
    obtain ⟨later, bareSecond, laterFresh, rfl⟩ := (ignores raised raised.flags whole).mp second
    refine ⟨raised.withFlags (flags ++ raised.flags), (framed _).mpr ⟨raised, bareFirst, ?_, rfl⟩,
      (ignores raised _ _).mpr ⟨later, bareSecond, ?_, ?_⟩⟩
    · exact fun flag member => fresh flag (List.mem_append_left _ member)
    · intro flag member inBoth
      rcases List.mem_append.mp inBoth with inFlags | inRaised
      · exact fresh flag (List.mem_append_right _ member) inFlags
      · exact laterFresh flag member inRaised
    · rw [List.append_assoc]
      rfl

/-- The results agree up to the flags, and a success leaves the end of the options where it
was. -/
structure Regular (reading : Reading) (flags : List Flag) (bare full : Except UsageError Reading) :
    Prop where
  framed : Framed flags bare full
  ended : ∀ result, full = .ok result → result.ended = reading.ended

def IsRegular (action : Reading → Except UsageError Reading) : Prop :=
  ∀ (reading : Reading) (flags : List Flag),
    Regular reading flags (action (reading.withFlags [])) (action (reading.withFlags flags))

variable {reading : Reading} {flags : List Flag}

theorem regular_error (first second : UsageError) :
    Regular reading flags (.error first) (.error second) :=
  ⟨framed_error flags first second, fun _ success => nomatch success⟩

theorem regular_ok (changed : Reading) (same : changed.ended = reading.ended) :
    Regular reading flags (.ok (changed.withFlags [])) (.ok (changed.withFlags flags)) := by
  refine ⟨framed_ok flags changed, ?_⟩
  intro result success
  cases success
  exact same

theorem Regular.bind {bare full : Except UsageError Reading}
    (regular : Regular reading flags bare full) {next : Reading → Except UsageError Reading}
    (isRegular : IsRegular next) : Regular reading flags (bare >>= next) (full >>= next) := by
  refine ⟨regular.framed.bind fun middle before => (isRegular middle before).framed, ?_⟩
  intro result success
  obtain ⟨middle, first, second⟩ := bind_eq_ok_iff.mp success
  rw [(isRegular middle middle.flags).ended result second, regular.ended middle first]

theorem Regular.ite {condition other : Prop} [Decidable condition] [Decidable other]
    (same : condition ↔ other) {bare full otherBare otherFull : Except UsageError Reading}
    (first : Regular reading flags bare full)
    (second : Regular reading flags otherBare otherFull) :
    Regular reading flags (if condition then bare else otherBare)
      (if other then full else otherFull) := by
  by_cases holds : condition
  · rwa [if_pos holds, if_pos (same.mp holds)]
  · rwa [if_neg holds, if_neg fun otherHolds => holds (same.mpr otherHolds)]

end Frame

section Actions

theorem isRegular_give (setting : Setting) (value : String) :
    IsRegular fun reading => reading.give setting value := by
  intro reading flags
  refine .ite Iff.rfl (regular_error _ _) (.ite Iff.rfl ?_ (regular_error _ _))
  exact regular_ok { reading with settled := reading.settled ++ [(setting, value)] } rfl

theorem isRegular_settle : IsRegular settle := by
  intro reading flags
  simp only [settle, pending_withFlags]
  split
  · exact regular_ok reading rfl
  · exact regular_error _ _
  · rename_i setting value _
    have given := isRegular_give setting value { reading with pending := none } flags
    exact ⟨given.framed, given.ended⟩

theorem isRegular_raise (flag : Flag) : IsRegular fun reading => reading.raise flag := by
  intro reading flags
  simp only [raise_eq]
  apply (isRegular_settle reading flags).bind
  intro settled before
  by_cases present : flag ∈ before
  · refine ⟨fun result => ?_, fun result success => ?_⟩
    · simp [withFlags, present]
    · simp [withFlags, present] at success
  · refine ⟨fun result => ?_, fun result success => ?_⟩
    · simp [withFlags, present, eq_comm]
    · simp only [withFlags, present, if_false, Except.ok.injEq] at success
      rw [← success]

theorem isRegular_await (setting : Setting) :
    IsRegular fun reading => reading.await setting := by
  intro reading flags
  simp only [await_eq]
  apply (isRegular_settle reading flags).bind
  intro settled before
  exact regular_ok { settled with pending := some (setting, none) } rfl

theorem isRegular_attach (setting : Setting) (value : String) :
    IsRegular fun reading => reading.attach setting value := by
  intro reading flags
  simp only [attach_eq]
  exact (isRegular_settle reading flags).bind (isRegular_give setting value)

theorem isRegular_request (error : UsageError) :
    IsRegular fun reading => reading.request error := by
  intro reading flags
  simp only [request_eq]
  exact (isRegular_settle reading flags).bind fun _ _ => regular_error _ _

theorem isRegular_readFree (argument : String) :
    IsRegular fun reading => reading.readFree argument := by
  intro reading flags
  simp only [readFree_eq]
  refine .ite Iff.rfl (regular_error _ _) ?_
  apply (isRegular_settle reading flags).bind
  intro settled before
  exact regular_ok { settled with pending := some (.project, some argument) } rfl

theorem isRegular_readPlain (argument : String) :
    IsRegular fun reading => reading.readPlain argument := by
  intro reading flags
  simp only [readPlain, pending_withFlags]
  split
  · rename_i setting _
    exact regular_ok { reading with pending := some (setting, some argument) } rfl
  · exact isRegular_readFree argument reading flags

theorem isRegular_readLong (argument : List Char) :
    IsRegular fun reading => reading.readLong argument := by
  intro reading flags
  simp only [readLong]
  split
  · exact regular_error _ _
  · exact isRegular_attach _ _ reading flags
  · exact isRegular_await _ reading flags
  · exact regular_error _ _
  · exact isRegular_raise _ reading flags
  · exact isRegular_request _ reading flags
  · exact isRegular_request _ reading flags

theorem isRegular_readShort (letters : List Char) :
    IsRegular fun reading => reading.readShort letters := by
  induction letters with
  | nil => exact fun reading flags => regular_ok reading rfl
  | cons letter letters ih =>
      intro reading flags
      simp only [readShort]
      split
      · exact regular_error _ _
      · exact (isRegular_raise _ reading flags).bind ih
      · exact isRegular_request _ reading flags
      · exact isRegular_request _ reading flags
      · split
        · exact isRegular_await _ reading flags
        · exact isRegular_attach _ _ reading flags
        · exact isRegular_attach _ _ reading flags

/-- Every argument but two dashes alone leaves the end of the options where it was. -/
theorem isRegular_read {argument : String} (option : argument ≠ "--") :
    IsRegular fun reading => reading.read argument := by
  intro reading flags
  simp only [read]
  refine .ite Iff.rfl (isRegular_readFree argument reading flags) ?_
  split
  · rename_i dashes
    exact absurd (String.toList_inj.mp dashes) option
  · exact isRegular_readLong _ reading flags
  · exact isRegular_readPlain argument reading flags
  · exact isRegular_readShort _ reading flags
  · exact isRegular_readPlain argument reading flags

theorem read_dashes (reading : Reading) :
    reading.read "--" =
      if reading.ended then reading.readFree "--" else .ok { reading with ended := true } := rfl

theorem ignoresFlags_read (argument : String) :
    IgnoresFlags fun reading => reading.read argument := by
  intro reading flags
  by_cases option : argument = "--"
  · subst option
    simp only [read_dashes]
    by_cases ended : reading.ended
    · have free := (isRegular_readFree "--" reading flags).framed
      simpa only [withFlags, ended, if_true] using free
    · have ends := framed_ok flags { reading with ended := true }
      simpa only [withFlags, ended, Bool.false_eq_true, if_false] using ends
  · exact (isRegular_read option reading flags).framed

/-- To a run over arguments the flags before them do not matter, unless it raises one again. -/
theorem ignoresFlags_foldlM (arguments : List String) :
    IgnoresFlags fun reading => arguments.foldlM read reading := by
  induction arguments with
  | nil => exact fun reading flags => framed_ok flags reading
  | cons argument arguments ih =>
      intro reading flags
      simp only [List.foldlM_cons]
      exact (ignoresFlags_read argument reading flags).bind ih

theorem ended_of_foldlM {arguments : List String} (options : "--" ∉ arguments)
    {reading result : Reading} (success : arguments.foldlM read reading = .ok result) :
    result.ended = reading.ended := by
  induction arguments generalizing reading with
  | nil => cases success; rfl
  | cons argument arguments ih =>
      rw [List.mem_cons, not_or] at options
      rw [List.foldlM_cons] at success
      obtain ⟨next, first, rest⟩ := bind_eq_ok_iff.mp success
      rw [ih options.2 rest]
      exact (isRegular_read (Ne.symm options.1) reading reading.flags).ended next first

end Actions

section Settling

variable {reading ready : Reading} {argument : String}

theorem settle_cases (settles : reading.settle = .ok ready) :
    (reading.pending = none ∧ ready = reading) ∨
      ∃ setting value, reading.pending = some (setting, some value) ∧
        ready = { reading with
          pending := none, settled := reading.settled ++ [(setting, value)] } := by
  rw [settle] at settles
  split at settles
  · rename_i none
    cases settles
    exact .inl ⟨none, rfl⟩
  · cases settles
  · rename_i setting value waiting
    rw [give] at settles
    split at settles
    · cases settles
    · split at settles
      · cases settles
        exact .inr ⟨setting, value, waiting, rfl⟩
      · cases settles

theorem pending_of_settle (settles : reading.settle = .ok ready) : ready.pending = none := by
  obtain ⟨none, rfl⟩ | ⟨setting, value, -, rfl⟩ := settle_cases settles
  · exact none
  · rfl

theorem ended_of_settle (settles : reading.settle = .ok ready) :
    ready.ended = reading.ended :=
  (isRegular_settle reading reading.flags).ended ready settles

theorem hasProject_of_settle (settles : reading.settle = .ok ready) :
    ready.hasProject = reading.hasProject := by
  obtain ⟨-, rfl⟩ | ⟨setting, value, waiting, rfl⟩ := settle_cases settles
  · rfl
  · simp [hasProject, waiting]

/-- What is settled is settled for good. -/
theorem settle_of_settle (settles : reading.settle = .ok ready) :
    ready.settle = .ok ready := by
  rw [settle, pending_of_settle settles]

theorem settle_ended (settles : reading.settle = .ok ready) :
    { reading with ended := true }.settle = .ok { ready with ended := true } := by
  have mapped : { reading with ended := true }.settle =
      reading.settle.map fun settled => { settled with ended := true } := by
    obtain ⟨entries, flags, pending, ended⟩ := reading
    rcases pending with _ | ⟨setting, _ | value⟩
    · rfl
    · rfl
    · simp only [settle, give]
      split
      · rfl
      · split <;> rfl
  rw [mapped, settles]
  rfl

theorem readFree_of_settle (settles : reading.settle = .ok ready) (argument : String) :
    reading.readFree argument = ready.readFree argument := by
  rw [readFree_eq, readFree_eq, hasProject_of_settle settles, settles, settle_of_settle settles]

theorem readPlain_of_settle (settles : reading.settle = .ok ready) (argument : String) :
    reading.readPlain argument = ready.readPlain argument := by
  have free := readFree_of_settle settles argument
  rw [readPlain, readPlain, pending_of_settle settles]
  obtain ⟨none, rfl⟩ | ⟨setting, value, waiting, -⟩ := settle_cases settles
  · rw [none]
  · rw [waiting]
    exact free

theorem readLong_of_settle (settles : reading.settle = .ok ready) (argument : List Char) :
    reading.readLong argument = ready.readLong argument := by
  simp only [readLong, attach_eq, await_eq, raise_eq, request_eq, settles,
    settle_of_settle settles]

theorem readShort_of_settle (settles : reading.settle = .ok ready) (letter : Char)
    (letters : List Char) :
    reading.readShort (letter :: letters) = ready.readShort (letter :: letters) := by
  simp only [readShort, attach_eq, await_eq, raise_eq, request_eq, settles,
    settle_of_settle settles]

/-- An argument does the same whether or not the last option is settled before. -/
theorem read_of_settle (settles : reading.settle = .ok ready) (option : argument ≠ "--") :
    reading.read argument = ready.read argument := by
  rw [read, read, ended_of_settle settles]
  split
  · exact readFree_of_settle settles argument
  · split
    · rename_i dashes
      exact absurd (String.toList_inj.mp dashes) option
    · exact readLong_of_settle settles _
    · exact readPlain_of_settle settles argument
    · rename_i letters _ _ single _
      cases letters with
      | nil => exact absurd rfl single
      | cons letter letters => exact readShort_of_settle settles letter letters
    · exact readPlain_of_settle settles argument

/-- The arguments lead to the same whether or not the last option is settled before. -/
theorem foldlM_settle_of_settle (settles : reading.settle = .ok ready)
    (arguments : List String) :
    arguments.foldlM read reading >>= settle = arguments.foldlM read ready >>= settle := by
  induction arguments generalizing reading ready with
  | nil => exact settles.trans (settle_of_settle settles).symm
  | cons argument arguments ih =>
      rw [List.foldlM_cons, List.foldlM_cons]
      by_cases option : argument = "--"
      · subst option
        rw [read_dashes, read_dashes, ended_of_settle settles]
        by_cases ended : reading.ended
        · rw [if_pos ended, if_pos ended, readFree_of_settle settles]
        · rw [if_neg ended, if_neg ended]
          exact ih (settle_ended settles)
      · rw [read_of_settle settles option]

end Settling

end Reading

section Arguments

open Reading

/-- The options of a reading whose last option is settled. -/
def finish (reading : Reading) : Except UsageError Options :=
  match reading.options? with
  | some options => .ok options
  | none => .error .missingProject

theorem ofArguments_eq (arguments : List String) :
    Options.ofArguments arguments =
      arguments.foldlM Reading.read {} >>= Reading.settle >>= finish := by
  rw [bind_assoc]
  rfl

theorem options?_withFlags (reading : Reading) (flags : List Flag) :
    (reading.withFlags flags).options? = reading.options?.map fun options =>
      { options with strict := flags.contains .strict, verbose := flags.contains .verbose } := by
  simp only [options?, Option.map_map]
  rfl

theorem finish_withFlags {reading : Reading} {options : Options} (flags : List Flag)
    (done : finish reading = .ok options) :
    finish (reading.withFlags flags) = .ok { options with
      strict := flags.contains .strict, verbose := flags.contains .verbose } := by
  rw [finish] at done ⊢
  rw [options?_withFlags]
  cases read : reading.options? with
  | none => rw [read] at done; cases done
  | some found => rw [read] at done; cases done; rfl

theorem flags_of_finish {reading : Reading} {options : Options}
    (done : finish reading = .ok options) :
    options.strict = reading.flags.contains .strict ∧
      options.verbose = reading.flags.contains .verbose := by
  have same := finish_withFlags reading.flags done
  rw [withFlags_self, done, Except.ok.injEq] at same
  exact ⟨congrArg Options.strict same, congrArg Options.verbose same⟩

theorem ofArguments_eq_ok_iff {arguments : List String} {options : Options} :
    Options.ofArguments arguments = .ok options ↔
      ∃ done, arguments.foldlM Reading.read {} >>= Reading.settle = .ok done ∧
        finish done = .ok options := by
  rw [ofArguments_eq, bind_eq_ok_iff]

/-- A run over arguments and the settling behind it ignore flags. -/
theorem ignoresFlags_run (arguments : List String) :
    IgnoresFlags fun reading => arguments.foldlM Reading.read reading >>= Reading.settle :=
  fun reading flags => (ignoresFlags_foldlM arguments reading flags).bind
    fun settled before => (isRegular_settle settled before).framed

theorem read_strict {reading : Reading} (options : reading.ended = false) :
    reading.read "--strict" = reading.raise .strict := by
  rw [Reading.read, options]
  rfl

/-- Without the flag `--strict`, wherever it stands, the arguments have the same options but
that they are not strict. -/
theorem ofArguments_without_strict {front back : List String} {options : Options}
    (unended : "--" ∉ front)
    (parsed : Options.ofArguments (front ++ "--strict" :: back) = .ok options) :
    options.strict = true ∧
      Options.ofArguments (front ++ back) = .ok { options with strict := false } := by
  obtain ⟨done, run, finished⟩ := ofArguments_eq_ok_iff.mp parsed
  rw [List.foldlM_append, bind_assoc] at run
  obtain ⟨reading, beforeFlag, run⟩ := bind_eq_ok_iff.mp run
  rw [List.foldlM_cons, read_strict (ended_of_foldlM unended beforeFlag), raise_eq,
    bind_assoc, bind_assoc] at run
  obtain ⟨ready, settles, run⟩ := bind_eq_ok_iff.mp run
  by_cases again : Flag.strict ∈ ready.flags
  · rw [if_pos again] at run
    cases run
  · rw [if_neg again] at run
    have run : back.foldlM Reading.read (ready.withFlags (ready.flags ++ [.strict])) >>=
        Reading.settle = .ok done := run
    obtain ⟨raised, plain, fresh, rfl⟩ := (ignoresFlags_run back ready _ done).mp run
    have rest : back.foldlM Reading.read reading >>= Reading.settle =
        .ok (raised.withFlags (ready.flags ++ raised.flags)) := by
      rw [foldlM_settle_of_settle settles]
      refine (ignoresFlags_run back ready ready.flags _).mpr ⟨raised, plain, ?_, rfl⟩
      exact fun flag member inReady => fresh flag member (List.mem_append_left _ inReady)
    have unset : (ready.flags ++ raised.flags).contains Flag.strict = false := by
      have later : Flag.strict ∉ raised.flags := fun member => fresh _ member (by simp)
      simp [again, later]
    have verbose : (ready.flags ++ raised.flags).contains Flag.verbose = options.verbose := by
      rw [(flags_of_finish finished).2]
      simp [withFlags]
    refine ⟨by rw [(flags_of_finish finished).1]; simp [withFlags], ?_⟩
    refine ofArguments_eq_ok_iff.mpr ⟨raised.withFlags (ready.flags ++ raised.flags), ?_, ?_⟩
    · rw [List.foldlM_append, bind_assoc, beforeFlag]
      exact rest
    · have finishes := finish_withFlags (ready.flags ++ raised.flags) finished
      rwa [unset, verbose] at finishes

/-- With the flag `--strict` in front of them, arguments that are not strict have the same
options but that they are strict. -/
theorem ofArguments_with_strict {arguments : List String} {options : Options}
    (parsed : Options.ofArguments arguments = .ok options) (unset : options.strict = false) :
    Options.ofArguments ("--strict" :: arguments) = .ok { options with strict := true } := by
  obtain ⟨done, run, finished⟩ := ofArguments_eq_ok_iff.mp parsed
  obtain ⟨strict, verbose⟩ := flags_of_finish finished
  have fresh : ∀ flag ∈ done.flags, flag ∉ [Flag.strict] := by
    intro flag member single
    rw [List.mem_singleton.mp single, ← List.contains_iff_mem, ← strict, unset] at member
    cases member
  have raised := (ignoresFlags_run arguments {} [.strict] _).mpr ⟨done, run, fresh, rfl⟩
  refine ofArguments_eq_ok_iff.mpr ⟨_, raised, ?_⟩
  have finishes := finish_withFlags ([.strict] ++ done.flags) finished
  have whole : ([Flag.strict] ++ done.flags).contains Flag.verbose = options.verbose := by
    rw [verbose]
    simp
  rw [whole] at finishes
  exact finishes

end Arguments

end ApiAssembly.Command
