import PosixTasks.Shell.Parser

/-!
# The arrays behind a command line

`InitCommandLine` allocates an array of 16 commands, and `InitCommand` an array of 256 arguments
for one of them. Here `ParseCommandLine` works on these arrays: an access outside of an array, or
through a pointer that is `NULL`, makes the result undefined. `FreeCommandLine` and `RunCmd` go
through the arrays that it leaves behind.

No allocation fails.

## Main results

* `Tracks.takeTokens`: the arrays hold what the lists of the parser hold, also where it gives up;
* `parse_spec`: what the arrays hold at the end is what `parseCommandLine` returns;
* `wellFormed_of_parse`: no access is out of bounds, and every command below `cmd_count` is
  initialised and ends with `NULL`.
-/

namespace Shell

open CString

/-- A `Command` in the array `cmds`. -/
structure CmdSlot where
  /-- The array that `argv` points to, with `none` for `NULL` in it; `none` if `argv` itself is
  `NULL`. -/
  argv : Option (List (Option Text))
  argc : ℕ

/-- A `CommandLine` with its array. -/
structure CmdTable where
  cmds : List CmdSlot
  cmdCount : ℕ

/-- `InitCommandLine`; `calloc` clears the array. -/
def CmdTable.init : CmdTable :=
  ⟨List.replicate maxCommands ⟨none, 0⟩, 0⟩

/-- Where a part of `ParseCommandLine` leads. -/
inductive Flow where
  | next (t : CmdTable)
  /-- `ParseCommandLine` returns. -/
  | stop (e : CmdError) (t : CmdTable)

/-- What follows, unless `ParseCommandLine` has returned. -/
def Flow.andThen (flow : Option Flow) (f : CmdTable → Option Flow) : Option Flow :=
  match flow with
  | some (.next t) => f t
  | some (.stop e t) => some (.stop e t)
  | none => none

namespace CmdTable

/-- `InitCommand(&cmds[i])` -/
def initCommand (t : CmdTable) (i : ℕ) : Option CmdTable :=
  if i < t.cmds.length then
    some { t with cmds := t.cmds.set i ⟨some (List.replicate maxArgs none), 0⟩ }
  else none

/-- `AddArgument(&cmds[i], arg)` -/
def addArgument (t : CmdTable) (i : ℕ) (arg : Text) : Option Flow := do
  let cmd ← t.cmds[i]?
  if maxArgs - 1 ≤ cmd.argc then some (.stop .tooManyArgs t)
  else
    let argv ← cmd.argv
    if cmd.argc < argv.length then
      some (.next { t with cmds := t.cmds.set i ⟨some (argv.set cmd.argc (some arg)),
                                                  cmd.argc + 1⟩ })
    else none

/-- `AddArgument`, if the argument is not `NULL`. -/
def addOptional (t : CmdTable) (i : ℕ) : Option Text → Option Flow
  | some arg => t.addArgument i arg
  | none => some (.next t)

/-- `cmd_count++`, the test and `InitCommand`. -/
def nextCommand (t : CmdTable) : Option Flow :=
  let t := { t with cmdCount := t.cmdCount + 1 }
  if maxCommands ≤ t.cmdCount then some (.stop .tooManyCommands t)
  else (t.initCommand t.cmdCount).map .next

/-- One round of the loop of `ParseCommandLine`. -/
def takeToken (t : CmdTable) (tok : Text) : Option Flow :=
  if tok = ['|'] then t.nextCommand
  else if '|' ∈ tok then
    Flow.andThen (t.addOptional t.cmdCount (fixBeforeTok tok)) fun t =>
      Flow.andThen t.nextCommand fun t => t.addOptional t.cmdCount (fixAfterTok tok)
  else t.addArgument t.cmdCount tok

/-- The loop of `ParseCommandLine`. -/
def takeTokens (t : CmdTable) : List Text → Option Flow
  | [] => some (.next t)
  | tok :: toks => Flow.andThen (t.takeToken tok) fun t => t.takeTokens toks

/-- `ParseCommandLine`: the error, if any, and the arrays. -/
def parse (t : CmdTable) (input : Text) : Option (Option CmdError × CmdTable) := do
  let t ← t.initCommand 0
  match ← t.takeTokens (tokens input) with
  | .stop e t => some (some e, t)
  | .next t =>
      let cmd ← t.cmds[t.cmdCount]?
      some (none, if 0 < cmd.argc then { t with cmdCount := t.cmdCount + 1 } else t)

/-- `cmds[i]` with its `argv`, which must not be `NULL`. -/
def command (t : CmdTable) (i : ℕ) : Option (ℕ × List (Option Text)) := do
  let cmd ← t.cmds[i]?
  let argv ← cmd.argv
  some (cmd.argc, argv)

/-- `FreeCommandLine`: what it frees in the arrays of arguments. -/
def freeCommandLine (t : CmdTable) : Option (List (List (Option Text))) :=
  (List.range t.cmdCount).mapM fun i => do
    let (argc, argv) ← t.command i
    (List.range argc).mapM fun j => argv[j]?

end CmdTable

/-- The arguments that `execvp` finds, up to the first `NULL`. -/
def execVector : List (Option Text) → Option (List Text)
  | [] => none
  | none :: _ => some []
  | some arg :: argv => (execVector argv).map (arg :: ·)

/-- The arguments that `RunCmd` hands to `execvp`. -/
def CmdTable.runCmd (t : CmdTable) : Option (List (List Text)) :=
  (List.range t.cmdCount).mapM fun i => do
    let (_, argv) ← t.command i
    execVector argv

/-! ## What the arrays hold -/

/-- The element of `cmds` is initialised and holds the command. -/
structure CmdSlot.Stores (slot : CmdSlot) (cmd : Command) : Prop where
  argc : slot.argc = cmd.argc
  bound : cmd.argc < maxArgs
  argv : slot.argv = some (cmd.argv.map some ++ List.replicate (maxArgs - cmd.argc) none)

/-- The first elements of the array `cmds` hold the commands. -/
structure StoresAll (slots : List CmdSlot) (cmds : List Command) : Prop where
  size : slots.length = maxCommands
  stores : ∀ (i : ℕ) (cmd : Command), cmds[i]? = some cmd →
    ∃ slot : CmdSlot, slots[i]? = some slot ∧ slot.Stores cmd

/-- The arrays hold what the parser has stored: the commands below `cmd_count` and the current
one. -/
structure Tracks (t : CmdTable) (p : Parsing) : Prop where
  count : t.cmdCount = p.before.length
  room : p.before.length < maxCommands
  storesAll : StoresAll t.cmds (p.before ++ [p.cur])

/-- The arrays hold the commands below `cmd_count`. -/
structure HoldsAll (t : CmdTable) (cmds : List Command) : Prop where
  count : t.cmdCount = cmds.length
  room : cmds.length ≤ maxCommands
  storesAll : StoresAll t.cmds cmds

/-- The arrays go where the parser goes. -/
def FollowsFlow (flow : Option Flow) (result : Except CmdError Parsing) : Prop :=
  match result with
  | .ok p => ∃ t, flow = some (.next t) ∧ Tracks t p
  | .error e => ∃ t cmds, flow = some (.stop e t) ∧ HoldsAll t cmds

/-- A command without arguments, as `InitCommand` leaves it. -/
theorem stores_empty : CmdSlot.Stores ⟨some (List.replicate maxArgs none), 0⟩ ⟨[]⟩ :=
  ⟨rfl, by decide, rfl⟩

/-- One more argument. -/
theorem CmdSlot.Stores.addArgument {argc : ℕ} {argv : List (Option Text)} {cmd : Command}
    (h : CmdSlot.Stores ⟨some argv, argc⟩ cmd) (hroom : cmd.argc < maxArgs - 1) (arg : Text) :
    argc < argv.length ∧
      CmdSlot.Stores ⟨some (argv.set argc (some arg)), argc + 1⟩ ⟨cmd.argv ++ [arg]⟩ := by
  obtain ⟨hargc, hbound, hargv⟩ := h
  simp only [Option.some.injEq] at hargv hargc
  have hlength : cmd.argc = cmd.argv.length := rfl
  rw [hlength] at hargc hroom
  -- behind the arguments there is a `NULL`, which is overwritten
  have hfree : List.replicate (maxArgs - cmd.argv.length) (none : Option Text)
      = none :: List.replicate (maxArgs - (cmd.argv.length + 1)) none := by
    rw [← List.replicate_succ]
    congr 1
    omega
  rw [hlength, hfree] at hargv
  subst hargv hargc
  refine ⟨by simp, ⟨by simp [Command.argc], by simp [Command.argc]; omega, ?_⟩⟩
  have hset := List.set_append_right (s := cmd.argv.map some)
    (t := none :: List.replicate (maxArgs - (cmd.argv.length + 1)) none) (i := cmd.argv.length)
    (x := some arg) (by simp)
  rw [hset]
  simp [Command.argc]

namespace StoresAll

variable {slots : List CmdSlot} {cmds : List Command}

theorem of_append {more : List Command} (h : StoresAll slots (cmds ++ more)) :
    StoresAll slots cmds where
  size := h.size
  stores i cmd hcmd := by
    apply h.stores i cmd
    rw [List.getElem?_append_left (List.getElem?_eq_some_iff.mp hcmd).1, hcmd]

/-- The next element of the array is stored. -/
theorem set (h : StoresAll slots cmds) (hroom : cmds.length < maxCommands) {slot : CmdSlot}
    {cmd : Command} (hslot : slot.Stores cmd) :
    StoresAll (slots.set cmds.length slot) (cmds ++ [cmd]) where
  size := by rw [List.length_set, h.size]
  stores i cmd' hcmd := by
    rcases Nat.lt_or_ge i cmds.length with hlt | hge
    · rw [List.getElem?_append_left hlt] at hcmd
      obtain ⟨slot', hslot', hstores⟩ := h.stores i cmd' hcmd
      exact ⟨slot', by rw [List.getElem?_set_ne (by omega), hslot'], hstores⟩
    · have hi : i = cmds.length := by
        have := (List.getElem?_eq_some_iff.mp hcmd).1
        rw [List.length_append, List.length_singleton] at this
        omega
      subst hi
      rw [List.getElem?_concat_length, Option.some.injEq] at hcmd
      subst hcmd
      exact ⟨slot, List.getElem?_set_self (by rw [h.size]; exact hroom), hslot⟩

end StoresAll

/-! ## Following the parser -/

namespace Tracks

variable {t : CmdTable} {p : Parsing}

/-- The commands in front of the current one are there. -/
theorem holds (h : Tracks t p) : HoldsAll t p.before :=
  ⟨h.count, h.room.le, h.storesAll.of_append⟩

theorem addArgument (h : Tracks t p) (arg : Text) :
    FollowsFlow (t.addArgument t.cmdCount arg) (p.addArgument arg) := by
  obtain ⟨⟨argv, argc⟩, hslot, hstores⟩ := h.storesAll.stores p.before.length p.cur (by simp)
  rw [← h.count] at hslot
  have hargc : argc = p.cur.argc := hstores.argc
  obtain rfl : argv = some _ := hstores.argv
  simp only [CmdTable.addArgument, hslot, Option.bind_eq_bind, Option.bind_some]
  by_cases hfull : maxArgs - 1 ≤ p.cur.argc
  · rw [Parsing.addArgument, if_pos hfull, if_pos (by omega)]
    exact ⟨t, p.before, rfl, h.holds⟩
  · obtain ⟨hlt, hnext⟩ := hstores.addArgument (by omega) arg
    rw [Parsing.addArgument, if_neg hfull, if_neg (by omega), if_pos hlt]
    refine ⟨_, rfl, h.count, h.room, ?_⟩
    rw [h.count]
    exact h.storesAll.of_append.set h.room hnext

theorem addOptional (h : Tracks t p) (arg : Option Text) :
    FollowsFlow (t.addOptional t.cmdCount arg) (p.addOptional arg) := by
  cases arg with
  | none => exact ⟨t, rfl, h⟩
  | some arg => exact h.addArgument arg

theorem nextCommand (h : Tracks t p) : FollowsFlow t.nextCommand p.nextCommand := by
  have hcount : t.cmdCount + 1 = (p.before ++ [p.cur]).length := by simp [h.count]
  have hroom := h.room
  simp only [CmdTable.nextCommand, Parsing.nextCommand]
  by_cases hfull : maxCommands ≤ p.before.length + 1
  · -- `cmd_count` is 16 now, and all 16 commands are initialised
    rw [if_pos (by rw [h.count]; exact hfull), if_pos hfull]
    refine ⟨_, p.before ++ [p.cur], rfl, hcount, ?_, h.storesAll⟩
    rw [List.length_append, List.length_singleton]
    omega
  · rw [if_neg (by rw [h.count]; exact hfull), if_neg hfull, CmdTable.initCommand,
      if_pos (by rw [h.storesAll.size, h.count]; omega)]
    refine ⟨_, rfl, hcount, by simpa using hfull, ?_⟩
    rw [hcount]
    exact h.storesAll.set (by simpa using hfull) stores_empty

/-- What follows a part of the loop follows the parser. -/
theorem andThen {flow : Option Flow} {result : Except CmdError Parsing}
    (h : FollowsFlow flow result) {f : CmdTable → Option Flow}
    {g : Parsing → Except CmdError Parsing}
    (hnext : ∀ t p, Tracks t p → FollowsFlow (f t) (g p)) :
    FollowsFlow (Flow.andThen flow f) (result >>= g) := by
  cases result with
  | ok p =>
    obtain ⟨t, rfl, ht⟩ := h
    exact hnext t p ht
  | error e =>
    obtain ⟨t, cmds, rfl, ht⟩ := h
    exact ⟨t, cmds, rfl, ht⟩

theorem takeToken (h : Tracks t p) (tok : Text) :
    FollowsFlow (t.takeToken tok) (p.takeToken tok) := by
  rw [CmdTable.takeToken, Parsing.takeToken]
  split
  · exact h.nextCommand
  · split
    · exact andThen (h.addOptional _) fun t p h =>
        andThen h.nextCommand fun t p h => h.addOptional _
    · exact h.addArgument tok

/-- The arrays hold what the lists of the parser hold, at the end of the loop and where it gives
up. -/
theorem takeTokens (h : Tracks t p) (toks : List Text) :
    FollowsFlow (t.takeTokens toks) (toks.foldlM Parsing.takeToken p) := by
  induction toks generalizing t p with
  | nil => exact ⟨t, rfl, h⟩
  | cons tok toks ih =>
    rw [List.foldlM_cons]
    exact andThen (h.takeToken tok) fun t p h => ih h

end Tracks

/-- The first `InitCommand`. -/
theorem tracks_init :
    ∃ t, CmdTable.init.initCommand 0 = some t ∧ Tracks t Parsing.init := by
  refine ⟨_, if_pos (by decide), rfl, by decide, ?_⟩
  have hnone : StoresAll CmdTable.init.cmds [] := ⟨List.length_replicate, by simp⟩
  exact hnone.set (by decide) stores_empty

/-- At the end the arrays hold the command line that the parser returns; where it gives up, they
hold some commands. -/
theorem parse_spec (input : Text) :
    match parseCommandLine input with
    | .ok line => ∃ t, CmdTable.init.parse input = some (none, t) ∧ HoldsAll t line.cmds
    | .error e => ∃ t cmds, CmdTable.init.parse input = some (some e, t) ∧ HoldsAll t cmds := by
  obtain ⟨t₀, hinit, htracks⟩ := tracks_init
  have hloop := htracks.takeTokens (tokens input)
  simp only [parseCommandLine, CmdTable.parse, hinit, Option.bind_eq_bind, Option.bind_some]
  cases hresult : (tokens input).foldlM Parsing.takeToken Parsing.init with
  | error e =>
    rw [hresult] at hloop
    obtain ⟨t, cmds, hflow, hholds⟩ := hloop
    exact ⟨t, cmds, by rw [hflow]; rfl, hholds⟩
  | ok p =>
    rw [hresult] at hloop
    obtain ⟨t, hflow, ht⟩ := hloop
    obtain ⟨slot, hslot, hstores⟩ := ht.storesAll.stores p.before.length p.cur (by simp)
    rw [← ht.count] at hslot
    simp only [hflow, Option.bind_some, hslot, hstores.argc]
    refine ⟨_, rfl, ?_⟩
    show HoldsAll _ p.finish.cmds
    rw [Parsing.finish]
    split
    · -- the current command counts
      have hroom := ht.room
      exact ⟨by simp [ht.count], by simp; omega, ht.storesAll⟩
    · exact ht.holds

/-! ## Going through the arrays -/

/-- Every command below `cmd_count` is initialised, has at most 255 arguments, none of them
`NULL`, and a `NULL` behind them. -/
structure CmdTable.WellFormed (t : CmdTable) : Prop where
  count : t.cmdCount ≤ maxCommands
  command : ∀ i < t.cmdCount, ∃ argc argv, t.command i = some (argc, argv) ∧
    argc ≤ maxArgs - 1 ∧ argv.length = maxArgs ∧
    (∀ j < argc, ∃ arg, argv[j]? = some (some arg)) ∧ argv[argc]? = some none

/-- A loop over the indices of a list that finds each element. -/
theorem mapM_range_eq {α : Type} {f : ℕ → Option α} {l : List α}
    (h : ∀ (i : ℕ) a, l[i]? = some a → f i = some a) : (List.range l.length).mapM f = some l := by
  induction l using List.reverseRecOn with
  | nil => rfl
  | append_singleton l a ih =>
    have hlast : f l.length = some a := h l.length a (by simp)
    have hinit : (List.range l.length).mapM f = some l := by
      apply ih
      intro i b hb
      apply h
      rw [List.getElem?_append_left (List.getElem?_eq_some_iff.mp hb).1, hb]
    rw [List.length_append, List.length_singleton, List.range_succ, List.mapM_append, hinit]
    simp [hlast]

/-- `execvp` finds the arguments in front of the `NULL`. -/
theorem execVector_append (args : List Text) (rest : List (Option Text)) :
    execVector (args.map some ++ none :: rest) = some args := by
  induction args with
  | nil => rfl
  | cons arg args ih => simp [execVector, ih]

namespace HoldsAll

variable {t : CmdTable} {cmds : List Command}

theorem command (h : HoldsAll t cmds) {i : ℕ} {cmd : Command} (hcmd : cmds[i]? = some cmd) :
    t.command i = some (cmd.argc,
      cmd.argv.map some ++ List.replicate (maxArgs - cmd.argc) none) ∧ cmd.argc < maxArgs := by
  obtain ⟨slot, hslot, hargc, hbound, hargv⟩ := h.storesAll.stores i cmd hcmd
  refine ⟨?_, hbound⟩
  simp [CmdTable.command, hslot, hargv, hargc]

theorem wellFormed (h : HoldsAll t cmds) : t.WellFormed where
  count := h.count.trans_le h.room
  command i hi := by
    rw [h.count] at hi
    obtain ⟨hcommand, hbound⟩ := h.command (List.getElem?_eq_getElem hi)
    have hlength : cmds[i].argc = cmds[i].argv.length := rfl
    refine ⟨_, _, hcommand, by omega, ?_, fun j hj => ?_, ?_⟩
    · rw [List.length_append, List.length_map, List.length_replicate]
      omega
    · have hlt : j < (cmds[i].argv.map some).length := by simpa [hlength] using hj
      rw [List.getElem?_append_left hlt, List.getElem?_eq_getElem hlt, List.getElem_map]
      exact ⟨_, rfl⟩
    · have hend : (cmds[i].argv.map some).length = cmds[i].argc := by simp [hlength]
      rw [List.getElem?_append_right hend.le, hend, Nat.sub_self]
      exact List.getElem?_replicate_of_lt (by omega)

/-- `FreeCommandLine` frees each argument of each command. -/
theorem freeCommandLine (h : HoldsAll t cmds) :
    t.freeCommandLine = some (cmds.map fun cmd => cmd.argv.map some) := by
  rw [CmdTable.freeCommandLine, h.count, ← List.length_map fun cmd => cmd.argv.map some]
  apply mapM_range_eq
  intro i args hargs
  rw [List.getElem?_map, Option.map_eq_some_iff] at hargs
  obtain ⟨cmd, hcmd, rfl⟩ := hargs
  obtain ⟨hcommand, -⟩ := h.command hcmd
  have hargc : cmd.argc = (cmd.argv.map some).length := by simp [Command.argc]
  simp only [hcommand, Option.bind_eq_bind, Option.bind_some, hargc]
  apply mapM_range_eq
  intro j arg harg
  rw [List.getElem?_append_left (List.getElem?_eq_some_iff.mp harg).1, harg]

/-- `RunCmd` hands each command its arguments. -/
theorem runCmd (h : HoldsAll t cmds) : t.runCmd = some (cmds.map Command.argv) := by
  rw [CmdTable.runCmd, h.count, ← List.length_map Command.argv]
  apply mapM_range_eq
  intro i args hargs
  rw [List.getElem?_map, Option.map_eq_some_iff] at hargs
  obtain ⟨cmd, hcmd, rfl⟩ := hargs
  obtain ⟨hcommand, hbound⟩ := h.command hcmd
  have hfree : maxArgs - cmd.argc = maxArgs - cmd.argc - 1 + 1 := by omega
  simp only [hcommand, Option.bind_eq_bind, Option.bind_some]
  rw [hfree, List.replicate_succ, execVector_append]

end HoldsAll

/-- `ParseCommandLine` makes no access outside of an array or through `NULL`, whatever the line is;
however it returns, each command below `cmd_count` is initialised, with at most 255 arguments and a
`NULL` behind them, and `FreeCommandLine` and `RunCmd` touch no other commands. -/
theorem wellFormed_of_parse (input : Text) :
    ∃ e t, CmdTable.init.parse input = some (e, t) ∧ t.WellFormed ∧
      t.freeCommandLine.isSome ∧ t.runCmd.isSome := by
  obtain ⟨e, t, cmds, hparse, hholds⟩ :
      ∃ e t cmds, CmdTable.init.parse input = some (e, t) ∧ HoldsAll t cmds := by
    have hspec := parse_spec input
    cases hresult : parseCommandLine input with
    | ok line =>
      rw [hresult] at hspec
      obtain ⟨t, hparse, hholds⟩ := hspec
      exact ⟨none, t, line.cmds, hparse, hholds⟩
    | error e =>
      rw [hresult] at hspec
      obtain ⟨t, cmds, hparse, hholds⟩ := hspec
      exact ⟨some e, t, cmds, hparse, hholds⟩
  refine ⟨e, t, hparse, hholds.wellFormed, ?_, ?_⟩
  · rw [hholds.freeCommandLine, Option.isSome_some]
  · rw [hholds.runCmd, Option.isSome_some]

end Shell
