import PosixTasks.MonitorDaemon.Reply
import PosixTasks.MonitorDaemon.UnifiedDiff

/-!
# Carrying out commands

`process_command` for every command, and the two places where a command is decoded:
`read_command` for the control FIFO, and `run_interactive` for the terminal. Both decode into a
variable `cmd` that holds something already, and `sscanf` leaves `cmd.arg` as it is where it finds
no number. No allocation fails.

## Main results

* `react_eq_iff`: what is done for a line does not depend on what `cmd` holds if and only if the
  line is not a `set_pid`, `set_period` or `show_k_diffs` without a number, or it is a
  `show_k_diffs` for which every number is the same.
-/

namespace MonitorDaemon

open CString Truncation

/-! ## `process_command` -/

/-- What `process_command` finds outside of the state. -/
structure Outside extends DiffFiles where
  /-- `get_process_cwd`; `none` is `NULL`. -/
  processCwd : ℤ → Option Text
  tools : Tools
  backups : Backups

/-- What `process_command` leaves: the state, the reply, and the file that it restored. -/
structure Outcome where
  state : MonitorState
  response : Text
  restored : Option (Text × Text)

/-- `MAX_RESPONSE_LEN`. -/
def maxResponseLen : ℕ := 8192

/-- The longest period that `set_period` accepts is shorter than this. -/
def periodLimit : ℤ := 3600000

section

variable (outside : Outside) (responseLen : ℕ)

/-- The case `CMD_SET_PID`. -/
def setPid (newPid : ℤ) (state : MonitorState) : Outcome :=
  match outside.processCwd newPid with
  | some cwd =>
    { state :=
        { state with
          monitoredDir := cwd, monitoredPid := newPid, firstBackupDone := false, files := [] }
      response := snprintf responseLen ("PID changed to ".toList ++ decimalInt newPid ++
        ", monitoring directory: ".toList ++ cwd ++ "\n".toList)
      restored := none }
  | none =>
    { state
      response := snprintf responseLen
        ("Failed to get CWD for PID ".toList ++ decimalInt newPid ++ "\n".toList)
      restored := none }

/-- The case `CMD_SET_PERIOD`. -/
def setPeriod (newPeriod : ℤ) (state : MonitorState) : Outcome :=
  if 0 < newPeriod ∧ newPeriod < periodLimit then
    { state := { state with samplePeriodMs := newPeriod }
      response := snprintf responseLen
        ("Sample period changed to ".toList ++ decimalInt newPeriod ++ " ms\n".toList)
      restored := none }
  else
    { state
      response := snprintf responseLen ("Invalid period: ".toList ++ decimalInt newPeriod ++
        " (must be 1-3600000 ms)\n".toList)
      restored := none }

/-- The case `CMD_STATUS`. -/
def status (state : MonitorState) : Outcome :=
  { state
    response := snprintf responseLen
      (["Status:\n".toList,
        "  Monitored PID: ".toList, decimalInt state.monitoredPid, "\n".toList,
        "  Directory: ".toList, state.monitoredDir, "\n".toList,
        "  Sample period: ".toList, decimalInt state.samplePeriodMs, " ms\n".toList,
        "  Current sample: ".toList, decimal state.currentSample, "\n".toList,
        "  Files tracked: ".toList, decimal state.files.length, "\n".toList,
        "  First backup done: ".toList,
        (if state.firstBackupDone then "yes".toList else "no".toList), "\n".toList].flatten)
    restored := none }

/-- The case `CMD_RESTORE`. -/
def restore (filename : Text) (arg : ℤ) (state : MonitorState) : Outcome :=
  match restoreFileToSample outside.tools state outside.backups filename arg with
  | some file =>
    { state
      response := snprintf responseLen ("File ".toList ++ filename ++
        " restored to sample ".toList ++ decimalInt arg ++ " as ".toList ++
        snprintf maxPathLen (restoredFormat (basename filename) arg.toNat) ++ "\n".toList)
      restored := some file }
  | none =>
    { state
      response := snprintf responseLen ("Failed to restore file ".toList ++ filename ++
        " to sample ".toList ++ decimalInt arg ++ "\n".toList)
      restored := none }

/-- `process_command`; `none` if the run is not defined. -/
def processCommand (cmd : Command) (state : MonitorState) : Option Outcome :=
  match cmd.type with
  | .showDiff | .showKDiffs =>
      (processShow outside.toDiffFiles responseLen cmd state.currentSample).map fun response =>
        { state, response, restored := none }
  | .setPid => some (setPid outside responseLen cmd.arg state)
  | .setPeriod => some (setPeriod responseLen cmd.arg state)
  | .status => some (status responseLen state)
  | .restore => some (restore outside responseLen cmd.filename cmd.arg state)
  | .unknown =>
      some { state, response := snprintf responseLen "Unknown command\n".toList, restored := none }

end

/-! ## The two decoders -/

/-- What `run_interactive` makes of a line. -/
inductive Typed where
  | quit
  | sample
  | restoreUsage
  | unknown
  | command (cmd : Command)

/-- The line that `fgets` read, as a string without its newline. -/
def chomp (buffer : Text) : Text :=
  let input := ofBuffer buffer
  if input.getLast? = some '\n' then input.dropLast else input

/-- How `run_interactive` decodes a line into `cmd`. -/
def decodeInput (cmd : Command) (input : Text) : Typed :=
  if input = "quit".toList ∨ input = "exit".toList then .quit
  else if cmdShowDiff <+: input then .command { cmd with type := .showDiff }
  else if cmdShowKDiffs <+: input then
    .command { cmd with
      type := .showKDiffs, arg := scanArg cmd.arg (input.drop cmdShowKDiffs.length) }
  else if cmdSetPid <+: input then
    .command { cmd with type := .setPid, arg := scanArg cmd.arg (input.drop cmdSetPid.length) }
  else if cmdSetPeriod <+: input then
    .command { cmd with
      type := .setPeriod, arg := scanArg cmd.arg (input.drop cmdSetPeriod.length) }
  else if input = cmdStatus then .command { cmd with type := .status }
  else if input = [] then .sample
  else if cmdRestore <+: input then
    match scanRestore (input.drop cmdRestore.length) with
    | some (filename, sample) =>
        .command { type := .restore, arg := sample, filename := filename.take (maxPathLen - 1) }
    | none => .restoreUsage
  else .unknown

/-- Where a line comes from. -/
inductive Source where
  | fifo
  | terminal
  deriving DecidableEq

/-- The string that is decoded. -/
def Source.line : Source → Text → Text
  | .fifo, buffer => ofBuffer buffer
  | .terminal, buffer => chomp buffer

/-- What is done for a line. -/
inductive Reaction where
  | quit
  /-- A sample is taken. -/
  | sample
  /-- A text is printed, and that is all. -/
  | print (text : Text)
  /-- `process_command` is called. -/
  | process (outcome : Option Outcome)

/-- The reaction to the bytes of a line, if `cmd` holds `cmd` before. -/
def react (source : Source) (outside : Outside) (cmd : Command) (state : MonitorState)
    (buffer : Text) : Reaction :=
  match source with
  | .fifo => .process (processCommand outside maxResponseLen (decodeCommand cmd buffer) state)
  | .terminal =>
    match decodeInput cmd (chomp buffer) with
    | .quit => .quit
    | .sample => .sample
    | .restoreUsage => .print "Usage: restore <filename> <sample_number>\n".toList
    | .unknown => .print ("Unknown command: ".toList ++ chomp buffer ++ "\n".toList)
    | .command cmd => .process (processCommand outside maxResponseLen cmd state)

/-! ## What the reaction depends on -/

/-- The commands that take a number. -/
def numbered : List (Text × CommandType) :=
  [(cmdShowKDiffs, .showKDiffs), (cmdSetPid, .setPid), (cmdSetPeriod, .setPeriod)]

/-- The line is a command without the number that it takes, and the number matters. -/
def ActsOnOldArg (source : Source) (state : MonitorState) (buffer : Text) : Prop :=
  ∃ x ∈ numbered, x.1 <+: source.line buffer ∧
    scanInt ((source.line buffer).drop x.1.length) = none ∧
    ¬ (x.2 = .showKDiffs ∧ ((state.currentSample : ℤ) ≤ 1 ∨ (state.currentSample : ℤ) = intMax))

instance (source : Source) (state : MonitorState) (buffer : Text) :
    Decidable (ActsOnOldArg source state buffer) :=
  inferInstanceAs (Decidable (∃ x ∈ numbered, _))

variable {source : Source} {outside : Outside} {state : MonitorState} {buffer name name' : Text}
  {x : Text × CommandType}

/-- A line starts with one of two names if neither is the start of the other. -/
theorem not_prefix (h : name <+: buffer) (hname : ¬ name <+: name') (hname' : ¬ name' <+: name) :
    ¬ name' <+: buffer := by
  intro h'
  rcases List.prefix_or_prefix_of_prefix h h' with hle | hle
  · exact hname hle
  · exact hname' hle

/-- A command that takes a number is decoded as such. -/
theorem decodeCommand_numbered (hx : x ∈ numbered) (hstarts : x.1 <+: ofBuffer buffer)
    (cmd : Command) :
    decodeCommand cmd buffer =
      { cmd with type := x.2, arg := scanArg cmd.arg ((ofBuffer buffer).drop x.1.length) } := by
  have hother : ∀ {name : Text}, ¬ name <+: x.1 → ¬ x.1 <+: name → ¬ name <+: ofBuffer buffer :=
    fun h h' => not_prefix hstarts h' h
  rw [decodeCommand]
  simp only [numbered, List.mem_cons, List.not_mem_nil, or_false] at hx
  rcases hx with rfl | rfl | rfl
  · rw [if_neg (hother (by decide) (by decide)), if_pos hstarts]
  · rw [if_neg (hother (by decide) (by decide)), if_neg (hother (by decide) (by decide)),
      if_pos hstarts]
  · rw [if_neg (hother (by decide) (by decide)), if_neg (hother (by decide) (by decide)),
      if_neg (hother (by decide) (by decide)), if_pos hstarts]

theorem decodeInput_numbered (hx : x ∈ numbered) (hstarts : x.1 <+: buffer) (cmd : Command) :
    decodeInput cmd buffer =
      .command { cmd with type := x.2, arg := scanArg cmd.arg (buffer.drop x.1.length) } := by
  have hother : ∀ {name : Text}, ¬ name <+: x.1 → ¬ x.1 <+: name → ¬ name <+: buffer :=
    fun h h' => not_prefix hstarts h' h
  have hword : ¬ x.1 <+: "quit".toList → ¬ x.1 <+: "exit".toList →
      ¬ (buffer = "quit".toList ∨ buffer = "exit".toList) := by
    rintro hquit hexit (rfl | rfl)
    · exact hquit hstarts
    · exact hexit hstarts
  rw [decodeInput]
  simp only [numbered, List.mem_cons, List.not_mem_nil, or_false] at hx
  rcases hx with rfl | rfl | rfl
  · rw [if_neg (hword (by decide) (by decide)), if_neg (hother (by decide) (by decide)),
      if_pos hstarts]
  · rw [if_neg (hword (by decide) (by decide)), if_neg (hother (by decide) (by decide)),
      if_neg (hother (by decide) (by decide)), if_pos hstarts]
  · rw [if_neg (hword (by decide) (by decide)), if_neg (hother (by decide) (by decide)),
      if_neg (hother (by decide) (by decide)), if_neg (hother (by decide) (by decide)),
      if_pos hstarts]

theorem react_numbered (hx : x ∈ numbered) (hstarts : x.1 <+: source.line buffer)
    (cmd : Command) :
    react source outside cmd state buffer = .process (processCommand outside maxResponseLen
      { cmd with type := x.2, arg := scanArg cmd.arg ((source.line buffer).drop x.1.length) }
      state) := by
  cases source with
  | fifo => rw [react, decodeCommand_numbered hx hstarts, Source.line]
  | terminal =>
    rw [Source.line] at hstarts
    rw [react, decodeInput_numbered hx hstarts, Source.line]

/-- Other commands do not read what was in the variable. -/
theorem react_other (hother : ∀ x ∈ numbered, ¬ x.1 <+: source.line buffer)
    (cmd₁ cmd₂ : Command) :
    react source outside cmd₁ state buffer = react source outside cmd₂ state buffer := by
  have hk := hother (cmdShowKDiffs, .showKDiffs) (by simp [numbered])
  have hpid := hother (cmdSetPid, .setPid) (by simp [numbered])
  have hperiod := hother (cmdSetPeriod, .setPeriod) (by simp [numbered])
  cases source with
  | fifo =>
    rw [Source.line] at hk hpid hperiod
    simp only [react, decodeCommand, if_neg hk, if_neg hpid, if_neg hperiod]
    by_cases hdiff : cmdShowDiff <+: ofBuffer buffer
    · rw [if_pos hdiff, if_pos hdiff]
      rfl
    rw [if_neg hdiff, if_neg hdiff]
    by_cases hstatus : cmdStatus <+: ofBuffer buffer
    · rw [if_pos hstatus, if_pos hstatus]
      rfl
    rw [if_neg hstatus, if_neg hstatus]
    by_cases hrestore : cmdRestore <+: ofBuffer buffer
    · rw [if_pos hrestore, if_pos hrestore]
      cases scanRestore ((ofBuffer buffer).drop cmdRestore.length) <;> rfl
    · rw [if_neg hrestore, if_neg hrestore]
      rfl
  | terminal =>
    rw [Source.line] at hk hpid hperiod
    simp only [react, decodeInput, if_neg hk, if_neg hpid, if_neg hperiod]
    by_cases hquit : chomp buffer = "quit".toList ∨ chomp buffer = "exit".toList
    · rw [if_pos hquit, if_pos hquit]
    rw [if_neg hquit, if_neg hquit]
    by_cases hdiff : cmdShowDiff <+: chomp buffer
    · rw [if_pos hdiff, if_pos hdiff]
      rfl
    rw [if_neg hdiff, if_neg hdiff]
    by_cases hstatus : chomp buffer = cmdStatus
    · rw [if_pos hstatus, if_pos hstatus]
      rfl
    rw [if_neg hstatus, if_neg hstatus]

/-! ## When the number matters -/

/-- Two texts that start alike and then differ stay different where they are cut behind that. -/
theorem take_ne_of_append {l rest rest' : Text} {c d : Char} {n : ℕ} (hc : c ≠ d)
    (hn : l.length < n) :
    (l ++ c :: rest).take n ≠ (l ++ d :: rest').take n := by
  intro heq
  have hget := congrArg (·[l.length]?) heq
  simp only [List.getElem?_take_of_lt hn, List.getElem?_append_right le_rfl, Nat.sub_self,
    List.getElem?_cons_zero, Option.some.injEq] at hget
  exact hc hget

/-- `show_k_diffs` with two numbers for which it goes back as far. -/
theorem showKDiffs_congr {diffs : DiffFiles} {responseLen : ℕ} {currentSample a b : ℤ}
    (h : currentSample ≤ 1) :
    showKDiffs diffs responseLen currentSample a =
      showKDiffs diffs responseLen currentSample b := by
  -- with at most one sample every number means all of them
  have hk : ∀ arg, (if arg ≤ 0 ∨ currentSample < arg then currentSample else arg) =
      currentSample := by
    intro arg
    split <;> omega
  rw [showKDiffs, showKDiffs, hk, hk]

/-- The number of samples stands behind a fixed text. -/
theorem showKDiffsText_eq (diffs : DiffFiles) (currentSample arg : ℤ) :
    ∃ rest, showKDiffsText diffs currentSample arg =
      "Diffs for last ".toList ++ (decimalInt (samplesShown currentSample arg) ++ rest) := by
  have hflatten : ∀ a b c d : Text, [a, b, c].flatten ++ d = a ++ (b ++ (c ++ d)) := by simp
  exact ⟨_, hflatten _ _ _ _⟩

/-- `show_k_diffs 1` and `show_k_diffs 2` differ as soon as there are two samples. -/
theorem showKDiffs_ne (diffs : DiffFiles) {currentSample : ℤ} (htwo : 2 ≤ currentSample)
    (hmax : currentSample < intMax) :
    showKDiffs diffs maxResponseLen currentSample 1 ≠
      showKDiffs diffs maxResponseLen currentSample 2 := by
  have hint : IsInt currentSample := ⟨by omega, hmax.le⟩
  have hlen : 1 ≤ maxResponseLen := by decide
  have hone : samplesShown currentSample 1 = 1 := if_pos ⟨le_rfl, by omega⟩
  have hshown : samplesShown currentSample 2 = 2 := if_pos ⟨by decide, htwo⟩
  obtain ⟨rest, htext⟩ := showKDiffsText_eq diffs currentSample 1
  obtain ⟨rest', htext'⟩ := showKDiffsText_eq diffs currentSample 2
  rw [hone] at htext
  rw [hshown] at htext'
  rw [showKDiffs_eq hlen diffs hint hmax, showKDiffs_eq hlen diffs hint hmax, htext, htext']
  intro heq
  exact take_ne_of_append (c := '1') (d := '2') (by decide) (by decide) (Option.some.inj heq)

/-- The number of `set_pid` shows in the reply. -/
theorem setPid_ne (outside : Outside) (state : MonitorState) :
    (setPid outside maxResponseLen 1 state).response ≠
      (setPid outside maxResponseLen 2 state).response := by
  have hassoc : ∀ a b c d e : Text, a ++ b ++ c ++ d ++ e = a ++ (b ++ (c ++ d ++ e)) := by simp
  have hassoc' : ∀ a b c : Text, a ++ b ++ c = a ++ (b ++ c) := by simp
  rw [setPid, setPid]
  -- the reply names the number, or says whether the process was found
  cases outside.processCwd 1 with
  | none =>
    cases outside.processCwd 2 with
    | none =>
      dsimp only
      rw [hassoc', hassoc']
      exact take_ne_of_append (c := '1') (d := '2') (by decide) (by decide)
    | some cwd' =>
      exact take_ne_of_append (l := []) (c := 'F') (d := 'P') (by decide) (by decide)
  | some cwd =>
    cases outside.processCwd 2 with
    | none =>
      exact take_ne_of_append (l := []) (c := 'P') (d := 'F') (by decide) (by decide)
    | some cwd' =>
      dsimp only
      rw [hassoc, hassoc _ _ _ cwd' _]
      exact take_ne_of_append (c := '1') (d := '2') (by decide) (by decide)

/-- The number of `set_period` becomes the period. -/
theorem setPeriod_ne (state : MonitorState) :
    (setPeriod maxResponseLen 1 state).state ≠ (setPeriod maxResponseLen 2 state).state := by
  rw [setPeriod, if_pos (by decide), setPeriod, if_pos (by decide)]
  intro heq
  exact absurd (congrArg MonitorState.samplePeriodMs heq) (by decide : (1 : ℤ) ≠ 2)

/-- What a command does depends on its number, unless it is a `show_k_diffs` for which every number
is the same. -/
theorem processCommand_eq_iff (hx : x ∈ numbered) (hcurrent : (state.currentSample : ℤ) ≤ intMax) :
    (∀ cmd₁ cmd₂ : Command,
      processCommand outside maxResponseLen { cmd₁ with type := x.2 } state =
        processCommand outside maxResponseLen { cmd₂ with type := x.2 } state) ↔
      x.2 = .showKDiffs ∧
        ((state.currentSample : ℤ) ≤ 1 ∨ (state.currentSample : ℤ) = intMax) := by
  -- two commands with the numbers 1 and 2
  have hnumbers : ∀ type, (∀ cmd₁ cmd₂ : Command,
      processCommand outside maxResponseLen { cmd₁ with type } state =
        processCommand outside maxResponseLen { cmd₂ with type } state) →
      processCommand outside maxResponseLen { type, arg := 1, filename := [] } state =
        processCommand outside maxResponseLen { type, arg := 2, filename := [] } state :=
    fun type h => h ⟨type, 1, []⟩ ⟨type, 2, []⟩
  simp only [numbered, List.mem_cons, List.not_mem_nil, or_false] at hx
  rcases hx with rfl | rfl | rfl
  · constructor
    · intro h
      refine ⟨rfl, ?_⟩
      -- with two samples the numbers 1 and 2 show different diffs
      by_contra hmany
      rw [not_or, not_le] at hmany
      have hshow := showKDiffs_ne outside.toDiffFiles hmany.1
        (lt_of_le_of_ne hcurrent hmany.2)
      have heq := hnumbers _ h
      simp only [processCommand, processShow] at heq
      refine hshow (Option.map_injective ?_ heq)
      intro r r' hr
      exact congrArg Outcome.response hr
    · rintro ⟨-, hfew⟩ cmd₁ cmd₂
      simp only [processCommand, processShow]
      congr 1
      rcases hfew with hone | hmax
      · exact showKDiffs_congr hone
      · rw [hmax, showKDiffs_intMax (by decide), showKDiffs_intMax (by decide)]
  · constructor
    · intro h
      have heq := hnumbers _ h
      simp only [processCommand, Option.some.injEq] at heq
      exact absurd (congrArg Outcome.response heq) (setPid_ne outside state)
    · rintro ⟨htype, -⟩
      cases htype
  · constructor
    · intro h
      have heq := hnumbers _ h
      simp only [processCommand, Option.some.injEq] at heq
      exact absurd (congrArg Outcome.state heq) (setPeriod_ne state)
    · rintro ⟨htype, -⟩
      cases htype

/-- A command with its number does not read what was in the variable. -/
theorem processCommand_congr (hx : x ∈ numbered) (arg : ℤ) (cmd₁ cmd₂ : Command) :
    processCommand outside maxResponseLen { cmd₁ with type := x.2, arg } state =
      processCommand outside maxResponseLen { cmd₂ with type := x.2, arg } state := by
  simp only [numbered, List.mem_cons, List.not_mem_nil, or_false] at hx
  rcases hx with rfl | rfl | rfl <;> rfl

/-- A line starts with at most one of the names. -/
theorem numbered_unique {y : Text × CommandType} (hx : x ∈ numbered) (hy : y ∈ numbered)
    (hstarts : x.1 <+: buffer) (hstarts' : y.1 <+: buffer) : x = y := by
  have hdistinct : ∀ x ∈ numbered, ∀ y ∈ numbered, x.1 <+: y.1 → x = y := by decide
  rcases List.prefix_or_prefix_of_prefix hstarts hstarts' with h | h
  · exact hdistinct x hx y hy h
  · exact (hdistinct y hy x hx h).symm

/-- What is done for a line, from the FIFO or from the terminal, does not depend on what the
variable held before, if and only if the line does not lack a number that matters. -/
theorem react_eq_iff (hcurrent : (state.currentSample : ℤ) ≤ intMax) (source : Source)
    (outside : Outside) (buffer : Text) :
    (∀ cmd₁ cmd₂ : Command,
      react source outside cmd₁ state buffer = react source outside cmd₂ state buffer) ↔
      ¬ ActsOnOldArg source state buffer := by
  -- a line with such a name reads its number, every other line does not look at it
  by_cases hsome : ∃ x ∈ numbered, x.1 <+: source.line buffer
  · obtain ⟨x, hx, hstarts⟩ := hsome
    have hacts : ActsOnOldArg source state buffer ↔
        scanInt ((source.line buffer).drop x.1.length) = none ∧
          ¬ (x.2 = .showKDiffs ∧
            ((state.currentSample : ℤ) ≤ 1 ∨ (state.currentSample : ℤ) = intMax)) := by
      constructor
      · rintro ⟨y, hy, hstarts', hscan⟩
        rwa [numbered_unique hx hy hstarts hstarts']
      · rintro ⟨hscan, hmatters⟩
        exact ⟨x, hx, hstarts, hscan, hmatters⟩
    rw [hacts]
    simp only [react_numbered hx hstarts, Reaction.process.injEq, scanArg]
    cases scanInt ((source.line buffer).drop x.1.length) with
    | some found =>
      exact iff_of_true (processCommand_congr hx found.1) fun h => Option.some_ne_none _ h.1
    | none =>
      simp only [true_and, not_not]
      exact processCommand_eq_iff hx hcurrent
  · push Not at hsome
    refine iff_of_true (react_other hsome) ?_
    rintro ⟨x, hx, hstarts, -⟩
    exact hsome x hx hstarts

/-- Nothing exists outside of the state. -/
def nothingOutside : Outside where
  toDiffFiles := noDiffs
  processCwd _ := none
  tools := gnuTools
  backups _ := none

/-- `react_eq_iff` for a `set_period` with its number. -/
theorem react_setPeriod :
    react .fifo nothingOutside ⟨.unknown, 1, []⟩ (.fresh ['m'] 1 3 []) setPeriodLine.bytes =
      react .fifo nothingOutside ⟨.unknown, 2, []⟩ (.fresh ['m'] 1 3 []) setPeriodLine.bytes :=
  (react_eq_iff (by decide) .fifo nothingOutside setPeriodLine.bytes).mpr (by decide) _ _

/-- The period that a reaction leaves. -/
def Reaction.period : Reaction → Option ℤ
  | .process (some outcome) => some outcome.state.samplePeriodMs
  | _ => none

/-- A `set_period` without a number sets the period that is left from before. -/
theorem react_setPeriod_old :
    ¬ ∀ cmd₁ cmd₂ : Command,
      react .fifo nothingOutside cmd₁ (.fresh ['m'] 1 3 []) (cmdSetPeriod ++ ['\n']) =
        react .fifo nothingOutside cmd₂ (.fresh ['m'] 1 3 []) (cmdSetPeriod ++ ['\n']) := by
  intro h
  have hperiod := congrArg Reaction.period (h ⟨.unknown, 1, []⟩ ⟨.unknown, 2, []⟩)
  exact absurd hperiod (by decide)

end MonitorDaemon
