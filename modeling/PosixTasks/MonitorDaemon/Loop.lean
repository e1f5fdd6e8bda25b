import PosixTasks.MonitorDaemon.EventBuffer
import PosixTasks.MonitorDaemon.Process

/-!
# The loops of the daemon

`run_daemon` and `run_interactive` from the full backup at start-up on. An iteration of either
reads the events and waits; in between the daemon polls its FIFO and takes a sample if there is a
reason to, while the interactive loop takes one for the timeout or for an empty line. What a step
finds in the file system may be anything. No allocation fails, and a run ends where the code is
not defined.

## Main results

* `processBuffer_frame`, `takeSample_spec`, `carryOut_spec`: what the parts of an iteration do to
  the counter of the samples, to `first_backup_done` and to the period.
-/

namespace MonitorDaemon

open CString

/-! ## Times -/

/-- `struct timespec`. -/
structure Timespec where
  tvSec : ℤ
  tvNsec : ℤ
  deriving DecidableEq

/-- `sleep_time` for a period in milliseconds. -/
def Timespec.ofPeriod (samplePeriodMs : ℤ) : Timespec :=
  { tvSec := samplePeriodMs.tdiv 1000, tvNsec := samplePeriodMs.tmod 1000 * 1000000 }

/-- `struct timeval`. -/
structure Timeval where
  tvSec : ℤ
  tvUsec : ℤ
  deriving DecidableEq

/-- The `timeout` of `select`. -/
def Timespec.timeout (sleepTime : Timespec) : Timeval :=
  { tvSec := sleepTime.tvSec, tvUsec := sleepTime.tvNsec.tdiv 1000 }

/-- The nanoseconds for which `nanosleep` or `select` waits. -/
def Source.waitNs (source : Source) (sleepTime : Timespec) : ℤ :=
  match source with
  | .fifo => sleepTime.tvSec * 1000000000 + sleepTime.tvNsec
  | .terminal => (sleepTime.timeout.tvSec * 1000000 + sleepTime.timeout.tvUsec) * 1000

/-- Both waits last the period that `sleep_time` is computed from. -/
theorem waitNs_ofPeriod (source : Source) (samplePeriodMs : ℤ) :
    source.waitNs (.ofPeriod samplePeriodMs) = samplePeriodMs * 1000000 := by
  have hsplit := Int.mul_tdiv_add_tmod samplePeriodMs 1000
  cases source with
  | fifo =>
    simp only [Source.waitNs, Timespec.ofPeriod]
    omega
  | terminal =>
    have husec : (samplePeriodMs.tmod 1000 * 1000000).tdiv 1000 =
        samplePeriodMs.tmod 1000 * 1000 := by
      rw [show (1000000 : ℤ) = 1000 * 1000 by norm_num, ← mul_assoc]
      exact Int.mul_tdiv_cancel _ (by norm_num)
    simp only [Source.waitNs, Timespec.timeout, Timespec.ofPeriod, husec]
    omega

/-! ## The state of a loop -/

/-- What a step of a loop finds outside of the program. -/
structure Surroundings extends Outside where
  /-- `is_text_file`. -/
  isText : Text → Bool
  /-- What `add_inotify_watch_recursive` finds. -/
  scan : List WatchInfo → Text → Option (ℤ × DirScan)
  /-- What `stat` finds. -/
  stat : Text → Option FileData
  /-- `search_files_in_dir`. -/
  found : Text → List (Option Text)
  /-- The bytes behind a path that fills its buffer. -/
  unset : Text → Text
  now : ℕ
  /-- `ensure_backup_dir` returns 0. -/
  ensured : Bool

/-- What comes next in an iteration. -/
inductive Phase where
  | events
  | command
  | sample
  | wait
  | answer
  | ended
  deriving DecidableEq

/-- The state of `run_daemon` or `run_interactive`. -/
structure LoopState where
  monitor : MonitorState
  backups : Backups
  sleepTime : Timespec
  phase : Phase
  /-- History: a sample was taken since start-up and since the last `set_pid` that succeeded. -/
  sampled : Bool
  /-- History: an iteration of the daemon has decided about a sample since start-up and since the
  last `set_pid` that succeeded. -/
  decided : Bool
  /-- History: a `set_pid` has succeeded. -/
  pidSet : Bool
  /-- History: the period that was accepted last. -/
  accepted : Option ℤ

/-- The loops after `create_full_backup` and the computation of `sleep_time`. -/
def LoopState.start (around : Surroundings) (monitor : MonitorState) (backups : Backups) :
    Option LoopState :=
  let start (monitor : MonitorState) (backups : Backups) : LoopState :=
    { monitor, backups, sleepTime := .ofPeriod monitor.samplePeriodMs, phase := .events,
      sampled := false, decided := false, pidSet := false, accepted := none }
  if around.ensured then
    (createFullBackup around.stat (around.found monitor.monitoredDir) monitor backups).map
      fun result => start result.1 result.2
  else some (start monitor backups)

/-! ## The steps of an iteration -/

/-- `get_process_cwd` succeeds for a `set_pid`. -/
def Command.SetsPid (cmd : Command) (outside : Outside) : Prop :=
  cmd.type = .setPid ∧ (outside.processCwd cmd.arg).isSome

instance (cmd : Command) (outside : Outside) : Decidable (cmd.SetsPid outside) :=
  inferInstanceAs (Decidable (_ ∧ _))

/-- The period of a `set_period` that is accepted. -/
def Command.acceptedPeriod (cmd : Command) : Option ℤ :=
  if cmd.type = .setPeriod ∧ 0 < cmd.arg ∧ cmd.arg < periodLimit then some cmd.arg else none

namespace LoopState

/-- `process_command`. -/
def carryOut (s : LoopState) (around : Surroundings) (cmd : Command) : Option LoopState :=
  (processCommand { around.toOutside with backups := s.backups } maxResponseLen cmd
      s.monitor).map fun outcome =>
    { s with
      monitor := outcome.state
      sampled := s.sampled ∧ ¬ cmd.SetsPid around.toOutside
      decided := s.decided ∧ ¬ cmd.SetsPid around.toOutside
      pidSet := s.pidSet ∨ cmd.SetsPid around.toOutside
      accepted := cmd.acceptedPeriod.or s.accepted }

/-- `current_sample++`, and then `create_incremental_backup`. -/
def takeSample (s : LoopState) (around : Surroundings) : Option LoopState :=
  if (s.monitor.currentSample : ℤ) < intMax then
    let monitor := { s.monitor with currentSample := s.monitor.currentSample + 1 }
    if around.ensured then
      (createIncrementalBackup around.stat around.tools around.unset
          (around.found monitor.monitoredDir) around.now monitor s.backups).map fun result =>
        { s with monitor := result.2.1, backups := result.2.2, sampled := true }
    else some { s with monitor, sampled := true }
  else none

/-- The daemon takes a sample if there are changes, or if there was no full backup. -/
def sampleIfNeeded (s : LoopState) (around : Surroundings) : Option LoopState :=
  if s.monitor.changedFilesQueue ≠ [] ∨ s.monitor.firstBackupDone = false then
    s.takeSample around
  else some s

end LoopState

/-- How the `select` of `run_interactive` ends. -/
inductive Answer where
  | timeout
  /-- `fgets` reads a line; `cmd` is what the variable `cmd` happens to hold. -/
  | line (cmd : Command) (buffer : Text)
  /-- An event, a signal, or the end of the input. -/
  | other

inductive LoopAction where
  /-- `process_inotify_events`, where `read` puts these bytes into the buffer. -/
  | events (around : Surroundings) (buffer : Text)
  /-- `read_command` with the bytes that it reads, and `process_command` if there are any. -/
  | command (around : Surroundings) (cmd : Command) (buffer : Text)
  /-- The daemon decides about a sample. -/
  | sample (around : Surroundings)
  /-- `nanosleep` or `select`. -/
  | wait
  /-- What `run_interactive` does when `select` returns. -/
  | answer (around : Surroundings) (answer : Answer)

/-- What `run_interactive` does when `select` returns. -/
def LoopState.answer (s : LoopState) (around : Surroundings) : Answer → Option LoopState
  | .timeout => s.takeSample around
  | .line cmd buffer =>
    match decodeInput cmd (chomp buffer) with
    | .quit => some { s with phase := .ended }
    | .sample => s.takeSample around
    | .restoreUsage | .unknown => some s
    | .command cmd => s.carryOut around cmd
  | .other => some s

/-- One step of `run_daemon` or `run_interactive`. -/
def loopStep (source : Source) (s : LoopState) (a : LoopAction) : Option LoopState :=
  match source, a, s.phase with
  | _, .events around buffer, .events =>
      some { s with
        monitor := (processBuffer around.isText (addInotifyWatchRecursive around.scan) s.monitor
          buffer 0).1
        phase := match source with
          | .fifo => .command
          | .terminal => .wait }
  | .fifo, .command around cmd buffer, .command =>
      if buffer = [] then some { s with phase := .sample }
      else { s with phase := .sample }.carryOut around (decodeCommand cmd buffer)
  | .fifo, .sample around, .sample =>
      { s with phase := .wait, decided := true }.sampleIfNeeded around
  | .fifo, .wait, .wait => some { s with phase := .events }
  | .terminal, .wait, .wait => some { s with phase := .answer }
  | .terminal, .answer around answer, .answer => { s with phase := .events }.answer around answer
  | _, _, _ => none

/-! ## What the parts of an iteration change -/

/-- The counter of the samples, `first_backup_done` and the period are as before. -/
structure SameSettings (monitor monitor' : MonitorState) : Prop where
  currentSample : monitor'.currentSample = monitor.currentSample
  firstBackupDone : monitor'.firstBackupDone = monitor.firstBackupDone
  samplePeriodMs : monitor'.samplePeriodMs = monitor.samplePeriodMs

theorem SameSettings.refl (monitor : MonitorState) : SameSettings monitor monitor :=
  ⟨rfl, rfl, rfl⟩

theorem SameSettings.trans {m₁ m₂ m₃ : MonitorState} (h : SameSettings m₁ m₂)
    (h' : SameSettings m₂ m₃) : SameSettings m₁ m₃ :=
  ⟨h'.currentSample.trans h.currentSample, h'.firstBackupDone.trans h.firstBackupDone,
    h'.samplePeriodMs.trans h.samplePeriodMs⟩

theorem applyEffect_frame (scan : List WatchInfo → Text → Option (ℤ × DirScan))
    (monitor : MonitorState) (effect : EventEffect) :
    SameSettings monitor (applyEffect (addInotifyWatchRecursive scan) monitor effect) := by
  cases effect with
  | skip => exact .refl monitor
  | addWatch path =>
    rw [applyEffect, addInotifyWatchRecursive]
    split
    · exact ⟨rfl, rfl, rfl⟩
    · exact .refl monitor
  | enqueue path => exact ⟨rfl, rfl, rfl⟩

/-- The events change the queue and the watch list alone. -/
theorem processBuffer_frame (isText : Text → Bool)
    (scan : List WatchInfo → Text → Option (ℤ × DirScan)) (monitor : MonitorState) (buffer : Text)
    (i : ℕ) :
    SameSettings monitor
      (processBuffer isText (addInotifyWatchRecursive scan) monitor buffer i).1 := by
  induction monitor, i using processBuffer.induct isText (addInotifyWatchRecursive scan) buffer with
  | case1 monitor i hi next ih =>
    rw [processBuffer, if_pos hi]
    exact (applyEffect_frame scan monitor next.1).trans ih
  | case2 monitor i hi =>
    rw [processBuffer, if_neg hi]
    exact .refl monitor

theorem findChangedFiles_settings {unset : Text → Text} {stat : Text → Option FileData}
    {current : List (Option Text)} {monitor monitor' : MonitorState} {changed : List Text}
    (h : findChangedFiles unset stat current monitor = some (changed, monitor')) :
    SameSettings monitor monitor' := by
  unfold findChangedFiles at h
  split at h
  · cases h
    exact ⟨rfl, rfl, rfl⟩
  · split at h
    · cases h
      exact ⟨rfl, rfl, rfl⟩
    · cases h

variable {s s' : LoopState} {around : Surroundings} {cmd : Command}

/-- A sample counts one up, whether it can be stored or not. -/
theorem takeSample_spec (h : s.takeSample around = some s') :
    ∃ monitor backups, s' = { s with monitor, backups, sampled := true } ∧
      monitor.currentSample = s.monitor.currentSample + 1 ∧
      monitor.firstBackupDone = s.monitor.firstBackupDone ∧
      monitor.samplePeriodMs = s.monitor.samplePeriodMs := by
  simp only [LoopState.takeSample] at h
  split at h
  · split at h
    · rw [Option.map_eq_some_iff] at h
      obtain ⟨⟨changed, monitor, backups⟩, hbackup, rfl⟩ := h
      rw [createIncrementalBackup] at hbackup
      split at hbackup
      · cases hbackup
      next changed' monitor' hfind =>
        cases hbackup
        have hsame := findChangedFiles_settings hfind
        exact ⟨_, _, rfl, hsame.currentSample, hsame.firstBackupDone, hsame.samplePeriodMs⟩
    · cases h
      exact ⟨_, _, rfl, rfl, rfl, rfl⟩
  · cases h

/-- A command changes the flag if it is a `set_pid` that succeeds, and the period if it is a
`set_period` that is accepted. -/
theorem processCommand_settings {outside : Outside} {responseLen : ℕ} {monitor : MonitorState}
    {outcome : Outcome} (h : processCommand outside responseLen cmd monitor = some outcome) :
    outcome.state.currentSample = monitor.currentSample ∧
      outcome.state.firstBackupDone = (monitor.firstBackupDone ∧ ¬ cmd.SetsPid outside : Bool) ∧
      outcome.state.samplePeriodMs = cmd.acceptedPeriod.getD monitor.samplePeriodMs := by
  have hpid : cmd.type ≠ .setPid → ¬ cmd.SetsPid outside := fun hne hsets => hne hsets.1
  have hperiod : cmd.type ≠ .setPeriod → cmd.acceptedPeriod = none :=
    fun hne => if_neg fun haccept => hne haccept.1
  -- the other commands leave the state as it is
  have hother : cmd.type ≠ .setPid → cmd.type ≠ .setPeriod → outcome.state = monitor →
      outcome.state.currentSample = monitor.currentSample ∧
        outcome.state.firstBackupDone = (monitor.firstBackupDone ∧ ¬ cmd.SetsPid outside : Bool) ∧
        outcome.state.samplePeriodMs = cmd.acceptedPeriod.getD monitor.samplePeriodMs := by
    intro hne hne' hstate
    simp [hstate, hpid hne, hperiod hne']
  rw [processCommand] at h
  cases htype : cmd.type <;> simp only [htype] at h
  case setPid =>
    rw [hperiod (by simp [htype])]
    cases hcwd : outside.processCwd cmd.arg with
    | none =>
      simp only [setPid, hcwd, Option.some.injEq] at h
      subst h
      simp [Command.SetsPid, hcwd]
    | some cwd =>
      simp only [setPid, hcwd, Option.some.injEq] at h
      subst h
      simp [Command.SetsPid, hcwd, htype]
  case setPeriod =>
    have hnot := hpid (by simp [htype])
    simp only [setPeriod, Option.some.injEq] at h
    subst h
    by_cases haccept : 0 < cmd.arg ∧ cmd.arg < periodLimit
    · simp [haccept, hnot, Command.acceptedPeriod, htype]
    · rw [if_neg haccept, Command.acceptedPeriod, if_neg fun h => haccept h.2]
      simp [hnot]
  case showDiff | showKDiffs =>
    refine hother (by simp [htype]) (by simp [htype]) ?_
    obtain ⟨response, -, rfl⟩ := Option.map_eq_some_iff.mp h
    rfl
  case status | unknown =>
    refine hother (by simp [htype]) (by simp [htype]) ?_
    cases h
    rfl
  case restore =>
    refine hother (by simp [htype]) (by simp [htype]) ?_
    cases h
    rw [restore]
    split <;> rfl

theorem carryOut_spec (h : s.carryOut around cmd = some s') :
    ∃ monitor,
      s' = { s with
        monitor
        sampled := s.sampled ∧ ¬ cmd.SetsPid around.toOutside
        decided := s.decided ∧ ¬ cmd.SetsPid around.toOutside
        pidSet := s.pidSet ∨ cmd.SetsPid around.toOutside
        accepted := cmd.acceptedPeriod.or s.accepted } ∧
      monitor.currentSample = s.monitor.currentSample ∧
      monitor.firstBackupDone =
        (s.monitor.firstBackupDone ∧ ¬ cmd.SetsPid around.toOutside : Bool) ∧
      monitor.samplePeriodMs = cmd.acceptedPeriod.getD s.monitor.samplePeriodMs := by
  obtain ⟨outcome, hprocess, rfl⟩ := Option.map_eq_some_iff.mp h
  have hsettings := processCommand_settings hprocess
  exact ⟨_, rfl, hsettings⟩

/-- The daemon counts up if a path is queued or the flag is not set. -/
theorem sampleIfNeeded_spec (h : s.sampleIfNeeded around = some s') :
    ∃ monitor backups sampled, s' = { s with monitor, backups, sampled } ∧
      (s.monitor.currentSample < monitor.currentSample ↔
        s.monitor.changedFilesQueue ≠ [] ∨ s.monitor.firstBackupDone = false) ∧
      (s.monitor.firstBackupDone = false → sampled = true) ∧
      monitor.firstBackupDone = s.monitor.firstBackupDone ∧
      monitor.samplePeriodMs = s.monitor.samplePeriodMs := by
  rw [LoopState.sampleIfNeeded] at h
  split at h
  next hneeded =>
    obtain ⟨monitor, backups, rfl, hcurrent, hsame⟩ := takeSample_spec h
    exact ⟨monitor, backups, true, rfl, iff_of_true (by omega) hneeded, fun _ => rfl, hsame⟩
  next hneeded =>
    cases h
    exact ⟨_, _, _, rfl, iff_of_false (lt_irrefl _) hneeded,
      fun hdone => absurd (Or.inr hdone) hneeded, rfl, rfl⟩

/-- A step leaves the settings as they are, or it carries out a command, or it takes a sample. -/
theorem loopStep_cases {source : Source} {a : LoopAction} (h : loopStep source s a = some s') :
    (∃ monitor phase, SameSettings s.monitor monitor ∧ s' = { s with monitor, phase } ∧
      ∀ around, a ≠ .sample around) ∨
    (∃ around cmd phase, { s with phase }.carryOut around cmd = some s' ∧
      ∀ around, a ≠ .sample around) ∨
    (∃ around, a = .sample around ∧
      { s with phase := .wait, decided := true }.sampleIfNeeded around = some s') ∨
    (∃ around phase, source = .terminal ∧ { s with phase }.takeSample around = some s') := by
  -- most steps change where the loop is and nothing else
  have hphase : ∀ phase, (∀ around, a ≠ .sample around) → s' = { s with phase } →
      ∃ monitor phase, SameSettings s.monitor monitor ∧ s' = { s with monitor, phase } ∧
        ∀ around, a ≠ .sample around :=
    fun phase hnot heq => ⟨s.monitor, phase, .refl _, heq, hnot⟩
  unfold loopStep at h
  split at h
  next around buffer _ =>
    cases h
    exact Or.inl ⟨_, _, processBuffer_frame around.isText around.scan s.monitor buffer 0, rfl,
      by simp⟩
  next around cmd buffer _ =>
    split at h
    · cases h
      exact Or.inl (hphase _ (by simp) rfl)
    · exact Or.inr (Or.inl ⟨around, _, .sample, h, by simp⟩)
  next around _ => exact Or.inr (Or.inr (Or.inl ⟨around, rfl, h⟩))
  next =>
    cases h
    exact Or.inl (hphase _ (by simp) rfl)
  next =>
    cases h
    exact Or.inl (hphase _ (by simp) rfl)
  next around answer _ =>
    cases answer with
    | timeout => exact Or.inr (Or.inr (Or.inr ⟨around, .events, rfl, h⟩))
    | line cmd buffer =>
      simp only [LoopState.answer] at h
      split at h
      · cases h
        exact Or.inl (hphase _ (by simp) rfl)
      · exact Or.inr (Or.inr (Or.inr ⟨around, .events, rfl, h⟩))
      · cases h
        exact Or.inl (hphase _ (by simp) rfl)
      · cases h
        exact Or.inl (hphase _ (by simp) rfl)
      next cmd _ => exact Or.inr (Or.inl ⟨around, cmd, .events, h, by simp⟩)
    | other =>
      cases h
      exact Or.inl (hphase _ (by simp) rfl)
  next => cases h

/-! ## A quiet directory -/

/-- The monitored directory has these files, and nothing else is found. -/
def quietWith (files : List Text) : Surroundings where
  toOutside := nothingOutside
  isText _ := true
  scan _ _ := none
  stat _ := none
  found _ := files.map some
  unset _ := []
  now := 0
  ensured := true

/-- The daemon after start-up, with these files. -/
def quietStart (files : List Text) : Option LoopState :=
  LoopState.start (quietWith files) (.fresh ['m'] 1 3 []) fun _ => none

end MonitorDaemon
