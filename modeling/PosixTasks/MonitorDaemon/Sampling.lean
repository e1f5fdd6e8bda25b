import PosixTasks.Lib.Transition
import PosixTasks.MonitorDaemon.Loop

/-!
# When the daemon takes a sample

`run_daemon` takes a sample if a changed path is queued, and also as long as `first_backup_done`
is not set. This flag is set by `create_full_backup` at start-up alone, and only if that finds a
file; a `set_pid` that succeeds resets it for good.

## Main results

* `samplesOnlyChanges_iff_of_run`: no sample but the first one since start-up or a `set_pid` is
  taken without a change if and only if every iteration has a change, or is itself the first one,
  or follows a full backup and no `set_pid`.
-/

namespace MonitorDaemon

open CString Transition

/-- At start-up a full backup is taken: a file is found, and the directory for it can be made. -/
def Surroundings.TakesFullBackup (around : Surroundings) (monitoredDir : Text) : Prop :=
  around.ensured = true ∧ around.found monitoredDir ≠ []

/-- After the first sample since start-up and since the last `set_pid` that succeeded, a step
counts the samples up only if a changed path is queued. -/
def SamplesOnlyChanges (s : LoopState) (a : LoopAction) : Prop :=
  s.sampled = true → ∀ s', loopStep .fifo s a = some s' →
    s.monitor.currentSample < s'.monitor.currentSample → s.monitor.changedFilesQueue ≠ []

/-- The daemon has a reason to take a sample, or it takes none: a path is queued, this is the
first iteration since start-up or a `set_pid` that succeeded, or there was a full backup and no
`set_pid` since. -/
def HasReason (fullBackup : Prop) (s : LoopState) : LoopAction → Prop
  | .sample _ =>
      s.monitor.changedFilesQueue ≠ [] ∨ s.decided = false ∨ fullBackup ∧ s.pidSet = false
  | _ => True

/-- The flag tells whether there was a full backup and no `set_pid` since. Without it every
iteration has taken a sample. -/
structure FlagTells (fullBackup : Prop) (s : LoopState) : Prop where
  done : s.monitor.firstBackupDone = true ↔ fullBackup ∧ s.pidSet = false
  sampled : s.monitor.firstBackupDone = false → s.sampled = s.decided

/-! ## Start-up -/

/-- `create_full_backup` sets the flag if it finds a file, and changes nothing else that counts. -/
theorem createFullBackup_done {stat : Text → Option FileData} {current : List (Option Text)}
    {monitor monitor' : MonitorState} {backups backups' : Backups}
    (h : createFullBackup stat current monitor backups = some (monitor', backups')) :
    monitor'.firstBackupDone = true ↔ monitor.firstBackupDone = true ∨ current ≠ [] := by
  unfold createFullBackup at h
  split at h
  · cases h
  next hfound =>
    cases h
    -- without files the function returns before it sets the flag
    have hempty : current = [] := by
      cases current with
      | nil => rfl
      | cons element current =>
        cases element <;> simp [filesFound] at hfound
    simp [hempty]
  next found hfound hnonempty =>
    cases h
    have hsome : current ≠ [] := by
      rintro rfl
      cases hnonempty
      exact hfound rfl
    simp [hsome]

variable {around : Surroundings} {fullBackup : Prop} {s s' : LoopState}

theorem flagTells_start {monitoredDir : Text} {pid : ℤ} {fd : ℕ} {watchList : List WatchInfo}
    {backups : Backups}
    (h : LoopState.start around (.fresh monitoredDir pid fd watchList) backups = some s) :
    FlagTells (around.TakesFullBackup monitoredDir) s := by
  simp only [LoopState.start] at h
  split at h
  next hensured =>
    obtain ⟨⟨monitor, backups⟩, hbackup, rfl⟩ := Option.map_eq_some_iff.mp h
    refine ⟨?_, fun _ => rfl⟩
    rw [createFullBackup_done hbackup]
    simp [MonitorState.fresh, Surroundings.TakesFullBackup, hensured]
  next hensured =>
    cases h
    exact ⟨by simp [MonitorState.fresh, Surroundings.TakesFullBackup, hensured], fun _ => rfl⟩

/-! ## One step -/

theorem FlagTells.of_same (h : FlagTells fullBackup s) {monitor : MonitorState}
    (hsame : SameSettings s.monitor monitor) (phase : Phase) :
    FlagTells fullBackup { s with monitor, phase } :=
  ⟨by rw [hsame.firstBackupDone, h.done], by rw [hsame.firstBackupDone]; exact h.sampled⟩

/-- A `set_pid` that succeeds resets the flag and both histories. -/
theorem FlagTells.carryOut (h : FlagTells fullBackup s) {cmd : Command}
    (hcarry : s.carryOut around cmd = some s') : FlagTells fullBackup s' := by
  obtain ⟨monitor, rfl, -, hdone, -⟩ := carryOut_spec hcarry
  by_cases hsets : cmd.SetsPid around.toOutside
  · exact ⟨by simp [hdone, hsets], by simp [hsets]⟩
  · refine ⟨by simp [hdone, hsets, h.done], ?_⟩
    simpa [hdone, hsets] using h.sampled

theorem samplesOnlyChanges_iff {a : LoopAction} (hstep : loopStep .fifo s a = some s') :
    SamplesOnlyChanges s a ↔ (s.sampled = true →
      s.monitor.currentSample < s'.monitor.currentSample → s.monitor.changedFilesQueue ≠ []) := by
  simp [SamplesOnlyChanges, hstep]

/-- The flag goes on telling, and the step takes a needless sample exactly if it has no reason. -/
theorem loopStep_sampling {a : LoopAction} (h : FlagTells fullBackup s)
    (hstep : loopStep .fifo s a = some s') :
    FlagTells fullBackup s' ∧ (SamplesOnlyChanges s a ↔ HasReason fullBackup s a) := by
  rw [samplesOnlyChanges_iff hstep]
  have hkeeps : s'.monitor.currentSample = s.monitor.currentSample →
      (s.sampled = true → s.monitor.currentSample < s'.monitor.currentSample →
        s.monitor.changedFilesQueue ≠ []) :=
    fun heq _ hlt => absurd hlt (by omega)
  have hother : (∀ around, a ≠ .sample around) → HasReason fullBackup s a := by
    intro hnot
    cases a with
    | sample around => exact absurd rfl (hnot around)
    | _ => trivial
  rcases loopStep_cases hstep with ⟨monitor, phase, hsame, rfl, hnot⟩ |
    ⟨around, cmd, phase, hcarry, hnot⟩ | ⟨around, rfl, hsample⟩ | ⟨_, _, hsource, -⟩
  · exact ⟨h.of_same hsame phase, iff_of_true (hkeeps hsame.currentSample) (hother hnot)⟩
  · obtain ⟨monitor, heq, hcurrent, -⟩ := carryOut_spec hcarry
    refine ⟨(h.of_same (.refl _) phase).carryOut hcarry, iff_of_true (hkeeps ?_) (hother hnot)⟩
    rw [heq]
    exact hcurrent
  · obtain ⟨monitor, backups, sampled, rfl, hcounts, hsampled, hdone, -⟩ :=
      sampleIfNeeded_spec hsample
    refine ⟨⟨by rw [hdone]; exact h.done, ?_⟩, ?_⟩
    · rw [hdone]
      exact hsampled
    · rw [hcounts, HasReason, ← h.done]
      cases hflag : s.monitor.firstBackupDone with
      | true => simp
      | false =>
        -- an iteration since start-up or the last `set_pid` has taken a sample
        rw [h.sampled hflag]
        cases s.decided <;> simp
  · cases hsource

/-! ## Runs -/

/-- In every run of the daemon, samples beyond the first one since start-up or a `set_pid` are
taken for changes only, if and only if the daemon has a reason in every iteration. -/
theorem samplesOnlyChanges_iff_of_run {monitoredDir : Text} {pid : ℤ} {fd : ℕ}
    {watchList : List WatchInfo} {backups : Backups} {tr : List (LoopState × LoopAction)}
    {s₀ : LoopState}
    (hstart : LoopState.start around (.fresh monitoredDir pid fd watchList) backups = some s₀)
    (hrun : Run (loopStep .fifo) s₀ tr s) :
    StepsMeet SamplesOnlyChanges tr ↔
      StepsMeet (HasReason (around.TakesFullBackup monitoredDir)) tr := by
  refine hrun.stepsMeet_iff (flagTells_start hstart) ?_ ?_
  · intro t a u ht hstep
    exact (loopStep_sampling ht hstep).1
  · intro t a u ht hstep
    exact (loopStep_sampling ht hstep).2

/-! ### Quiet runs -/

/-- An iteration without events and commands, up to the decision about a sample. -/
def beforeSample (files : List Text) : List LoopAction :=
  [.events (quietWith files) [], .command (quietWith files) noCommand []]

/-- An iteration without events and commands. -/
def quietIteration (files : List Text) : List LoopAction :=
  beforeSample files ++ [.sample (quietWith files), .wait]

/-- `samplesOnlyChanges_iff_of_run` for two quiet iterations with a file. -/
theorem samplesOnlyChanges_quiet : ∃ s₀ tr s, quietStart [['m', '/', 'a']] = some s₀ ∧
    Run (loopStep .fifo) s₀ tr s ∧ tr.length = 8 ∧ StepsMeet SamplesOnlyChanges tr := by
  let actions := quietIteration [['m', '/', 'a']] ++ quietIteration [['m', '/', 'a']]
  obtain ⟨s₀, hstart, hexec⟩ : ∃ s₀, quietStart [['m', '/', 'a']] = some s₀ ∧
      (execute (loopStep .fifo) (fun s _ => ! s.pidSet) s₀ actions).isSome = true :=
    ⟨_, rfl, by decide +kernel⟩
  obtain ⟨s, hs⟩ := Option.isSome_iff_exists.mp hexec
  obtain ⟨tr, hrun, hactions, hnoPid⟩ := exists_run_of_execute hs
  have hlength : (tr.map Prod.snd).length = 8 := congrArg List.length hactions
  rw [List.length_map] at hlength
  refine ⟨s₀, tr, s, hstart, hrun, hlength, ?_⟩
  have hbackup : (quietWith [['m', '/', 'a']]).TakesFullBackup ['m'] := ⟨rfl, by simp [quietWith]⟩
  refine (samplesOnlyChanges_iff_of_run hstart hrun).mpr (hnoPid.mono fun t a ht => ?_)
  cases a with
  | sample around => exact Or.inr (Or.inr ⟨hbackup, by simpa using ht⟩)
  | _ => trivial

/-- In an empty directory the second quiet iteration takes a sample as well. -/
theorem not_samplesOnlyChanges_empty : ¬ ∀ s₀ tr s, quietStart [] = some s₀ →
    Run (loopStep .fifo) s₀ tr s → StepsMeet SamplesOnlyChanges tr := by
  intro h
  obtain ⟨s₀, hstart, hexec⟩ : ∃ s₀, quietStart [] = some s₀ ∧
      (execute (loopStep .fifo) (fun _ _ => true) s₀
        (quietIteration [] ++ beforeSample [])).any (fun s =>
          s.sampled ∧ s.monitor.changedFilesQueue = [] ∧
            (loopStep .fifo s (.sample (quietWith []))).any fun s' =>
              s.monitor.currentSample < s'.monitor.currentSample) = true :=
    ⟨_, rfl, by decide +kernel⟩
  obtain ⟨tr, s, hrun, -, hbefore⟩ := exists_run_of_any hexec
  simp only [decide_eq_true_eq] at hbefore
  obtain ⟨hsampled, hqueue, hstep⟩ := hbefore
  obtain ⟨s', hstep, hlt⟩ := (Option.any_eq_true _ _).mp hstep
  have hmeet := h s₀ _ s' hstart (hrun.snoc hstep)
  rw [stepsMeet_snoc] at hmeet
  exact hmeet.2 hsampled s' hstep (of_decide_eq_true hlt) hqueue

end MonitorDaemon
