import PosixTasks.Lib.Transition
import PosixTasks.MonitorDaemon.Loop

/-!
# The sampling period

`set_period` stores the period that it accepts in `sample_period_ms`, and `status` reports that
field. Both loops wait for `sleep_time`, which they compute from it before their first iteration.

## Main results

* `periodInForce_iff_of_run`: every wait lasts the period that was accepted last if and only if
  that is always the one from start-up.
-/

namespace MonitorDaemon

open CString Transition

/-- The period that was accepted last; at start-up the default. -/
def LoopState.lastPeriod (s : LoopState) : ℤ :=
  s.accepted.getD defaultSamplePeriodMs

/-- The period that was set last is in force. -/
structure PeriodInForce (source : Source) (s : LoopState) : Prop where
  /-- `sample_period_ms` is that period. -/
  field : s.monitor.samplePeriodMs = s.lastPeriod
  /-- The wait lasts `sample_period_ms` milliseconds. -/
  wait : source.waitNs s.sleepTime = s.monitor.samplePeriodMs * 1000000
  /-- `status` reports that period. -/
  status : status maxResponseLen s.monitor =
    status maxResponseLen { s.monitor with samplePeriodMs := s.lastPeriod }

/-- The condition on the state at each wait. -/
def AtWaits (P : LoopState → Prop) (s : LoopState) : LoopAction → Prop
  | .wait => P s
  | _ => True

/-- `sample_period_ms` follows the commands, while `sleep_time` stays what it was at start-up. -/
structure PeriodTells (s : LoopState) : Prop where
  field : s.monitor.samplePeriodMs = s.lastPeriod
  sleepTime : s.sleepTime = .ofPeriod defaultSamplePeriodMs

variable {around : Surroundings} {source : Source} {s s' : LoopState}

theorem periodTells_start {monitoredDir : Text} {pid : ℤ} {fd : ℕ} {watchList : List WatchInfo}
    {backups : Backups}
    (h : LoopState.start around (.fresh monitoredDir pid fd watchList) backups = some s) :
    PeriodTells s := by
  simp only [LoopState.start] at h
  split at h
  · obtain ⟨⟨monitor, backups⟩, hbackup, rfl⟩ := Option.map_eq_some_iff.mp h
    obtain ⟨found, done, -, hmonitor, -⟩ := createFullBackup_spec hbackup
    exact ⟨by rw [hmonitor]; rfl, by rw [hmonitor]; rfl⟩
  · cases h
    exact ⟨rfl, rfl⟩

theorem loopStep_period {a : LoopAction} (h : PeriodTells s)
    (hstep : loopStep source s a = some s') : PeriodTells s' := by
  rcases loopStep_cases hstep with ⟨monitor, phase, hsame, rfl, -⟩ |
    ⟨around, cmd, phase, hcarry, -⟩ | ⟨around, -, hsample⟩ | ⟨around, phase, -, hsample⟩
  · exact ⟨hsame.samplePeriodMs.trans h.field, h.sleepTime⟩
  · obtain ⟨monitor, rfl, -, -, hperiod⟩ := carryOut_spec hcarry
    refine ⟨?_, h.sleepTime⟩
    rw [hperiod, LoopState.lastPeriod]
    cases cmd.acceptedPeriod with
    | none => exact h.field
    | some period => rfl
  · obtain ⟨monitor, backups, sampled, rfl, -, -, -, hperiod⟩ := sampleIfNeeded_spec hsample
    exact ⟨hperiod.trans h.field, h.sleepTime⟩
  · obtain ⟨monitor, backups, rfl, -, -, hperiod⟩ := takeSample_spec hsample
    exact ⟨hperiod.trans h.field, h.sleepTime⟩

/-- The wait is right exactly if the period is the one from start-up. -/
theorem PeriodTells.inForce_iff (h : PeriodTells s) :
    PeriodInForce source s ↔ s.accepted = none ∨ s.accepted = some defaultSamplePeriodMs := by
  have hlast : s.accepted = none ∨ s.accepted = some defaultSamplePeriodMs ↔
      s.lastPeriod = defaultSamplePeriodMs := by
    rw [LoopState.lastPeriod]
    cases s.accepted <;> simp
  rw [hlast]
  constructor
  · intro hforce
    have hwait := hforce.wait
    rw [h.sleepTime, waitNs_ofPeriod, h.field] at hwait
    omega
  · intro hperiod
    refine ⟨h.field, ?_, ?_⟩
    · rw [h.sleepTime, waitNs_ofPeriod, h.field, hperiod]
    · rw [← h.field]

/-- In every run of the daemon or of the interactive loop, the period that was set last is in
force at every wait, if and only if none but the one from start-up is ever accepted before a
wait. -/
theorem periodInForce_iff_of_run {monitoredDir : Text} {pid : ℤ} {fd : ℕ}
    {watchList : List WatchInfo} {backups : Backups} {tr : List (LoopState × LoopAction)}
    {s₀ : LoopState}
    (hstart : LoopState.start around (.fresh monitoredDir pid fd watchList) backups = some s₀)
    (hrun : Run (loopStep source) s₀ tr s) :
    StepsMeet (AtWaits (PeriodInForce source)) tr ↔
      StepsMeet (AtWaits fun s =>
        s.accepted = none ∨ s.accepted = some defaultSamplePeriodMs) tr := by
  refine hrun.stepsMeet_iff (periodTells_start hstart) ?_ ?_
  · intro t a u ht hstep
    exact loopStep_period ht hstep
  · intro t a u ht _
    cases a with
    | wait => exact ht.inForce_iff
    | _ => exact Iff.rfl

/-- An iteration of the daemon up to its wait, with one line from the control FIFO. -/
def beforeWait (line : Text) : List LoopAction :=
  [.events (quietWith []) [], .command (quietWith []) noCommand line, .sample (quietWith [])]

/-- `periodInForce_iff_of_run` for a `set_period` to the period from start-up. -/
theorem periodInForce_same : ∃ s₀ tr s, quietStart [] = some s₀ ∧
    Run (loopStep .fifo) s₀ tr s ∧ s.accepted = some defaultSamplePeriodMs ∧
      StepsMeet (AtWaits (PeriodInForce .fifo)) tr := by
  let actions := beforeWait (cmdSetPeriod ++ " 10000\n".toList) ++ [.wait]
  obtain ⟨s₀, hstart, hexec⟩ : ∃ s₀, quietStart [] = some s₀ ∧
      (execute (loopStep .fifo) (fun s _ => s.accepted = none ∨
        s.accepted = some defaultSamplePeriodMs) s₀ actions).any
          (fun s => s.accepted = some defaultSamplePeriodMs) = true :=
    ⟨_, rfl, by decide +kernel⟩
  obtain ⟨tr, s, hrun, hmeet, haccepted⟩ := exists_run_of_any hexec
  refine ⟨s₀, tr, s, hstart, hrun, of_decide_eq_true haccepted, ?_⟩
  refine (periodInForce_iff_of_run hstart hrun).mpr (hmeet.mono fun t a ht => ?_)
  cases a with
  | wait => simpa [AtWaits] using ht
  | _ => trivial

/-- After `set_period 500` the daemon still waits for ten seconds. -/
theorem not_periodInForce_500 : ¬ ∀ s₀ tr s, quietStart [] = some s₀ →
    Run (loopStep .fifo) s₀ tr s → StepsMeet (AtWaits (PeriodInForce .fifo)) tr := by
  intro h
  obtain ⟨s₀, hstart, hexec⟩ : ∃ s₀, quietStart [] = some s₀ ∧
      (execute (loopStep .fifo) (fun _ _ => true) s₀ (beforeWait setPeriodLine.bytes)).any
        (fun s => s.monitor.samplePeriodMs = 500 ∧ Source.fifo.waitNs s.sleepTime = 10000000000 ∧
          (loopStep .fifo s .wait).isSome) = true :=
    ⟨_, rfl, by decide +kernel⟩
  obtain ⟨tr, s, hrun, -, hbefore⟩ := exists_run_of_any hexec
  simp only [decide_eq_true_eq] at hbefore
  obtain ⟨hfield, hwaits, hstep⟩ := hbefore
  obtain ⟨s', hstep⟩ := Option.isSome_iff_exists.mp hstep
  have hmeet := h s₀ _ s' hstart (hrun.snoc hstep)
  rw [stepsMeet_snoc] at hmeet
  have hwait := hmeet.2.wait
  rw [hfield, hwaits] at hwait
  exact absurd hwait (by decide)

end MonitorDaemon
