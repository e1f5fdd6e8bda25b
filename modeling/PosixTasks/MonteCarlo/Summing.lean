import PosixTasks.MonteCarlo.Client

/-!
# The workers and the plain loop

Without threads, `compute_integral_distributed` would send the strips to their servers one after
another and add up what comes back. The client prints the same number in every schedule of its
workers, although the additions do not commute: the results are added in the order of the strips,
each after its worker has returned. It need not get that far where a `pthread_create` has failed:
what is then in `threads[i]` can be joined.

## Main results

* `endsSummed_of_init`: every schedule ends with what the plain loop prints, unless a worker could
  not be created and its handle is joined.
-/

namespace MonteCarlo

open Transition

variable {α : Type*}

section Model

variable [Zero α] [Add α]

/-- The sum over the first strips, computed one after another. -/
def sequentialSum (outcomes : ℕ → StripOutcome α) : ℕ → α
  | 0 => 0
  | i + 1 =>
      match outcomes i with
      | .success x => sequentialSum outcomes i + x
      | _ => sequentialSum outcomes i

/-- What `main` prints and returns if `compute_integral_distributed` has no threads. `memory` tells
whether both `calloc`s succeed. -/
def sequentialMain (memory : Bool) (outcomes : ℕ → StripOutcome α) (n : ℕ) :
    Option α × Option ℕ :=
  if n = 0 then (none, some 1)
  else if memory then (some (sequentialSum outcomes n), some 0)
  else (some 0, some 0)

/-- The actions in which the `calloc`s succeed as `memory` says and strip `i` ends with
`outcomes i`. -/
def follows [DecidableEq α] (memory : Bool) (outcomes : ℕ → StripOutcome α) (s : Client α) :
    ClientAction α → Bool
  | .allocate ok => ok == memory
  | .create ok =>
      match s.phase with
      | .creating i => ok == (outcomes i).hadWorker
      | _ => true
  | .finish i o => decide (o = outcomes i)
  | _ => true

end Model

/-! ## The steps that are left -/

/-- The steps of the main thread, without those that create a worker. -/
def ClientPhase.work (n : ℕ) : ClientPhase → ℕ
  | .discovering => n + 5
  | .allocating => n + 4
  | .creating _ => n + 3
  | .summing i => n - i + 2
  | .returned => 1
  | .ended | .faulted => 0

/-- A worker is created and returns. -/
def TaskJob.work (job : TaskJob α) : ℕ :=
  if job.outcome.isSome then 0
  else if job.thread = .running then 1
  else 2

/-- The steps that are left at most. -/
def Client.work (n : ℕ) (s : Client α) : ℕ :=
  s.phase.work n + ∑ i ∈ Finset.range n, (s.jobs i).work

theorem work_createWorker {job : TaskJob α} (hfresh : job.Fresh) (ok : Bool) :
    (createWorker job ok).work < job.work := by
  have hjob : job.work = 2 := by simp [TaskJob.work, hfresh.1, hfresh.2]
  rw [hjob]
  cases ok <;> simp [createWorker, TaskJob.work, hfresh.2]

theorem work_taskWorker {job : TaskJob α} (hrunning : job.thread = .running)
    (houtcome : job.outcome = none) (o : StripOutcome α) : (taskWorker job o).work < job.work := by
  have hjob : job.work = 1 := by simp [TaskJob.work, hrunning, houtcome]
  rw [hjob]
  simp [TaskJob.work, taskWorker_outcome]

theorem eq_notCreated {o : StripOutcome α} (h : o.hadWorker = false) : o = .notCreated := by
  cases o with
  | notCreated => rfl
  | _ => cases h

/-- A job with less work makes the sum smaller. -/
theorem sum_work_update {jobs : ℕ → TaskJob α} {n i : ℕ} (hi : i < n) {job : TaskJob α}
    (hlt : job.work < (jobs i).work) :
    ∑ j ∈ Finset.range n, (Function.update jobs i job j).work
      < ∑ j ∈ Finset.range n, (jobs j).work := by
  refine Finset.sum_lt_sum (fun j _ => ?_) ⟨i, Finset.mem_range.mpr hi, ?_⟩
  · by_cases hji : j = i
    · subst hji
      rw [Function.update_self]
      exact hlt.le
    · rw [Function.update_of_ne hji]
  · rwa [Function.update_self]

section Proofs

variable [Zero α] [Add α] {n : ℕ} {s s' : Client α}

omit [Add α] in
theorem work_init : (Client.init : Client α).work n = 3 * n + 5 := by
  simp only [Client.work, Client.init, ClientPhase.work, TaskJob.work, TaskJob.zero]
  simp
  omega

/-- Only the strips of the servers have a worker. -/
theorem Progress.lt_of_running (h : Progress n s) {i : ℕ}
    (hrunning : (s.jobs i).thread = .running) : i < n := by
  have hnotFresh : ¬ (s.jobs i).Fresh := fun hfresh => hfresh.1 hrunning
  by_contra hi
  cases h with
  | before _ _ hfresh | noServer _ _ _ hfresh | refused _ _ _ hfresh => exact hnotFresh (hfresh i)
  | creating k _ hle _ _ _ hfresh => exact hnotFresh (hfresh i (by omega))
  | summing k _ _ _ _ hfresh | summed _ _ _ hfresh | faulted _ _ hfresh =>
    exact hnotFresh (hfresh i (by omega))

/-- Every step takes one away. -/
theorem Progress.work_lt (h : Progress n s) {a : ClientAction α}
    (hstep : clientStep n s a = some s') : s'.work n < s.work n := by
  cases move_of_step hstep with
  | noServer hphase | discover hphase | print hphase =>
    simp only [Client.work, hphase, ClientPhase.work]
    omega
  | allocate ok hphase =>
    cases ok with
    | true =>
      simp only [Client.work, hphase, ClientPhase.work, if_true]
      omega
    | false =>
      simp only [Client.work, hphase, ClientPhase.work, Bool.false_eq_true, if_false]
      omega
  | create i ok hphase hi =>
    obtain ⟨-, -, -, -, hfresh, -⟩ := h.of_creating hphase
    -- the work of a strip is split between its creation and its end
    have hless := sum_work_update hi (work_createWorker (hfresh i le_rfl) ok)
    simp only [Client.work, hphase, ClientPhase.work]
    omega
  | finish i o _ hrunning =>
    have hless := sum_work_update (h.lt_of_running hrunning)
      (work_taskWorker hrunning (h.outcome_of_running hrunning) o)
    simp only [Client.work]
    omega
  | beginSum hphase | join i hphase hi | joinUnspecified i hphase | endSum i hphase =>
    simp only [Client.work, hphase, ClientPhase.work]
    omega

/-! ## What the strips have ended with -/

variable {memory : Bool} {outcomes : ℕ → StripOutcome α}

/-- The outcomes of a run that follows `memory` and `outcomes`. -/
structure Settled (memory : Bool) (outcomes : ℕ → StripOutcome α) (n : ℕ) (s : Client α) :
    Prop where
  progress : Progress n s
  servers : s.phase = .discovering ∨ s.phase = .ended ∨ 0 < n
  allocated : ∀ ok ∈ s.allocated, ok = memory
  outcome : ∀ i, ∀ o ∈ (s.jobs i).outcome, o = outcomes i
  worker : ∀ i, (s.jobs i).thread = .running → (outcomes i).hadWorker = true
  /-- without memory nothing is added -/
  refused : s.allocated = some false → s.total = 0
  silent : s.phase ≠ .ended → s.printed = none
  reported : s.phase = .ended →
    n = 0 ∧ s.printed = none ∧ s.exitStatus = some 1 ∨
      0 < n ∧ s.printed = some s.total ∧ s.exitStatus = some 0

theorem settled_init : Settled memory outcomes n .init where
  progress := .init n
  servers := Or.inl rfl
  allocated := by simp [Client.init]
  outcome := by simp [Client.init, TaskJob.zero]
  worker := by simp [Client.init, TaskJob.zero]
  refused := by simp [Client.init]
  silent _ := rfl
  reported := by simp [Client.init]

/-- The job of one strip has changed, and its outcome is the one it has to have. -/
theorem Settled.outcome_update (h : Settled memory outcomes n s) {i : ℕ} {job : TaskJob α}
    (hjob : ∀ o ∈ job.outcome, o = outcomes i) (j : ℕ) :
    ∀ o ∈ (Function.update s.jobs i job j).outcome, o = outcomes j := by
  by_cases hji : j = i
  · subst hji
    rwa [Function.update_self]
  · rw [Function.update_of_ne hji]
    exact h.outcome j

theorem Settled.worker_update (h : Settled memory outcomes n s) {i : ℕ} {job : TaskJob α}
    (hjob : job.thread = .running → (outcomes i).hadWorker = true) (j : ℕ)
    (hrunning : (Function.update s.jobs i job j).thread = .running) :
    (outcomes j).hadWorker = true := by
  by_cases hji : j = i
  · subst hji
    rw [Function.update_self] at hrunning
    exact hjob hrunning
  · rw [Function.update_of_ne hji] at hrunning
    exact h.worker j hrunning

/-- A worker is created exactly if the strip is to have one. -/
theorem Settled.create [DecidableEq α] (h : Settled memory outcomes n s) {i : ℕ} {ok : Bool}
    (hphase : s.phase = .creating i) (hi : i < n) (hok : ok = (outcomes i).hadWorker) :
    Settled memory outcomes n { s with
      jobs := Function.update s.jobs i (createWorker (s.jobs i) ok)
      phase := .creating (i + 1) } where
  progress := h.progress.create hphase hi ok
  servers := Or.inr (Or.inr (by omega))
  allocated := h.allocated
  outcome := by
    refine h.outcome_update fun o ho => ?_
    obtain ⟨-, -, -, -, hfresh, -⟩ := h.progress.of_creating hphase
    cases ok with
    | true => simp [createWorker, (hfresh i le_rfl).2] at ho
    | false =>
      obtain rfl : o = .notCreated := by simpa [createWorker] using ho.symm
      exact (eq_notCreated hok.symm).symm
  worker := by
    refine h.worker_update fun hrunning => ?_
    cases ok with
    | true => exact hok.symm
    | false => simp [createWorker] at hrunning
  refused := h.refused
  silent _ := h.silent (by simp [hphase])
  reported hended := by cases hended

/-- A worker returns with the outcome of its strip. -/
theorem Settled.finish (h : Settled memory outcomes n s) {i : ℕ} (hgoing : s.phase ≠ .faulted)
    (hrunning : (s.jobs i).thread = .running) :
    Settled memory outcomes n
      { s with jobs := Function.update s.jobs i (taskWorker (s.jobs i) (outcomes i)) } where
  progress := h.progress.finish hgoing hrunning (outcomes i)
  servers := h.servers
  allocated := h.allocated
  outcome := by
    refine h.outcome_update fun o ho => ?_
    rw [taskWorker_outcome] at ho
    exact (Option.some.inj ho).symm
  worker := h.worker_update fun _ => h.worker i hrunning
  refused := h.refused
  silent := h.silent
  reported := h.reported

/-- The steps that a run with these outcomes takes. -/
theorem Settled.step [DecidableEq α] (h : Settled memory outcomes n s) {a : ClientAction α}
    (hok : follows memory outcomes s a = true) (hstep : clientStep n s a = some s') :
    Settled memory outcomes n s' := by
  have hprogress := h.progress.step hstep
  -- after the discovery
  have hservers : s.phase ≠ .discovering → s.phase ≠ .ended → 0 < n := fun hdiscovered hgoing =>
    (h.servers.resolve_left hdiscovered).resolve_left hgoing
  cases move_of_step hstep with
  | noServer hphase hn =>
    have hsilent := h.silent (by simp [hphase])
    exact ⟨hprogress, by simp, h.allocated, h.outcome, h.worker, h.refused, by simp,
      fun _ => Or.inl ⟨hn, hsilent, rfl⟩⟩
  | discover hphase hn =>
    have hsilent := h.silent (by simp [hphase])
    exact ⟨hprogress, by simp [hn], h.allocated, h.outcome, h.worker, h.refused, fun _ => hsilent,
      by simp⟩
  | allocate ok hphase =>
    have hsilent := h.silent (by simp [hphase])
    have hn := hservers (by simp [hphase]) (by simp [hphase])
    obtain rfl : ok = memory := by simpa [follows] using hok
    refine ⟨hprogress, by simp [hn], by simp, h.outcome, h.worker, fun _ => rfl, fun _ => hsilent,
      ?_⟩
    cases ok <;> simp
  | create i ok hphase hi =>
    exact h.create hphase hi (by simpa [follows, hphase] using hok)
  | finish i o hgoing hrunning =>
    obtain rfl : o = outcomes i := by simpa [follows] using hok
    exact h.finish hgoing hrunning
  | join i hphase hi =>
    have hsilent := h.silent (by simp [hphase])
    have hn := hservers (by simp [hphase]) (by simp [hphase])
    -- the total changes, but there is memory here
    obtain ⟨-, hallocated, -⟩ := h.progress.of_summing hphase
    exact ⟨hprogress, by simp [hn], h.allocated, h.outcome, h.worker, by simp [hallocated],
      fun _ => hsilent, by simp⟩
  | beginSum hphase | joinUnspecified i hphase | endSum i hphase =>
    have hsilent := h.silent (by simp [hphase])
    have hn := hservers (by simp [hphase]) (by simp [hphase])
    exact ⟨hprogress, by simp [hn], h.allocated, h.outcome, h.worker, h.refused, fun _ => hsilent,
      by simp⟩
  | print hphase =>
    have hn := hservers (by simp [hphase]) (by simp [hphase])
    exact ⟨hprogress, by simp, h.allocated, h.outcome, h.worker, h.refused, by simp,
      fun _ => Or.inr ⟨hn, rfl, rfl⟩⟩

/-! ## The end -/

/-- What has been added up where the first strips have ended. -/
theorem Settled.collected_eq (h : Settled memory outcomes n s) (i : ℕ)
    (hended : ∀ j < i, (s.jobs j).Ended) :
    (collected s.jobs i).foldl (· + ·) 0 = sequentialSum outcomes i := by
  induction i with
  | zero => rfl
  | succ i ih =>
    rw [collected_succ, ih fun j hj => hended j (by omega), sequentialSum]
    rcases (hended i (by omega)).2 with ⟨x, houtcome, hstatus, rfl⟩ | ⟨o, houtcome, hfail, hstatus⟩
    · rw [if_pos hstatus, ← h.outcome i _ houtcome]
    · rw [if_neg (by rw [hstatus]; decide), ← h.outcome i _ houtcome]
      cases o with
      | success x => cases hfail
      | _ => rfl

/-- What the client has printed when it has ended. -/
theorem Settled.printed (h : Settled memory outcomes n s) (hended : s.phase = .ended) :
    (s.printed, s.exitStatus) = sequentialMain memory outcomes n := by
  rcases h.reported hended with ⟨hn, hprinted, hexit⟩ | ⟨hn, hprinted, hexit⟩
  · rw [sequentialMain, if_pos hn, hprinted, hexit]
  · rw [sequentialMain, if_neg hn.ne', hprinted, hexit]
    cases h.progress with
    | before hstart => simp [hended] at hstart
    | noServer hzero => omega
    | creating i hphase => simp [hended] at hphase
    | summing i hphase => simp [hended] at hphase
    | faulted hphase => simp [hended] at hphase
    -- without memory the result is 0
    | refused _ _ hallocated =>
      obtain rfl : false = memory := h.allocated _ hallocated
      rw [h.refused hallocated]
      rfl
    | summed _ hallocated hjobs _ htotal =>
      obtain rfl : true = memory := h.allocated _ hallocated
      rw [htotal, h.collected_eq n hjobs]
      rfl

/-- Before the end some thread can go on. -/
theorem Settled.exists_step [DecidableEq α] (h : Settled memory outcomes n s)
    (hgoing : s.phase ≠ .ended) (hdefined : s.phase ≠ .faulted) :
    ∃ a, follows memory outcomes s a = true ∧ (clientStep n s a).isSome = true := by
  cases h.progress with
  | before hstart =>
    rcases hstart with hphase | ⟨hphase, -⟩
    · refine ⟨.discover, rfl, ?_⟩
      by_cases hn : n = 0 <;> simp [clientStep, hphase, hn]
    · exact ⟨.allocate memory, by simp [follows], by simp [clientStep, hphase]⟩
  | noServer _ hphase => exact absurd hphase hgoing
  | creating i hphase hle =>
    by_cases hi : i < n
    · exact ⟨.create (outcomes i).hadWorker, by simp [follows, hphase],
        by simp [clientStep, hphase, hi]⟩
    · exact ⟨.collect, rfl, by simp [clientStep, hphase, show i = n by omega]⟩
  | summing i hphase =>
    by_cases hi : i < n
    · by_cases hrunning : (s.jobs i).thread = .running
      · -- `pthread_join` waits, but not for ever: the worker can return
        exact ⟨.finish i (outcomes i), by simp [follows],
          by simp [clientStep, hdefined, hrunning, h.worker i hrunning]⟩
      · exact ⟨.collect, rfl, by simp [clientStep, hphase, hi, hrunning]⟩
    · exact ⟨.collect, rfl, by simp [clientStep, hphase, hi]⟩
  | faulted hphase => exact absurd hphase hdefined
  | refused _ hreturned =>
    -- the result is still to be printed
    have hphase := hreturned.resolve_right fun hended => hgoing hended.1
    exact ⟨.print, rfl, by simp [clientStep, hphase]⟩
  | summed hreturned =>
    have hphase := hreturned.resolve_right fun hended => hgoing hended.1
    exact ⟨.print, rfl, by simp [clientStep, hphase]⟩

/-- With servers and memory, that is the sum of the strips. -/
theorem Settled.printed_sequentialSum (h : Settled true outcomes n s) (hn : 0 < n)
    (hended : s.phase = .ended) :
    s.printed = some (sequentialSum outcomes n) ∧ s.exitStatus = some 0 := by
  have hprinted := h.printed hended
  rw [sequentialMain, if_neg hn.ne', if_pos rfl] at hprinted
  exact Prod.mk.inj hprinted

/-- A handle that is not specified is one that a failed `pthread_create` has left. -/
theorem Settled.exists_notCreated (h : Settled memory outcomes n s) (hphase : s.phase = .faulted) :
    s.printed = none ∧ ∃ i < n, outcomes i = .notCreated := by
  refine ⟨h.silent (by simp [hphase]), ?_⟩
  cases h.progress with
  | before hstart => simp [hphase] at hstart
  | noServer _ hended => simp [hphase] at hended
  | creating i hcreating => simp [hphase] at hcreating
  | summing i hsumming => simp [hphase] at hsumming
  | refused _ hreturned => simp [hphase] at hreturned
  | summed hreturned => simp [hphase] at hreturned
  | faulted _ _ _ hfailed =>
    obtain ⟨i, hi, houtcome⟩ := hfailed
    exact ⟨i, hi, (h.outcome i _ houtcome).symm⟩

/-- Every schedule ends. -/
theorem ends_settled [DecidableEq α] (memory : Bool) (outcomes : ℕ → StripOutcome α) (n : ℕ) :
    EndsWithin (restrict (clientStep n) (follows memory outcomes)) (3 * n + 5)
      (fun s => (s.phase = .ended ∨ s.phase = .faulted) ∧ Settled memory outcomes n s) .init := by
  have hwork : (Client.init : Client α).work n = 3 * n + 5 := work_init
  rw [← hwork]
  refine EndsWithin.of_invariant (I := Settled memory outcomes n) settled_init ?_ ?_ ?_
  · intro s a s' h hstep
    obtain ⟨hok, hstep⟩ := restrict_eq_some.mp hstep
    exact h.step hok hstep
  · intro s a s' h hstep
    exact h.progress.work_lt (restrict_eq_some.mp hstep).2
  · intro s h hstuck
    refine ⟨?_, h⟩
    by_contra hgoing
    rw [not_or] at hgoing
    obtain ⟨a, hok, hsome⟩ := h.exists_step hgoing.1 hgoing.2
    rw [eq_none_of_restrict hstuck hok] at hsome
    cases hsome

/-- Where every worker can be created, the client gets to its end. -/
theorem ends_created [DecidableEq α] (memory : Bool) {outcomes : ℕ → StripOutcome α} {n : ℕ}
    (hcreated : ∀ i < n, outcomes i ≠ .notCreated) :
    EndsWithin (restrict (clientStep n) (follows memory outcomes)) (3 * n + 5)
      (fun s => s.phase = .ended ∧ Settled memory outcomes n s) .init := by
  refine (ends_settled memory outcomes n).mono ?_
  rintro s ⟨hended | hfaulted, h⟩
  · exact ⟨hended, h⟩
  · obtain ⟨-, i, hi, houtcome⟩ := h.exists_notCreated hfaulted
    exact absurd houtcome (hcreated i hi)

/-- Whatever the strips end with, every schedule of the main thread and its workers ends, and the
client prints and returns what it would without threads, or prints nothing because a worker could
not be created and what is left in its handle was joined. -/
theorem endsSummed_of_init [DecidableEq α] (memory : Bool) (outcomes : ℕ → StripOutcome α)
    (n : ℕ) :
    EndsWithin (restrict (clientStep n) (follows memory outcomes)) (3 * n + 5)
      (fun s =>
        (s.phase = .ended ∧ (s.printed, s.exitStatus) = sequentialMain memory outcomes n) ∨
          (s.phase = .faulted ∧ s.printed = none ∧ ∃ i < n, outcomes i = .notCreated))
      .init := by
  refine (ends_settled memory outcomes n).mono ?_
  rintro s ⟨hended | hfaulted, h⟩
  · exact Or.inl ⟨hended, h.printed hended⟩
  · exact Or.inr ⟨hfaulted, h.exists_notCreated hfaulted⟩

end Proofs

end MonteCarlo
