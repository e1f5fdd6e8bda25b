import PosixTasks.Lib.Transition

/-!
# The workers of the client and the final result

`compute_integral_distributed` starts one worker for each strip, joins them in order and adds up
the results of those that have succeeded. `main` prints what it returns.

The workers act in any order between their `pthread_create` and their `pthread_join`. Results have
any type with a zero and an addition, which need not be associative. What a `pthread_create` that
fails leaves in `threads[i]` is not specified, so the second loop finds 0 there, or joins a thread
that does not exist.

## Main results

* `reportsWhole_iff_of_run`: a result that is printed with `EXIT_SUCCESS` is the sum of the
  results of all strips exactly if no allocation, no `pthread_create` and no strip has failed;
* `printed_of_run`: what holds of zero, of every result and of a sum holds of what is printed.
-/

namespace MonteCarlo

open Transition

variable {α : Type*}

/-- How a strip ends. -/
inductive StripOutcome (α : Type*) where
  /-- `pthread_create` fails -/
  | notCreated
  | connectFailed
  | writeFailed
  | readFailed
  | decodeFailed
  | success (integralValue : α)
  deriving DecidableEq

/-- The strip has a result. -/
def StripOutcome.isSuccess : StripOutcome α → Bool
  | .success _ => true
  | _ => false

/-- The strip has had a worker. -/
def StripOutcome.hadWorker : StripOutcome α → Bool
  | .notCreated => false
  | _ => true

/-- The thread of a job. -/
inductive WorkerThread where
  /-- `threads[i]` is 0 -/
  | none
  /-- `threads[i]` holds whatever a failed `pthread_create` has left there -/
  | unspecified
  | running
  | finished
  deriving DecidableEq

/-- `TaskJob`, without the task itself. -/
structure TaskJob (α : Type*) where
  thread : WorkerThread
  status : ℤ
  /-- `result.integral_value` -/
  result : α
  /-- History: how the strip has ended. -/
  outcome : Option (StripOutcome α)

/-- Where `main` is. -/
inductive ClientPhase where
  /-- in `discover_servers` and `validate_server_count` -/
  | discovering
  /-- before the two `calloc`s -/
  | allocating
  /-- before the `pthread_create` for strip `i` -/
  | creating (i : ℕ)
  /-- before the `pthread_join` for strip `i` -/
  | summing (i : ℕ)
  /-- `compute_integral_distributed` has returned -/
  | returned
  | ended
  /-- a thread that does not exist was joined -/
  | faulted
  deriving DecidableEq

/-- The client. -/
structure Client (α : Type*) where
  phase : ClientPhase
  /-- Whether both `calloc`s have succeeded, once they are made. -/
  allocated : Option Bool
  jobs : ℕ → TaskJob α
  /-- `total_result` -/
  total : α
  /-- The final result that has been printed. -/
  printed : Option α
  exitStatus : Option ℕ

section Model

variable [Zero α] [Add α]

/-- A job in the array that `calloc` returns. -/
def TaskJob.zero : TaskJob α :=
  { thread := .none, status := 0, result := 0, outcome := none }

/-- The client when it starts. -/
def Client.init : Client α :=
  { phase := .discovering, allocated := none, jobs := fun _ => .zero, total := 0, printed := none,
    exitStatus := none }

/-- The steps of the main thread and of the workers. -/
inductive ClientAction (α : Type*) where
  | discover
  | allocate (ok : Bool)
  | create (ok : Bool)
  /-- `task_worker` returns -/
  | finish (i : ℕ) (o : StripOutcome α)
  /-- the main thread goes on to the next strip in the second loop -/
  | collect
  /-- the main thread joins what a failed `pthread_create` has left in `threads[i]` -/
  | joinUnspecified
  | print

/-- The job for which `pthread_create` is called: its status is -1 before. -/
def createWorker (job : TaskJob α) (ok : Bool) : TaskJob α :=
  if ok then { job with thread := .running, status := -1 }
  else { job with thread := .unspecified, status := -1, outcome := some .notCreated }

/-- `task_worker`. -/
def taskWorker (job : TaskJob α) (o : StripOutcome α) : TaskJob α :=
  match o with
  | .success x => { job with thread := .finished, status := 0, result := x, outcome := some o }
  | _ => { job with thread := .finished, status := -1, outcome := some o }

/-- One step, with `n` servers. -/
def clientStep (n : ℕ) (s : Client α) : ClientAction α → Option (Client α)
  | .discover =>
      if s.phase = .discovering then
        if n = 0 then some { s with phase := .ended, exitStatus := some 1 }
        else some { s with phase := .allocating }
      else none
  | .allocate ok =>
      if s.phase = .allocating then
        some { s with
          allocated := some ok
          total := 0
          phase := if ok then .creating 0 else .returned }
      else none
  | .create ok =>
      match s.phase with
      | .creating i =>
          if i < n then
            some { s with
              jobs := Function.update s.jobs i (createWorker (s.jobs i) ok)
              phase := .creating (i + 1) }
          else none
      | _ => none
  | .finish i o =>
      if s.phase ≠ .faulted ∧ (s.jobs i).thread = .running ∧ o.hadWorker then
        some { s with jobs := Function.update s.jobs i (taskWorker (s.jobs i) o) }
      else none
  | .collect =>
      match s.phase with
      | .creating i => if i = n then some { s with phase := .summing 0 } else none
      | .summing i =>
          if i < n then
            -- `pthread_join` waits for the worker; without a handle there is nothing to join
            if (s.jobs i).thread = .running then none
            else
              some { s with
                total := if (s.jobs i).status = 0 then s.total + (s.jobs i).result else s.total
                phase := .summing (i + 1) }
          else some { s with phase := .returned }
      | _ => none
  | .joinUnspecified =>
      match s.phase with
      | .summing i =>
          if i < n ∧ (s.jobs i).thread = .unspecified then some { s with phase := .faulted }
          else none
      | _ => none
  | .print =>
      if s.phase = .returned then
        some { s with phase := .ended, printed := some s.total, exitStatus := some 0 }
      else none

/-- What is reported with `EXIT_SUCCESS` is the sum of the results of all strips. -/
def ReportsWhole (n : ℕ) (s : Client α) : Prop :=
  s.exitStatus = some 0 → ∃ results : List α, results.length = n ∧
    (∀ i x, results[i]? = some x → (s.jobs i).outcome = some (.success x)) ∧
    s.printed = some (results.foldl (· + ·) 0)

/-- The step does not fail. -/
def Succeeds (_ : Client α) : ClientAction α → Prop
  | .allocate ok | .create ok => ok
  | .finish _ o => o.isSuccess
  | _ => True

end Model

/-! ## The state of a job -/

/-- No worker has been created for the job. -/
def TaskJob.Fresh (job : TaskJob α) : Prop :=
  job.thread ≠ .running ∧ job.outcome = none

/-- The worker of the job has not returned. -/
def TaskJob.Running (job : TaskJob α) : Prop :=
  job.thread = .running ∧ job.outcome = none

/-- The strip has ended, and its status tells how. -/
structure TaskJob.Ended (job : TaskJob α) : Prop where
  thread : job.thread ≠ .running
  status : (∃ x, job.outcome = some (.success x) ∧ job.status = 0 ∧ job.result = x) ∨
    (∃ o, job.outcome = some o ∧ o.isSuccess = false ∧ job.status = -1)
  unspecified : job.thread = .unspecified → job.outcome = some .notCreated

theorem createWorker_state (job : TaskJob α) (hfresh : job.Fresh) (ok : Bool) :
    (createWorker job ok).Running ∨ (createWorker job ok).Ended := by
  -- the status is -1 already, so that a failure looks like a failed strip
  cases ok with
  | true => exact Or.inl ⟨rfl, hfresh.2⟩
  | false =>
    exact Or.inr ⟨by simp [createWorker], Or.inr ⟨.notCreated, rfl, rfl, rfl⟩, fun _ => rfl⟩

theorem taskWorker_ended (job : TaskJob α) (o : StripOutcome α) : (taskWorker job o).Ended := by
  refine ⟨by cases o <;> simp [taskWorker], ?_, by cases o <;> simp [taskWorker]⟩
  cases o with
  | success x => exact Or.inl ⟨x, rfl, rfl, rfl⟩
  | _ => exact Or.inr ⟨_, rfl, rfl, rfl⟩

theorem taskWorker_outcome (job : TaskJob α) (o : StripOutcome α) :
    (taskWorker job o).outcome = some o := by
  cases o <;> rfl

theorem createWorker_result (job : TaskJob α) (ok : Bool) :
    (createWorker job ok).result = job.result := by
  cases ok <;> rfl

/-- A worker sets the result of its job only if it has one. -/
theorem taskWorker_result {P : α → Prop} {job : TaskJob α} {o : StripOutcome α}
    (hjob : P job.result) (ho : ∀ x, o = .success x → P x) : P (taskWorker job o).result := by
  cases o with
  | success x => exact ho x rfl
  | _ => exact hjob

/-! ## The loops -/

/-- The results of the first strips that have succeeded. -/
def collected (jobs : ℕ → TaskJob α) (i : ℕ) : List α :=
  (List.range i).filterMap fun j => if (jobs j).status = 0 then some (jobs j).result else none

/-- What is collected depends only on the jobs that were passed. -/
theorem collected_congr {jobs jobs' : ℕ → TaskJob α} {i : ℕ} (h : ∀ j < i, jobs j = jobs' j) :
    collected jobs i = collected jobs' i := by
  refine List.filterMap_congr fun j hj => ?_
  rw [h j (List.mem_range.mp hj)]

/-- No allocation and no strip has failed so far. -/
def NoneFailed (s : Client α) : Prop :=
  s.allocated ≠ some false ∧ ∀ j o, (s.jobs j).outcome = some o → o.isSuccess

/-- Where all strips have succeeded, what is collected are their results. -/
theorem collected_of_noneFailed {n : ℕ} {s : Client α} (hfailed : NoneFailed s)
    (hended : ∀ j < n, (s.jobs j).Ended) :
    collected s.jobs n = (List.range n).map (fun j => (s.jobs j).result) ∧
      ∀ j < n, (s.jobs j).outcome = some (.success (s.jobs j).result) := by
  have hsuccess : ∀ j < n, (s.jobs j).outcome = some (.success (s.jobs j).result) ∧
      (s.jobs j).status = 0 := by
    intro j hj
    rcases (hended j hj).status with ⟨x, hx, hstatus, rfl⟩ | ⟨o, ho, hfail, -⟩
    · exact ⟨hx, hstatus⟩
    · rw [hfailed.2 j o ho] at hfail
      exact Bool.noConfusion hfail
  refine ⟨?_, fun j hj => (hsuccess j hj).1⟩
  rw [collected, ← List.filterMap_eq_map]
  refine List.filterMap_congr fun j hj => ?_
  rw [if_pos (hsuccess j (List.mem_range.mp hj)).2, Function.comp_apply]

/-- The outcome of one more strip. -/
theorem noneFailed_update {jobs : ℕ → TaskJob α} {i : ℕ} {job : TaskJob α}
    (hi : (jobs i).outcome = none) :
    (∀ j o, (Function.update jobs i job j).outcome = some o → o.isSuccess) ↔
      (∀ j o, (jobs j).outcome = some o → o.isSuccess) ∧
        ∀ o, job.outcome = some o → o.isSuccess := by
  constructor
  · intro hall
    refine ⟨fun j o ho => ?_, fun o ho => hall i o (by rwa [Function.update_self])⟩
    by_cases hji : j = i
    · subst hji
      simp [hi] at ho
    · exact hall j o (by rwa [Function.update_of_ne hji])
  · rintro ⟨hall, hjob⟩ j o ho
    by_cases hji : j = i
    · subst hji
      rw [Function.update_self] at ho
      exact hjob o ho
    · rw [Function.update_of_ne hji] at ho
      exact hall j o ho

section Loops

variable [Zero α] [Add α] {n : ℕ} {s s' : Client α}

theorem collected_succ (jobs : ℕ → TaskJob α) (i : ℕ) :
    (collected jobs (i + 1)).foldl (· + ·) 0
      = if (jobs i).status = 0 then (collected jobs i).foldl (· + ·) 0 + (jobs i).result
        else (collected jobs i).foldl (· + ·) 0 := by
  rw [collected, List.range_succ, List.filterMap_append, List.foldl_append]
  by_cases h : (jobs i).status = 0 <;> simp [h, collected]

/-- What a step does, one case for each branch of `clientStep`. -/
inductive Move (n : ℕ) (s : Client α) : ClientAction α → Client α → Prop where
  | noServer : s.phase = .discovering → n = 0 →
      Move n s .discover { s with phase := .ended, exitStatus := some 1 }
  | discover : s.phase = .discovering → 0 < n → Move n s .discover { s with phase := .allocating }
  | allocate (ok : Bool) : s.phase = .allocating → Move n s (.allocate ok)
      { s with
        allocated := some ok
        total := 0
        phase := if ok then .creating 0 else .returned }
  | create (i : ℕ) (ok : Bool) : s.phase = .creating i → i < n → Move n s (.create ok)
      { s with
        jobs := Function.update s.jobs i (createWorker (s.jobs i) ok)
        phase := .creating (i + 1) }
  | finish (i : ℕ) (o : StripOutcome α) : s.phase ≠ .faulted → (s.jobs i).thread = .running →
      Move n s (.finish i o)
        { s with jobs := Function.update s.jobs i (taskWorker (s.jobs i) o) }
  | beginSum : s.phase = .creating n → Move n s .collect { s with phase := .summing 0 }
  | join (i : ℕ) : s.phase = .summing i → i < n → (s.jobs i).thread ≠ .running →
      Move n s .collect
        { s with
          total := if (s.jobs i).status = 0 then s.total + (s.jobs i).result else s.total
          phase := .summing (i + 1) }
  | joinUnspecified (i : ℕ) : s.phase = .summing i → i < n → (s.jobs i).thread = .unspecified →
      Move n s .joinUnspecified { s with phase := .faulted }
  | endSum (i : ℕ) : s.phase = .summing i → n ≤ i →
      Move n s .collect { s with phase := .returned }
  | print : s.phase = .returned →
      Move n s .print { s with phase := .ended, printed := some s.total, exitStatus := some 0 }

theorem move_of_step {a : ClientAction α} (h : clientStep n s a = some s') : Move n s a s' := by
  cases a with
  | discover =>
    simp only [clientStep] at h
    split_ifs at h with hphase hn <;> obtain rfl := Option.some.inj h
    · exact .noServer hphase hn
    · exact .discover hphase (Nat.pos_of_ne_zero hn)
  | allocate ok =>
    simp only [clientStep] at h
    split at h
    next hphase =>
      obtain rfl := Option.some.inj h
      exact .allocate ok hphase
    next => cases h
  | create ok =>
    simp only [clientStep] at h
    split at h
    next i hphase =>
      split_ifs at h with hi
      obtain rfl := Option.some.inj h
      exact .create i ok hphase hi
    next => cases h
  | finish i o =>
    simp only [clientStep] at h
    split_ifs at h with hrunning
    obtain rfl := Option.some.inj h
    exact .finish i o hrunning.1 hrunning.2.1
  | collect =>
    simp only [clientStep] at h
    split at h
    next i hphase =>
      split_ifs at h with hi
      obtain rfl := Option.some.inj h
      exact .beginSum (hi ▸ hphase)
    next i hphase =>
      split at h
      next hi =>
        split at h
        next => cases h
        next hjoined =>
          obtain rfl := Option.some.inj h
          exact .join i hphase hi hjoined
      next hi =>
        obtain rfl := Option.some.inj h
        exact .endSum i hphase (not_lt.mp hi)
    next => cases h
  | joinUnspecified =>
    simp only [clientStep] at h
    split at h
    next i hphase =>
      split_ifs at h with hjoined
      obtain rfl := Option.some.inj h
      exact .joinUnspecified i hphase hjoined.1 hjoined.2
    next => cases h
  | print =>
    simp only [clientStep] at h
    split_ifs at h with hphase
    obtain rfl := Option.some.inj h
    exact .print hphase

/-- Where the main thread is, and what the jobs are like there. -/
inductive Progress (n : ℕ) (s : Client α) : Prop where
  | before : s.phase = .discovering ∨ (s.phase = .allocating ∧ 0 < n) → s.allocated = none →
      (∀ j, (s.jobs j).Fresh) → s.exitStatus = none → Progress n s
  /-- there is no server -/
  | noServer : n = 0 → s.phase = .ended → s.allocated = none → (∀ j, (s.jobs j).Fresh) →
      s.exitStatus = some 1 → Progress n s
  | creating (i : ℕ) : s.phase = .creating i → i ≤ n → s.allocated = some true → s.total = 0 →
      (∀ j < i, (s.jobs j).Running ∨ (s.jobs j).Ended) → (∀ j, i ≤ j → (s.jobs j).Fresh) →
      s.exitStatus = none → Progress n s
  | summing (i : ℕ) : s.phase = .summing i → i ≤ n → s.allocated = some true →
      (∀ j < n, (s.jobs j).Running ∨ (s.jobs j).Ended) → (∀ j, n ≤ j → (s.jobs j).Fresh) →
      (∀ j < i, (s.jobs j).Ended) → s.total = (collected s.jobs i).foldl (· + ·) 0 →
      s.exitStatus = none → Progress n s
  /-- an allocation has failed -/
  | refused : 0 < n → s.phase = .returned ∨ (s.phase = .ended ∧ s.exitStatus = some 0) →
      s.allocated = some false → (∀ j, (s.jobs j).Fresh) → Progress n s
  | summed : s.phase = .returned ∨
        (s.phase = .ended ∧ s.exitStatus = some 0 ∧ s.printed = some s.total) →
      s.allocated = some true → (∀ j < n, (s.jobs j).Ended) → (∀ j, n ≤ j → (s.jobs j).Fresh) →
      s.total = (collected s.jobs n).foldl (· + ·) 0 → Progress n s
  | faulted : s.phase = .faulted → (∀ j < n, (s.jobs j).Running ∨ (s.jobs j).Ended) →
      (∀ j, n ≤ j → (s.jobs j).Fresh) → (∃ i < n, (s.jobs i).outcome = some .notCreated) →
      Progress n s

theorem Progress.init (n : ℕ) : Progress n (.init : Client α) :=
  .before (Or.inl rfl) rfl (fun _ => ⟨by simp [Client.init, TaskJob.zero], rfl⟩) rfl

/-- In the first loop. -/
theorem Progress.of_creating (h : Progress n s) {i : ℕ} (hphase : s.phase = .creating i) :
    i ≤ n ∧ s.allocated = some true ∧ s.total = 0 ∧
      (∀ j < i, (s.jobs j).Running ∨ (s.jobs j).Ended) ∧ (∀ j, i ≤ j → (s.jobs j).Fresh) ∧
      s.exitStatus = none := by
  cases h with
  | before hstart => simp [hphase] at hstart
  | noServer _ hended => simp [hphase] at hended
  | summing i hsumming => simp [hphase] at hsumming
  | refused _ hreturned => simp [hphase] at hreturned
  | summed hreturned => simp [hphase] at hreturned
  | faulted hfaulted => simp [hphase] at hfaulted
  | creating k hcreating hle hallocated htotal hstarted hfresh hexit =>
    obtain rfl : i = k := by simpa [hphase] using hcreating
    exact ⟨hle, hallocated, htotal, hstarted, hfresh, hexit⟩

/-- In the second loop. -/
theorem Progress.of_summing (h : Progress n s) {i : ℕ} (hphase : s.phase = .summing i) :
    i ≤ n ∧ s.allocated = some true ∧ (∀ j < n, (s.jobs j).Running ∨ (s.jobs j).Ended) ∧
      (∀ j, n ≤ j → (s.jobs j).Fresh) ∧ (∀ j < i, (s.jobs j).Ended) ∧
      s.total = (collected s.jobs i).foldl (· + ·) 0 ∧ s.exitStatus = none := by
  cases h with
  | before hstart => simp [hphase] at hstart
  | noServer _ hended => simp [hphase] at hended
  | creating i hcreating => simp [hphase] at hcreating
  | refused _ hreturned => simp [hphase] at hreturned
  | summed hreturned => simp [hphase] at hreturned
  | faulted hfaulted => simp [hphase] at hfaulted
  | summing k hsumming hle hallocated hstarted hfresh hended htotal hexit =>
    obtain rfl : i = k := by simpa [hphase] using hsumming
    exact ⟨hle, hallocated, hstarted, hfresh, hended, htotal, hexit⟩

/-- Before the workers are created. -/
theorem Progress.of_before (h : Progress n s)
    (hphase : s.phase = .discovering ∨ s.phase = .allocating) :
    (s.phase = .allocating → 0 < n) ∧ s.allocated = none ∧ (∀ j, (s.jobs j).Fresh) ∧
      s.exitStatus = none := by
  cases h with
  | before hstart hallocated hfresh hexit =>
    refine ⟨fun hallocating => ?_, hallocated, hfresh, hexit⟩
    simpa [hallocating] using hstart
  | noServer _ hended => simp [hended] at hphase
  | creating i hcreating => simp [hcreating] at hphase
  | summing i hsumming => simp [hsumming] at hphase
  | refused _ hreturned => rcases hreturned with h | ⟨h, -⟩ <;> simp [h] at hphase
  | summed hreturned => rcases hreturned with h | ⟨h, -⟩ <;> simp [h] at hphase
  | faulted hfaulted => simp [hfaulted] at hphase

/-- A worker is created for the next job. -/
theorem Progress.create (h : Progress n s) {i : ℕ} (hphase : s.phase = .creating i) (hi : i < n)
    (ok : Bool) :
    Progress n { s with
      jobs := Function.update s.jobs i (createWorker (s.jobs i) ok)
      phase := .creating (i + 1) } := by
  obtain ⟨-, hallocated, htotal, hstarted, hfresh, hexit⟩ := h.of_creating hphase
  refine .creating (i + 1) rfl hi hallocated htotal ?_ ?_ hexit
  · intro j hj
    show (Function.update s.jobs i _ j).Running ∨ (Function.update s.jobs i _ j).Ended
    by_cases hji : j = i
    · subst hji
      rw [Function.update_self]
      exact createWorker_state _ (hfresh j le_rfl) ok
    · rw [Function.update_of_ne hji]
      exact hstarted j (by omega)
  · intro j hj
    show (Function.update s.jobs i _ j).Fresh
    rw [Function.update_of_ne (by omega)]
    exact hfresh j (by omega)

/-- A worker that returns changes only its own job, which has not been joined. -/
theorem Progress.finish (h : Progress n s) {i : ℕ} (hgoing : s.phase ≠ .faulted)
    (hthread : (s.jobs i).thread = .running) (o : StripOutcome α) :
    Progress n { s with jobs := Function.update s.jobs i (taskWorker (s.jobs i) o) } := by
  have hnotFresh : ¬ (s.jobs i).Fresh := fun hfresh => hfresh.1 hthread
  have hnotEnded : ¬ (s.jobs i).Ended := fun hended => hended.1 hthread
  have hself : (Function.update s.jobs i (taskWorker (s.jobs i) o) i).Ended := by
    rw [Function.update_self]
    exact taskWorker_ended _ o
  have hother : ∀ j, j ≠ i → Function.update s.jobs i (taskWorker (s.jobs i) o) j = s.jobs j :=
    fun j hj => Function.update_of_ne hj _ _
  have hstarted : ∀ m, (∀ j < m, (s.jobs j).Running ∨ (s.jobs j).Ended) → ∀ j < m,
      (Function.update s.jobs i (taskWorker (s.jobs i) o) j).Running ∨
        (Function.update s.jobs i (taskWorker (s.jobs i) o) j).Ended := by
    intro m hall j hj
    by_cases hji : j = i
    · exact Or.inr (hji ▸ hself)
    · rw [hother j hji]
      exact hall j hj
  have hfresh : ∀ m, (∀ j, m ≤ j → (s.jobs j).Fresh) → ∀ j, m ≤ j →
      (Function.update s.jobs i (taskWorker (s.jobs i) o) j).Fresh := by
    intro m hall j hj
    have hji : j ≠ i := by
      rintro rfl
      exact hnotFresh (hall j hj)
    rw [hother j hji]
    exact hall j hj
  cases h with
  | before _ _ hall => exact absurd (hall i) hnotFresh
  | noServer _ _ _ hall => exact absurd (hall i) hnotFresh
  | refused _ _ _ hall => exact absurd (hall i) hnotFresh
  | faulted hfaulted => exact absurd hfaulted hgoing
  | creating k hphase hle hallocated htotal hrun hnone hexit =>
    exact .creating k hphase hle hallocated htotal (hstarted k hrun) (hfresh k hnone) hexit
  | summing k hphase hle hallocated hrun hnone hended htotal hexit =>
    -- the jobs that have been joined are others
    have hbefore : ∀ j < k, j ≠ i := by
      rintro j hj rfl
      exact hnotEnded (hended j hj)
    refine .summing k hphase hle hallocated (hstarted n hrun) (hfresh n hnone) ?_ ?_ hexit
    · intro j hj
      show (Function.update s.jobs i _ j).Ended
      rw [hother j (hbefore j hj)]
      exact hended j hj
    · show s.total = (collected (Function.update s.jobs i _) k).foldl (· + ·) 0
      rw [htotal, collected_congr fun j hj => (hother j (hbefore j hj)).symm]
  | summed _ _ hended hnone =>
    by_cases hi : i < n
    · exact absurd (hended i hi) hnotEnded
    · exact absurd (hnone i (by omega)) hnotFresh

/-- A job that has ended is added to the sum. -/
theorem Progress.join (h : Progress n s) {i : ℕ} (hphase : s.phase = .summing i) (hi : i < n)
    (hjoined : (s.jobs i).thread ≠ .running) :
    Progress n { s with
      total := if (s.jobs i).status = 0 then s.total + (s.jobs i).result else s.total
      phase := .summing (i + 1) } := by
  obtain ⟨-, hallocated, hstarted, hfresh, hended, htotal, hexit⟩ := h.of_summing hphase
  have hdone : (s.jobs i).Ended := (hstarted i hi).resolve_left fun hrun => hjoined hrun.1
  refine .summing (i + 1) rfl hi hallocated hstarted hfresh ?_ ?_ hexit
  · intro j hj
    rcases Nat.lt_succ_iff_lt_or_eq.mp hj with hj | rfl
    · exact hended j hj
    · exact hdone
  · show (if (s.jobs i).status = 0 then s.total + (s.jobs i).result else s.total) = _
    rw [collected_succ, htotal]

theorem Progress.print (h : Progress n s) (hphase : s.phase = .returned) :
    Progress n { s with phase := .ended, printed := some s.total, exitStatus := some 0 } := by
  cases h with
  | before hstart => simp [hphase] at hstart
  | noServer _ hended => simp [hphase] at hended
  | creating i hcreating => simp [hphase] at hcreating
  | summing i hsumming => simp [hphase] at hsumming
  | faulted hfaulted => simp [hphase] at hfaulted
  | refused hn _ hallocated hfresh => exact .refused hn (Or.inr ⟨rfl, rfl⟩) hallocated hfresh
  | summed _ hallocated hended hfresh htotal =>
    exact .summed (Or.inr ⟨rfl, rfl, rfl⟩) hallocated hended hfresh htotal

theorem Progress.step (h : Progress n s) {a : ClientAction α} (hstep : clientStep n s a = some s') :
    Progress n s' := by
  cases move_of_step hstep with
  | noServer hphase hn =>
    obtain ⟨-, hallocated, hfresh, -⟩ := h.of_before (Or.inl hphase)
    exact .noServer hn rfl hallocated hfresh rfl
  | discover hphase hn =>
    obtain ⟨-, hallocated, hfresh, hexit⟩ := h.of_before (Or.inl hphase)
    exact .before (Or.inr ⟨rfl, hn⟩) hallocated hfresh hexit
  | allocate ok hphase =>
    obtain ⟨hn, -, hfresh, hexit⟩ := h.of_before (Or.inr hphase)
    cases ok with
    | true => exact .creating 0 rfl (Nat.zero_le n) rfl rfl (by simp) (fun j _ => hfresh j) hexit
    | false => exact .refused (hn hphase) (Or.inl rfl) rfl hfresh
  | create i ok hphase hi => exact h.create hphase hi ok
  | finish i o hgoing hrunning => exact h.finish hgoing hrunning o
  | beginSum hphase =>
    obtain ⟨-, hallocated, htotal, hstarted, hfresh, hexit⟩ := h.of_creating hphase
    exact .summing 0 rfl (Nat.zero_le n) hallocated hstarted hfresh (by simp) htotal hexit
  | join i hphase hi hjoined => exact h.join hphase hi hjoined
  | joinUnspecified i hphase hi hhandle =>
    obtain ⟨-, -, hstarted, hfresh, -⟩ := h.of_summing hphase
    refine .faulted rfl hstarted hfresh ⟨i, hi, ?_⟩
    -- such a handle is left only by a `pthread_create` that failed
    rcases hstarted i hi with hrun | hended
    · exact absurd hhandle (by simp [hrun.1])
    · exact hended.unspecified hhandle
  | endSum i hphase hi =>
    obtain ⟨hle, hallocated, -, hfresh, hended, htotal, -⟩ := h.of_summing hphase
    obtain rfl : i = n := le_antisymm hle hi
    exact .summed (Or.inl rfl) hallocated hended hfresh htotal
  | print hphase => exact h.print hphase

/-! ## Failures -/

/-- A strip whose worker is running has no outcome. -/
theorem Progress.outcome_of_running (h : Progress n s) {i : ℕ}
    (hrunning : (s.jobs i).thread = .running) : (s.jobs i).outcome = none := by
  -- only a worker that was created runs
  have hnotFresh : ¬ (s.jobs i).Fresh := fun hfresh => hfresh.1 hrunning
  have hof : (s.jobs i).Running ∨ (s.jobs i).Ended → (s.jobs i).outcome = none := by
    rintro (hrun | hended)
    · exact hrun.2
    · exact absurd hrunning hended.1
  cases h with
  | before _ _ hall => exact absurd (hall i) hnotFresh
  | noServer _ _ _ hall => exact absurd (hall i) hnotFresh
  | refused _ _ _ hall => exact absurd (hall i) hnotFresh
  | creating k _ _ _ _ hstarted hfresh =>
    by_cases hi : i < k
    · exact hof (hstarted i hi)
    · exact absurd (hfresh i (by omega)) hnotFresh
  | summing k _ _ _ hstarted hfresh | faulted _ hstarted hfresh =>
    by_cases hi : i < n
    · exact hof (hstarted i hi)
    · exact absurd (hfresh i (by omega)) hnotFresh
  | summed _ _ hended hfresh =>
    by_cases hi : i < n
    · exact absurd hrunning (hended i hi).1
    · exact absurd (hfresh i (by omega)) hnotFresh

/-- A step that fails is seen in the state. -/
theorem noneFailed_step (h : Progress n s) {a : ClientAction α}
    (hstep : clientStep n s a = some s') : NoneFailed s' ↔ NoneFailed s ∧ Succeeds s a := by
  -- a step that neither allocates nor ends a strip
  have hsame : s'.allocated = s.allocated → s'.jobs = s.jobs → Succeeds s a →
      (NoneFailed s' ↔ NoneFailed s ∧ Succeeds s a) := by
    intro hallocated hjobs hsucceeds
    simp only [NoneFailed, hallocated, hjobs, hsucceeds, and_true]
  cases move_of_step hstep with
  | noServer | discover | beginSum | join | joinUnspecified | endSum | print =>
    exact hsame rfl rfl trivial
  | allocate ok hphase =>
    have hnone : s.allocated = none := (h.of_before (Or.inr hphase)).2.1
    simp only [NoneFailed, Succeeds, hnone]
    cases ok <;> simp
  | create i ok hphase =>
    obtain ⟨-, -, -, -, hfresh, -⟩ := h.of_creating hphase
    have hnone : (s.jobs i).outcome = none := (hfresh i le_rfl).2
    have hcreated : (∀ o, (createWorker (s.jobs i) ok).outcome = some o → o.isSuccess = true) ↔
        ok = true := by
      cases ok <;> simp [createWorker, hnone, StripOutcome.isSuccess]
    simp only [NoneFailed, noneFailed_update hnone, Succeeds]
    rw [hcreated, and_assoc]
  | finish i o _ hrunning =>
    have hnone := h.outcome_of_running hrunning
    simp only [NoneFailed, noneFailed_update hnone, Succeeds, taskWorker_outcome,
      Option.some.injEq, forall_eq']
    rw [and_assoc]

/-! ## Runs -/

/-- After a run, the state tells whether a step has failed. -/
theorem progress_of_run {tr : List (Client α × ClientAction α)}
    (hrun : Run (clientStep n) .init tr s) :
    Progress n s ∧ (NoneFailed s ↔ StepsMeet Succeeds tr) := by
  induction hrun with
  | nil => exact ⟨.init n, by simp [NoneFailed, Client.init, TaskJob.zero]⟩
  | snoc _ hlast ih =>
    refine ⟨ih.1.step hlast, ?_⟩
    rw [noneFailed_step ih.1 hlast, ih.2, stepsMeet_snoc]

/-- In every run to its end, what the client reports with `EXIT_SUCCESS` is the sum of the results
of all strips exactly if no allocation, no `pthread_create` and no strip has failed. -/
theorem reportsWhole_iff_of_run {tr : List (Client α × ClientAction α)}
    (hrun : Run (clientStep n) .init tr s) (hphase : s.phase = .ended) :
    ReportsWhole n s ↔ StepsMeet Succeeds tr := by
  obtain ⟨hprogress, hfailed⟩ := progress_of_run hrun
  rw [← hfailed]
  cases hprogress with
  | before hstart => simp [hphase] at hstart
  | creating i hcreating => simp [hphase] at hcreating
  | summing i hsumming => simp [hphase] at hsumming
  | faulted hfaulted => simp [hphase] at hfaulted
  | noServer _ _ hallocated hfresh hexit =>
    refine iff_of_true (fun hzero => by simp [hexit] at hzero) ⟨by simp [hallocated], ?_⟩
    intro j o ho
    simp [(hfresh j).2] at ho
  | refused hn hreturned hallocated hfresh =>
    have hexit : s.exitStatus = some 0 := by simpa [hphase] using hreturned
    refine iff_of_false (fun hwhole => ?_) (fun hnone => hnone.1 hallocated)
    -- 0.0 is reported, and no strip has a result
    obtain ⟨results, hlength, houtcome, -⟩ := hwhole hexit
    have hsome := houtcome 0 results[0] (List.getElem?_eq_getElem (by omega))
    simp [(hfresh 0).2] at hsome
  | summed hreturned hallocated hended hfresh htotal =>
    obtain ⟨hexit, hprinted⟩ : s.exitStatus = some 0 ∧ s.printed = some s.total := by
      simpa [hphase] using hreturned
    constructor
    · intro hwhole
      obtain ⟨results, hlength, houtcome, -⟩ := hwhole hexit
      refine ⟨by simp [hallocated], fun j o ho => ?_⟩
      by_cases hj : j < n
      · have hsuccess := houtcome j results[j] (List.getElem?_eq_getElem (by omega))
        obtain rfl : o = .success results[j] := Option.some.inj (ho.symm.trans hsuccess)
        rfl
      · simp [(hfresh j (by omega)).2] at ho
    · intro hnone _
      obtain ⟨hcollected, houtcome⟩ := collected_of_noneFailed hnone hended
      refine ⟨(List.range n).map fun j => (s.jobs j).result, by simp, ?_, ?_⟩
      · intro i x hx
        obtain ⟨hi, rfl⟩ : i < n ∧ (s.jobs i).result = x := by
          simpa [List.getElem?_eq_some_iff] using hx
        exact houtcome i hi
      · rw [hprinted, htotal, hcollected]

/-! ## The numbers of a run -/

/-- All numbers that the client has are such as `P`. -/
structure AllNumbers (P : α → Prop) (s : Client α) : Prop where
  total : P s.total
  result : ∀ i, P (s.jobs i).result
  printed : ∀ x ∈ s.printed, P x

/-- One step, if the results that come in are such as `P`. -/
theorem AllNumbers.step {P : α → Prop} (hzero : P 0) (hadd : ∀ x y, P x → P y → P (x + y))
    (h : AllNumbers P s) {a : ClientAction α}
    (hresult : ∀ i x, a = .finish i (.success x) → P x) (hstep : clientStep n s a = some s') :
    AllNumbers P s' := by
  -- where the job of one strip has changed
  have hupdate : ∀ i job, P job.result → ∀ j, P (Function.update s.jobs i job j).result := by
    intro i job hjob j
    by_cases hji : j = i
    · subst hji
      rwa [Function.update_self]
    · rw [Function.update_of_ne hji]
      exact h.result j
  cases move_of_step hstep with
  | noServer | discover | beginSum | joinUnspecified | endSum =>
    exact ⟨h.total, h.result, h.printed⟩
  | allocate ok => exact ⟨hzero, h.result, h.printed⟩
  | create i ok =>
    refine ⟨h.total, hupdate i _ ?_, h.printed⟩
    rw [createWorker_result]
    exact h.result i
  | finish i o =>
    refine ⟨h.total, hupdate i _ ?_, h.printed⟩
    exact taskWorker_result (h.result i) fun x hx => hresult i x (hx ▸ rfl)
  | join i =>
    refine ⟨?_, h.result, h.printed⟩
    show P (if (s.jobs i).status = 0 then s.total + (s.jobs i).result else s.total)
    split
    · exact hadd _ _ h.total (h.result i)
    · exact h.total
  | print =>
    refine ⟨h.total, h.result, ?_⟩
    rintro _ ⟨⟩
    exact h.total

/-- What holds of zero, of a sum and of every result holds of what is printed. -/
theorem printed_of_run {P : α → Prop} (hzero : P 0) (hadd : ∀ x y, P x → P y → P (x + y))
    {tr : List (Client α × ClientAction α)} (hrun : Run (clientStep n) .init tr s)
    (hmeet : StepsMeet (fun _ a => ∀ i x, a = .finish i (.success x) → P x) tr) :
    ∀ x ∈ s.printed, P x := by
  have hinit : AllNumbers P (.init : Client α) := ⟨hzero, fun _ => hzero, by simp [Client.init]⟩
  have hall := hrun.invariant hinit (fun t a u ht ha hstep => ht.step hzero hadd ha hstep) hmeet
  exact hall.printed

end Loops

/-! ## Two strips -/

/-- Two strips, the second of which ends first. -/
def twoStrips (second : StripOutcome ℚ) : List (ClientAction ℚ) :=
  [.discover, .allocate true, .create true, .create true, .finish 1 second,
    .finish 0 (.success 1), .collect, .collect, .collect, .collect, .print]

private theorem two_results_executes :
    (execute (clientStep 2) (fun _ a => match a with
        | .allocate ok | .create ok => ok
        | .finish _ o => o.isSuccess
        | _ => true) .init (twoStrips (.success 2))).isSome = true := by
  decide +kernel

/-- `reportsWhole_iff_of_run` where both strips have a result. -/
theorem reportsWhole_two_results :
    ∃ tr s, Run (clientStep 2) (.init : Client ℚ) tr s ∧ s.exitStatus = some 0 ∧
      s.printed = some 3 ∧ ReportsWhole 2 s := by
  obtain ⟨tr, h, hmeet⟩ := exists_run_of_isSome two_results_executes
  have hsucceeds : StepsMeet Succeeds tr := by
    refine hmeet.mono fun s a h => ?_
    cases a <;> simp_all [Succeeds]
  exact ⟨tr, _, h, by decide +kernel, by decide +kernel,
    (reportsWhole_iff_of_run h (by decide +kernel)).mpr hsucceeds⟩

private theorem one_result_executes :
    (execute (clientStep 2) (fun _ _ => true) .init (twoStrips .connectFailed)).isSome = true := by
  decide +kernel

/-- The second server cannot be reached: the result of the first strip is printed as the final
result, with `EXIT_SUCCESS`. -/
theorem partial_sum_reported :
    ∃ tr s, Run (clientStep 2) (.init : Client ℚ) tr s ∧ s.phase = .ended ∧
      s.exitStatus = some 0 ∧ s.printed = some 1 ∧
      (s.jobs 1).outcome = some .connectFailed ∧ ¬ ReportsWhole 2 s := by
  obtain ⟨tr, h, -⟩ := exists_run_of_isSome one_result_executes
  refine ⟨tr, _, h, by decide +kernel, by decide +kernel, by decide +kernel, by decide +kernel, ?_⟩
  intro hwhole
  obtain ⟨results, hlength, houtcome, -⟩ := hwhole (by decide +kernel)
  have hsome := houtcome 1 results[1] (List.getElem?_eq_getElem (by omega))
  have hfailed : (((execute (clientStep 2) (fun _ _ => true) (.init : Client ℚ)
      (twoStrips .connectFailed)).get one_result_executes).jobs 1).outcome
        = some .connectFailed := by
    decide +kernel
  simp [hfailed] at hsome

end MonteCarlo
