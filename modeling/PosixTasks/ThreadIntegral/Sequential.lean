import PosixTasks.ThreadIntegral.Estimate

/-!
# The threads and the plain loops

Without threads, `CalculateIntegral` would call `MonteCarloThread` once for each cell, row by row.
Whatever the schedule, the threads return the same number: they keep each other out while the
counter is read and written, none waits for ever, and additions commute.

## Main results

* `Inv.exclusive`: at most one thread is between `pthread_mutex_lock` and `pthread_mutex_unlock`;
* `endsSequential_of_init`: every schedule ends with what the plain loops return.
-/

namespace ThreadIntegral

open Transition

variable {K : Type*} [Field K] [LinearOrder K]

/-! ## The plain loops -/

/-- `MonteCarloThread` called with a counter of its own: the counter afterwards. -/
def monteCarloThread (sys : System) (data : PthreadData K) (counter : ℕ) : ℕ :=
  if setThisThreadToCore sys data.assignedCore ≠ 0 then counter
  else counter + sampleLoop sys data data.pointsPerThread data.seed 0

/-- One row of cells, as far as the column `j`. -/
def sequentialRow (sys : System) (args : Args K) (p : Plan K) (i : ℕ) : ℕ → ℕ → ℕ
  | 0, counter => counter
  | j + 1, counter =>
      monteCarloThread sys (cellData sys args p i j (i * args.side + j))
        (sequentialRow sys args p i j counter)

/-- The first rows of cells. -/
def sequentialRows (sys : System) (args : Args K) (p : Plan K) : ℕ → ℕ
  | 0 => 0
  | i + 1 => sequentialRow sys args p i args.side (sequentialRows sys args p i)

/-- `CalculateIntegral` with the threads called one after another. -/
def sequentialIntegral (sys : System) (args : Args K) (p : Plan K) : K :=
  (args.xMax - args.xMin) * (args.yMax - args.yMin)
    * sequentialRows sys args p args.side / totalPoints

/-- At most one thread has locked the mutex. -/
def State.Exclusive (s : State K) : Prop :=
  ∀ k l thread other, s.tid k = some thread → s.tid l = some other →
    thread.pc.holds = true → other.pc.holds = true → k = l

section Proofs

variable {sys : System} {args : Args K} {p : Plan K} {s : State K}

theorem monteCarloThread_eq {i j : ℕ} (hj : j < args.side) (counter : ℕ) :
    monteCarloThread sys (cellData sys args p i j (i * args.side + j)) counter
      = counter + hitsOf sys args p (i * args.side + j) := by
  have hdata : cellData sys args p i j (i * args.side + j)
      = threadData sys args p (i * args.side + j) := cellData_eq hj rfl
  rw [monteCarloThread, hdata]
  -- a thread without its core draws no points
  by_cases hpin : Pinned sys (i * args.side + j)
  · have hcore : setThisThreadToCore sys
        (threadData sys args p (i * args.side + j)).assignedCore = 0 := hpin
    rw [if_neg (not_not.mpr hcore), sampleLoop_of_pinned hpin]
  · have hcore : setThisThreadToCore sys
        (threadData sys args p (i * args.side + j)).assignedCore ≠ 0 := hpin
    rw [if_pos hcore, hitsOf_of_not_pinned hpin, Nat.add_zero]

/-- A row adds the hits of its cells. -/
theorem sequentialRow_eq {i j : ℕ} (hj : j ≤ args.side) :
    sequentialRow sys args p i j (∑ k ∈ Finset.range (i * args.side), hitsOf sys args p k)
      = ∑ k ∈ Finset.range (i * args.side + j), hitsOf sys args p k := by
  induction j with
  | zero => rfl
  | succ j ih =>
    rw [sequentialRow, ih (by omega), monteCarloThread_eq (by omega), ← Nat.add_assoc,
      Finset.sum_range_succ]

theorem sequentialRows_eq (i : ℕ) :
    sequentialRows sys args p i = ∑ k ∈ Finset.range (i * args.side), hitsOf sys args p k := by
  induction i with
  | zero => simp [sequentialRows]
  | succ i ih => rw [sequentialRows, ih, sequentialRow_eq le_rfl, ← Nat.succ_mul]

/-! ## The threads -/

theorem Inv.exclusive (hs : Inv sys args p s) : s.Exclusive := by
  intro k l thread other hk hl hholds hother
  -- who is between lock and unlock is the one that the mutex names
  have hmutex : s.mutex = some k := (hs.threads k thread hk).mutex.mp hholds
  have hmutex' : s.mutex = some l := (hs.threads l other hl).mutex.mp hother
  exact Option.some.inj (hmutex.symm.trans hmutex')

omit [Field K] [LinearOrder K] in
theorem work_init (hplan : p.numThreads = args.side * args.side) :
    (init : State K).work args p = 8 * (args.side * args.side) + 2 * args.side + 2 := by
  have hthreads : ∑ k ∈ Finset.range p.numThreads, threadWork ((init : State K).tid k)
      = p.numThreads * 6 := by
    simp [init, threadWork]
  rw [State.work, hthreads, hplan]
  simp only [init, mainWork, Nat.sub_zero, Nat.mul_add, Nat.mul_one]
  omega

/-- With at least one thread, every schedule ends, what is returned is what the plain loops
compute, and no two threads are ever between lock and unlock. -/
theorem endsSequential_of_init (h : plan args = .ok p) (hn : 0 < args.numThreadsSqrt) :
    EndsWithin (step sys args p) (8 * (args.side * args.side) + 2 * args.side + 2)
        (fun s => s.main = .returned (sequentialIntegral sys args p)) init ∧
      ∀ tr s, Run (step sys args p) init tr s → s.Exclusive := by
  have hplan : p.numThreads = args.side * args.side := numThreads_eq h hn
  have hhits : sequentialRows sys args p args.side = hits sys args p := by
    rw [sequentialRows_eq, hits, hplan]
  refine ⟨?_, fun tr s hrun => (inv_of_run hplan hn hrun).exclusive⟩
  rw [← work_init hplan]
  refine EndsWithin.of_invariant inv_init (fun _ _ _ ht hstep => inv_step ht hplan hn hstep)
    (fun _ _ _ ht hstep => work_lt ht hplan hn hstep) fun t ht hstuck => ?_
  obtain ⟨value, hvalue⟩ := returned_of_stuck ht hstuck
  have hmain := ht.main
  rw [MainOk, hvalue] at hmain
  rw [hvalue, sequentialIntegral, hhits]
  exact congrArg _ hmain

end Proofs

/-- Four threads over the unit square. -/
theorem endsSequential_unitSquare_two : ∃ p, plan (unitSquare 2) = .ok p ∧
    EndsWithin (step twelveCores (unitSquare 2) p) 38
      (fun s => s.main = .returned (sequentialIntegral twelveCores (unitSquare 2) p)) init := by
  obtain ⟨p, hp⟩ : ∃ p, plan (unitSquare 2) = .ok p := exists_plan (by decide) (by decide)
  exact ⟨p, hp, (endsSequential_of_init hp (by decide)).1⟩

end ThreadIntegral
