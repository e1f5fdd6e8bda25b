import PosixTasks.ThreadIntegral.Model

/-!
# The counter of the threads

The mutex lets one thread at a time read and write `shared.counter`, so no addition is lost: when
the main thread has joined all the others, the counter is the number of the points below the curve
that the threads have drawn. Every schedule ends there.

## Main results

* `inv_step`: the counter and what the threads have still to add are the hits of all of them;
* `returned_of_run`: what is returned, whatever the schedule;
* `returned_of_stuck`, `length_le_of_run`: every schedule goes on until the call returns.
-/

namespace ThreadIntegral

open Transition

variable {K : Type*} [Field K] [LinearOrder K]

/-! ## What the threads draw -/

/-- The points that the sampling loop draws in so many rounds. -/
def drawnPoints (sys : System) (data : PthreadData K) : ℕ → UInt32 → List (K × K)
  | 0, _ => []
  | rounds + 1, seed =>
      (drawPoint sys data seed).1 :: drawnPoints sys data rounds (drawPoint sys data seed).2

omit [LinearOrder K] in
@[simp]
theorem length_drawnPoints (sys : System) (data : PthreadData K) (rounds : ℕ) (seed : UInt32) :
    (drawnPoints sys data rounds seed).length = rounds := by
  induction rounds generalizing seed with
  | zero => rfl
  | succ rounds ih => rw [drawnPoints, List.length_cons, ih]

/-- The sampling loop counts the points drawn below the curve. -/
theorem sampleLoop_eq (sys : System) (data : PthreadData K) (rounds : ℕ) (seed : UInt32)
    (localCount : ℕ) :
    sampleLoop sys data rounds seed localCount
      = localCount + (drawnPoints sys data rounds seed).countP (Accepted data ·) := by
  induction rounds generalizing seed localCount with
  | zero => rfl
  | succ rounds ih =>
    rw [sampleLoop, drawnPoints, List.countP_cons]
    simp only [ih, decide_eq_true_eq]
    split <;> omega

section Run

variable (sys : System) (args : Args K) (p : Plan K)

/-- `num_threads_sqrt` where it is not negative. -/
def Args.side (args : Args K) : ℕ :=
  args.numThreadsSqrt.toNat

/-- The argument of thread `k`. -/
def threadData (k : ℕ) : PthreadData K :=
  cellData sys args p (k / args.side) (k % args.side) k

/-- Thread `k` is pinned to its core. -/
def Pinned (k : ℕ) : Prop :=
  setThisThreadToCore sys k = 0

instance (k : ℕ) : Decidable (Pinned sys k) :=
  inferInstanceAs (Decidable (_ = _))

/-- The points that thread `k` draws. -/
def pointsOf (k : ℕ) : List (K × K) :=
  if Pinned sys k then
    drawnPoints sys (threadData sys args p k) (threadData sys args p k).pointsPerThread
      (threadData sys args p k).seed
  else []

/-- The number of points below the curve that thread `k` draws. -/
def hitsOf (k : ℕ) : ℕ :=
  (pointsOf sys args p k).countP (Accepted (threadData sys args p k) ·)

/-- The number of points that all threads draw. -/
def samples : ℕ :=
  ∑ k ∈ Finset.range p.numThreads, (pointsOf sys args p k).length

/-- The number of points below the curve that all threads draw. -/
def hits : ℕ :=
  ∑ k ∈ Finset.range p.numThreads, hitsOf sys args p k

/-! ## The invariant -/

/-- What the thread is about to add. -/
def ThreadPc.localCount : ThreadPc → Option ℕ
  | .counted localCount | .locked localCount | .loaded localCount _ => some localCount
  | .entry | .stored | .exited => none

/-- The thread has locked the mutex. -/
def ThreadPc.holds : ThreadPc → Bool
  | .locked _ | .loaded _ _ | .stored => true
  | .entry | .counted _ | .exited => false

/-- The thread has nothing to add any more. -/
def ThreadPc.added : ThreadPc → Bool
  | .stored | .exited => true
  | .entry | .counted _ | .locked _ | .loaded _ _ => false

/-- How many threads are created. -/
def State.created (s : State K) : ℕ :=
  match s.main with
  | .create _ _ k => k
  | _ => p.numThreads

/-- What thread `k` has still to add. -/
def State.owed (s : State K) (k : ℕ) : ℕ :=
  if (s.tid k).any (·.pc.added) then 0 else hitsOf sys args p k

/-- Thread `k` has exited. -/
def State.Exited (s : State K) (k : ℕ) : Prop :=
  ∃ thread, s.tid k = some thread ∧ thread.pc = .exited

/-- What holds of thread `k`. -/
structure ThreadOk (s : State K) (k : ℕ) (thread : Thread K) : Prop where
  data : thread.data = threadData sys args p k
  count : ∀ localCount, thread.pc.localCount = some localCount → localCount = hitsOf sys args p k
  mutex : thread.pc.holds = true ↔ s.mutex = some k
  fresh : ∀ localCount counter, thread.pc = .loaded localCount counter → counter = s.counter

/-- What holds of the main thread. -/
def MainOk (s : State K) : Prop :=
  match s.main with
  | .create i j k => k = i * args.side + j ∧ i ≤ args.side ∧ j ≤ args.side ∧ (i = args.side → j = 0)
  | .join i => ∀ k < i, s.Exited k
  | .returned value =>
      value = (args.xMax - args.xMin) * (args.yMax - args.yMin) * hits sys args p / totalPoints
  | .fault _ => False

/-- No addition is lost. -/
structure Inv (s : State K) : Prop where
  threads : ∀ k thread, s.tid k = some thread → ThreadOk sys args p s k thread
  created : ∀ k, (s.tid k).isSome ↔ k < s.created p
  holder : ∀ k, s.mutex = some k → (s.tid k).isSome
  balance : s.counter + ∑ k ∈ Finset.range p.numThreads, s.owed sys args p k = hits sys args p
  main : MainOk sys args p s

end Run

section Proofs

variable {sys : System} {args : Args K} {p : Plan K} {s s' : State K}

/-! ## What one step can do -/

/-- Each branch of `step`, with the tests that lead to it. -/
inductive Move (sys : System) (args : Args K) (p : Plan K) (s : State K) :
    Action → State K → Prop where
  | create (i j k : ℕ) : s.main = .create i j k → (i : ℤ) < args.numThreadsSqrt →
      (j : ℤ) < args.numThreadsSqrt → Move sys args p s .main
        { s with
          tid := Function.update s.tid k (some { data := cellData sys args p i j k, pc := .entry })
          main := .create i (j + 1) (k + 1) }
  | nextRow (i j k : ℕ) : s.main = .create i j k → (i : ℤ) < args.numThreadsSqrt →
      args.numThreadsSqrt ≤ j → Move sys args p s .main { s with main := .create (i + 1) 0 k }
  | beginJoin (i j k : ℕ) : s.main = .create i j k → args.numThreadsSqrt ≤ i →
      Move sys args p s .main { s with main := .join 0 }
  | noThread (i : ℕ) : s.main = .join i → i < p.numThreads → s.tid i = none →
      Move sys args p s .main { s with main := .fault .noThread }
  | join (i : ℕ) : s.main = .join i → i < p.numThreads → s.Exited i →
      Move sys args p s .main { s with main := .join (i + 1) }
  | finish (i : ℕ) : s.main = .join i → p.numThreads ≤ i → Move sys args p s .main
      { s with
        main := .returned
          ((args.xMax - args.xMin) * (args.yMax - args.yMin) * s.counter / totalPoints) }
  /-- the thread returns without having drawn a point -/
  | notPinned (k : ℕ) (thread : Thread K) : s.tid k = some thread → thread.pc = .entry →
      setThisThreadToCore sys thread.data.assignedCore ≠ 0 →
      Move sys args p s (.thread k) (s.goto k thread .exited)
  | sample (k : ℕ) (thread : Thread K) : s.tid k = some thread → thread.pc = .entry →
      setThisThreadToCore sys thread.data.assignedCore = 0 →
      Move sys args p s (.thread k) (s.goto k thread (.counted
        (sampleLoop sys thread.data thread.data.pointsPerThread thread.data.seed 0)))
  | lock (k : ℕ) (thread : Thread K) (localCount : ℕ) : s.tid k = some thread →
      thread.pc = .counted localCount → s.mutex = none → Move sys args p s (.thread k)
        { s.goto k thread (.locked localCount) with mutex := some k }
  | load (k : ℕ) (thread : Thread K) (localCount : ℕ) : s.tid k = some thread →
      thread.pc = .locked localCount → Move sys args p s (.thread k)
        (s.goto k thread (.loaded localCount s.counter))
  | store (k : ℕ) (thread : Thread K) (localCount counter : ℕ) : s.tid k = some thread →
      thread.pc = .loaded localCount counter → Move sys args p s (.thread k)
        { s.goto k thread .stored with counter := counter + localCount }
  | unlock (k : ℕ) (thread : Thread K) : s.tid k = some thread → thread.pc = .stored →
      Move sys args p s (.thread k) { s.goto k thread .exited with mutex := none }

theorem mainStep_move (h : mainStep sys args p s = some s') : Move sys args p s .main s' := by
  unfold mainStep at h
  cases hpc : s.main <;> rw [hpc] at h <;> simp only [reduceCtorEq] at h
  case create i j k =>
    split_ifs at h with hi hj <;> obtain rfl := Option.some.inj h
    · exact .create i j k hpc hi hj
    · exact .nextRow i j k hpc hi (not_lt.mp hj)
    · exact .beginJoin i j k hpc (not_lt.mp hi)
  case join i =>
    split at h
    next hi =>
      split at h
      next hnone => exact Option.some.inj h ▸ .noThread i hpc hi hnone
      next thread hthread =>
        split_ifs at h with hexited
        exact Option.some.inj h ▸ .join i hpc hi ⟨thread, hthread, hexited⟩
    next hi => exact Option.some.inj h ▸ .finish i hpc (not_lt.mp hi)

theorem threadStep_move {k : ℕ} (h : threadStep sys s k = some s') :
    Move sys args p s (.thread k) s' := by
  unfold threadStep at h
  split at h
  next => cases h
  next thread hk =>
    cases hpc : thread.pc <;> rw [hpc] at h <;> simp only [reduceCtorEq] at h
    case entry =>
      split_ifs at h with hpin <;> obtain rfl := Option.some.inj h
      · exact .notPinned k thread hk hpc hpin
      · exact .sample k thread hk hpc (not_not.mp hpin)
    case counted localCount =>
      split_ifs at h with hfree
      exact Option.some.inj h ▸ .lock k thread localCount hk hpc hfree
    case locked localCount => exact Option.some.inj h ▸ .load k thread localCount hk hpc
    case loaded localCount counter =>
      exact Option.some.inj h ▸ .store k thread localCount counter hk hpc
    case stored => exact Option.some.inj h ▸ .unlock k thread hk hpc

theorem move_of_step {a : Action} (h : step sys args p s a = some s') :
    Move sys args p s a s' := by
  cases a with
  | main => exact mainStep_move h
  | thread k => exact threadStep_move h

/-! ## One thread goes on -/

/-- Two sums that differ at one place. -/
theorem sum_add_eq {f g : ℕ → ℕ} {n k : ℕ} (hk : k < n) (h : ∀ j ≠ k, f j = g j) :
    ∑ j ∈ Finset.range n, f j + g k = ∑ j ∈ Finset.range n, g j + f k := by
  have hmem : k ∈ Finset.range n := Finset.mem_range.mpr hk
  have hrest : ∑ j ∈ (Finset.range n).erase k, f j = ∑ j ∈ (Finset.range n).erase k, g j :=
    Finset.sum_congr rfl fun j hj => h j (Finset.ne_of_mem_erase hj)
  rw [← Finset.add_sum_erase _ f hmem, ← Finset.add_sum_erase _ g hmem, hrest]
  omega

theorem State.owed_of_tid {k : ℕ} {thread : Thread K} (h : s.tid k = some thread) :
    s.owed sys args p k = if thread.pc.added then 0 else hitsOf sys args p k := by
  rw [State.owed, h]
  rfl

theorem State.owed_congr {k : ℕ} (h : s'.tid k = s.tid k) :
    s'.owed sys args p k = s.owed sys args p k := by
  rw [State.owed, State.owed, h]

/-- A created thread is one of the planned ones. -/
theorem Inv.lt_numThreads (hs : Inv sys args p s)
    (hplan : p.numThreads = args.side * args.side) {k : ℕ} (h : (s.tid k).isSome) :
    k < p.numThreads := by
  have hk := (hs.created k).mp h
  have hmain := hs.main
  rw [State.created] at hk
  rw [MainOk] at hmain
  cases hpc : s.main with
  | create i j l =>
    rw [hpc] at hk hmain
    obtain ⟨rfl, hi, hj, hend⟩ := hmain
    -- the loops have gone through whole rows and a part of one
    have hle : i * args.side + j ≤ args.side * args.side := by
      rcases hi.lt_or_eq with hlt | rfl
      · calc i * args.side + j ≤ i * args.side + args.side := by omega
          _ = (i + 1) * args.side := by ring
          _ ≤ args.side * args.side := Nat.mul_le_mul_right _ hlt
      · rw [hend rfl, Nat.add_zero]
    simp only at hk
    omega
  | join i => rwa [hpc] at hk
  | returned v => rwa [hpc] at hk
  | fault f => rwa [hpc] at hk

/-- Where the main thread is does not depend on the threads that have not exited. -/
theorem MainOk.congr (h : MainOk sys args p s) (hmain : s'.main = s.main)
    (hexited : ∀ k, s.Exited k → s'.Exited k) : MainOk sys args p s' := by
  unfold MainOk at h ⊢
  rw [hmain]
  cases hpc : s.main with
  | create i j k =>
    rw [hpc] at h
    exact h
  | join i =>
    rw [hpc] at h
    exact fun k hk => hexited k (h k hk)
  | returned value =>
    rw [hpc] at h
    exact h
  | fault f =>
    rw [hpc] at h
    exact h

/-- A step of one thread keeps the invariant if what it adds to the counter is no longer owed, and
it has locked the mutex while it reads and writes the counter. -/
theorem Inv.goto (hs : Inv sys args p s) (hplan : p.numThreads = args.side * args.side)
    {k counter : ℕ} {thread : Thread K} {pc : ThreadPc} {mutex : Option ℕ}
    (hk : s.tid k = some thread) (hpc : thread.pc ≠ .exited)
    (hcount : ∀ localCount, pc.localCount = some localCount → localCount = hitsOf sys args p k)
    (hmutex : pc.holds = true ↔ mutex = some k)
    (hothers : ∀ j ≠ k, mutex = some j ↔ s.mutex = some j)
    (hfresh : ∀ localCount c, pc = .loaded localCount c → c = counter)
    (hcounter : counter = s.counter ∨ s.mutex = some k)
    (hbalance : counter + (if pc.added then 0 else hitsOf sys args p k)
      = s.counter + if thread.pc.added then 0 else hitsOf sys args p k) :
    Inv sys args p { s.goto k thread pc with counter := counter, mutex := mutex } := by
  have hself : Function.update s.tid k (some { thread with pc }) k
      = some { thread with pc } := Function.update_self ..
  have hother : ∀ j ≠ k, Function.update s.tid k (some { thread with pc }) j = s.tid j :=
    fun j hj => Function.update_of_ne hj ..
  have hsome : ∀ j, (Function.update s.tid k (some { thread with pc }) j).isSome
      ↔ (s.tid j).isSome := by
    intro j
    by_cases hj : j = k
    · subst hj
      rw [hself, hk]
      simp
    · rw [hother j hj]
  refine ⟨fun j other hj => ?_, fun j => (hsome j).trans (hs.created j), fun j hj => ?_, ?_, ?_⟩
  · by_cases hjk : j = k
    · subst hjk
      obtain rfl : { thread with pc } = other := Option.some.inj (hself.symm.trans hj)
      exact ⟨(hs.threads j thread hk).data, hcount, hmutex, hfresh⟩
    · have hok := hs.threads j other ((hother j hjk).symm.trans hj)
      refine ⟨hok.data, hok.count, hok.mutex.trans (hothers j hjk).symm, fun l c hload => ?_⟩
      -- another thread that has read the counter holds the mutex
      have hlocked := hok.mutex.mp (by rw [hload]; rfl)
      rcases hcounter with heq | hheld
      · exact (hok.fresh l c hload).trans heq.symm
      · exact absurd (Option.some.inj (hlocked.symm.trans hheld)) hjk
  · refine (hsome j).mpr ?_
    by_cases hjk : j = k
    · rw [hjk, hk]
      rfl
    · exact hs.holder j ((hothers j hjk).mp hj)
  · have hlt : k < p.numThreads := hs.lt_numThreads hplan (by rw [hk]; rfl)
    have hsum := sum_add_eq (f := (({ s.goto k thread pc with counter, mutex } : State K).owed
      sys args p)) (g := s.owed sys args p) hlt fun j hj => State.owed_congr (hother j hj)
    rw [State.owed_of_tid hk, State.owed_of_tid hself] at hsum
    have hold := hs.balance
    simp only at hsum ⊢
    omega
  · refine hs.main.congr rfl ?_
    rintro j ⟨other, hj, hother'⟩
    have hjk : j ≠ k := by
      rintro rfl
      obtain rfl := Option.some.inj (hk.symm.trans hj)
      exact hpc hother'
    exact ⟨other, (hother j hjk).trans hj, hother'⟩

theorem hitsOf_of_not_pinned {k : ℕ} (h : ¬ Pinned sys k) : hitsOf sys args p k = 0 := by
  rw [hitsOf, pointsOf, if_neg h, List.countP_nil]

theorem sampleLoop_of_pinned {k : ℕ} (h : Pinned sys k) :
    sampleLoop sys (threadData sys args p k) (threadData sys args p k).pointsPerThread
      (threadData sys args p k).seed 0 = hitsOf sys args p k := by
  rw [sampleLoop_eq, hitsOf, pointsOf, if_pos h, Nat.zero_add]

/-! ## The main thread -/

omit [LinearOrder K] in
/-- The argument that the main thread gives to the next thread. -/
theorem cellData_eq {i j k : ℕ} (hj : j < args.side) (hk : k = i * args.side + j) :
    cellData sys args p i j k = threadData sys args p k := by
  have hdiv : k / args.side = i := by
    rw [hk, Nat.mul_comm, Nat.mul_add_div (by omega), Nat.div_eq_of_lt hj, Nat.add_zero]
  have hmod : k % args.side = j := by
    rw [hk, Nat.mul_comm, Nat.mul_add_mod, Nat.mod_eq_of_lt hj]
  rw [threadData, hdiv, hmod]

/-- A step of the main thread that creates no thread. -/
theorem Inv.main_step (hs : Inv sys args p s) {main : MainPc K}
    (hcreated : ({ s with main } : State K).created p = s.created p)
    (hmain : MainOk sys args p { s with main }) : Inv sys args p { s with main } where
  threads k thread hk :=
    have hok := hs.threads k thread hk
    ⟨hok.data, hok.count, hok.mutex, hok.fresh⟩
  created k := by
    rw [hcreated]
    exact hs.created k
  holder := hs.holder
  balance := hs.balance
  main := hmain

/-- The main thread creates thread `k`. -/
theorem Inv.create (hs : Inv sys args p s) {i j k : ℕ} (hpc : s.main = .create i j k)
    (hi : i < args.side) (hj : j < args.side) (hk : k = i * args.side + j) :
    Inv sys args p { s with
      tid := Function.update s.tid k (some { data := cellData sys args p i j k, pc := .entry })
      main := .create i (j + 1) (k + 1) } := by
  have hcreated := hs.created
  simp only [State.created, hpc] at hcreated
  -- element `k` is the first one that is not set
  have hnone : s.tid k = none := by
    have := hcreated k
    simpa using this
  -- a thread that does not exist holds no mutex
  have hfree : s.mutex ≠ some k := fun hheld => by
    simpa [hnone] using hs.holder k hheld
  refine ⟨fun l thread hl => ?_, fun l => ?_, fun l hl => ?_, ?_, ?_⟩
  · by_cases hlk : l = k
    · subst hlk
      simp only [Function.update_self, Option.some.injEq] at hl
      subst hl
      exact ⟨cellData_eq hj hk, by simp [ThreadPc.localCount],
        by simpa [ThreadPc.holds] using hfree, by simp⟩
    · simp only [Function.update_of_ne hlk] at hl
      have hok := hs.threads l thread hl
      exact ⟨hok.data, hok.count, hok.mutex, hok.fresh⟩
  · by_cases hlk : l = k
    · simp [hlk, State.created]
    · have := hcreated l
      simp only [State.created, Function.update_of_ne hlk, this]
      omega
  · have hlk : l ≠ k := by
      rintro rfl
      exact hfree hl
    simpa only [Function.update_of_ne hlk] using hs.holder l hl
  · rw [← hs.balance]
    congr 1
    refine Finset.sum_congr rfl fun l _ => ?_
    by_cases hlk : l = k
    · simp [State.owed, hlk, hnone, ThreadPc.added]
    · exact State.owed_congr (Function.update_of_ne hlk ..)
  · simp only [MainOk]
    omega

/-- Once all threads have exited, the counter is the number of hits. -/
theorem Inv.counter_eq (hs : Inv sys args p s) (h : ∀ k < p.numThreads, s.Exited k) :
    s.counter = hits sys args p := by
  have howed : ∑ k ∈ Finset.range p.numThreads, s.owed sys args p k = 0 := by
    refine Finset.sum_eq_zero fun k hk => ?_
    obtain ⟨thread, hthread, hpc⟩ := h k (Finset.mem_range.mp hk)
    rw [State.owed_of_tid hthread, hpc]
    rfl
  have hbalance := hs.balance
  omega

theorem inv_main (hs : Inv sys args p s) (hplan : p.numThreads = args.side * args.side)
    (hn : 0 < args.numThreadsSqrt) (h : Move sys args p s .main s') : Inv sys args p s' := by
  have hmain := hs.main
  have hcreated := hs.created
  have hside : (args.side : ℤ) = args.numThreadsSqrt := Int.toNat_of_nonneg hn.le
  unfold MainOk at hmain
  simp only [State.created] at hcreated
  cases h with
  | create i j k hpc hi hj =>
    rw [hpc] at hmain
    exact hs.create hpc (by omega) (by omega) hmain.1
  | nextRow i j k hpc hi hj =>
    rw [hpc] at hmain
    obtain ⟨hk, -, hle, -⟩ := hmain
    -- the next row starts where this one ends
    obtain rfl : j = args.side := by omega
    refine hs.main_step (by simp [State.created, hpc]) ?_
    exact ⟨by rw [hk]; ring, by omega, Nat.zero_le _, fun _ => rfl⟩
  | beginJoin i j k hpc hi =>
    rw [hpc] at hmain
    obtain ⟨hk, hle, -, hend⟩ := hmain
    obtain rfl : i = args.side := by omega
    have hall : k = p.numThreads := by rw [hk, hend rfl, hplan, Nat.add_zero]
    refine hs.main_step (by simp [State.created, hpc, hall]) ?_
    simp [MainOk]
  | noThread i hpc hi hnone =>
    rw [hpc] at hcreated
    have hsome := (hcreated i).mpr hi
    simp [hnone] at hsome
  | join i hpc hi hexited =>
    rw [hpc] at hmain
    refine hs.main_step (by simp [State.created, hpc]) fun k hk => ?_
    rcases Nat.lt_succ_iff_lt_or_eq.mp hk with hk | rfl
    · exact hmain k hk
    · exact hexited
  | finish i hpc hi =>
    rw [hpc] at hmain
    have hcounter := hs.counter_eq fun k hk => hmain k (by omega)
    refine hs.main_step (by simp [State.created, hpc]) ?_
    simp [MainOk, hcounter]

/-! ## The other threads -/

/-- Each step of a thread keeps the invariant. -/
theorem inv_thread (hs : Inv sys args p s) (hplan : p.numThreads = args.side * args.side)
    {k : ℕ} (h : Move sys args p s (.thread k) s') : Inv sys args p s' := by
  have hok := hs.threads k
  cases h with
  | notPinned _ thread hk hpc hpin =>
    obtain ⟨hdata, -, hmutex, -⟩ := hok thread hk
    rw [hdata] at hpin
    have hnone : hitsOf sys args p k = 0 := hitsOf_of_not_pinned hpin
    rw [hpc] at hmutex
    refine hs.goto hplan hk (by simp [hpc]) (by simp [ThreadPc.localCount]) hmutex
      (fun _ _ => Iff.rfl) (by simp) (Or.inl rfl) ?_
    simp [hpc, ThreadPc.added, hnone]
  | sample _ thread hk hpc hpin =>
    obtain ⟨hdata, -, hmutex, -⟩ := hok thread hk
    rw [hdata] at hpin ⊢
    rw [hpc] at hmutex
    refine hs.goto hplan hk (by simp [hpc]) ?_ hmutex (fun _ _ => Iff.rfl) (by simp)
      (Or.inl rfl) (by simp [hpc, ThreadPc.added])
    rintro _ ⟨⟩
    exact sampleLoop_of_pinned hpin
  | lock _ thread localCount hk hpc hfree =>
    have hcount := (hok thread hk).count
    rw [hpc] at hcount
    refine hs.goto hplan hk (by simp [hpc]) hcount (by simp [ThreadPc.holds]) ?_ (by simp)
      (Or.inl rfl) (by simp [hpc, ThreadPc.added, State.goto])
    intro j hj
    simp [hfree, Ne.symm hj]
  | load _ thread localCount hk hpc =>
    obtain ⟨-, hcount, hmutex, -⟩ := hok thread hk
    rw [hpc] at hcount hmutex
    refine hs.goto hplan hk (by simp [hpc]) hcount hmutex (fun _ _ => Iff.rfl) ?_ (Or.inl rfl)
      (by simp [hpc, ThreadPc.added])
    rintro _ _ ⟨⟩
    rfl
  | store _ thread localCount counter hk hpc =>
    obtain ⟨-, hcount, hmutex, hfresh⟩ := hok thread hk
    rw [hpc] at hcount hmutex
    have hheld : s.mutex = some k := hmutex.mp rfl
    refine hs.goto hplan hk (by simp [hpc]) (by simp [ThreadPc.localCount]) hmutex
      (fun _ _ => Iff.rfl) (by simp) (Or.inr hheld) ?_
    -- the counter has not changed since it was read
    rw [hfresh _ _ hpc, hcount _ rfl, hpc]
    simp [ThreadPc.added]
  | unlock _ thread hk hpc =>
    have hmutex := (hok thread hk).mutex
    rw [hpc] at hmutex
    have hheld : s.mutex = some k := hmutex.mp rfl
    refine hs.goto hplan hk (by simp [hpc]) (by simp [ThreadPc.localCount])
      (by simp [ThreadPc.holds]) ?_ (by simp) (Or.inl rfl)
      (by simp [hpc, ThreadPc.added, State.goto])
    intro j hj
    simp [hheld, Ne.symm hj]

theorem inv_init : Inv sys args p (init : State K) where
  threads := by simp [init]
  created := by simp [init, State.created]
  holder := by simp [init]
  balance := by simp [init, State.owed, hits]
  main := by simp [MainOk, init]

theorem inv_step (hs : Inv sys args p s) (hplan : p.numThreads = args.side * args.side)
    (hn : 0 < args.numThreadsSqrt) {a : Action} (h : step sys args p s a = some s') :
    Inv sys args p s' := by
  have hmove := move_of_step h
  cases a with
  | main => exact inv_main hs hplan hn hmove
  | thread k => exact inv_thread hs hplan hmove

/-! ## Every schedule ends -/

/-- How many steps a thread has still to take. -/
def threadWork : Option (Thread K) → ℕ
  | none => 6
  | some thread =>
      match thread.pc with
      | .entry => 5
      | .counted _ => 4
      | .locked _ => 3
      | .loaded _ _ => 2
      | .stored => 1
      | .exited => 0

/-- How many tests of its loops the main thread has still to make. -/
def mainWork (side : ℕ) : MainPc K → ℕ
  | .create i j _ => (side - i) * (side + 1) + (side - j) + side * side + 2
  | .join i => side * side + 1 - i
  | .returned _ | .fault _ => 0

/-- How many steps all threads have still to take. -/
def State.work (args : Args K) (p : Plan K) (s : State K) : ℕ :=
  mainWork args.side s.main + ∑ k ∈ Finset.range p.numThreads, threadWork (s.tid k)

/-- A thread that goes on has less to do, and the others are where they were. -/
theorem Move.thread_frame {k : ℕ} (h : Move sys args p s (.thread k) s') :
    ∃ thread pc, s.tid k = some thread ∧
      s'.tid = Function.update s.tid k (some { thread with pc }) ∧ s'.main = s.main ∧
      threadWork (some { thread with pc }) < threadWork (some thread) := by
  cases h with
  | notPinned _ thread hk hpc | sample _ thread hk hpc | unlock _ thread hk hpc
  | lock _ thread _ hk hpc | load _ thread _ hk hpc | store _ thread _ _ hk hpc =>
    exact ⟨thread, _, hk, rfl, rfl, by simp [threadWork, hpc]⟩

omit [Field K] [LinearOrder K] in
/-- A thread that is created has no more to do than one that is not. -/
theorem sum_threadWork_create_le {k n : ℕ} (hnone : s.tid k = none) (data : PthreadData K) :
    ∑ l ∈ Finset.range n, threadWork (Function.update s.tid k (some { data, pc := .entry }) l)
      ≤ ∑ l ∈ Finset.range n, threadWork (s.tid l) := by
  refine Finset.sum_le_sum fun l _ => ?_
  by_cases hlk : l = k
  · subst hlk
    simp [hnone, threadWork]
  · rw [Function.update_of_ne hlk]

theorem work_lt_main (hs : Inv sys args p s) (hplan : p.numThreads = args.side * args.side)
    (hn : 0 < args.numThreadsSqrt) (h : Move sys args p s .main s') :
    s'.work args p < s.work args p := by
  have hmain := hs.main
  have hcreated := hs.created
  have hside : (args.side : ℤ) = args.numThreadsSqrt := Int.toNat_of_nonneg hn.le
  unfold MainOk at hmain
  simp only [State.created] at hcreated
  cases h with
  | create i j k hpc hi hj =>
    rw [hpc] at hcreated
    have hnone : s.tid k = none := by
      simpa using hcreated k
    have hsum := sum_threadWork_create_le (n := p.numThreads) hnone (cellData sys args p i j k)
    simp only [State.work, hpc, mainWork]
    omega
  | nextRow i j k hpc hi hj =>
    have hrows : args.side - i = (args.side - (i + 1)) + 1 := by omega
    simp only [State.work, hpc, mainWork]
    rw [hrows, Nat.add_mul]
    omega
  | beginJoin i j k hpc hi =>
    simp only [State.work, hpc, mainWork]
    omega
  | noThread i hpc hi hnone =>
    rw [hpc] at hcreated
    have hsome := (hcreated i).mpr hi
    simp [hnone] at hsome
  | join i hpc hi =>
    simp only [State.work, hpc, mainWork]
    omega
  | finish i hpc hi =>
    rw [hpc] at hmain
    -- no more threads are joined than were created
    have hle : i ≤ p.numThreads := by
      by_contra hgt
      obtain ⟨thread, hthread, -⟩ := hmain p.numThreads (by omega)
      exact lt_irrefl _ (hs.lt_numThreads hplan (by rw [hthread]; rfl))
    simp only [State.work, hpc, mainWork]
    omega

theorem work_lt (hs : Inv sys args p s) (hplan : p.numThreads = args.side * args.side)
    (hn : 0 < args.numThreadsSqrt) {a : Action} (h : step sys args p s a = some s') :
    s'.work args p < s.work args p := by
  have hmove := move_of_step h
  cases a with
  | main => exact work_lt_main hs hplan hn hmove
  | thread k =>
    obtain ⟨thread, pc, hk, htid, hmain, hlt⟩ := hmove.thread_frame
    have hsum := sum_add_eq (f := fun j => threadWork (s'.tid j))
      (g := fun j => threadWork (s.tid j)) (hs.lt_numThreads hplan (k := k) (by rw [hk]; rfl))
      fun j hj => by rw [htid, Function.update_of_ne hj]
    simp only [htid, Function.update_self, hk] at hsum
    rw [State.work, State.work, hmain, htid]
    omega

/-- The thread that has locked the mutex can go on. -/
theorem threadStep_ne_none {k : ℕ} {thread : Thread K} (hk : s.tid k = some thread)
    (hpc : thread.pc ≠ .exited) (hlock : thread.pc.holds = true ∨ s.mutex = none) :
    threadStep sys s k ≠ none := by
  unfold threadStep
  rw [hk]
  cases hpos : thread.pc <;> rw [hpos] at hpc hlock <;> simp only [hpos]
  case entry => split <;> simp
  case counted =>
    rw [if_pos (hlock.resolve_left (by simp [ThreadPc.holds]))]
    simp
  case exited => exact absurd rfl hpc
  all_goals simp

/-- Where no thread can go on, the call has returned. -/
theorem returned_of_stuck (hs : Inv sys args p s) (hstuck : ∀ a, step sys args p s a = none) :
    ∃ value, s.main = .returned value := by
  have hmain := hs.main
  have hstep : mainStep sys args p s = none := hstuck .main
  unfold MainOk at hmain
  unfold mainStep at hstep
  cases hpc : s.main <;> rw [hpc] at hstep hmain <;> simp only at hstep hmain
  case create i j k => split_ifs at hstep
  case join i =>
    split at hstep
    next hlt =>
      split at hstep
      next => cases hstep
      next thread hthread =>
        split at hstep
        next => cases hstep
        next hexited =>
          -- the thread waits for the mutex, and the one that has locked it can go on
          exfalso
          cases hmutex : s.mutex with
          | none => exact threadStep_ne_none hthread hexited (Or.inr hmutex) (hstuck (.thread i))
          | some k =>
            obtain ⟨holder, hholder⟩ := Option.isSome_iff_exists.mp (hs.holder k hmutex)
            have hholds := (hs.threads k holder hholder).mutex.mpr hmutex
            refine threadStep_ne_none hholder ?_ (Or.inl hholds) (hstuck (.thread k))
            intro hexit
            simp [hexit, ThreadPc.holds] at hholds
    next => cases hstep
  case returned value => exact ⟨value, rfl⟩

/-! ## Along a run -/

theorem inv_of_run (hplan : p.numThreads = args.side * args.side) (hn : 0 < args.numThreadsSqrt)
    {tr : List (State K × Action)} (h : Run (step sys args p) init tr s) : Inv sys args p s :=
  h.invariant_all inv_init fun _ _ _ ht hstep => inv_step ht hplan hn hstep

/-- What is returned does not depend on the schedule. -/
theorem returned_of_run (hplan : p.numThreads = args.side * args.side)
    (hn : 0 < args.numThreadsSqrt) {tr : List (State K × Action)} {value : K}
    (h : Run (step sys args p) init tr s) (hpc : s.main = .returned value) :
    value = (args.xMax - args.xMin) * (args.yMax - args.yMin) * hits sys args p / totalPoints := by
  have hmain := (inv_of_run hplan hn h).main
  simpa only [MainOk, hpc] using hmain

/-- No schedule goes on for ever. -/
theorem length_le_of_run (hplan : p.numThreads = args.side * args.side)
    (hn : 0 < args.numThreadsSqrt) {tr : List (State K × Action)}
    (h : Run (step sys args p) init tr s) : tr.length ≤ (init : State K).work args p := by
  have hle : tr.length + s.work args p ≤ (init : State K).work args p :=
    h.length_add_le_of_invariant inv_init (fun _ _ _ ht hstep => inv_step ht hplan hn hstep)
    fun _ _ _ ht hstep => work_lt ht hplan hn hstep
  omega

/-- Some schedule returns. -/
theorem exists_returned (hplan : p.numThreads = args.side * args.side)
    (hn : 0 < args.numThreadsSqrt) :
    ∃ tr s value, Run (step sys args p) (init : State K) tr s ∧ s.main = .returned value := by
  obtain ⟨tr, s, hrun, hstuck⟩ : ∃ tr s, Run (step sys args p) (init : State K) tr s ∧
      ∀ a, step sys args p s a = none :=
    exists_run_stuck inv_init (fun _ _ _ ht hstep => inv_step ht hplan hn hstep)
      fun _ _ _ ht hstep => work_lt ht hplan hn hstep
  obtain ⟨value, hvalue⟩ := returned_of_stuck (inv_of_run hplan hn hrun) hstuck
  exact ⟨tr, s, value, hrun, hvalue⟩

end Proofs

end ThreadIntegral
