import PosixTasks.Lib.Transition

/-!
# A Monte Carlo integral with threads

`CalculateIntegral` cuts the rectangle into `num_threads_sqrt²` cells and starts one thread for
each of them. A thread tries to pin itself to its core, draws its points, and adds the number of
the points below the curve to the shared counter under the mutex. The main thread joins them all
and scales the area of the rectangle with the counter.

The numbers are exact: elements of an ordered field `K`. An action lets the main thread or one of
the others take its next step; the counter is read and written in two steps. `calloc` and
`pthread_create` succeed.
-/

namespace ThreadIntegral

/-- `TOTAL_POINTS`. -/
def totalPoints : ℕ := 10000000

/-- `RAND_MAX`. -/
def randMax : ℕ := 2147483647

/-- `INT_MAX`. -/
def intMax : ℤ := 2147483647

/-- What the C library and the kernel answer. -/
structure System where
  /-- `time(NULL)` when thread `index` is set up. -/
  time : ℕ → UInt32
  /-- `rand_r`: what it returns and the seed it leaves. -/
  randR : UInt32 → ℕ × UInt32
  /-- `sysconf(_SC_NPROCESSORS_ONLN)`. -/
  numCores : ℤ
  /-- `pthread_setaffinity_np` for one core. -/
  setAffinity : ℤ → ℤ

/-- The arguments of `CalculateIntegral`. -/
structure Args (K : Type*) where
  func : K → K
  numThreadsSqrt : ℤ
  xMin : K
  xMax : K
  yMin : K
  yMax : K

/-- `struct PthreadData`, without the address of the shared data. -/
structure PthreadData (K : Type*) where
  func : K → K
  xMin : K
  xMax : K
  yMin : K
  yMax : K
  seed : UInt32
  pointsPerThread : ℕ
  assignedCore : ℤ

/-- What `CalculateIntegral` computes before it starts the threads. -/
structure Plan (K : Type*) where
  numThreads : ℕ
  xStep : K
  yStep : K
  pointsPerThread : ℕ

/-- Why `CalculateIntegral` does not return. -/
inductive Fault where
  /-- `num_threads_sqrt * num_threads_sqrt` is more than `INT_MAX` -/
  | overflow
  | divisionByZero
  /-- `pthread_join` of an element of `tid` in which no thread was stored -/
  | noThread
  deriving DecidableEq

/-- Where a thread is in `MonteCarloThread`. -/
inductive ThreadPc where
  /-- before `set_this_thread_to_core` -/
  | entry
  /-- the points are drawn, before `pthread_mutex_lock` -/
  | counted (localCount : ℕ)
  /-- the mutex is locked -/
  | locked (localCount : ℕ)
  /-- the counter is read -/
  | loaded (localCount counter : ℕ)
  /-- the counter is written, before `pthread_mutex_unlock` -/
  | stored
  | exited
  deriving DecidableEq

/-- A thread with its argument. -/
structure Thread (K : Type*) where
  data : PthreadData K
  pc : ThreadPc

/-- Where the main thread is in `CalculateIntegral`. -/
inductive MainPc (K : Type*) where
  /-- at the test of the inner loop with `i` and `j`; `k` threads are created -/
  | create (i j k : ℕ)
  /-- at the test of the loop that joins -/
  | join (i : ℕ)
  | returned (value : K)
  | fault (f : Fault)

/-- The threads and what they share. -/
structure State (K : Type*) where
  /-- `shared.counter`. -/
  counter : ℕ
  /-- The thread that has locked `shared.mutex`. -/
  mutex : Option ℕ
  /-- The threads in `tid`. -/
  tid : ℕ → Option (Thread K)
  main : MainPc K

/-- Whose step is next. -/
inductive Action where
  | main
  | thread (k : ℕ)
  deriving DecidableEq

/-- `set_this_thread_to_core`. -/
def setThisThreadToCore (sys : System) (coreNum : ℤ) : ℤ :=
  if coreNum < 0 ∨ coreNum ≥ sys.numCores then -1 else sys.setAffinity coreNum

variable {K : Type*} [Field K] [LinearOrder K]

/-- One round of the sampling loop: the point drawn and the seed afterwards. -/
def drawPoint (sys : System) (data : PthreadData K) (seed : UInt32) : (K × K) × UInt32 :=
  let (rx, seed) := sys.randR seed
  let x := data.xMin + (rx : K) / randMax * (data.xMax - data.xMin)
  let (ry, seed) := sys.randR seed
  let y := data.yMin + (ry : K) / randMax * (data.yMax - data.yMin)
  ((x, y), seed)

/-- `y <= data->func(x)`. -/
def Accepted (data : PthreadData K) (p : K × K) : Prop :=
  p.2 ≤ data.func p.1

instance (data : PthreadData K) : DecidablePred (Accepted data) :=
  fun p => inferInstanceAs (Decidable (p.2 ≤ data.func p.1))

/-- The sampling loop of `MonteCarloThread` with so many rounds to go: `local_count`. -/
def sampleLoop (sys : System) (data : PthreadData K) : ℕ → UInt32 → ℕ → ℕ
  | 0, _, localCount => localCount
  | rounds + 1, seed, localCount =>
      let (p, seed) := drawPoint sys data seed
      sampleLoop sys data rounds seed
        (if Accepted data p then localCount + 1 else localCount)

/-- `CalculateIntegral` as far as the division of `TOTAL_POINTS`. -/
def plan (args : Args K) : Except Fault (Plan K) :=
  let n := args.numThreadsSqrt
  -- `num_threads` is an `int`
  if n * n > intMax then .error .overflow
  else if n = 0 then .error .divisionByZero
  else
    let numThreads := (n * n).toNat
    let scaleStep : K := 1 / n
    .ok { numThreads
          xStep := (args.xMax - args.xMin) * scaleStep
          yStep := (args.yMax - args.yMin) * scaleStep
          pointsPerThread := totalPoints / numThreads }

/-- `data[index]` for `i` and `j`. -/
def cellData (sys : System) (args : Args K) (p : Plan K) (i j k : ℕ) : PthreadData K :=
  let index := i * args.numThreadsSqrt.toNat + j
  { func := args.func
    xMin := args.xMin + i * p.xStep
    xMax := args.xMin + (i + 1) * p.xStep
    yMin := args.yMin + j * p.yStep
    yMax := args.yMin + (j + 1) * p.yStep
    seed := sys.time index + UInt32.ofNat index
    pointsPerThread := p.pointsPerThread
    assignedCore := k }

/-- The state before the first thread is created. -/
def init : State K where
  counter := 0
  mutex := none
  tid := fun _ => none
  main := .create 0 0 0

/-- The next step of the main thread. -/
def mainStep (sys : System) (args : Args K) (p : Plan K) (s : State K) : Option (State K) :=
  match s.main with
  | .create i j k =>
      if (i : ℤ) < args.numThreadsSqrt then
        if (j : ℤ) < args.numThreadsSqrt then
          let thread := { data := cellData sys args p i j k, pc := .entry }
          some { s with tid := Function.update s.tid k (some thread)
                        main := .create i (j + 1) (k + 1) }
        else some { s with main := .create (i + 1) 0 k }
      else some { s with main := .join 0 }
  | .join i =>
      if i < p.numThreads then
        match s.tid i with
        | none => some { s with main := .fault .noThread }
        | some thread =>
            if thread.pc = .exited then some { s with main := .join (i + 1) } else none
      else
        -- the counter is read without the mutex
        let area := (args.xMax - args.xMin) * (args.yMax - args.yMin)
        some { s with main := .returned (area * s.counter / totalPoints) }
  | .returned _ | .fault _ => none

/-- Thread `k` goes on to `pc`. -/
def State.goto (s : State K) (k : ℕ) (thread : Thread K) (pc : ThreadPc) : State K :=
  { s with tid := Function.update s.tid k (some { thread with pc }) }

/-- The next step of thread `k`. -/
def threadStep (sys : System) (s : State K) (k : ℕ) : Option (State K) :=
  match s.tid k with
  | none => none
  | some thread =>
      match thread.pc with
      | .entry =>
          -- a thread that cannot be pinned returns before it draws a point
          if setThisThreadToCore sys thread.data.assignedCore ≠ 0 then
            some (s.goto k thread .exited)
          else
            some (s.goto k thread (.counted
              (sampleLoop sys thread.data thread.data.pointsPerThread thread.data.seed 0)))
      | .counted localCount =>
          if s.mutex = none then
            some { s.goto k thread (.locked localCount) with mutex := some k }
          else none
      | .locked localCount => some (s.goto k thread (.loaded localCount s.counter))
      | .loaded localCount counter =>
          some { s.goto k thread .stored with counter := counter + localCount }
      | .stored => some { s.goto k thread .exited with mutex := none }
      | .exited => none

/-- One step of the threads. -/
def step (sys : System) (args : Args K) (p : Plan K) (s : State K) : Action → Option (State K)
  | .main => mainStep sys args p s
  | .thread k => threadStep sys s k

end ThreadIntegral
