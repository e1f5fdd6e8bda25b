import PosixTasks.Lib.Arithmetic
import PosixTasks.MonteCarlo.Arguments
import PosixTasks.MonteCarlo.Client
import PosixTasks.MonteCarlo.Discovery

/-!
# The number of points of a task

`handle_client` divides by the number of points of its task. That number is read from `-p`, shared
by the servers and sent as text. `parse_arguments` rejects no number but zero, and nothing compares
it with the number of servers.

The bounds of the strips are exact. Everything else that is computed or read is rounded.

## Main results

* `dividesByPoints_iff`: every task has a point, and at most as many as were asked for, and the
  sum is a number, exactly if the number that was asked for is at least the number of servers;
* `monteCarlo_finite`, `monteCarlo_invalid`: a server computes a number exactly for a task with
  points.
-/

namespace MonteCarlo

open CString Transition

/-- `exp(1)`, as a `double`. -/
def expOne : ℚ := 6121026514868073 / 2 ^ 51

private theorem unit_finite :
    |(0 : ℚ)| < doubleLimit ∧ |(1 : ℚ)| < doubleLimit ∧ |(0 : ℚ)| < doubleLimit ∧
      |expOne| < doubleLimit := by
  have hlimit : (3 : ℚ) < doubleLimit := by
    have hnat : 3 < 2 ^ 1024 := by decide +kernel
    rw [doubleLimit]
    exact_mod_cast hnat
  have hexp : |expOne| < 3 := by norm_num [expOne]
  rw [abs_zero, abs_one]
  exact ⟨by linarith, by linarith, by linarith, by linarith⟩

/-- What `parse_arguments` leaves in `ClientConfig`, with the number of servers that the client
has at the end. -/
def Arguments.config (args : Arguments) (serverCount : ℕ) : ClientConfig where
  serverCount
  pointsPerRectangle := args.pointsPerRectangle
  xMin := 0
  xMax := 1
  yMin := 0
  yMax := expOne
  finite := unit_finite

section Server

variable (r : Rounding)

/-- `points_inside`, where `hits` tells which points are below the curve. -/
def pointsInside (hits : ℕ → Bool) (numPoints : UInt64) : UInt64 :=
  UInt64.ofNat ((List.range numPoints.toNat).countP hits)

/-- `integral` and `points_inside` of `handle_client`. -/
def monteCarlo (hits : ℕ → Bool) (task : Task) : Double × UInt64 :=
  let area := (task.xMax.sub r task.xMin).mul r (task.yMax.sub r task.yMin)
  let inside := pointsInside hits task.numPoints
  ((area.mul r (.ofCount r inside)).div r (.ofCount r task.numPoints), inside)

/-- What the client and the server of strip `i` do, if `k₁` bytes of the task and `k₂` bytes of the
reply are read. -/
def exchange (cfg : ClientConfig) (i : ℕ) (hits : ℕ → Bool) (k₁ k₂ : ℕ) : Exchanged :=
  sendTaskToServer r.nearest (monteCarlo r hits) (stripTask cfg i) k₁ k₂

/-- A strip succeeds only with a result that its server has sent. -/
def SentByServer (cfg : ClientConfig) (_ : Client (Rounded r)) :
    ClientAction (Rounded r) → Prop
  | .finish i (.success x) => ∃ hits k₁ k₂ result,
      (exchange r cfg i hits k₁ k₂).result = some result ∧ x = result.integralValue
  | _ => True

/-- No task divides by zero points. -/
structure DividesByPoints (asked : ℤ) (cfg : ClientConfig) : Prop where
  positive : 0 < asked
  sent : ∀ task ∈ stripTasks cfg, 1 ≤ task.numPoints.toNat ∧ (task.numPoints.toNat : ℤ) ≤ asked
  /-- `(double)task.num_points` in `handle_client` -/
  divisor : ∀ i < cfg.serverCount, ∀ hits k₁ k₂, ∀ task ∈ (exchange r cfg i hits k₁ k₂).task,
    Double.ofCount r task.numPoints ≠ .zero
  /-- in every run of the client, what is printed is a number -/
  printed : ∀ tr s, Run (clientStep cfg.serverCount) .init tr s →
    StepsMeet (SentByServer r cfg) tr → ∀ x ∈ s.printed, Double.IsFinite x

end Server

/-! ## The shares -/

/-- Every share has a point if there are enough of them. -/
theorem share_pos {total n : ℕ} (hn : 0 < n) (h : n ≤ total) (i : ℕ) : 1 ≤ share total n i :=
  le_trans (Nat.div_pos h hn) (Nat.le_add_right _ _)

/-- Without enough points the last share is empty. -/
theorem share_last {total n : ℕ} (h : total < n) : share total n (n - 1) = 0 := by
  rw [share, Nat.div_eq_of_lt h, Nat.mod_eq_of_lt h, if_neg (by omega)]

theorem numPoints_stripTask (cfg : ClientConfig) (hpos : 0 < cfg.serverCount) (i : ℕ) :
    (stripTask cfg i).numPoints.toNat = share cfg.pointsPerRectangle.toNat cfg.serverCount i :=
  numPoints_decodedStrip cfg hpos i

/-- A positive number of points is taken as it is, as far as `long long` goes. -/
theorem toNat_ofInt_clamp {n : ℤ} (h : 0 < n) :
    ((UInt64.ofInt (clamp n)).toNat : ℤ) = min n (2 ^ 63 - 1) := by
  -- a positive number is cut at the top only
  have hclamp : clamp n = min n (2 ^ 63 - 1) := by
    rw [clamp]
    omega
  have hmod : min n (2 ^ 63 - 1) % 2 ^ 64 = min n (2 ^ 63 - 1) :=
    Int.emod_eq_of_lt (by omega) (by omega)
  have hfits : (min n (2 ^ 63 - 1)).toNat < UInt64.size := by
    rw [UInt64.size]
    omega
  rw [hclamp, UInt64.ofInt, hmod, UInt64.toNat_ofNat_of_lt' hfits]
  omega

/-! ## What a server computes -/

section Server

variable {r : Rounding} {hits : ℕ → Bool} {task : Task}

/-- The bounds of a task are numbers. -/
structure Task.BoundsFinite (task : Task) : Prop where
  xMin : task.xMin.IsFinite
  xMax : task.xMax.IsFinite
  yMin : task.yMin.IsFinite
  yMax : task.yMax.IsFinite

/-- With points the result is a number. -/
theorem monteCarlo_finite (h : task.BoundsFinite) (hpoints : task.numPoints ≠ 0) :
    (monteCarlo r hits task).1.IsFinite := by
  obtain ⟨b, hb, hdivisor⟩ := Double.exists_ofCount_eq (r := r) hpoints
  have harea := (h.xMax.sub (r := r) h.xMin).mul (r := r) (h.yMax.sub (r := r) h.yMin)
  simp only [monteCarlo, hdivisor]
  exact (harea.mul (.finite _ _)).div hb

/-- Without points it is not. -/
theorem monteCarlo_invalid (h : task.BoundsFinite) (hpoints : task.numPoints = 0) :
    (monteCarlo r hits task).1 = .invalid := by
  have harea := (h.xMax.sub (r := r) h.xMin).mul (r := r) (h.yMax.sub (r := r) h.yMin)
  have hinside : pointsInside hits 0 = 0 := rfl
  simp only [monteCarlo, hpoints, hinside]
  exact harea.mul_div_zero

theorem boundsFinite_stripTask (cfg : ClientConfig) (i : ℕ) : (stripTask cfg i).BoundsFinite :=
  ⟨.ofRat _, .ofRat _, .ofRat _, .ofRat _⟩

/-- A task that is decoded from what a server has read of it. -/
theorem decoded_of_exchange {cfg : ClientConfig} {i k₁ k₂ : ℕ} {decoded : Task}
    (h : (exchange r cfg i hits k₁ k₂).task = some decoded) :
    decoded.BoundsFinite ∧ (0 < (stripTask cfg i).numPoints.toNat → decoded.numPoints ≠ 0) := by
  obtain ⟨m, rfl, -, hpos⟩ := task_sendTaskToServer h
  have hbounds := boundsFinite_stripTask cfg i
  refine ⟨⟨hbounds.xMin.readBack _ _, hbounds.xMax.readBack _ _, hbounds.yMin.readBack _ _,
    hbounds.yMax.readBack _ _⟩, ?_⟩
  rintro hpoints (rfl : m = 0)
  exact absurd (hpos hpoints) (by simp)

/-- A result that is accepted for a task with points is a number. -/
theorem finite_of_exchange {cfg : ClientConfig} {i k₁ k₂ : ℕ} {result : Result}
    (hpoints : 0 < (stripTask cfg i).numPoints.toNat)
    (h : (exchange r cfg i hits k₁ k₂).result = some result) : result.integralValue.IsFinite := by
  obtain ⟨decoded, htask, hvalue⟩ := result_sendTaskToServer h
  obtain ⟨hbounds, hpos⟩ := decoded_of_exchange htask
  rw [hvalue]
  exact (monteCarlo_finite hbounds (hpos hpoints)).readBack _ _

end Server

/-! ## The points of every task -/

section Points

variable {r : Rounding} {asked : ℤ} {cfg : ClientConfig}

/-- If there are enough points, every task has one. -/
theorem dividesByPoints_of_le (hpositive : 0 < asked) (hpos : 0 < cfg.serverCount)
    (hle : cfg.serverCount ≤ cfg.pointsPerRectangle.toNat)
    (hasked : (cfg.pointsPerRectangle.toNat : ℤ) ≤ asked) : DividesByPoints r asked cfg where
  positive := hpositive
  sent task htask := by
    obtain ⟨i, -, rfl⟩ := List.mem_map.mp htask
    rw [numPoints_stripTask cfg hpos]
    have htotal := share_le_total cfg.pointsPerRectangle.toNat hpos i
    exact ⟨share_pos hpos hle i, by omega⟩
  -- a number of points that is cut in the text does not become zero
  divisor i _ hits k₁ k₂ task htask := by
    have hpoints : 0 < (stripTask cfg i).numPoints.toNat := by
      rw [numPoints_stripTask cfg hpos]
      exact share_pos hpos hle i
    obtain ⟨b, hb, hdivisor⟩ :=
      Double.exists_ofCount_eq (r := r) ((decoded_of_exchange htask).2 hpoints)
    rw [hdivisor, Double.zero]
    simpa using hb
  printed tr s hrun hmeet := by
    refine printed_of_run (.finite _ _) (fun x y hx hy => hx.add hy) hrun (hmeet.mono ?_)
    rintro t _ hsent i x rfl
    obtain ⟨hits, k₁, k₂, result, hresult, rfl⟩ := hsent
    refine finite_of_exchange ?_ hresult
    rw [numPoints_stripTask cfg hpos]
    exact share_pos hpos hle i

/-- If there are not, the last one has none. -/
theorem numPoints_last (cfg : ClientConfig)
    (h : cfg.pointsPerRectangle.toNat < cfg.serverCount) :
    (stripTask cfg (cfg.serverCount - 1)).numPoints.toNat = 0 := by
  rw [numPoints_stripTask cfg (by omega), share_last h]

/-- For arguments that `parse_arguments` accepts and at most `MAX_SERVERS` servers, no task divides
by zero points exactly if the number that the user asks for is at least the number of servers. -/
theorem dividesByPoints_iff (r : Rounding) {posixlyCorrect : Bool}
    {servers : Text → List Text → Option ℕ} {argv : List Text} {args : Arguments} {n : ℕ}
    (h : parseArguments posixlyCorrect servers argv = .accepted args) (hn : 1 ≤ n)
    (hmax : n ≤ maxServers) :
    DividesByPoints r (askedPoints posixlyCorrect argv) (args.config n) ↔
      (n : ℤ) ≤ askedPoints posixlyCorrect argv := by
  obtain ⟨hpoints, -⟩ := points_of_parseArguments h
  generalize askedPoints posixlyCorrect argv = asked at hpoints ⊢
  have hconfig : (args.config n).pointsPerRectangle = UInt64.ofInt (clamp asked) := hpoints
  have hservers : (args.config n).serverCount = n := rfl
  constructor
  · intro hdivides
    have htotal := toNat_ofInt_clamp hdivides.positive
    rw [← hconfig] at htotal
    rw [maxServers] at hmax
    -- with fewer points than servers the last share is empty
    by_contra hfew
    have hlast := numPoints_last (args.config n) (by omega)
    have hmem : stripTask (args.config n) (n - 1) ∈ stripTasks (args.config n) :=
      List.mem_map_of_mem (List.mem_range.mpr (by omega))
    have hone := (hdivides.sent _ hmem).1
    rw [hservers] at hlast
    omega
  · intro hle
    have htotal := toNat_ofInt_clamp (by omega : 0 < asked)
    rw [← hconfig] at htotal
    rw [maxServers] at hmax
    exact dividesByPoints_of_le (by omega) (by omega) (by omega) (by omega)

end Points

/-! ## Three points -/

/-- `-p` and a number. -/
def pointsOption (number : Text) : List Text :=
  [['-', 'p'], number]

/-- What is there after `-p` with a number. -/
def withPoints (n : UInt64) : Arguments :=
  { Arguments.default with pointsPerRectangle := n }

/-- `dividesByPoints_iff` for eight points and three servers. -/
theorem dividesByPoints_eight :
    DividesByPoints .exact (askedPoints false (pointsOption ['8'])) ((withPoints 8).config 3) := by
  have hparse : parseArguments false (fun _ _ => none) (pointsOption ['8'])
      = .accepted (withPoints 8) := by
    rfl
  exact (dividesByPoints_iff .exact hparse (by decide) (by decide)).mpr (by decide)

/-- Three points for five servers. -/
def fiveServers : ClientConfig :=
  (withPoints 3).config 5

/-- The result of a strip, if no point is below the curve and everything is read. -/
def noHits (i : ℕ) : Option (Rounded .exact) :=
  (exchange .exact fiveServers i (fun _ => false) bufferSize bufferSize).result.map
    Result.integralValue

/-- Three results of 0 and two that are not a number. -/
def fiveStrips : List (ClientAction (Rounded .exact)) :=
  [.discover, .allocate true, .create true, .create true, .create true, .create true, .create true,
    .finish 0 (.success 0), .finish 1 (.success 0),
    .finish 2 (.success 0), .finish 3 (.success (.invalid .exact)),
    .finish 4 (.success (.invalid .exact)),
    .collect, .collect, .collect, .collect, .collect, .collect, .collect, .print]

/-- Every result that comes in is the one of its strip. -/
def matchesNoHits (_ : Client (Rounded .exact)) : ClientAction (Rounded .exact) → Bool
  | .finish i (.success x) => decide (noHits i = some x)
  | _ => true

private theorem fiveStrips_executes :
    (execute (clientStep 5) matchesNoHits .init fiveStrips).any
      (fun s => decide (s.printed = some (.invalid .exact))) = true := by
  decide +kernel

/-- Three points are accepted for five servers: two tasks have no points, and in a run in which
every server answers NaN is printed. -/
theorem not_dividesByPoints_three :
    (∃ args, parseArguments false (fun _ _ => none) (pointsOption ['3']) = .accepted args ∧
      args.config 5 = fiveServers) ∧
    ((stripTasks fiveServers).filter fun task => task.numPoints = 0).length = 2 ∧
    (∃ tr s, Run (clientStep 5) .init tr s ∧ StepsMeet (SentByServer .exact fiveServers) tr ∧
      s.printed = some (.invalid .exact)) ∧
    ¬ DividesByPoints .exact (askedPoints false (pointsOption ['3'])) fiveServers := by
  obtain ⟨tr, s, hrun, hmeet, hprinted⟩ := exists_run_of_any fiveStrips_executes
  have hsent : StepsMeet (SentByServer .exact fiveServers) tr := by
    refine hmeet.mono fun t a h => ?_
    cases a with
    | finish i o =>
      cases o with
      | success x =>
        obtain ⟨result, hresult, rfl⟩ := Option.map_eq_some_iff.mp (of_decide_eq_true h)
        exact ⟨_, _, _, result, hresult, rfl⟩
      | _ => trivial
    | _ => trivial
  have hnan : s.printed = some (.invalid .exact) := of_decide_eq_true hprinted
  refine ⟨⟨_, rfl, rfl⟩, by decide +kernel, ⟨tr, s, hrun, hsent, hnan⟩, fun hdivides => ?_⟩
  obtain ⟨_, _, hfinite⟩ := hdivides.printed tr s hrun hsent _ hnan
  cases hfinite

end MonteCarlo
