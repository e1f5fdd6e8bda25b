import PosixTasks.ThreadIntegral.Counter

/-!
# What the estimate is divided by

`CalculateIntegral` divides the counter by `TOTAL_POINTS`. What the threads draw together is less
where the number of threads does not divide `TOTAL_POINTS`, and where a thread cannot be pinned to
its core and returns without having drawn a point.

## Main results

* `samples_eq_totalPoints_iff`: when the threads draw `TOTAL_POINTS` points;
* `normalisedBySamples_iff`: when the call returns the area times the hits by the points drawn.
-/

namespace ThreadIntegral

open Transition

variable {K : Type*} [Field K] [LinearOrder K]

/-- Every schedule returns the area times the hits by the points drawn. -/
structure ReturnsRatio (sys : System) (args : Args K) (p : Plan K) : Prop where
  /-- No schedule goes on for ever. -/
  bounded : ∃ bound, ∀ tr s, Run (step sys args p) init tr s → tr.length ≤ bound
  /-- None ends before the call returns. -/
  returns : ∀ tr s, Run (step sys args p) init tr s → (∀ a, step sys args p s a = none) →
    ∃ value, s.main = .returned value
  drawn : samples sys args p ≠ 0
  ratio : ∀ tr s value, Run (step sys args p) init tr s → s.main = .returned value →
    value = (args.xMax - args.xMin) * (args.yMax - args.yMin) * hits sys args p
      / samples sys args p

/-- `CalculateIntegral` makes no division by zero and returns the area times the hits by the points
drawn. -/
def NormalisedBySamples (sys : System) (args : Args K) : Prop :=
  ∃ p, plan args = .ok p ∧ ReturnsRatio sys args p

/-- No point that a thread draws is below the curve. -/
def NoneBelow (sys : System) (args : Args K) (p : Plan K) : Prop :=
  ∀ k < p.numThreads, ∀ x ∈ pointsOf sys args p k, ¬ Accepted (threadData sys args p k) x

section Plan

variable {sys : System} {args : Args K} {p : Plan K}

/-! ## The plan -/

omit [LinearOrder K] in
theorem plan_ok (h : plan args = .ok p) :
    args.numThreadsSqrt * args.numThreadsSqrt ≤ intMax ∧ args.numThreadsSqrt ≠ 0 ∧
      p.numThreads = (args.numThreadsSqrt * args.numThreadsSqrt).toNat ∧
      p.pointsPerThread = totalPoints / p.numThreads := by
  simp only [plan] at h
  split_ifs at h with hoverflow hzero
  obtain rfl := Except.ok.inj h
  exact ⟨not_lt.mp hoverflow, hzero, rfl, rfl⟩

omit [LinearOrder K] in
theorem exists_plan (hn : 0 < args.numThreadsSqrt) (hle : args.side * args.side ≤ totalPoints) :
    ∃ p, plan args = .ok p := by
  have hside : (args.side : ℤ) = args.numThreadsSqrt := Int.toNat_of_nonneg hn.le
  have hfits : ¬ args.numThreadsSqrt * args.numThreadsSqrt > intMax := by
    rw [← hside, ← Nat.cast_mul, not_lt, intMax]
    rw [totalPoints] at hle
    omega
  simp only [plan, if_neg hfits, if_neg hn.ne']
  exact ⟨_, rfl⟩

omit [LinearOrder K] in
theorem numThreads_eq (h : plan args = .ok p) (hn : 0 < args.numThreadsSqrt) :
    p.numThreads = args.side * args.side := by
  rw [(plan_ok h).2.2.1, Int.toNat_mul hn.le hn.le, Args.side]

/-- Without a thread the main thread waits for one that does not exist. -/
theorem not_returnsRatio_of_neg (h : plan args = .ok p) (hn : args.numThreadsSqrt < 0) :
    ¬ ReturnsRatio sys args p := by
  intro hreturns
  have hpos : 0 < p.numThreads := by
    rw [(plan_ok h).2.2.1, Int.lt_toNat]
    exact mul_pos_of_neg_of_neg hn hn
  have hjoin : step sys args p init .main = some { (init : State K) with main := .join 0 } := by
    simp [step, mainStep, init, hn.le]
  have hfault : step sys args p { (init : State K) with main := .join 0 } .main
      = some { (init : State K) with main := .fault .noThread } := by
    simp [step, mainStep, init, hpos]
  have hstuck : ∀ a, step sys args p { (init : State K) with main := .fault .noThread } a
      = none := by
    intro a
    cases a <;> rfl
  obtain ⟨value, hvalue⟩ :=
    hreturns.returns _ _ ((Run.single hjoin).snoc hfault) hstuck
  cases hvalue

/-! ## The points drawn -/

omit [LinearOrder K] in
theorem length_pointsOf (k : ℕ) :
    (pointsOf sys args p k).length = if Pinned sys k then p.pointsPerThread else 0 := by
  rw [pointsOf]
  split
  · exact length_drawnPoints ..
  · rfl

omit [LinearOrder K] in
/-- Each pinned thread draws its share. -/
theorem samples_eq (sys : System) (args : Args K) (p : Plan K) :
    samples sys args p
      = ((Finset.range p.numThreads).filter (Pinned sys)).card * p.pointsPerThread := by
  simp only [samples, length_pointsOf]
  rw [← Finset.sum_filter, Finset.sum_const, smul_eq_mul]

omit [LinearOrder K] in
theorem samples_ne_zero_iff (h : plan args = .ok p) :
    samples sys args p ≠ 0 ↔ p.numThreads ≤ totalPoints ∧ ∃ k < p.numThreads, Pinned sys k := by
  have hpinned : ((Finset.range p.numThreads).filter (Pinned sys)).card ≠ 0
      ↔ ∃ k < p.numThreads, Pinned sys k := by
    simp [Finset.card_eq_zero, Finset.filter_eq_empty_iff]
  rw [samples_eq, (plan_ok h).2.2.2, mul_ne_zero_iff, hpinned, Nat.div_ne_zero_iff]
  constructor
  · rintro ⟨hsome, -, hle⟩
    exact ⟨hle, hsome⟩
  · rintro ⟨hle, k, hk, hpin⟩
    exact ⟨⟨k, hk, hpin⟩, by omega, hle⟩

omit [LinearOrder K] in
/-- The threads draw `TOTAL_POINTS` points if all of them are pinned and their number divides
`TOTAL_POINTS`. -/
theorem samples_eq_totalPoints_iff (h : plan args = .ok p) :
    samples sys args p = totalPoints ↔
      p.numThreads ∣ totalPoints ∧ ∀ k < p.numThreads, Pinned sys k := by
  rw [samples_eq, (plan_ok h).2.2.2]
  set pinned := (Finset.range p.numThreads).filter (Pinned sys)
  have hsub : pinned ⊆ Finset.range p.numThreads := Finset.filter_subset ..
  have hcard : pinned.card ≤ p.numThreads := by
    simpa using Finset.card_le_card hsub
  have hall : (∀ k < p.numThreads, Pinned sys k) ↔ pinned.card = p.numThreads := by
    rw [← Finset.card_range p.numThreads, Finset.card_filter_eq_iff]
    simp
  have htotal : 0 < totalPoints := by
    simp [totalPoints]
  rw [hall]
  constructor
  · intro hsamples
    have hpos : 0 < totalPoints / p.numThreads := by
      refine Nat.pos_of_ne_zero fun hzero => ?_
      rw [hzero, Nat.mul_zero] at hsamples
      omega
    -- fewer threads, or shares rounded down, draw less
    have hle : pinned.card * (totalPoints / p.numThreads)
        ≤ p.numThreads * (totalPoints / p.numThreads) := Nat.mul_le_mul_right _ hcard
    have hge : p.numThreads * (totalPoints / p.numThreads) ≤ totalPoints := Nat.mul_div_le ..
    have hexact : p.numThreads * (totalPoints / p.numThreads) = totalPoints := by omega
    refine ⟨⟨_, hexact.symm⟩, Nat.eq_of_mul_eq_mul_right hpos ?_⟩
    rw [hsamples, hexact]
  · rintro ⟨hdvd, heq⟩
    rw [heq, Nat.mul_div_cancel' hdvd]

theorem hits_eq_zero_iff : hits sys args p = 0 ↔ NoneBelow sys args p := by
  simp [hits, NoneBelow, hitsOf, Finset.sum_eq_zero_iff, List.countP_eq_zero]

end Plan

/-! ## The estimate -/

section Estimate

variable {sys : System} {args : Args K} {p : Plan K}

/-- The number of threads divides `TOTAL_POINTS` and each of them can be pinned to its core. -/
def DrawsTotal (sys : System) (args : Args K) : Prop :=
  args.side * args.side ∣ totalPoints ∧ ∀ k < args.side * args.side, Pinned sys k

/-- The estimate is zero, whatever the counter is divided by. -/
def Vanishes (sys : System) (args : Args K) : Prop :=
  (args.xMax - args.xMin) * (args.yMax - args.yMin) = 0 ∨
    ∀ p, plan args = .ok p → NoneBelow sys args p

/-- A product divided by two numbers. -/
theorem mul_div_eq_mul_div_iff [IsStrictOrderedRing K] {area : K} {h m n : ℕ} (hm : m ≠ 0)
    (hn : n ≠ 0) : area * h / m = area * h / n ↔ area = 0 ∨ h = 0 ∨ n = m := by
  have hm' : (m : K) ≠ 0 := Nat.cast_ne_zero.mpr hm
  have hn' : (n : K) ≠ 0 := Nat.cast_ne_zero.mpr hn
  rw [div_eq_div_iff hm' hn', mul_eq_mul_left_iff, mul_eq_zero, Nat.cast_eq_zero, Nat.cast_inj,
    or_comm, or_assoc]

/-- With at least one thread, the call returns the ratio if some points are drawn, and
`TOTAL_POINTS` of them unless the estimate is zero. -/
theorem returnsRatio_iff [IsStrictOrderedRing K] (h : plan args = .ok p)
    (hn : 0 < args.numThreadsSqrt) :
    ReturnsRatio sys args p ↔ samples sys args p ≠ 0 ∧
      ((args.xMax - args.xMin) * (args.yMax - args.yMin) = 0 ∨ hits sys args p = 0 ∨
        samples sys args p = totalPoints) := by
  have hplan : p.numThreads = args.side * args.side := numThreads_eq h hn
  have htotal : totalPoints ≠ 0 := by
    simp [totalPoints]
  constructor
  · intro hreturns
    obtain ⟨tr, s, value, hrun, hvalue⟩ : ∃ tr s value,
        Run (step sys args p) init tr s ∧ s.main = .returned value := exists_returned hplan hn
    have hratio := hreturns.ratio tr s value hrun hvalue
    rw [returned_of_run hplan hn hrun hvalue] at hratio
    exact ⟨hreturns.drawn, (mul_div_eq_mul_div_iff htotal hreturns.drawn).mp hratio⟩
  · rintro ⟨hdrawn, hcases⟩
    refine ⟨⟨_, fun tr s hrun => length_le_of_run hplan hn hrun⟩, fun tr s hrun hstuck =>
      returned_of_stuck (inv_of_run hplan hn hrun) hstuck, hdrawn, fun tr s value hrun hvalue => ?_⟩
    rw [returned_of_run hplan hn hrun hvalue]
    exact (mul_div_eq_mul_div_iff htotal hdrawn).mpr hcases

/-- The call returns the area times the hits by the points drawn where it draws `TOTAL_POINTS`
points, and where it draws at least one and the estimate is zero. -/
theorem normalisedBySamples_iff [IsStrictOrderedRing K] (sys : System) (args : Args K) :
    NormalisedBySamples sys args ↔
      0 < args.numThreadsSqrt ∧ args.side * args.side ≤ totalPoints ∧
        (∃ k < args.side * args.side, Pinned sys k) ∧
        (DrawsTotal sys args ∨ Vanishes sys args) := by
  constructor
  · rintro ⟨p, hp, hreturns⟩
    -- with a negative number a join finds no thread, and zero divides by zero
    have hn : 0 < args.numThreadsSqrt := by
      rcases lt_trichotomy args.numThreadsSqrt 0 with hneg | hzero | hpos
      · exact absurd hreturns (not_returnsRatio_of_neg hp hneg)
      · exact absurd hzero (plan_ok hp).2.1
      · exact hpos
    obtain ⟨hdrawn, hcases⟩ := (returnsRatio_iff hp hn).mp hreturns
    rw [hits_eq_zero_iff, samples_eq_totalPoints_iff hp, numThreads_eq hp hn] at hcases
    rw [samples_ne_zero_iff hp, numThreads_eq hp hn] at hdrawn
    refine ⟨hn, hdrawn.1, hdrawn.2, ?_⟩
    -- the ratio is right for a zero area, without hits, or with all points drawn
    rcases hcases with harea | hnone | hall
    · exact Or.inr (Or.inl harea)
    · refine Or.inr (Or.inr fun q hq => ?_)
      obtain rfl := Except.ok.inj (hp.symm.trans hq)
      exact hnone
    · exact Or.inl hall
  · rintro ⟨hn, hle, hsome, hcases⟩
    obtain ⟨p, hp⟩ := exists_plan hn hle
    refine ⟨p, hp, (returnsRatio_iff hp hn).mpr ?_⟩
    rw [hits_eq_zero_iff, samples_eq_totalPoints_iff hp, samples_ne_zero_iff hp,
      numThreads_eq hp hn]
    refine ⟨⟨hle, hsome⟩, ?_⟩
    rcases hcases with hall | harea | hnone
    · exact Or.inr (Or.inr hall)
    · exact Or.inl harea
    · exact Or.inr (Or.inl (hnone p hp))

end Estimate

/-- `rand_r` of a C library: three rounds of a linear congruence. -/
def congruentialRandR (seed : UInt32) : ℕ × UInt32 :=
  let next (seed : UInt32) : UInt32 := seed * 1103515245 + 12345
  let high := next seed
  let middle := next high
  let low := next middle
  let result := ((high / 65536 % 2048) <<< 10) ^^^ (middle / 65536 % 1024)
  (((result <<< 10) ^^^ (low / 65536 % 1024)).toNat, low)

/-- A machine with twelve cores on which each thread can be pinned. -/
def twelveCores : System where
  time _ := 1735689600
  randR := congruentialRandR
  numCores := 12
  setAffinity _ := 0

/-- The constant `1` over the unit square. -/
def unitSquare (numThreadsSqrt : ℤ) : Args ℚ where
  func _ := 1
  numThreadsSqrt := numThreadsSqrt
  xMin := 0
  xMax := 1
  yMin := 0
  yMax := 1

theorem normalisedBySamples_unitSquare_two : NormalisedBySamples twelveCores (unitSquare 2) := by
  have hpinned : ∀ k < (unitSquare 2).side * (unitSquare 2).side, Pinned twelveCores k := by
    decide
  refine (normalisedBySamples_iff _ _).mpr ⟨by decide, by decide, ⟨0, by decide, by decide⟩, ?_⟩
  exact Or.inl ⟨by decide, hpinned⟩

theorem plan_unitSquare_three : plan (unitSquare 3) =
    .ok { numThreads := 9, xStep := 1 / 3, yStep := 1 / 3, pointsPerThread := 1111111 } := by
  simp [plan, unitSquare, intMax, totalPoints]

/-- Nine threads draw one point less than their hits are divided by. -/
theorem not_normalisedBySamples_unitSquare_three :
    ¬ NormalisedBySamples twelveCores (unitSquare 3) := by
  rintro ⟨p, hp, hreturns⟩
  obtain rfl := Except.ok.inj (plan_unitSquare_three.symm.trans hp)
  rcases ((returnsRatio_iff hp (by decide)).mp hreturns).2 with harea | hnone | hall
  · norm_num [unitSquare] at harea
  · -- the first point of the first thread is below the curve
    refine hits_eq_zero_iff.mp hnone 0 (by decide) _ (List.mem_cons_self ..) ?_
    decide +kernel
  · have hdvd := ((samples_eq_totalPoints_iff hp).mp hall).1
    exact absurd hdvd (by decide)

end ThreadIntegral
