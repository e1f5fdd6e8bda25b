import PosixTasks.MonteCarlo.Points
import PosixTasks.MonteCarlo.Summing

/-!
# The distributed integral

The client, its workers and the servers together compute what one machine computes that reads the
bounds of every strip and every partial result as they are written in the messages. Where the
arithmetic is exact, the two conversions of each number cost half a unit of the last decimal.

Strips that have no answer are left out by both. Every worker is created.

## Main results

* `distributed_of_init`: the client prints the integral of one machine;
* `distributedClose_of_init`: how far that is from the estimates for the exact strips.
-/

namespace MonteCarlo

open CString Transition

/-- What happens to the connection of a strip. -/
inductive Link where
  | connectFailed
  | writeFailed
  | readFailed
  /-- the server reads `k₁` bytes of the task, and the client `k₂` bytes of the reply -/
  | reads (k₁ k₂ : ℕ)

section Model

variable (r : Rounding) (cfg : ClientConfig) (hits : ℕ → ℕ → Bool) (links : ℕ → Link)

/-- How strip `i` ends, where `hits i` are the points that its server finds below the curve. -/
def stripOutcome (i : ℕ) : StripOutcome (Rounded r) :=
  match links i with
  | .connectFailed => .connectFailed
  | .writeFailed => .writeFailed
  | .readFailed => .readFailed
  | .reads k₁ k₂ =>
      match (exchange r cfg i (hits i) k₁ k₂).result with
      | some result => .success result.integralValue
      | none => .decodeFailed

/-- A task and a reply that are cut in two are not taken for others. -/
def LinksRecognised : Prop :=
  ∀ i < cfg.serverCount, ∀ k₁ k₂, links i = .reads k₁ k₂ →
    Recognised r.nearest (monteCarlo r (hits i)) (taskText (stripTask cfg i)) k₁ k₂

/-- The estimate for strip `i`, from bounds that were written and read back, and so written. -/
def localStrip (i : ℕ) : Rounded r :=
  (monteCarlo r (hits i) ((stripTask cfg i).readBack r.nearest)).1.readBack r.nearest decimals

/-- The sum of the estimates for the first strips, as far as they have an answer. -/
def localIntegral : ℕ → Rounded r
  | 0 => 0
  | i + 1 =>
      if (stripOutcome r cfg hits links i).isSuccess then
        localIntegral i + localStrip r cfg hits i
      else localIntegral i

/-- The estimate for strip `i` without the rounding of the texts. -/
def estimate (i : ℕ) : ℚ :=
  (stripXMax cfg i - stripXMin cfg i) * (cfg.yMax - cfg.yMin)
    * (pointsInside (hits i) (stripTask cfg i).numPoints).toNat
    / (stripTask cfg i).numPoints.toNat

/-- The sum of the estimates of the strips that have an answer. -/
def estimates : ℚ :=
  ∑ i ∈ Finset.range cfg.serverCount,
    if (stripOutcome .exact cfg hits links i).isSuccess then estimate cfg hits i else 0

/-- One unit of the last decimal. -/
def lastDecimal : ℚ :=
  1 / 10 ^ decimals

/-- What the texts of the messages can add to the error. -/
def textError : ℚ :=
  |cfg.xMax - cfg.xMin| * lastDecimal
    + cfg.serverCount
      * (|cfg.yMax - cfg.yMin| * lastDecimal + lastDecimal * lastDecimal + lastDecimal / 2)

end Model

/-! ## One strip -/

section Strip

variable {r : Rounding} {cfg : ClientConfig} {hits : ℕ → ℕ → Bool} {links : ℕ → Link}

/-- A call that has a result returns 0. -/
theorem code_of_result {nearest : ℚ≥0 → ℚ≥0} {integrate : Task → Double × UInt64} {task : Task}
    {k₁ k₂ : ℕ} {result : Result}
    (h : (sendTaskToServer nearest integrate task k₁ k₂).result = some result) :
    (sendTaskToServer nearest integrate task k₁ k₂).code = 0 := by
  cases htext : serializeTask task bufferSize with
  | none => simp [sendTaskToServer, htext] at h
  | some text =>
    simp only [sendTaskToServer, htext] at h ⊢
    split at h
    next => rfl
    next => cases h

/-- Every strip has a worker. -/
theorem stripOutcome_ne_notCreated (i : ℕ) : stripOutcome r cfg hits links i ≠ .notCreated := by
  rw [stripOutcome]
  cases links i with
  | reads k₁ k₂ =>
    simp only
    split <;> simp
  | _ => simp

/-- A result that is accepted, where the texts are recognised, is the one of one machine. -/
theorem value_of_recognised {i k₁ k₂ : ℕ} {result : Result}
    (h : Recognised r.nearest (monteCarlo r (hits i)) (taskText (stripTask cfg i)) k₁ k₂)
    (hresult : (exchange r cfg i (hits i) k₁ k₂).result = some result) :
    result.integralValue = localStrip r cfg hits i := by
  cases htext : serializeTask (stripTask cfg i) bufferSize with
  | none => simp [exchange, sendTaskToServer, htext] at hresult
  | some text =>
    rw [← eq_taskText htext] at h
    obtain ⟨-, hsame⟩ := (answersTask_iff htext k₁ k₂).mpr h (code_of_result hresult)
    rw [exchange] at hresult
    rw [hresult, replyTo, deserializeTask_serializeTask r.nearest htext, Option.bind_some] at hsame
    obtain ⟨reply, hreply, hread⟩ := Option.bind_eq_some_iff.mp hsame.symm
    rw [deserializeResult_serializeResult r.nearest hreply] at hread
    rw [← Option.some.inj hread]
    rfl

/-- A strip that succeeds has the result of one machine. -/
theorem eq_localStrip (h : LinksRecognised r cfg hits links) {i : ℕ} (hi : i < cfg.serverCount)
    {x : Rounded r} (hx : stripOutcome r cfg hits links i = .success x) :
    x = localStrip r cfg hits i := by
  rw [stripOutcome] at hx
  split at hx
  case h_4 k₁ k₂ hlink =>
    split at hx
    next result hresult =>
      obtain rfl : result.integralValue = x := StripOutcome.success.inj hx
      exact value_of_recognised (h i hi k₁ k₂ hlink) hresult
    next => cases hx
  all_goals cases hx

/-- The plain loop over the strips is the one of one machine. -/
theorem sequentialSum_eq (h : LinksRecognised r cfg hits links) {i : ℕ}
    (hi : i ≤ cfg.serverCount) :
    sequentialSum (stripOutcome r cfg hits links) i = localIntegral r cfg hits links i := by
  induction i with
  | zero => rfl
  | succ i ih =>
    have hprev := ih (by omega)
    rw [sequentialSum, localIntegral, ← hprev]
    cases houtcome : stripOutcome r cfg hits links i with
    | success x =>
      have hx : x = localStrip r cfg hits i := eq_localStrip h (by omega) houtcome
      simp [StripOutcome.isSuccess, hx]
    | _ => simp [StripOutcome.isSuccess]

end Strip

/-- Whatever the connections do, if every worker is created and no text that is cut is taken for
another one, every schedule of the client ends, and it prints what one machine computes for the
strips that have an answer. -/
theorem distributed_of_init {r : Rounding} {cfg : ClientConfig} {hits : ℕ → ℕ → Bool}
    {links : ℕ → Link} (hpos : 0 < cfg.serverCount) (h : LinksRecognised r cfg hits links) :
    EndsWithin
      (restrict (clientStep cfg.serverCount) (follows true (stripOutcome r cfg hits links)))
      (3 * cfg.serverCount + 5)
      (fun s => s.phase = .ended ∧ s.exitStatus = some 0 ∧
        s.printed = some (localIntegral r cfg hits links cfg.serverCount)) .init := by
  refine (ends_created true fun i _ => stripOutcome_ne_notCreated i).mono ?_
  rintro s ⟨hended, hsettled⟩
  obtain ⟨hprinted, hexit⟩ := hsettled.printed_sequentialSum hpos hended
  rw [sequentialSum_eq h le_rfl] at hprinted
  exact ⟨hended, hexit, hprinted⟩

/-! ## Without rounding in the arithmetic -/

section Exact

variable {cfg : ClientConfig} {hits : ℕ → ℕ → Bool} {links : ℕ → Link}

theorem toNat_pointsInside_le (hits : ℕ → Bool) (numPoints : UInt64) :
    (pointsInside hits numPoints).toNat ≤ numPoints.toNat := by
  have hcount : (List.range numPoints.toNat).countP hits ≤ numPoints.toNat := by
    simpa using List.countP_le_length (p := hits) (l := List.range numPoints.toNat)
  rw [pointsInside, UInt64.toNat_ofNat_of_lt' (lt_of_le_of_lt hcount numPoints.toNat_lt)]
  exact hcount

/-- What a server computes for a task with points. -/
theorem value_monteCarlo {hits : ℕ → Bool} {task : Task} {a b c d : ℚ}
    (ha : task.xMin.value = some a) (hb : task.xMax.value = some b)
    (hc : task.yMin.value = some c) (hd : task.yMax.value = some d)
    (hpoints : task.numPoints ≠ 0) :
    (monteCarlo .exact hits task).1.value = some ((b - a) * (d - c)
      * (pointsInside hits task.numPoints).toNat / task.numPoints.toNat) := by
  have harea := Double.value_mul (Double.value_sub hb ha) (Double.value_sub hd hc)
  have hne : (task.numPoints.toNat : ℚ) ≠ 0 := by
    rw [Nat.cast_ne_zero]
    exact fun hzero => hpoints (UInt64.toNat_inj.mp hzero)
  exact Double.value_div (Double.value_mul harea (Double.value_ofCount _)) (Double.value_ofCount _)
    hne

/-- The estimate for strip `i` with the bounds that its server decodes. -/
def decodedEstimate (cfg : ClientConfig) (hits : ℕ → ℕ → Bool) (i : ℕ) : ℚ :=
  (roundTo decimals (stripXMax cfg i) - roundTo decimals (stripXMin cfg i))
    * (roundTo decimals cfg.yMax - roundTo decimals cfg.yMin)
    * (pointsInside (hits i) (stripTask cfg i).numPoints).toNat
    / (stripTask cfg i).numPoints.toNat

theorem value_localStrip {i : ℕ} (hpoints : (stripTask cfg i).numPoints ≠ 0) :
    Double.value (localStrip .exact cfg hits i)
      = some (roundTo decimals (decodedEstimate cfg hits i)) :=
  Double.value_readBack decimals (value_monteCarlo (value_readBack_ofRat decimals _)
    (value_readBack_ofRat decimals _) (value_readBack_ofRat decimals _)
    (value_readBack_ofRat decimals _) hpoints)

/-- The sum of one machine, without rounding. -/
theorem value_localIntegral (hpoints : ∀ i < cfg.serverCount, (stripTask cfg i).numPoints ≠ 0)
    {i : ℕ} (hi : i ≤ cfg.serverCount) :
    Double.value (localIntegral .exact cfg hits links i)
      = some (∑ j ∈ Finset.range i,
          if (stripOutcome .exact cfg hits links j).isSuccess then
            roundTo decimals (decodedEstimate cfg hits j)
          else 0) := by
  induction i with
  | zero => rfl
  | succ i ih =>
    have hprev := ih (by omega)
    rw [localIntegral, Finset.sum_range_succ]
    split
    · exact Double.value_add hprev (value_localStrip (hpoints i (by omega)))
    · rw [add_zero]
      exact hprev

/-- Two rounded numbers are as far apart as the exact ones, up to one unit. -/
theorem abs_roundTo_sub_roundTo_le (p q : ℚ) :
    |roundTo decimals p - roundTo decimals q - (p - q)| ≤ lastDecimal := by
  have hp := abs_roundTo_sub_le decimals p
  have hq := abs_roundTo_sub_le decimals q
  calc |roundTo decimals p - roundTo decimals q - (p - q)|
      = |(roundTo decimals p - p) - (roundTo decimals q - q)| := by ring_nf
    _ ≤ |roundTo decimals p - p| + |roundTo decimals q - q| := abs_sub _ _
    _ ≤ 1 / 2 / 10 ^ decimals + 1 / 2 / 10 ^ decimals := add_le_add hp hq
    _ = lastDecimal := by rw [lastDecimal]; ring

/-- The error of an area whose sides are known up to `u`. -/
theorem abs_mul_sub_mul_le {w h w' h' u : ℚ} (hw : |w' - w| ≤ u) (hh : |h' - h| ≤ u) :
    |w' * h' - w * h| ≤ |w| * u + |h| * u + u * u := by
  have hu : 0 ≤ u := (abs_nonneg _).trans hw
  calc |w' * h' - w * h|
      = |w * (h' - h) + h * (w' - w) + (w' - w) * (h' - h)| := by ring_nf
    _ ≤ |w * (h' - h)| + |h * (w' - w)| + |(w' - w) * (h' - h)| := abs_add_three _ _ _
    _ ≤ |w| * u + |h| * u + u * u := by
        rw [abs_mul, abs_mul, abs_mul]
        gcongr

/-- Every strip has the same width. -/
theorem stripXMax_sub_stripXMin {i : ℕ} (hi : i < cfg.serverCount) :
    stripXMax cfg i - stripXMin cfg i = stripWidth cfg := by
  rw [stripXMax]
  split
  next hlast =>
    have hn : (cfg.serverCount : ℚ) ≠ 0 := by
      rw [Nat.cast_ne_zero]
      omega
    have hcast : (i : ℚ) = cfg.serverCount - 1 := by
      rw [hlast, Nat.cast_sub (by omega), Nat.cast_one]
    rw [stripXMin, stripWidth, hcast]
    field_simp
    ring
  next => ring

/-- At most all points are below the curve. -/
theorem abs_pointsInside_div_le_one (hits : ℕ → Bool) (numPoints : UInt64) :
    |((pointsInside hits numPoints).toNat : ℚ) / numPoints.toNat| ≤ 1 := by
  rw [abs_div, Nat.abs_cast, Nat.abs_cast]
  exact div_le_one_of_le₀ (by exact_mod_cast toNat_pointsInside_le hits numPoints)
    (Nat.cast_nonneg _)

/-- What the rounded bounds of a strip add to the error of its estimate. -/
theorem abs_decodedEstimate_sub_estimate_le {i : ℕ} (hi : i < cfg.serverCount) :
    |decodedEstimate cfg hits i - estimate cfg hits i|
      ≤ |stripWidth cfg| * lastDecimal + |cfg.yMax - cfg.yMin| * lastDecimal
        + lastDecimal * lastDecimal := by
  have harea := abs_mul_sub_mul_le (abs_roundTo_sub_roundTo_le (stripXMax cfg i) (stripXMin cfg i))
    (abs_roundTo_sub_roundTo_le cfg.yMax cfg.yMin)
  rw [stripXMax_sub_stripXMin hi] at harea
  -- both estimates are an area times the same ratio of points
  have hsplit : decodedEstimate cfg hits i - estimate cfg hits i
      = ((roundTo decimals (stripXMax cfg i) - roundTo decimals (stripXMin cfg i))
          * (roundTo decimals cfg.yMax - roundTo decimals cfg.yMin)
          - stripWidth cfg * (cfg.yMax - cfg.yMin))
        * ((pointsInside (hits i) (stripTask cfg i).numPoints).toNat
          / (stripTask cfg i).numPoints.toNat) := by
    rw [decodedEstimate, estimate, stripXMax_sub_stripXMin hi]
    ring
  rw [hsplit, abs_mul]
  exact (mul_le_of_le_one_right (abs_nonneg _) (abs_pointsInside_div_le_one _ _)).trans harea

/-- What the texts of one strip add to the error of its estimate. -/
theorem abs_roundTo_decodedEstimate_sub_le {i : ℕ} (hi : i < cfg.serverCount) :
    |roundTo decimals (decodedEstimate cfg hits i) - estimate cfg hits i|
      ≤ |stripWidth cfg| * lastDecimal + |cfg.yMax - cfg.yMin| * lastDecimal
        + lastDecimal * lastDecimal + lastDecimal / 2 := by
  have hround := abs_roundTo_sub_le decimals (decodedEstimate cfg hits i)
  have hdecoded : |decodedEstimate cfg hits i - estimate cfg hits i| ≤ _ :=
    abs_decodedEstimate_sub_estimate_le hi
  have htriangle := abs_sub_le (roundTo decimals (decodedEstimate cfg hits i))
    (decodedEstimate cfg hits i) (estimate cfg hits i)
  have hhalf : (1 / 2 / 10 ^ decimals : ℚ) = lastDecimal / 2 := by
    rw [lastDecimal]
    ring
  linarith

/-- The errors of the strips add up. -/
theorem abs_sum_sub_estimates_le (hpos : 0 < cfg.serverCount) :
    |(∑ j ∈ Finset.range cfg.serverCount,
        if (stripOutcome .exact cfg hits links j).isSuccess then
          roundTo decimals (decodedEstimate cfg hits j)
        else 0) - estimates cfg hits links| ≤ textError cfg := by
  have hwidth : cfg.serverCount * |stripWidth cfg| = |cfg.xMax - cfg.xMin| := by
    have hn : (0 : ℚ) < cfg.serverCount := by exact_mod_cast hpos
    rw [stripWidth, abs_div, Nat.abs_cast]
    field_simp
  have hunit : 0 ≤ lastDecimal := by
    rw [lastDecimal]
    positivity
  rw [estimates, ← Finset.sum_sub_distrib]
  calc |∑ j ∈ Finset.range cfg.serverCount, _|
      ≤ ∑ j ∈ Finset.range cfg.serverCount, _ := Finset.abs_sum_le_sum_abs _ _
    _ ≤ ∑ _j ∈ Finset.range cfg.serverCount, (|stripWidth cfg| * lastDecimal
          + |cfg.yMax - cfg.yMin| * lastDecimal + lastDecimal * lastDecimal + lastDecimal / 2) := by
        refine Finset.sum_le_sum fun j hj => ?_
        split
        · exact abs_roundTo_decodedEstimate_sub_le (Finset.mem_range.mp hj)
        · -- a strip without an answer is missing on both sides
          rw [sub_zero, abs_zero]
          positivity
    _ = cfg.serverCount * |stripWidth cfg| * lastDecimal
          + cfg.serverCount * (|cfg.yMax - cfg.yMin| * lastDecimal + lastDecimal * lastDecimal
            + lastDecimal / 2) := by
        rw [Finset.sum_const, Finset.card_range, nsmul_eq_mul]
        ring
    _ = textError cfg := by
        rw [hwidth]
        rfl

end Exact

/-- With enough points, in exact arithmetic, the client prints the sum of the estimates for the
exact strips, up to what the texts of the messages can add. -/
theorem distributedClose_of_init {cfg : ClientConfig} {hits : ℕ → ℕ → Bool} {links : ℕ → Link}
    (hpos : 0 < cfg.serverCount) (henough : cfg.serverCount ≤ cfg.pointsPerRectangle.toNat)
    (h : LinksRecognised .exact cfg hits links) :
    EndsWithin
      (restrict (clientStep cfg.serverCount) (follows true (stripOutcome .exact cfg hits links)))
      (3 * cfg.serverCount + 5)
      (fun s => s.exitStatus = some 0 ∧ ∃ x q, s.printed = some x ∧ Double.value x = some q ∧
        |q - estimates cfg hits links| ≤ textError cfg) .init := by
  have hpoints : ∀ i < cfg.serverCount, (stripTask cfg i).numPoints ≠ 0 := by
    intro i _ hzero
    have hone := share_pos hpos henough i
    rw [← numPoints_stripTask cfg hpos, hzero, UInt64.toNat_zero] at hone
    omega
  refine (ends_created true fun i _ => stripOutcome_ne_notCreated i).mono ?_
  rintro s ⟨hended, hsettled⟩
  obtain ⟨hprinted, hexit⟩ := hsettled.printed_sequentialSum hpos hended
  rw [sequentialSum_eq h le_rfl] at hprinted
  exact ⟨hexit, _, _, hprinted, value_localIntegral hpoints le_rfl, abs_sum_sub_estimates_le hpos⟩

/-! ## Three servers -/

/-- Both reads have room for everything. -/
theorem recognised_bufferSize (r : Rounding) (cfg : ClientConfig) {i : ℕ}
    (hi : i < cfg.serverCount) (hits : ℕ → Bool) :
    Recognised r.nearest (monteCarlo r hits) (taskText (stripTask cfg i)) bufferSize
      bufferSize := by
  obtain ⟨text, htext, -⟩ := Option.bind_eq_some_iff.mp (transmit_stripTask cfg hi)
  refine Or.inr (Or.inr ⟨?_, fun reply hreply => ?_⟩)
  · rw [serializeTask] at htext
    split at htext
    next hfits => exact hfits.le
    next => cases htext
  · obtain ⟨task, -, hresult⟩ := Option.bind_eq_some_iff.mp hreply
    rw [eq_resultText hresult]
    rw [serializeResult] at hresult
    split at hresult
    next hfits => exact hfits.le
    next => cases hresult

/-- The second of three servers cannot be reached. -/
def secondFails (i : ℕ) : Link :=
  if i = 1 then .connectFailed else .reads bufferSize bufferSize

/-- Every second point is below the curve. -/
def evenPoints (_ k : ℕ) : Bool :=
  k % 2 == 0

theorem linksRecognised_secondFails (r : Rounding) :
    LinksRecognised r threeServers evenPoints secondFails := by
  intro i hi k₁ k₂ hlink
  rw [secondFails] at hlink
  split at hlink
  · cases hlink
  · obtain ⟨rfl, rfl⟩ := Link.reads.inj hlink
    exact recognised_bufferSize r threeServers hi _

/-- `distributed_of_init` where two of three servers answer. -/
theorem distributed_three_servers :
    EndsWithin (restrict (clientStep 3) (follows true
        (stripOutcome .exact threeServers evenPoints secondFails))) 14
      (fun s => s.phase = .ended ∧ s.exitStatus = some 0 ∧
        s.printed = some (localIntegral .exact threeServers evenPoints secondFails 3)) .init :=
  distributed_of_init (by decide) (linksRecognised_secondFails .exact)

/-- `distributedClose_of_init` where two of three servers answer. -/
theorem distributedClose_three_servers :
    EndsWithin (restrict (clientStep 3) (follows true
        (stripOutcome .exact threeServers evenPoints secondFails))) 14
      (fun s => s.exitStatus = some 0 ∧ ∃ x q, s.printed = some x ∧ Double.value x = some q ∧
        |q - estimates threeServers evenPoints secondFails| ≤ textError threeServers) .init :=
  distributedClose_of_init (by decide) (by decide) (linksRecognised_secondFails .exact)

end MonteCarlo
