import PosixTasks.MonteCarlo.Socket

/-!
# The tasks of the servers

`compute_integral_distributed` cuts the interval of x into strips, one for each server, and
spreads the points over them. The bounds go through the text of the tasks, where they are rounded
to 15 decimals.

The arithmetic is exact: neither the computation of a bound nor `strtod` rounds.

## Main results

* `partition_of_tasks`: what the servers decode covers the interval without gaps and overlaps, and
  has all the points, spread evenly;
* `decodedStrip_close`: how far a decoded bound is from the exact one.
-/

namespace MonteCarlo

open CString

/-- What every finite `double` is below. -/
def doubleLimit : ℚ := 2 ^ 1024

/-- `ClientConfig`, as far as `compute_integral_distributed` reads it. The bounds are finite
`double`s. -/
structure ClientConfig where
  /-- `server_list.count` -/
  serverCount : ℕ
  pointsPerRectangle : UInt64
  xMin : ℚ
  xMax : ℚ
  yMin : ℚ
  yMax : ℚ
  finite : |xMin| < doubleLimit ∧ |xMax| < doubleLimit ∧ |yMin| < doubleLimit ∧
    |yMax| < doubleLimit

section Tasks

variable (cfg : ClientConfig)

/-- `strip_width` -/
def stripWidth : ℚ :=
  (cfg.xMax - cfg.xMin) / cfg.serverCount

/-- `strip_x_min` -/
def stripXMin (i : ℕ) : ℚ :=
  cfg.xMin + i * stripWidth cfg

/-- `strip_x_max` -/
def stripXMax (i : ℕ) : ℚ :=
  if i = cfg.serverCount - 1 then cfg.xMax else stripXMin cfg i + stripWidth cfg

/-- The part of `total` in place `i`, where `n` parts are as equal as they can be. -/
def share (total n i : ℕ) : ℕ :=
  total / n + if i < total % n then 1 else 0

/-- `jobs[i].task` -/
def stripTask (i : ℕ) : Task where
  xMin := .ofRat (stripXMin cfg i)
  xMax := .ofRat (stripXMax cfg i)
  yMin := .ofRat cfg.yMin
  yMax := .ofRat cfg.yMax
  numPoints := UInt64.ofNat (share cfg.pointsPerRectangle.toNat cfg.serverCount i)

/-- The tasks that `compute_integral_distributed` builds. -/
def stripTasks : List Task :=
  (List.range cfg.serverCount).map (stripTask cfg)

end Tasks

/-- What a server decodes from the whole text of a task. -/
def transmit (task : Task) : Option Task :=
  (serializeTask task bufferSize).bind (deserializeTask id)

/-! ## Shares -/

/-- The shares add up to the total. -/
theorem sum_share (total : ℕ) {n : ℕ} (hn : 0 < n) :
    ((List.range n).map (share total n)).sum = total := by
  -- the first strips have one point more
  have hextra : ∀ r m, ((List.range m).map fun i => if i < r then 1 else 0).sum = min m r := by
    intro r m
    induction m with
    | zero => simp
    | succ m ih =>
      rw [List.range_succ, List.map_append, List.sum_append, ih]
      simp only [List.map_cons, List.map_nil, List.sum_cons, List.sum_nil]
      split <;> omega
  have hbase : ∀ m, ((List.range m).map (share total n)).sum
      = m * (total / n) + ((List.range m).map fun i => if i < total % n then 1 else 0).sum := by
    intro m
    induction m with
    | zero => simp
    | succ m ih =>
      rw [List.range_succ, List.map_append, List.map_append, List.sum_append, List.sum_append, ih]
      simp only [share, List.map_cons, List.map_nil, List.sum_cons, List.sum_nil]
      ring
  have hmod : total % n < n := Nat.mod_lt _ hn
  rw [hbase, hextra, min_eq_right hmod.le]
  exact Nat.div_add_mod total n

/-- Two shares differ by at most one. -/
theorem share_le (total n i j : ℕ) : share total n i ≤ share total n j + 1 := by
  simp only [share]
  split <;> split <;> omega

theorem share_le_total (total : ℕ) {n : ℕ} (hn : 0 < n) (i : ℕ) : share total n i ≤ total := by
  have hsplit := Nat.div_add_mod total n
  have hquotient : total / n ≤ n * (total / n) := Nat.le_mul_of_pos_left _ hn
  rw [share]
  split <;> omega

/-! ## The bounds -/

section Bounds

variable (cfg : ClientConfig)

/-- One strip ends where the next one begins. -/
theorem stripXMax_eq {i : ℕ} (hi : i + 1 < cfg.serverCount) :
    stripXMax cfg i = stripXMin cfg (i + 1) := by
  have hlast : i ≠ cfg.serverCount - 1 := by omega
  rw [stripXMax, if_neg hlast, stripXMin, stripXMin]
  push_cast
  ring

/-- The bounds of a strip lie between those of the whole interval. -/
theorem abs_stripXMin_lt {i : ℕ} (hi : i ≤ cfg.serverCount) (hpos : 0 < cfg.serverCount) :
    |stripXMin cfg i| < doubleLimit := by
  have hn : (0 : ℚ) < cfg.serverCount := by exact_mod_cast hpos
  have hle : (i : ℚ) ≤ cfg.serverCount := by exact_mod_cast hi
  obtain ⟨hmin, hmax, -⟩ := cfg.finite
  -- a weighted mean of `x_min` and `x_max`
  have hmean : stripXMin cfg i * cfg.serverCount
      = (cfg.serverCount - i) * cfg.xMin + i * cfg.xMax := by
    rw [stripXMin, stripWidth]
    field_simp
    ring
  have hlargest : max |cfg.xMin| |cfg.xMax| < doubleLimit := max_lt hmin hmax
  have hweighted : |stripXMin cfg i| * cfg.serverCount < doubleLimit * cfg.serverCount :=
    calc |stripXMin cfg i| * cfg.serverCount
        = |(cfg.serverCount - i) * cfg.xMin + i * cfg.xMax| := by
          rw [← hmean, abs_mul, abs_of_pos hn]
      _ ≤ |(cfg.serverCount - i) * cfg.xMin| + |i * cfg.xMax| := abs_add_le _ _
      _ = (cfg.serverCount - i) * |cfg.xMin| + i * |cfg.xMax| := by
          rw [abs_mul, abs_mul, abs_of_nonneg (sub_nonneg.mpr hle), Nat.abs_cast]
      _ ≤ (cfg.serverCount - i) * max |cfg.xMin| |cfg.xMax| + i * max |cfg.xMin| |cfg.xMax| :=
          add_le_add (mul_le_mul_of_nonneg_left (le_max_left _ _) (sub_nonneg.mpr hle))
            (mul_le_mul_of_nonneg_left (le_max_right _ _) (Nat.cast_nonneg i))
      _ = max |cfg.xMin| |cfg.xMax| * cfg.serverCount := by ring
      _ < doubleLimit * cfg.serverCount := mul_lt_mul_of_pos_right hlargest hn
  exact lt_of_mul_lt_mul_right hweighted hn.le

theorem abs_stripXMax_lt {i : ℕ} (hi : i < cfg.serverCount) : |stripXMax cfg i| < doubleLimit := by
  by_cases hlast : i = cfg.serverCount - 1
  · rw [stripXMax, if_pos hlast]
    exact cfg.finite.2.1
  · rw [stripXMax_eq cfg (by omega)]
    exact abs_stripXMin_lt cfg (by omega) (by omega)

end Bounds

/-! ## The text of a task -/

/-- The text of a bound. -/
theorem length_bound_le {q : ℚ} (hq : |q| < doubleLimit) :
    (fixed decimals (.ofRat q)).length ≤ 326 := by
  have hpower : doubleLimit + 1 < 10 ^ 309 := by
    rw [doubleLimit]
    have hnat : 2 ^ 1024 + 1 < 10 ^ 309 := by decide +kernel
    exact_mod_cast hnat
  have hbound : ((q.nnabs : ℚ≥0) : ℚ) + 1 < 10 ^ 309 :=
    lt_trans (add_lt_add_left hq 1) hpower
  exact length_fixed_le (by decide) (by decide) _ hbound

/-- A task with finite bounds fits the buffer. -/
theorem serializeTask_fits {xMin xMax yMin yMax : ℚ} (numPoints : UInt64)
    (h : |xMin| < doubleLimit ∧ |xMax| < doubleLimit ∧ |yMin| < doubleLimit ∧
      |yMax| < doubleLimit) :
    transmit { xMin := .ofRat xMin, xMax := .ofRat xMax, yMin := .ofRat yMin, yMax := .ofRat yMax,
               numPoints }
      = some { xMin := (Double.ofRat xMin).readBack id decimals
               xMax := (Double.ofRat xMax).readBack id decimals
               yMin := (Double.ofRat yMin).readBack id decimals
               yMax := (Double.ofRat yMax).readBack id decimals
               numPoints } := by
  obtain ⟨h₁, h₂, h₃, h₄⟩ := h
  have hpoints : (decimal numPoints.toNat).length ≤ 20 :=
    length_decimal_le (by decide) (lt_trans numPoints.toNat_lt (by decide))
  have l₁ := length_bound_le h₁
  have l₂ := length_bound_le h₂
  have l₃ := length_bound_le h₃
  have l₄ := length_bound_le h₄
  obtain ⟨text, htext⟩ : ∃ text, serializeTask
      { xMin := .ofRat xMin, xMax := .ofRat xMax, yMin := .ofRat yMin, yMax := .ofRat yMax,
        numPoints } bufferSize = some text := by
    refine ⟨_, if_pos ?_⟩
    simp only [taskText, taskHead, taskMark, bufferSize, List.length_append, List.length_cons,
      List.length_nil]
    omega
  rw [transmit, htext, Option.bind_some, deserializeTask_serializeTask id htext]
  rfl

/-! ## What the servers decode -/

/-- The task of strip `i` as its server decodes it. -/
def decodedStrip (cfg : ClientConfig) (i : ℕ) : Task :=
  (stripTask cfg i).readBack id

theorem transmit_stripTask (cfg : ClientConfig) {i : ℕ} (hi : i < cfg.serverCount) :
    transmit (stripTask cfg i) = some (decodedStrip cfg i) := by
  obtain ⟨-, -, hmin, hmax⟩ := cfg.finite
  exact serializeTask_fits _
    ⟨abs_stripXMin_lt cfg hi.le (by omega), abs_stripXMax_lt cfg hi, hmin, hmax⟩

/-- A bound that a server decodes is the exact one up to half a unit of the last decimal. -/
theorem decodedStrip_close (cfg : ClientConfig) (i : ℕ) :
    ∃ a b, (decodedStrip cfg i).xMin.value = some a ∧ (decodedStrip cfg i).xMax.value = some b ∧
      |a - stripXMin cfg i| ≤ 1 / 2 / 10 ^ decimals ∧
      |b - stripXMax cfg i| ≤ 1 / 2 / 10 ^ decimals :=
  ⟨_, _, value_readBack_ofRat decimals (stripXMin cfg i),
    value_readBack_ofRat decimals (stripXMax cfg i), abs_roundTo_sub_le decimals _,
    abs_roundTo_sub_le decimals _⟩

/-- The servers have the whole interval and all the points. -/
structure Partition (cfg : ClientConfig) (tasks : List Task) : Prop where
  /-- there is one task for each server -/
  length : tasks.length = cfg.serverCount
  /-- one strip ends where the next one begins -/
  contiguous : ∀ i s t, tasks[i]? = some s → tasks[i + 1]? = some t → s.xMax = t.xMin
  first : ∀ t ∈ tasks.head?, t.xMin.value = some (roundTo decimals cfg.xMin)
  last : ∀ t ∈ tasks.getLast?, t.xMax.value = some (roundTo decimals cfg.xMax)
  yBounds : ∀ t ∈ tasks, t.yMin.value = some (roundTo decimals cfg.yMin) ∧
    t.yMax.value = some (roundTo decimals cfg.yMax)
  points : (tasks.map fun t => t.numPoints.toNat).sum = cfg.pointsPerRectangle.toNat
  balanced : ∀ s ∈ tasks, ∀ t ∈ tasks, s.numPoints.toNat ≤ t.numPoints.toNat + 1

theorem numPoints_decodedStrip (cfg : ClientConfig) (hpos : 0 < cfg.serverCount) (i : ℕ) :
    (decodedStrip cfg i).numPoints.toNat
      = share cfg.pointsPerRectangle.toNat cfg.serverCount i :=
  UInt64.toNat_ofNat_of_lt'
    (lt_of_le_of_lt (share_le_total _ hpos i) cfg.pointsPerRectangle.toNat_lt)

theorem partition_decodedStrips (cfg : ClientConfig) (hpos : 0 < cfg.serverCount) :
    Partition cfg ((List.range cfg.serverCount).map (decodedStrip cfg)) where
  length := by simp
  contiguous i s t hs ht := by
    simp only [List.getElem?_map, Option.map_eq_some_iff, List.getElem?_eq_some_iff,
      List.getElem_range, List.length_range] at hs ht
    obtain ⟨_, ⟨hi, rfl⟩, rfl⟩ := hs
    obtain ⟨_, ⟨hnext, rfl⟩, rfl⟩ := ht
    -- the same number is written in both texts
    show (Double.ofRat (stripXMax cfg i)).readBack id decimals
      = (Double.ofRat (stripXMin cfg (i + 1))).readBack id decimals
    rw [stripXMax_eq cfg hnext]
  first t ht := by
    have hstart : stripXMin cfg 0 = cfg.xMin := by simp [stripXMin]
    simp only [List.head?_map, List.head?_range, hpos.ne', if_false, Option.map_some,
      Option.mem_some_iff] at ht
    subst ht
    show ((Double.ofRat (stripXMin cfg 0)).readBack id decimals).value = _
    rw [hstart, value_readBack_ofRat]
  last t ht := by
    -- the last strip ends at `x_max` itself, not at a sum of widths
    have hend : stripXMax cfg (cfg.serverCount - 1) = cfg.xMax := if_pos rfl
    simp only [List.getLast?_map, List.getLast?_range, hpos.ne', if_false, Option.map_some,
      Option.mem_some_iff] at ht
    subst ht
    show ((Double.ofRat (stripXMax cfg (cfg.serverCount - 1))).readBack id decimals).value = _
    rw [hend, value_readBack_ofRat]
  yBounds t ht := by
    obtain ⟨i, -, rfl⟩ := List.mem_map.mp ht
    exact ⟨value_readBack_ofRat decimals cfg.yMin, value_readBack_ofRat decimals cfg.yMax⟩
  points := by
    rw [List.map_map]
    -- the numbers of points are read as they were shared out
    have hshares : (List.range cfg.serverCount).map
          ((fun t : Task => t.numPoints.toNat) ∘ decodedStrip cfg)
        = (List.range cfg.serverCount).map (share cfg.pointsPerRectangle.toNat cfg.serverCount) :=
      List.map_congr_left fun i _ => numPoints_decodedStrip cfg hpos i
    rw [hshares, sum_share _ hpos]
  balanced s hs t ht := by
    obtain ⟨i, -, rfl⟩ := List.mem_map.mp hs
    obtain ⟨j, -, rfl⟩ := List.mem_map.mp ht
    rw [numPoints_decodedStrip cfg hpos, numPoints_decodedStrip cfg hpos]
    exact share_le _ _ i j

/-- The tasks that `compute_integral_distributed` builds, as the servers decode them, partition
the problem: their x intervals are contiguous from the rounded `x_min` to the rounded `x_max`, all
have the rounded y bounds, and their points add up to the total and differ by at most one. -/
theorem partition_of_tasks (cfg : ClientConfig) (hpos : 0 < cfg.serverCount) :
    ∃ tasks, (stripTasks cfg).map transmit = tasks.map some ∧ Partition cfg tasks := by
  refine ⟨_, ?_, partition_decodedStrips cfg hpos⟩
  rw [stripTasks, List.map_map, List.map_map]
  exact List.map_congr_left fun i hi => transmit_stripTask cfg (List.mem_range.mp hi)

/-- Eight points for three servers, between 0 and 1. -/
def threeServers : ClientConfig where
  serverCount := 3
  pointsPerRectangle := 8
  xMin := 0
  xMax := 1
  yMin := 0
  yMax := 3
  finite := by
    have hlimit : (3 : ℚ) < doubleLimit := by
      have hnat : 3 < 2 ^ 1024 := by decide +kernel
      rw [doubleLimit]
      exact_mod_cast hnat
    rw [abs_zero, abs_one, abs_of_pos three_pos]
    exact ⟨by linarith, by linarith, by linarith, hlimit⟩

/-- `partition_of_tasks` for three servers. -/
theorem partition_three_servers :
    ∃ tasks, (stripTasks threeServers).map transmit = tasks.map some ∧
      Partition threeServers tasks :=
  partition_of_tasks threeServers (by decide)

end MonteCarlo
