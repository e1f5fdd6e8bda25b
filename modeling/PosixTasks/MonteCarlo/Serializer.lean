import PosixTasks.Lib.Doubles

/-!
# Tasks and results as text

The client sends a task to a server as one line of text, and the server sends its result back.
Both are written by `snprintf` and read by `sscanf`, and both end with a number that nothing
follows but the NUL of the string.

## Main results

* `deserializeTask_serializeTask`, `deserializeResult_serializeResult`: what is read back;
* `endsWithNumber_task`, `endsWithNumber_result`: a message is accepted if the first digit of its
  last number is there.
-/

namespace MonteCarlo

open CString

/-- `struct Task`. -/
structure Task where
  xMin : Double
  xMax : Double
  yMin : Double
  yMax : Double
  numPoints : UInt64
  deriving DecidableEq

/-- `struct Result`. -/
structure Result where
  integralValue : Double
  pointsInside : UInt64
  totalPoints : UInt64
  deriving DecidableEq

/-- The precision of `%.15lf`. -/
def decimals : ℕ := 15

/-- `"TASK:"` -/
def taskMark : Text := ['T', 'A', 'S', 'K', ':']

/-- `"RESULT:"` -/
def resultMark : Text := ['R', 'E', 'S', 'U', 'L', 'T', ':']

/-- The text of a task as far as its last colon. -/
def taskHead (task : Task) : Text :=
  taskMark ++ fixed decimals task.xMin ++ ':' :: fixed decimals task.xMax ++
    ':' :: fixed decimals task.yMin ++ ':' :: fixed decimals task.yMax

/-- `"TASK:%.15lf:%.15lf:%.15lf:%.15lf:%zu"` -/
def taskText (task : Task) : Text :=
  taskHead task ++ ':' :: decimal task.numPoints.toNat

/-- `serialize_task`, with the text in `buffer`. -/
def serializeTask (task : Task) (bufferSize : ℕ) : Option Text :=
  if (taskText task).length < bufferSize then some (taskText task) else none

/-- `deserialize_task`. -/
def deserializeTask (nearest : ℚ≥0 → ℚ≥0) (buffer : Text) : Option Task :=
  if taskMark <+: buffer then do
    let (xMin, s) ← scanDouble nearest (buffer.drop taskMark.length)
    let s ← scanChar ':' s
    let (xMax, s) ← scanDouble nearest s
    let s ← scanChar ':' s
    let (yMin, s) ← scanDouble nearest s
    let s ← scanChar ':' s
    let (yMax, s) ← scanDouble nearest s
    let s ← scanChar ':' s
    let (numPoints, _) ← scanUnsigned s
    return { xMin, xMax, yMin, yMax, numPoints }
  else none

/-- The text of a result as far as its last colon. -/
def resultHead (result : Result) : Text :=
  resultMark ++ fixed decimals result.integralValue ++ ':' :: decimal result.pointsInside.toNat

/-- `"RESULT:%.15lf:%zu:%zu"` -/
def resultText (result : Result) : Text :=
  resultHead result ++ ':' :: decimal result.totalPoints.toNat

/-- `serialize_result`, with the text in `buffer`. -/
def serializeResult (result : Result) (bufferSize : ℕ) : Option Text :=
  if (resultText result).length < bufferSize then some (resultText result) else none

/-- `deserialize_result`. -/
def deserializeResult (nearest : ℚ≥0 → ℚ≥0) (buffer : Text) : Option Result :=
  if resultMark <+: buffer then do
    let (integralValue, s) ← scanDouble nearest (buffer.drop resultMark.length)
    let s ← scanChar ':' s
    let (pointsInside, s) ← scanUnsigned s
    let s ← scanChar ':' s
    let (totalPoints, _) ← scanUnsigned s
    return { integralValue, pointsInside, totalPoints }
  else none

/-! ## Counting colons -/

/-- A field with the colon behind it. -/
theorem colons_of_suffix {s r rest : Text} (hsuffix : r <:+ s) (h : scanChar ':' r = some rest) :
    rest.count ':' + 1 ≤ s.count ':' := by
  have hcount := hsuffix.sublist.count_le ':'
  rw [scanChar_eq_some h, List.count_cons_self] at hcount
  exact hcount

theorem colons_fixed (x : Double) : (fixed decimals x).count ':' = 0 :=
  List.count_eq_zero.mpr (not_mem_fixed (by decide) (by decide) (by decide) (by decide) _ x)

theorem colons_decimal (n : ℕ) : (decimal n).count ':' = 0 :=
  List.count_eq_zero.mpr (not_mem_decimal (by decide) n)

/-- The colons in what follows a mark. -/
theorem colons_drop_mark {mark s : Text} (h : mark <+: s) :
    s.count ':' = mark.count ':' + (s.drop mark.length).count ':' := by
  obtain ⟨rest, rfl⟩ := h
  rw [List.drop_left, List.count_append]

/-- A task is read only from a text with its five colons. -/
theorem colons_of_deserializeTask {nearest : ℚ≥0 → ℚ≥0} {buffer : Text} {task : Task}
    (h : deserializeTask nearest buffer = some task) : 5 ≤ buffer.count ':' := by
  unfold deserializeTask at h
  split at h
  next hmark =>
    simp only [Option.bind_eq_bind, Option.bind_eq_some_iff, Prod.exists] at h
    obtain ⟨_, s₁, h₁, t₁, k₁, _, s₂, h₂, t₂, k₂, _, s₃, h₃, t₃, k₃, _, s₄, h₄, t₄, k₄, -⟩ := h
    have hmarkColon : taskMark.count ':' = 1 := by decide
    have hdrop := colons_drop_mark hmark
    have c₁ := colons_of_suffix (scanDouble_suffix h₁) k₁
    have c₂ := colons_of_suffix (scanDouble_suffix h₂) k₂
    have c₃ := colons_of_suffix (scanDouble_suffix h₃) k₃
    have c₄ := colons_of_suffix (scanDouble_suffix h₄) k₄
    omega
  next => simp at h

/-- A result is read only from a text with its three colons. -/
theorem colons_of_deserializeResult {nearest : ℚ≥0 → ℚ≥0} {buffer : Text} {result : Result}
    (h : deserializeResult nearest buffer = some result) : 3 ≤ buffer.count ':' := by
  unfold deserializeResult at h
  split at h
  next hmark =>
    simp only [Option.bind_eq_bind, Option.bind_eq_some_iff, Prod.exists] at h
    obtain ⟨_, s₁, h₁, t₁, k₁, _, s₂, h₂, t₂, k₂, -⟩ := h
    have hmarkColon : resultMark.count ':' = 1 := by decide
    have hdrop := colons_drop_mark hmark
    have c₁ := colons_of_suffix (scanDouble_suffix h₁) k₁
    have c₂ := colons_of_suffix (scanUnsigned_suffix h₂) k₂
    omega
  next => simp at h

/-! ## What a message is read as -/

/-- The task that is read for a task that was written. -/
def Task.readBack (nearest : ℚ≥0 → ℚ≥0) (task : Task) : Task where
  xMin := task.xMin.readBack nearest decimals
  xMax := task.xMax.readBack nearest decimals
  yMin := task.yMin.readBack nearest decimals
  yMax := task.yMax.readBack nearest decimals
  numPoints := task.numPoints

/-- The result that is read for a result that was written. -/
def Result.readBack (nearest : ℚ≥0 → ℚ≥0) (result : Result) : Result :=
  { result with integralValue := result.integralValue.readBack nearest decimals }

/-- A field that is followed by a colon. -/
theorem scanDouble_field (nearest : ℚ≥0 → ℚ≥0) (x : Double) (rest : Text) :
    scanDouble nearest (fixed decimals x ++ ':' :: rest)
      = some (x.readBack nearest decimals, ':' :: rest) :=
  scanDouble_fixed nearest (by decide) x (by simp [DigitsEnd])

/-- A task is accepted if the first digit of its number of points is there. -/
theorem endsWithNumber_task (nearest : ℚ≥0 → ℚ≥0) (task : Task) :
    EndsWithNumber (deserializeTask nearest) (taskHead task)
      fun numPoints => { task.readBack nearest with numPoints } where
  short k := by
    by_contra hsome
    obtain ⟨t, ht⟩ := Option.ne_none_iff_exists'.mp hsome
    have hcolons := colons_of_deserializeTask ht
    have hle := ((taskHead task).take_sublist k).count_le ':'
    have hhead : (taskHead task).count ':' = 4 := by
      simp [taskHead, taskMark, colons_fixed]
    omega
  last digits := by
    have htext : taskHead task ++ ':' :: digits = taskMark ++ (fixed decimals task.xMin ++
        ':' :: (fixed decimals task.xMax ++ ':' :: (fixed decimals task.yMin ++
        ':' :: (fixed decimals task.yMax ++ ':' :: digits)))) := by
      simp [taskHead]
    rw [htext, deserializeTask, if_pos (List.prefix_append _ _), List.drop_left]
    simp only [scanDouble_field, scanChar_cons, Option.bind_eq_bind, Option.bind_some]
    cases scanUnsigned digits <;> rfl

/-- A result is accepted if the first digit of its total is there. -/
theorem endsWithNumber_result (nearest : ℚ≥0 → ℚ≥0) (result : Result) :
    EndsWithNumber (deserializeResult nearest) (resultHead result)
      fun totalPoints => { result.readBack nearest with totalPoints } where
  short k := by
    by_contra hsome
    obtain ⟨r, hr⟩ := Option.ne_none_iff_exists'.mp hsome
    have hcolons := colons_of_deserializeResult hr
    have hle := ((resultHead result).take_sublist k).count_le ':'
    have hhead : (resultHead result).count ':' = 2 := by
      simp [resultHead, resultMark, colons_fixed, colons_decimal]
    omega
  last digits := by
    have htext : resultHead result ++ ':' :: digits = resultMark ++
        (fixed decimals result.integralValue ++
          ':' :: (decimal result.pointsInside.toNat ++ ':' :: digits)) := by
      simp [resultHead]
    have hinside : scanUnsigned (decimal result.pointsInside.toNat ++ ':' :: digits)
        = some (result.pointsInside, ':' :: digits) := by
      rw [scanUnsigned_decimal result.pointsInside.toNat_lt (by simp [DigitsEnd]),
        UInt64.ofNat_toNat]
    rw [htext, deserializeResult, if_pos (List.prefix_append _ _), List.drop_left]
    simp only [scanDouble_field, scanChar_cons, hinside, Option.bind_eq_bind, Option.bind_some]
    cases scanUnsigned digits <;> rfl

/-- A text that is written has no NUL. -/
theorem noNul_taskText (task : Task) : '\x00' ∉ taskText task := by
  have hfixed : ∀ x, '\x00' ∉ fixed decimals x :=
    not_mem_fixed (by decide) (by decide) (by decide) (by decide) decimals
  have hdecimal : '\x00' ∉ decimal task.numPoints.toNat := not_mem_decimal rfl _
  simp [taskText, taskHead, taskMark, hfixed, hdecimal]

theorem noNul_resultText (result : Result) : '\x00' ∉ resultText result := by
  have hfixed : ∀ x, '\x00' ∉ fixed decimals x :=
    not_mem_fixed (by decide) (by decide) (by decide) (by decide) decimals
  have hdecimal : ∀ n, '\x00' ∉ decimal n := not_mem_decimal rfl
  simp [resultText, resultHead, resultMark, hfixed, hdecimal]

theorem eq_taskText {task : Task} {size : ℕ} {text : Text}
    (h : serializeTask task size = some text) : text = taskText task := by
  unfold serializeTask at h
  split at h
  next => exact (Option.some.inj h).symm
  next => simp at h

theorem eq_resultText {result : Result} {size : ℕ} {text : Text}
    (h : serializeResult result size = some text) : text = resultText result := by
  unfold serializeResult at h
  split at h
  next => exact (Option.some.inj h).symm
  next => simp at h

/-- What is read for a task that was written. -/
theorem deserializeTask_serializeTask (nearest : ℚ≥0 → ℚ≥0) {task : Task} {size : ℕ} {text : Text}
    (h : serializeTask task size = some text) :
    deserializeTask nearest text = some (task.readBack nearest) := by
  rw [eq_taskText h, taskText,
    (endsWithNumber_task nearest task).decode_whole task.numPoints.toNat_lt, UInt64.ofNat_toNat]
  rfl

/-- What is read for a result that was written. -/
theorem deserializeResult_serializeResult (nearest : ℚ≥0 → ℚ≥0) {result : Result} {size : ℕ}
    {text : Text} (h : serializeResult result size = some text) :
    deserializeResult nearest text = some (result.readBack nearest) := by
  rw [eq_resultText h, resultText,
    (endsWithNumber_result nearest result).decode_whole result.totalPoints.toNat_lt,
    UInt64.ofNat_toNat]
  rfl

end MonteCarlo
