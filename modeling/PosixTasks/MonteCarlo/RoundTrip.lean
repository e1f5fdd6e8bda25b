import PosixTasks.MonteCarlo.Serializer

/-!
# What is left of a message that is sent

A task or a result is written to a buffer with its NUL. What is read back has the same integers,
and the numbers that were written with 15 decimals, whatever is in the buffer behind the NUL. The
two kinds of messages begin with different marks, so that none is taken for one of the other kind.

The numbers are rational; `strtod` does not round. No `double` makes a text that is too long for
the `int` that `snprintf` returns.

## Main results

* `messages_roundTrip`: the round trips of both kinds, and what each decoder rejects.
-/

namespace MonteCarlo

open CString

/-- A `double` that has the number that was written for `q`, the nearest one with 15 decimals. -/
def IsRounded (q : ℚ) (x : Double) : Prop :=
  x.value = some (roundTo decimals q) ∧ NearestMultiple decimals q (roundTo decimals q)

theorem isRounded_readBack (q : ℚ) :
    IsRounded q ((Double.ofRat q).readBack id decimals) :=
  ⟨value_readBack_ofRat decimals q, nearestMultiple_roundTo decimals q⟩

/-- A buffer with a text, its NUL and what was there before. -/
def bufferOf (text rest : Text) : Text :=
  text ++ '\x00' :: rest

/-- What a decoder finds in the buffer. -/
theorem ofBuffer_bufferOf {text : Text} (h : '\x00' ∉ text) (rest : Text) :
    ofBuffer (bufferOf text rest) = text :=
  ofBuffer_append h rest

/-- `serialize_task` returns -1 exactly if the text and its NUL do not fit, and what it has written
is decoded as the task with rounded bounds. -/
def TaskRoundTrip (xMin xMax yMin yMax : ℚ) (numPoints : UInt64) (size : ℕ) : Prop :=
  let task : Task := { xMin := .ofRat xMin, xMax := .ofRat xMax, yMin := .ofRat yMin,
                       yMax := .ofRat yMax, numPoints }
  (serializeTask task size = none ↔ size < (taskText task).length + 1) ∧
    ∀ text, serializeTask task size = some text → ∀ rest,
      ∃ decoded, deserializeTask id (ofBuffer (bufferOf text rest)) = some decoded ∧
        IsRounded xMin decoded.xMin ∧ IsRounded xMax decoded.xMax ∧
        IsRounded yMin decoded.yMin ∧ IsRounded yMax decoded.yMax ∧ decoded.numPoints = numPoints

/-- The same for `serialize_result`. -/
def ResultRoundTrip (integralValue : ℚ) (pointsInside totalPoints : UInt64) (size : ℕ) : Prop :=
  let result : Result := { integralValue := .ofRat integralValue, pointsInside, totalPoints }
  (serializeResult result size = none ↔ size < (resultText result).length + 1) ∧
    ∀ text, serializeResult result size = some text → ∀ rest,
      ∃ decoded, deserializeResult id (ofBuffer (bufferOf text rest)) = some decoded ∧
        IsRounded integralValue decoded.integralValue ∧
        decoded.pointsInside = pointsInside ∧ decoded.totalPoints = totalPoints

/-! ## The two kinds -/

theorem serializeTask_eq_none_iff (task : Task) (size : ℕ) :
    serializeTask task size = none ↔ size < (taskText task).length + 1 := by
  rw [serializeTask, ite_eq_right_iff]
  simp only [reduceCtorEq, imp_false, not_lt, Nat.lt_succ_iff]

theorem serializeResult_eq_none_iff (result : Result) (size : ℕ) :
    serializeResult result size = none ↔ size < (resultText result).length + 1 := by
  rw [serializeResult, ite_eq_right_iff]
  simp only [reduceCtorEq, imp_false, not_lt, Nat.lt_succ_iff]

/-- What begins with the one mark does not begin with the other. -/
theorem not_resultMark_of_taskMark {buffer : Text} (h : taskMark <+: buffer) :
    ¬ resultMark <+: buffer := by
  rintro ⟨rest, rfl⟩
  have hhead := (List.cons_prefix_cons.mp h).1
  exact absurd hhead (by decide)

/-- `deserialize_result` rejects whatever begins like a task. -/
theorem deserializeResult_of_taskMark (nearest : ℚ≥0 → ℚ≥0) {buffer : Text}
    (h : taskMark <+: buffer) : deserializeResult nearest buffer = none := by
  rw [deserializeResult, if_neg (not_resultMark_of_taskMark h)]

/-- `deserialize_task` rejects whatever begins like a result. -/
theorem deserializeTask_of_resultMark (nearest : ℚ≥0 → ℚ≥0) {buffer : Text}
    (h : resultMark <+: buffer) : deserializeTask nearest buffer = none := by
  rw [deserializeTask, if_neg fun htask => not_resultMark_of_taskMark htask h]

theorem taskText_starts (task : Task) : taskMark <+: taskText task := by
  simp only [taskText, taskHead, List.append_assoc]
  exact List.prefix_append _ _

theorem resultText_starts (result : Result) : resultMark <+: resultText result := by
  simp only [resultText, resultHead, List.append_assoc]
  exact List.prefix_append _ _

/-! ## The round trips -/

theorem taskRoundTrip (xMin xMax yMin yMax : ℚ) (numPoints : UInt64) (size : ℕ) :
    TaskRoundTrip xMin xMax yMin yMax numPoints size := by
  refine ⟨serializeTask_eq_none_iff _ size, fun text h rest => ?_⟩
  rw [ofBuffer_bufferOf (eq_taskText h ▸ noNul_taskText _)]
  exact ⟨_, deserializeTask_serializeTask id h, isRounded_readBack xMin, isRounded_readBack xMax,
    isRounded_readBack yMin, isRounded_readBack yMax, rfl⟩

theorem resultRoundTrip (integralValue : ℚ) (pointsInside totalPoints : UInt64) (size : ℕ) :
    ResultRoundTrip integralValue pointsInside totalPoints size := by
  refine ⟨serializeResult_eq_none_iff _ size, fun text h rest => ?_⟩
  rw [ofBuffer_bufferOf (eq_resultText h ▸ noNul_resultText _)]
  exact ⟨_, deserializeResult_serializeResult id h, isRounded_readBack integralValue, rfl, rfl⟩

/-- For every task, every result and every size of the buffer: a message is refused exactly if its
text does not fit with its NUL, else it is read back with the numbers rounded, and the decoder for
the other kind rejects it. -/
theorem messages_roundTrip :
    (∀ xMin xMax yMin yMax numPoints size, TaskRoundTrip xMin xMax yMin yMax numPoints size) ∧
      (∀ integralValue pointsInside totalPoints size,
        ResultRoundTrip integralValue pointsInside totalPoints size) ∧
      (∀ task size text, serializeTask task size = some text → ∀ nearest rest,
        deserializeResult nearest (ofBuffer (bufferOf text rest)) = none) ∧
      (∀ result size text, serializeResult result size = some text → ∀ nearest rest,
        deserializeTask nearest (ofBuffer (bufferOf text rest)) = none) := by
  refine ⟨taskRoundTrip, resultRoundTrip, ?_, ?_⟩
  · intro task size text h nearest rest
    rw [ofBuffer_bufferOf (eq_taskText h ▸ noNul_taskText _), eq_taskText h]
    exact deserializeResult_of_taskMark nearest (taskText_starts task)
  · intro result size text h nearest rest
    rw [ofBuffer_bufferOf (eq_resultText h ▸ noNul_resultText _), eq_resultText h]
    exact deserializeTask_of_resultMark nearest (resultText_starts result)

end MonteCarlo
