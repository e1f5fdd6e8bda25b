import PosixTasks.MonteCarlo.Serializer

/-!
# A task and its result over a stream

`send_task_to_server` writes the text of a task with its NUL, and `handle_client` reads once; what
it writes is read once by the client. A read returns the first bytes of what the peer has written,
as many as have arrived, or nothing if the peer has closed the connection without a byte.

No call fails. The points that `handle_client` draws are a parameter.

## Main results

* `answersTask_iff`: a result that the client accepts answers its task exactly if both reads
  return the whole text, or one of the two texts ends before the first digit of its last number.
-/

namespace MonteCarlo

open CString

/-- `BUFFER_SIZE`. -/
def bufferSize : ℕ := 4096

/-- What `buffer` has as a string after a read that returns `k` of the bytes. -/
def received (bytes : Text) (k : ℕ) : Text :=
  ofBuffer (bytes.take k)

/-- The result of a task in `handle_client`. `integrate` stands for the loop over random points,
with `integral` and `points_inside`. -/
def resultOf (integrate : Task → Double × UInt64) (task : Task) : Result where
  integralValue := (integrate task).1
  pointsInside := (integrate task).2
  totalPoints := task.numPoints

/-- `handle_client`: the task it has decoded, and the bytes it writes before it closes the
connection. -/
def handleClient (nearest : ℚ≥0 → ℚ≥0) (integrate : Task → Double × UInt64) (buffer : Text) :
    Option Task × Text :=
  match deserializeTask nearest buffer with
  | none => (none, [])
  | some task =>
      match serializeResult (resultOf integrate task) bufferSize with
      | some text => (some task, text ++ ['\x00'])
      | none => (some task, [])

/-- How a call of `send_task_to_server` has ended. -/
structure Exchanged where
  code : ℤ
  /-- The task that the server has decoded. -/
  task : Option Task
  /-- `*result`, if the call returns 0. -/
  result : Option Result
  deriving DecidableEq

/-- `send_task_to_server`, where the read of the server returns `k₁` bytes of the task and the
read of the client `k₂` bytes of the reply. -/
def sendTaskToServer (nearest : ℚ≥0 → ℚ≥0) (integrate : Task → Double × UInt64) (task : Task)
    (k₁ k₂ : ℕ) : Exchanged :=
  match serializeTask task bufferSize with
  | none => { code := -1, task := none, result := none }
  | some text =>
      let served := handleClient nearest integrate (received (text ++ ['\x00']) k₁)
      match deserializeResult nearest (received served.2 k₂) with
      | some result => { code := 0, task := served.1, result := some result }
      | none => { code := -1, task := served.1, result := none }

section Answer

variable (nearest : ℚ≥0 → ℚ≥0) (integrate : Task → Double × UInt64)

/-- The text of the reply to a task that was received as `buffer`. -/
def replyTo (buffer : Text) : Option Text :=
  (deserializeTask nearest buffer).bind fun task =>
    serializeResult (resultOf integrate task) bufferSize

/-- A result that is accepted is that of the reply to the task as it was sent. -/
def AnswersTask (task : Task) (text : Text) (k₁ k₂ : ℕ) : Prop :=
  let x := sendTaskToServer nearest integrate task k₁ k₂
  x.code = 0 → x.task = deserializeTask nearest text ∧
    x.result = (replyTo nearest integrate text).bind (deserializeResult nearest)

/-- The length of a text as far as its last colon. -/
def lastField (text : Text) : ℕ :=
  text.length - (text.reverse.takeWhile (· ≠ ':')).length

/-- One of the two reads ends before the first digit of the last number, or both have the whole
text. -/
def Recognised (text : Text) (k₁ k₂ : ℕ) : Prop :=
  k₁ ≤ lastField text ∨
    (∀ reply ∈ replyTo nearest integrate (text.take k₁), k₂ ≤ lastField reply) ∨
    (text.length ≤ k₁ ∧ ∀ reply ∈ replyTo nearest integrate text, reply.length ≤ k₂)

end Answer

/-! ## The texts -/

theorem lastField_eq (head : Text) (n : ℕ) :
    lastField (head ++ ':' :: decimal n) = head.length + 1 := by
  have hdigits : ∀ c ∈ (decimal n).reverse, decide (c ≠ ':') = true := by
    intro c hc
    rw [decide_eq_true_iff]
    rintro rfl
    exact not_mem_decimal rfl n (List.mem_reverse.mp hc)
  have htake : ((head ++ ':' :: decimal n).reverse.takeWhile (· ≠ ':')) = (decimal n).reverse := by
    rw [List.reverse_append, List.reverse_cons, List.append_assoc,
      List.takeWhile_append_of_pos hdigits]
    simp
  rw [lastField, htake, List.length_reverse, List.length_append, List.length_cons]
  omega

/-- The NUL behind a text ends the string, whether it has arrived or not. -/
theorem received_text {text : Text} (h : '\x00' ∉ text) (k : ℕ) :
    received (text ++ ['\x00']) k = text.take k := by
  rw [received]
  by_cases hk : k ≤ text.length
  · rw [List.take_append_of_le_length hk]
    exact ofBuffer_of_not_mem fun hmem => h (List.mem_of_mem_take hmem)
  · rw [List.take_of_length_le (by simp; omega), List.take_of_length_le (by omega)]
    exact ofBuffer_append h []

@[simp]
theorem received_nil (k : ℕ) : received [] k = [] := by
  simp [received, ofBuffer]

/-- Nothing is not a result. -/
theorem deserializeResult_nil (nearest : ℚ≥0 → ℚ≥0) : deserializeResult nearest [] = none := by
  simp [deserializeResult, resultMark]

/-! ## What is accepted -/

section Answer

variable {nearest : ℚ≥0 → ℚ≥0} {integrate : Task → Double × UInt64} {task : Task} {text : Text}

/-- A task is accepted if a digit of its number of points has been received, and read as it was
sent if the number has been received. -/
theorem accepts_task (nearest : ℚ≥0 → ℚ≥0) (h : serializeTask task bufferSize = some text)
    (k : ℕ) :
    ((deserializeTask nearest (text.take k)).isSome ↔ lastField text < k) ∧
      (lastField text < k →
        (deserializeTask nearest (text.take k) = deserializeTask nearest text ↔
          text.length ≤ k)) := by
  have hends := endsWithNumber_task nearest task
  have hfits := task.numPoints.toNat_lt
  rw [eq_taskText h, taskText, lastField_eq]
  refine ⟨hends.decode_isSome_iff hfits k, fun hk => hends.decode_eq_iff ?_ hfits hk⟩
  intro m n heq
  exact congrArg Task.numPoints heq

/-- The same for a result. -/
theorem accepts_result (nearest : ℚ≥0 → ℚ≥0) {result : Result}
    (h : serializeResult result bufferSize = some text) (k : ℕ) :
    ((deserializeResult nearest (text.take k)).isSome ↔ lastField text < k) ∧
      (lastField text < k →
        (deserializeResult nearest (text.take k) = deserializeResult nearest text ↔
          text.length ≤ k)) := by
  have hends := endsWithNumber_result nearest result
  have hfits := result.totalPoints.toNat_lt
  rw [eq_resultText h, resultText, lastField_eq]
  refine ⟨hends.decode_isSome_iff hfits k, fun hk => hends.decode_eq_iff ?_ hfits hk⟩
  intro m n heq
  exact congrArg Result.totalPoints heq

/-- Without a reply the call fails. -/
theorem sendTaskToServer_of_none (h : serializeTask task bufferSize = some text) {k₁ : ℕ} (k₂ : ℕ)
    (hreply : replyTo nearest integrate (text.take k₁) = none) :
    (sendTaskToServer nearest integrate task k₁ k₂).code = -1 := by
  have htext := received_text (eq_taskText h ▸ noNul_taskText task) k₁
  have hnothing : (handleClient nearest integrate (text.take k₁)).2 = [] := by
    unfold handleClient
    unfold replyTo at hreply
    split
    next => rfl
    next t ht =>
      rw [ht, Option.bind_some] at hreply
      rw [hreply]
  simp only [sendTaskToServer, h, htext, hnothing, received_nil, deserializeResult_nil]

/-- With a reply the call depends on how much of it is read. -/
theorem sendTaskToServer_of_some (h : serializeTask task bufferSize = some text) {k₁ : ℕ} (k₂ : ℕ)
    {reply : Text} (hreply : replyTo nearest integrate (text.take k₁) = some reply) :
    let x := sendTaskToServer nearest integrate task k₁ k₂
    (x.code = 0 ↔ (deserializeResult nearest (reply.take k₂)).isSome) ∧
      (x.code = 0 → x.task = deserializeTask nearest (text.take k₁) ∧
        x.result = deserializeResult nearest (reply.take k₂)) := by
  have htext := received_text (eq_taskText h ▸ noNul_taskText task) k₁
  obtain ⟨t, ht, hresult⟩ := Option.bind_eq_some_iff.mp hreply
  have hbytes := received_text (eq_resultText hresult ▸ noNul_resultText _) k₂
  have hserved : handleClient nearest integrate (text.take k₁) = (some t, reply ++ ['\x00']) := by
    simp only [handleClient, ht, hresult]
  simp only [sendTaskToServer, h, htext, hserved, hbytes]
  cases hread : deserializeResult nearest (reply.take k₂) with
  | none => simp
  | some r => simp [ht]

/-- The server has decoded what it has read. -/
theorem handleClient_fst (nearest : ℚ≥0 → ℚ≥0) (integrate : Task → Double × UInt64)
    (buffer : Text) :
    (handleClient nearest integrate buffer).1 = deserializeTask nearest buffer := by
  unfold handleClient
  split
  next h => exact h.symm
  next task h =>
    rw [h]
    split <;> rfl

/-- The task that a server decodes has the bounds that were written. It has no more points than
the task that was sent, and none only if that has none. -/
theorem task_sendTaskToServer {k₁ k₂ : ℕ} {decoded : Task}
    (h : (sendTaskToServer nearest integrate task k₁ k₂).task = some decoded) :
    ∃ m : UInt64, decoded = { task.readBack nearest with numPoints := m } ∧
      m.toNat ≤ task.numPoints.toNat ∧ (0 < task.numPoints.toNat → 0 < m.toNat) := by
  cases htext : serializeTask task bufferSize with
  | none => simp [sendTaskToServer, htext] at h
  | some text =>
    have hread := received_text (eq_taskText htext ▸ noNul_taskText task) k₁
    have hdecoded : deserializeTask nearest (text.take k₁) = some decoded := by
      rw [← h, ← handleClient_fst nearest integrate]
      simp only [sendTaskToServer, htext, hread]
      split <;> rfl
    rw [eq_taskText htext, taskText] at hdecoded
    exact (endsWithNumber_task nearest task).exists_of_decode_take task.numPoints.toNat_lt hdecoded

/-- A result that is read from the reply of the server has the value that was written for the task
that was decoded. -/
theorem value_of_handleClient {buffer : Text} {k : ℕ} {result : Result}
    (h : deserializeResult nearest (received (handleClient nearest integrate buffer).2 k)
      = some result) :
    ∃ decoded, (handleClient nearest integrate buffer).1 = some decoded ∧
      result.integralValue = (integrate decoded).1.readBack nearest decimals := by
  cases htask : deserializeTask nearest buffer with
  | none => simp [handleClient, htask, deserializeResult_nil] at h
  | some decoded =>
    cases hreply : serializeResult (resultOf integrate decoded) bufferSize with
    | none => simp [handleClient, htask, hreply, deserializeResult_nil] at h
    | some reply =>
      have hread := received_text (eq_resultText hreply ▸ noNul_resultText _) k
      simp only [handleClient, htask, hreply] at h ⊢
      rw [hread, eq_resultText hreply, resultText] at h
      obtain ⟨m, rfl, -⟩ := (endsWithNumber_result nearest _).exists_of_decode_take
        (resultOf integrate decoded).totalPoints.toNat_lt h
      exact ⟨decoded, rfl, rfl⟩

/-- A result that the client accepts has the value that the server has written for the task that
it has decoded. -/
theorem result_sendTaskToServer {k₁ k₂ : ℕ} {result : Result}
    (h : (sendTaskToServer nearest integrate task k₁ k₂).result = some result) :
    ∃ decoded, (sendTaskToServer nearest integrate task k₁ k₂).task = some decoded ∧
      result.integralValue = (integrate decoded).1.readBack nearest decimals := by
  cases htext : serializeTask task bufferSize with
  | none => simp [sendTaskToServer, htext] at h
  | some text =>
    simp only [sendTaskToServer, htext] at h ⊢
    split at h
    next accepted hread =>
      obtain rfl : accepted = result := Option.some.inj h
      exact value_of_handleClient hread
    next => cases h

/-- A result that the client accepts answers its task exactly if both reads have the whole text,
or one of them ends before the first digit of the last number. -/
theorem answersTask_iff (h : serializeTask task bufferSize = some text) (k₁ k₂ : ℕ) :
    AnswersTask nearest integrate task text k₁ k₂ ↔
      Recognised nearest integrate text k₁ k₂ := by
  obtain ⟨hsome, hsame⟩ := accepts_task nearest h k₁
  cases hreply : replyTo nearest integrate (text.take k₁) with
  | none =>
    -- the server closes the connection without a byte
    have hcode := sendTaskToServer_of_none h k₂ hreply
    refine iff_of_true (fun hzero => ?_) (Or.inr (Or.inl (by simp [hreply])))
    rw [hcode] at hzero
    simp at hzero
  | some reply =>
    obtain ⟨hcode, hvalues⟩ := sendTaskToServer_of_some h k₂ hreply
    obtain ⟨t, ht, hresult⟩ := Option.bind_eq_some_iff.mp hreply
    obtain ⟨hsome', hsame'⟩ := accepts_result nearest hresult k₂
    have hk₁ : lastField text < k₁ := hsome.mp (by simp [ht])
    by_cases hk₂ : lastField reply < k₂
    · -- both ends have accepted what they have read
      have hzero := hcode.mpr (hsome'.mpr hk₂)
      obtain ⟨htask, hstored⟩ := hvalues hzero
      constructor
      · intro hanswers
        obtain ⟨htask', hstored'⟩ := hanswers hzero
        have hlen : text.length ≤ k₁ := (hsame hk₁).mp (htask.symm.trans htask')
        rw [List.take_of_length_le hlen] at hreply
        refine Or.inr (Or.inr ⟨hlen, ?_⟩)
        intro reply' hreply'
        obtain rfl : reply = reply' := Option.some.inj (hreply.symm.trans hreply')
        apply (hsame' hk₂).mp
        rw [← hstored, hstored', hreply, Option.bind_some]
      · rintro (hshort | hshort | ⟨hlen, hall⟩)
        · omega
        · have := hshort reply hreply
          omega
        · intro _
          refine ⟨htask.trans ((hsame hk₁).mpr hlen), ?_⟩
          rw [List.take_of_length_le hlen] at hreply
          rw [hstored, hreply, Option.bind_some]
          exact (hsame' hk₂).mpr (hall reply hreply)
    · refine iff_of_true (fun hzero => absurd (hsome'.mp (hcode.mp hzero)) hk₂) (Or.inr (Or.inl ?_))
      intro reply' hreply'
      obtain rfl : reply = reply' := Option.some.inj (hreply.symm.trans hreply')
      exact not_lt.mp hk₂

end Answer

/-! ## Ten points -/

/-- A task of ten points. -/
def tenPoints : Task where
  xMin := .finite false 0
  xMax := .finite false 1
  yMin := .finite false 0
  yMax := .finite false 3
  numPoints := 10

/-- Half of the points are inside. -/
def half (task : Task) : Double × UInt64 :=
  (.finite false (3 / 2), task.numPoints / 2)

/-- `answersTask_iff` where both reads return everything. -/
theorem answersTask_ten_points : AnswersTask id half tenPoints (taskText tenPoints) 80 30 :=
  (answersTask_iff (by decide +kernel) 80 30).mpr
    (Or.inr (Or.inr ⟨by decide +kernel, by decide +kernel⟩))

/-- The last digit of the task is not there when the server reads: it computes the result for one
point, and the client accepts it. -/
theorem not_answersTask_one_point :
    ∃ k₁ k₂, 0 < k₁ ∧ k₁ ≤ (taskText tenPoints).length ∧ 0 < k₂ ∧
      serializeTask tenPoints bufferSize = some (taskText tenPoints) ∧
      (sendTaskToServer id half tenPoints k₁ k₂).code = 0 ∧
      ¬ AnswersTask id half tenPoints (taskText tenPoints) k₁ k₂ := by
  refine ⟨78, 28, by decide, by decide +kernel, by decide, by decide +kernel, by decide +kernel, ?_⟩
  intro hanswers
  have hsame := (hanswers (by decide +kernel)).1
  exact absurd hsame (by decide +kernel)

end MonteCarlo
