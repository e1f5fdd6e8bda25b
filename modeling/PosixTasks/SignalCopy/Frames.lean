import PosixTasks.SignalCopy.Order

/-!
# What each step leaves unchanged

## Main results

* `step_child_frame`: which actions move the child's main program past its loop;
* `step_reader_cases`: what only `producer_handler` changes;
* `step_closed_frame`: a closed `output.txt` stays as it is.
-/

namespace SignalCopy

/-! ## Signals -/

/-- Queueing `SIG_PRODUCER` changes the pending values only. -/
theorem sigqueueProducer_frame (s : State) (v : ℤ) :
    ∃ queue, s.sigqueueProducer v = { s with producerQueue := queue } := by
  rcases sigqueueProducer_cases s v with hq | hq
  · exact ⟨_, hq⟩
  · exact ⟨s.producerQueue, hq⟩

/-- Queueing `SIG_CONSUMER` changes the pending values only. -/
theorem sigqueueConsumer_frame (s : State) (v : ℤ) :
    ∃ queue, s.sigqueueConsumer v = { s with consumerQueue := queue } ∧
      (queue = [] → s.consumerQueue = []) := by
  rcases sigqueueConsumer_cases s v with hq | hq
  · exact ⟨_, hq, by simp⟩
  · exact ⟨s.consumerQueue, hq, id⟩

/-! ## The handler in the child -/

section

variable {s s' : State} {ok : Bool} {r : Option ℕ}

/-- A step of `consumer_handler` on memory changes its own place and what it has to report. -/
theorem Move.consumer_frame (h : Move s .consumer s') :
    s.consumer ≠ none ∧ ∃ consumerEnded pc queue ignored unfinished,
      s' = { s with
        sh := { s.sh with consumerEnded := consumerEnded }
        consumer := pc
        consumerQueue := queue
        consumerIgnored := ignored
        unfinished := unfinished } := by
  cases h <;> exact ⟨by simp [*], _, _, _, _, _, rfl⟩

/-- A `write` changes an open `output.txt` only. -/
theorem Move.write_frame (h : Move s (.write r) s') :
    s.consumer ≠ none ∧ ∃ output pc, s' = { s with output := output, consumer := pc } ∧
      (s.outOpen = false → output = s.output) := by
  cases h with
  | writeFailed _ _ _ hc => exact ⟨by simp [hc], _, _, rfl, fun _ => rfl⟩
  | write _ _ _ _ hc _ hopen =>
    exact ⟨by simp [hc], _, _, rfl, fun hclosed => by simp [hclosed] at hopen⟩

/-- The handler returns a token, or reports that it could not. -/
theorem Move.consumerSigqueue_frame (h : Move s (.consumerSigqueue ok) s') :
    s.consumer ≠ none ∧ ∃ queue pc, s' = { s with producerQueue := queue, consumer := pc } := by
  cases h with
  | tokenReturned chunk hc =>
    obtain ⟨queue, hqueue⟩ := sigqueueProducer_frame s chunk
    rw [hqueue]
    exact ⟨by simp [hc], _, _, rfl⟩
  | returnFailed _ hc => exact ⟨by simp [hc], _, _, rfl⟩

/-! ## The handler in the parent -/

/-- A step of `producer_handler` on memory changes its own place and what it has counted. -/
theorem Move.producer_frame (h : Move s .producer s') :
    ∃ chunkSize bytesRead producerEnded pc queue ignored,
      s' = { s with
        sh := { s.sh with
          chunkSize := chunkSize, bytesRead := bytesRead, producerEnded := producerEnded }
        producer := pc
        producerQueue := queue
        producerIgnored := ignored } := by
  cases h <;> exact ⟨_, _, _, _, _, _, rfl⟩

/-- A `read` changes the chunk and the rest of the file. -/
theorem Move.read_frame (h : Move s (.read r) s') :
    (∃ c, s.producer = some (.reading c)) ∧ ∃ attempts buffer unread pc reads,
      s' = { s with
        sh := { s.sh with attempts := attempts, buffer := buffer }
        unread := unread
        producer := pc
        reads := reads } := by
  cases h <;> exact ⟨⟨_, ‹_›⟩, _, _, _, _, _, rfl⟩

/-- The handler hands a block over, or fails to. -/
theorem Move.producerSigqueue_frame (h : Move s (.producerSigqueue ok) s') :
    (∃ c, s.producer = some (.sendBlock c)) ∧ ∃ queue pc reads unfinished,
      s' = { s with
        consumerQueue := queue, producer := pc, reads := reads, unfinished := unfinished } ∧
      (queue = [] → s.consumerQueue = []) := by
  cases h with
  | blockSent chunk hp =>
    obtain ⟨queue, hqueue, hempty⟩ := sigqueueConsumer_frame s chunk
    rw [hqueue]
    exact ⟨⟨chunk, hp⟩, _, _, _, _, rfl, hempty⟩
  | blockFailed chunk hp => exact ⟨⟨chunk, hp⟩, _, _, _, _, rfl, id⟩

/-! ## The child's main program -/

/-- The child has closed `output.txt`. -/
def ChildPc.finished : ChildPc → Bool
  | .detach _ | .leaving _ | .exited _ | .crashed => true
  | _ => false

@[simp]
theorem interrupted_finished (pc : ChildPc) : pc.interrupted.finished = pc.finished := by
  cases pc <;> rfl

/-- `open` in the child makes `output.txt` empty, or fails for good. -/
theorem Move.openOut_frame (h : Move s (.openOut ok) s') :
    s.child = .openOut ∧ ∃ output outOpen pc, pc.finished = false ∧ pc ≠ .paused ∧
      s' = { s with output := output, outOpen := outOpen, child := pc } := by
  cases h with
  | opened _ hpc => exact ⟨hpc, _, _, _, by rfl, by simp, rfl⟩
  | openFailed _ hpc => exact ⟨hpc, _, _, _, by rfl, by simp, rfl⟩

/-- The child's main program sends a token, or gives up and closes `output.txt`. -/
theorem Move.childSigqueue_frame (h : Move s (.childSigqueue ok) s') :
    ∃ queue outOpen pc, pc.finished = false ∧ pc ≠ .openOut ∧ pc ≠ .paused ∧
      (s.outOpen = false → outOpen = false) ∧
      s' = { s with producerQueue := queue, outOpen := outOpen, child := pc } := by
  cases h with
  | tokenSent i =>
    obtain ⟨queue, hqueue⟩ := sigqueueProducer_frame s i
    rw [hqueue]
    exact ⟨_, _, _, by rfl, by simp, by simp, id, rfl⟩
  | tokenFailed => exact ⟨_, _, _, by rfl, by simp, by simp, fun _ => rfl, rfl⟩

/-- The child's main program alone closes `output.txt`. -/
theorem step_child_frame {a : Action} (h : step s a = some s') (ha : a ≠ .child)
    (hfin : s'.child.finished = true) : s.child.finished = true := by
  have hmove := move_of_step h
  cases a with
  | parent =>
    obtain ⟨pc, pidStored, inOpen, rfl⟩ := hmove.parent_frame
    exact hfin
  | child => exact absurd rfl ha
  | openOut =>
    obtain ⟨-, output, outOpen, pc, hpc, -, rfl⟩ := hmove.openOut_frame
    simp [hpc] at hfin
  | childSigqueue =>
    obtain ⟨queue, outOpen, pc, hpc, -, -, -, rfl⟩ := hmove.childSigqueue_frame
    simp [hpc] at hfin
  | deliverProducer => cases hmove <;> exact hfin
  | deliverConsumer =>
    cases hmove with
    | consumerCrash v rest code _ _ _ hpc => simp [hpc, ChildPc.finished]
    | consumerEnter => simpa using hfin
  | producer =>
    obtain ⟨_, _, _, _, _, _, rfl⟩ := hmove.producer_frame
    exact hfin
  | read =>
    obtain ⟨-, _, _, _, _, _, rfl⟩ := hmove.read_frame
    exact hfin
  | producerSigqueue =>
    obtain ⟨-, _, _, _, _, rfl, -⟩ := hmove.producerSigqueue_frame
    exact hfin
  | consumer =>
    obtain ⟨-, _, _, _, _, _, rfl⟩ := hmove.consumer_frame
    exact hfin
  | write =>
    obtain ⟨-, _, _, rfl, -⟩ := hmove.write_frame
    exact hfin
  | consumerSigqueue =>
    obtain ⟨-, _, _, rfl⟩ := hmove.consumerSigqueue_frame
    exact hfin

/-! ## Frames of the two files -/

/-- What `producer_handler` has read and counted is the same, but the handler may have been
entered. -/
structure ReaderFrame (s s' : State) : Prop where
  unread : s'.unread = s.unread
  reads : s'.reads = s.reads
  bytesRead : s'.sh.bytesRead = s.sh.bytesRead
  fileSize : s'.sh.fileSize = s.sh.fileSize
  producerEnded : s'.sh.producerEnded = s.sh.producerEnded
  producer : s'.producer = s.producer ∨ s.producer = none ∧ ∃ v, s'.producer = some (.entry v)

/-- Only the steps of `producer_handler` change what it has read and counted. -/
theorem step_reader_cases {a : Action} (h : step s a = some s') :
    Move s .producer s' ∨ (∃ r, Move s (.read r) s') ∨
      (∃ ok, a = .producerSigqueue ok ∧ Move s (.producerSigqueue ok) s') ∨ ReaderFrame s s' := by
  have hmove := move_of_step h
  -- every other step leaves the reader as it is, or enters its handler
  have hother : ReaderFrame s s' → Move s .producer s' ∨ (∃ r, Move s (.read r) s') ∨
      (∃ ok, a = .producerSigqueue ok ∧ Move s (.producerSigqueue ok) s') ∨ ReaderFrame s s' :=
    fun hframe => Or.inr (Or.inr (Or.inr hframe))
  cases a with
  | producer => exact Or.inl hmove
  | read r => exact Or.inr (Or.inl ⟨r, hmove⟩)
  | producerSigqueue ok => exact Or.inr (Or.inr (Or.inl ⟨ok, rfl, hmove⟩))
  | parent =>
    obtain ⟨pc, pidStored, inOpen, rfl⟩ := hmove.parent_frame
    exact hother ⟨rfl, rfl, rfl, rfl, rfl, Or.inl rfl⟩
  | child =>
    obtain ⟨pc, ppidParent, outOpen, rfl, -⟩ := hmove.child_frame
    exact hother ⟨rfl, rfl, rfl, rfl, rfl, Or.inl rfl⟩
  | openOut =>
    obtain ⟨-, _, _, _, -, -, rfl⟩ := hmove.openOut_frame
    exact hother ⟨rfl, rfl, rfl, rfl, rfl, Or.inl rfl⟩
  | childSigqueue =>
    obtain ⟨_, _, _, -, -, -, -, rfl⟩ := hmove.childSigqueue_frame
    exact hother ⟨rfl, rfl, rfl, rfl, rfl, Or.inl rfl⟩
  | deliverProducer =>
    cases hmove with
    | producerCrash => exact hother ⟨rfl, rfl, rfl, rfl, rfl, Or.inl rfl⟩
    | producerEnter v _ hp => exact hother ⟨rfl, rfl, rfl, rfl, rfl, Or.inr ⟨hp, v, rfl⟩⟩
  | deliverConsumer => cases hmove <;> exact hother ⟨rfl, rfl, rfl, rfl, rfl, Or.inl rfl⟩
  | consumer =>
    obtain ⟨-, _, _, _, _, _, rfl⟩ := hmove.consumer_frame
    exact hother ⟨rfl, rfl, rfl, rfl, rfl, Or.inl rfl⟩
  | write =>
    obtain ⟨-, _, _, rfl, -⟩ := hmove.write_frame
    exact hother ⟨rfl, rfl, rfl, rfl, rfl, Or.inl rfl⟩
  | consumerSigqueue =>
    obtain ⟨-, _, _, rfl⟩ := hmove.consumerSigqueue_frame
    exact hother ⟨rfl, rfl, rfl, rfl, rfl, Or.inl rfl⟩

theorem Move.child_outOpen (h : Move s .child s') (hopen : s.outOpen = false) :
    s'.outOpen = false := by
  cases h with
  | closeOut => rfl
  | _ => exact hopen

/-- Once `output.txt` is closed, no step opens or changes it. -/
theorem step_closed_frame {a : Action} (h : step s a = some s')
    (hopen : s.outOpen = false) (hchild : s.child ≠ .openOut) :
    s'.outOpen = false ∧ s'.child ≠ .openOut ∧ s'.output = s.output := by
  have hmove := move_of_step h
  cases a with
  | parent =>
    obtain ⟨pc, pidStored, inOpen, rfl⟩ := hmove.parent_frame
    exact ⟨hopen, hchild, rfl⟩
  | child =>
    have hclosed := hmove.child_outOpen hopen
    obtain ⟨pc, ppidParent, outOpen, rfl, -, -, hpc⟩ := hmove.child_frame
    exact ⟨hclosed, hpc, rfl⟩
  | openOut => exact absurd hmove.openOut_frame.1 hchild
  | childSigqueue =>
    obtain ⟨queue, outOpen, pc, -, hpc, -, hclosed, rfl⟩ := hmove.childSigqueue_frame
    exact ⟨hclosed hopen, hpc, rfl⟩
  | deliverProducer => cases hmove <;> exact ⟨hopen, hchild, rfl⟩
  | deliverConsumer =>
    cases hmove with
    | consumerCrash => exact ⟨hopen, by simp, rfl⟩
    | consumerEnter => exact ⟨hopen, fun hpc => hchild (interrupted_openOut hpc), rfl⟩
  | producer =>
    obtain ⟨_, _, _, _, _, _, rfl⟩ := hmove.producer_frame
    exact ⟨hopen, hchild, rfl⟩
  | read =>
    obtain ⟨-, _, _, _, _, _, rfl⟩ := hmove.read_frame
    exact ⟨hopen, hchild, rfl⟩
  | producerSigqueue =>
    obtain ⟨-, _, _, _, _, rfl, -⟩ := hmove.producerSigqueue_frame
    exact ⟨hopen, hchild, rfl⟩
  | consumer =>
    obtain ⟨-, _, _, _, _, _, rfl⟩ := hmove.consumer_frame
    exact ⟨hopen, hchild, rfl⟩
  | write =>
    -- a `write` on the closed descriptor fails
    obtain ⟨-, output, pc, rfl, hsame⟩ := hmove.write_frame
    exact ⟨hopen, hchild, hsame hopen⟩
  | consumerSigqueue =>
    obtain ⟨-, _, _, rfl⟩ := hmove.consumerSigqueue_frame
    exact ⟨hopen, hchild, rfl⟩

end

end SignalCopy
