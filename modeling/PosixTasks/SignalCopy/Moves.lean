import PosixTasks.SignalCopy.Model

/-!
# What one step can do

Each branch of the step functions as one case of a relation, with the tests that lead to it. The
invariants are proved case by case from it.

## Main results

* `Move`: the branches;
* `move_of_step`, `step_of_move`: they are the steps.
-/

namespace SignalCopy

/-- What a step of the two processes does. -/
inductive Move (s : State) : Action → State → Prop where
  -- the parent's main program
  | storePid : s.producer = none → s.parent = .storePid →
      Move s .parent { s with sh := { s.sh with pidStored := true }, parent := .testProducer }
  | parentTestProducer : s.producer = none → s.parent = .testProducer →
      Move s .parent { s with parent :=
        if s.sh.producerEnded = .notEnded then .testConsumer else .callWaitpid }
  | parentTestConsumer : s.producer = none → s.parent = .testConsumer →
      Move s .parent { s with parent :=
        if s.sh.consumerEnded = .notEnded then .callPause else .callWaitpid }
  | parentPause : s.producer = none → s.parent = .callPause →
      Move s .parent { s with parent := .paused }
  | callWaitpid : s.producer = none → s.parent = .callWaitpid →
      Move s .parent { s with parent := .waiting }
  | reap : s.producer = none → s.parent = .waiting → s.childRunning = false →
      Move s .parent { s with parent := .closeIn }
  | closeIn : s.producer = none → s.parent = .closeIn →
      Move s .parent { s with inOpen := false, parent := .detach }
  | parentDetach : s.producer = none → s.parent = .detach →
      Move s .parent { s with parent := .leaving }
  | parentExit : s.producer = none → s.parent = .leaving →
      Move s .parent { s with parent := .exited }
  -- the child's main program
  | storePpid : s.consumer = none → s.child = .storePpid →
      Move s .child
        { s with sh := { s.sh with ppidParent := s.parentRunning }, child := .sendToken 0 }
  | tokensSent (i : ℕ) : s.consumer = none → s.child = .sendToken i → chunks ≤ i →
      Move s .child { s with child := .testProducer }
  | childTestProducer : s.consumer = none → s.child = .testProducer →
      Move s .child { s with child :=
        if s.sh.producerEnded = .notEnded then .callPause else .testConsumer }
  | childPause : s.consumer = none → s.child = .callPause →
      Move s .child { s with child := .paused }
  | childTestConsumer : s.consumer = none → s.child = .testConsumer →
      Move s .child
        { s with child := .closeOut (if s.sh.consumerEnded = .consEndSucc then 0 else 1) }
  | closeOut (code : ℕ) : s.consumer = none → s.child = .closeOut code →
      Move s .child { s with outOpen := false, child := .detach code }
  | childDetach (code : ℕ) : s.consumer = none → s.child = .detach code →
      Move s .child { s with child := .leaving code }
  | childExit (code : ℕ) : s.consumer = none → s.child = .leaving code →
      Move s .child { s with child := .exited code }
  | opened : s.consumer = none → s.child = .openOut →
      Move s (.openOut true) { s with output := [], outOpen := true, child := .storePpid }
  | openFailed : s.consumer = none → s.child = .openOut →
      Move s (.openOut false) { s with child := .aborted }
  | tokenSent (i : ℕ) : s.consumer = none → s.child = .sendToken i → i < chunks →
      Move s (.childSigqueue true) { s.sigqueueProducer i with child := .sendToken (i + 1) }
  | tokenFailed (i : ℕ) : s.consumer = none → s.child = .sendToken i → i < chunks →
      Move s (.childSigqueue false) { s with outOpen := false, child := .aborted }
  -- the delivery of a signal
  | producerCrash (v : ℤ) (rest : List ℤ) : s.producer = none → s.producerQueue = v :: rest →
      s.producerIgnored = false → s.parent = .leaving →
      Move s .deliverProducer { s with producerQueue := rest, parent := .crashed }
  | producerEnter (v : ℤ) (rest : List ℤ) : s.producer = none → s.producerQueue = v :: rest →
      s.producerIgnored = false → s.parentRunning = true → s.parent ≠ .leaving →
      Move s .deliverProducer
        { s with
          producerQueue := rest
          producer := some (.entry v)
          parent := s.parent.interrupted }
  | consumerCrash (v : ℤ) (rest : List ℤ) (code : ℕ) : s.consumer = none →
      s.consumerQueue = v :: rest → s.consumerIgnored = false → s.child = .leaving code →
      Move s .deliverConsumer { s with consumerQueue := rest, child := .crashed }
  | consumerEnter (v : ℤ) (rest : List ℤ) : s.consumer = none → s.consumerQueue = v :: rest →
      s.consumerIgnored = false → s.childRunning = true → (∀ code, s.child ≠ .leaving code) →
      Move s .deliverConsumer
        { s with
          consumerQueue := rest
          consumer := some (.entry v)
          child := s.child.interrupted }
  -- `producer_handler`
  | producerChunk (chunk : ChunkNum) : s.producer = some (.entry chunk) →
      Move s .producer { s with producer := some (.reading chunk) }
  | producerNoChunk (v : ℤ) : s.producer = some (.entry v) → ¬ (0 ≤ v ∧ v < chunks) →
      Move s .producer { s with producer := some .storeFail }
  | countBlock (chunk : ChunkNum) (currSize : ℕ) : s.producer = some (.gotBlock chunk currSize) →
      Move s .producer
        { s with
          sh := { s.sh with chunkSize := Function.update s.sh.chunkSize chunk currSize,
                            bytesRead := s.sh.bytesRead + currSize }
          producer := some (.sendBlock chunk) }
  | producerFail : s.producer = some .storeFail →
      Move s .producer
        { s with sh := { s.sh with producerEnded := .prodEndFail }, producer := none }
  | producerEnd : s.producer = some .atEnd →
      Move s .producer
        { s with
          sh := { s.sh with producerEnded :=
            if s.sh.bytesRead = s.sh.fileSize then .prodEndSucc else .prodEndFail }
          producer := some .ignore }
  | producerIgnore : s.producer = some .ignore →
      Move s .producer { s with producerQueue := [], producerIgnored := true, producer := none }
  | readFailed (chunk : ChunkNum) : s.producer = some (.reading chunk) →
      Move s (.read none)
        { s with sh := { s.sh with attempts := s.sh.attempts + 1 }, producer := some .atEnd }
  | readNothing (chunk : ChunkNum) : s.producer = some (.reading chunk) → s.inOpen = true →
      Move s (.read (some 0))
        { s with
          sh := { s.sh with attempts := s.sh.attempts + 1 }
          producer :=
            if s.sh.bytesRead < s.sh.fileSize ∧ s.sh.attempts + 1 < maxAttempts - 1 then
              some (.reading chunk)
            else some .atEnd }
  | readBlock (chunk : ChunkNum) (n : ℕ) : s.producer = some (.reading chunk) → s.inOpen = true →
      n + 1 ≤ chunkBytes → n + 1 ≤ s.unread.length →
      Move s (.read (some (n + 1)))
        { s with
          unread := s.unread.drop (n + 1)
          sh := { s.sh with
            attempts := s.sh.attempts + 1
            buffer := Function.update s.sh.buffer chunk
              (s.unread.take (n + 1) ++ (s.sh.buffer chunk).drop (n + 1)) }
          producer := some (.gotBlock chunk (n + 1))
          reads := s.reads ++ [(s.unread.take (n + 1), false)] }
  | blockSent (chunk : ChunkNum) : s.producer = some (.sendBlock chunk) → s.sh.pidStored = true →
      Move s (.producerSigqueue true)
        { s.sigqueueConsumer chunk with
          producer := none
          reads := markQueued s.reads
          unfinished := Function.update s.unfinished chunk true }
  | blockFailed (chunk : ChunkNum) : s.producer = some (.sendBlock chunk) →
      Move s (.producerSigqueue false) { s with producer := some .storeFail }
  -- `consumer_handler`
  | consumerChunk (chunk : ChunkNum) : s.consumer = some (.entry chunk) →
      Move s .consumer { s with consumer := some (.readSize chunk) }
  | consumerNoChunk (v : ℤ) : s.consumer = some (.entry v) → ¬ (0 ≤ v ∧ v < chunks) →
      Move s .consumer { s with consumer := some .storeFail }
  | readSize (chunk : ChunkNum) : s.consumer = some (.readSize chunk) →
      Move s .consumer { s with consumer := some (.writing chunk (s.sh.chunkSize chunk) 0) }
  | written (chunk : ChunkNum) (bytesToWrite written : ℕ) :
      s.consumer = some (.writing chunk bytesToWrite written) → bytesToWrite ≤ written →
      Move s .consumer
        { s with
          consumer := some (.sendToken chunk)
          unfinished := Function.update s.unfinished chunk false }
  | consumerFailWrite : s.consumer = some .failWrite →
      Move s .consumer
        { s with sh := { s.sh with consumerEnded := .consEndFail }, consumer := some .ignore }
  | consumerIgnore : s.consumer = some .ignore →
      Move s .consumer { s with consumerQueue := [], consumerIgnored := true, consumer := none }
  | consumerFail : s.consumer = some .storeFail →
      Move s .consumer
        { s with sh := { s.sh with consumerEnded := .consEndFail }, consumer := none }
  | writeFailed (chunk : ChunkNum) (bytesToWrite written : ℕ) :
      s.consumer = some (.writing chunk bytesToWrite written) → written < bytesToWrite →
      Move s (.write none) { s with consumer := some .failWrite }
  | write (chunk : ChunkNum) (bytesToWrite written n : ℕ) :
      s.consumer = some (.writing chunk bytesToWrite written) → written < bytesToWrite →
      s.outOpen = true → n ≤ bytesToWrite - written →
      Move s (.write (some n))
        { s with
          output := s.output ++ ((s.sh.buffer chunk).drop written).take n
          consumer := some (.writing chunk bytesToWrite (written + n)) }
  | tokenReturned (chunk : ChunkNum) : s.consumer = some (.sendToken chunk) →
      Move s (.consumerSigqueue true) { s.sigqueueProducer chunk with consumer := none }
  | returnFailed (chunk : ChunkNum) : s.consumer = some (.sendToken chunk) →
      Move s (.consumerSigqueue false) { s with consumer := some .storeFail }

section Steps

variable {s s' : State} {ok : Bool} {r : Option ℕ}

theorem parentStep_move (hp : s.producer = none) (h : parentStep s = some s') :
    Move s .parent s' := by
  unfold parentStep at h
  cases hpc : s.parent <;> rw [hpc] at h <;> simp only [Option.some.injEq, reduceCtorEq] at h
  case storePid => exact h ▸ .storePid hp hpc
  case testProducer => exact h ▸ .parentTestProducer hp hpc
  case testConsumer => exact h ▸ .parentTestConsumer hp hpc
  case callPause => exact h ▸ .parentPause hp hpc
  case callWaitpid => exact h ▸ .callWaitpid hp hpc
  case waiting =>
    split_ifs at h with hrunning
    exact Option.some.inj h ▸ .reap hp hpc (by simpa using hrunning)
  case closeIn => exact h ▸ .closeIn hp hpc
  case detach => exact h ▸ .parentDetach hp hpc
  case leaving => exact h ▸ .parentExit hp hpc

theorem childStep_move (hc : s.consumer = none) (h : childStep s = some s') :
    Move s .child s' := by
  unfold childStep at h
  cases hpc : s.child <;> rw [hpc] at h <;> simp only [Option.some.injEq, reduceCtorEq] at h
  case storePpid => exact h ▸ .storePpid hc hpc
  case sendToken i =>
    split_ifs at h with hi
    exact Option.some.inj h ▸ .tokensSent i hc hpc (not_lt.mp hi)
  case testProducer => exact h ▸ .childTestProducer hc hpc
  case callPause => exact h ▸ .childPause hc hpc
  case testConsumer => exact h ▸ .childTestConsumer hc hpc
  case closeOut code => exact h ▸ .closeOut code hc hpc
  case detach code => exact h ▸ .childDetach code hc hpc
  case leaving code => exact h ▸ .childExit code hc hpc

theorem openOutStep_move (hc : s.consumer = none) (h : openOutStep s ok = some s') :
    Move s (.openOut ok) s' := by
  unfold openOutStep at h
  split at h
  next hpc =>
    cases ok with
    | true => exact Option.some.inj h ▸ .opened hc hpc
    | false => exact Option.some.inj h ▸ .openFailed hc hpc
  next => cases h

theorem childSigqueueStep_move (hc : s.consumer = none) (h : childSigqueueStep s ok = some s') :
    Move s (.childSigqueue ok) s' := by
  unfold childSigqueueStep at h
  split at h
  next i hpc =>
    split at h
    next hi =>
      cases ok with
      | true => exact Option.some.inj h ▸ .tokenSent i hc hpc hi
      | false => exact Option.some.inj h ▸ .tokenFailed i hc hpc hi
    next => cases h
  next => cases h

theorem deliverProducerStep_move (h : deliverProducerStep s = some s') :
    Move s .deliverProducer s' := by
  unfold deliverProducerStep at h
  split at h
  next v rest hp hq =>
    split at h
    next hlive =>
      have haccepts : s.producerIgnored = false := by simpa using hlive.2
      split at h
      next hleaving =>
        exact Option.some.inj h ▸ .producerCrash v rest hp hq haccepts hleaving
      next hstays =>
        exact Option.some.inj h ▸ .producerEnter v rest hp hq haccepts hlive.1 hstays
    next => cases h
  next => cases h

theorem deliverConsumerStep_move (h : deliverConsumerStep s = some s') :
    Move s .deliverConsumer s' := by
  unfold deliverConsumerStep at h
  split at h
  next v rest hc hq =>
    split at h
    next hlive =>
      have haccepts : s.consumerIgnored = false := by simpa using hlive.2
      split at h
      next code hleaving =>
        exact Option.some.inj h ▸ .consumerCrash v rest code hc hq haccepts hleaving
      next hstays =>
        exact Option.some.inj h ▸ .consumerEnter v rest hc hq haccepts hlive.1 hstays
    next => cases h
  next => cases h

theorem producerStep_move (h : producerStep s = some s') : Move s .producer s' := by
  unfold producerStep at h
  split at h
  next v hp =>
    split at h
    next hv =>
      have hcast : v = ((⟨v.toNat, by omega⟩ : ChunkNum) : ℤ) := (Int.toNat_of_nonneg hv.1).symm
      exact Option.some.inj h ▸ .producerChunk _ (hcast ▸ hp)
    next hv => exact Option.some.inj h ▸ .producerNoChunk v hp hv
  next chunk currSize hp => exact Option.some.inj h ▸ .countBlock chunk currSize hp
  next hp => exact Option.some.inj h ▸ .producerFail hp
  next hp => exact Option.some.inj h ▸ .producerEnd hp
  next hp => exact Option.some.inj h ▸ .producerIgnore hp
  all_goals cases h

theorem readStep_move (h : readStep s r = some s') : Move s (.read r) s' := by
  unfold readStep at h
  split at h
  next chunk hp =>
    simp only at h
    split at h
    next => exact Option.some.inj h ▸ .readFailed chunk hp
    next =>
      split at h
      next hopen => exact Option.some.inj h ▸ .readNothing chunk hp hopen
      next => cases h
    next n =>
      split at h
      next hn => exact Option.some.inj h ▸ .readBlock chunk n hp hn.1 hn.2.1 hn.2.2
      next => cases h
  next => cases h

theorem producerSigqueueStep_move (h : producerSigqueueStep s ok = some s') :
    Move s (.producerSigqueue ok) s' := by
  unfold producerSigqueueStep at h
  split at h
  next chunk hp =>
    cases ok with
    | true =>
      rw [if_pos rfl] at h
      split at h
      next hpid => exact Option.some.inj h ▸ .blockSent chunk hp hpid
      next => cases h
    | false => exact Option.some.inj h ▸ .blockFailed chunk hp
  next => cases h

theorem consumerStep_move (h : consumerStep s = some s') : Move s .consumer s' := by
  unfold consumerStep at h
  split at h
  next v hc =>
    split at h
    next hv =>
      have hcast : v = ((⟨v.toNat, by omega⟩ : ChunkNum) : ℤ) := (Int.toNat_of_nonneg hv.1).symm
      exact Option.some.inj h ▸ .consumerChunk _ (hcast ▸ hc)
    next hv => exact Option.some.inj h ▸ .consumerNoChunk v hc hv
  next chunk hc => exact Option.some.inj h ▸ .readSize chunk hc
  next chunk bytesToWrite written hc =>
    split at h
    next => cases h
    next hdone => exact Option.some.inj h ▸ .written chunk bytesToWrite written hc (not_lt.mp hdone)
  next hc => exact Option.some.inj h ▸ .consumerFailWrite hc
  next hc => exact Option.some.inj h ▸ .consumerIgnore hc
  next hc => exact Option.some.inj h ▸ .consumerFail hc
  all_goals cases h

theorem writeStep_move (h : writeStep s r = some s') : Move s (.write r) s' := by
  unfold writeStep at h
  split at h
  next chunk bytesToWrite written hc =>
    split at h
    next hlt =>
      split at h
      next => exact Option.some.inj h ▸ .writeFailed chunk bytesToWrite written hc hlt
      next n =>
        split at h
        next hn =>
          exact Option.some.inj h ▸ .write chunk bytesToWrite written n hc hlt hn.1 hn.2
        next => cases h
    next => cases h
  next => cases h

theorem consumerSigqueueStep_move (h : consumerSigqueueStep s ok = some s') :
    Move s (.consumerSigqueue ok) s' := by
  unfold consumerSigqueueStep at h
  split at h
  next chunk hc =>
    cases ok with
    | true => exact Option.some.inj h ▸ .tokenReturned chunk hc
    | false => exact Option.some.inj h ▸ .returnFailed chunk hc
  next => cases h

theorem move_of_step {a : Action} (h : step s a = some s') : Move s a s' := by
  cases a with
  | parent =>
    rw [step, Option.ite_none_right_eq_some] at h
    exact parentStep_move h.1 h.2
  | child =>
    rw [step, Option.ite_none_right_eq_some] at h
    exact childStep_move h.1 h.2
  | openOut ok =>
    rw [step, Option.ite_none_right_eq_some] at h
    exact openOutStep_move h.1 h.2
  | childSigqueue ok =>
    rw [step, Option.ite_none_right_eq_some] at h
    exact childSigqueueStep_move h.1 h.2
  | deliverProducer => exact deliverProducerStep_move h
  | deliverConsumer => exact deliverConsumerStep_move h
  | producer => exact producerStep_move h
  | read r => exact readStep_move h
  | producerSigqueue ok => exact producerSigqueueStep_move h
  | consumer => exact consumerStep_move h
  | write r => exact writeStep_move h
  | consumerSigqueue ok => exact consumerSigqueueStep_move h

theorem step_of_move {a : Action} (h : Move s a s') : step s a = some s' := by
  cases h with
  | producerCrash v rest hp hq haccepts hleaving =>
    have hrunning : s.parentRunning = true := by simp [State.parentRunning, hleaving]
    simp [step, deliverProducerStep, hp, hq, haccepts, hleaving, hrunning]
  | consumerCrash v rest code hc hq haccepts hleaving =>
    have hrunning : s.childRunning = true := by simp [State.childRunning, hleaving]
    simp [step, deliverConsumerStep, hc, hq, haccepts, hleaving, hrunning]
  | _ => simp_all [step, parentStep, childStep, openOutStep, childSigqueueStep,
      deliverProducerStep, deliverConsumerStep, producerStep, readStep, producerSigqueueStep,
      consumerStep, writeStep, consumerSigqueueStep]

end Steps

end SignalCopy
