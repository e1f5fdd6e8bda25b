import PosixTasks.SignalCopy.Completion

/-!
# How the signal-driven copy ends

A signal makes a process leave `pause()` and test its flags again, and a chunk goes back and forth
between the two handlers. But each round takes bytes from `input.txt`, and a `read` of nothing
counts as an attempt, so every schedule is finite. Both processes have ended then, unless one of
them is asleep: the child as in `Asleep`, or the parent, which also tests `producer_ended` and
calls `pause()` in two steps.

## Main results

* `work_lt`: every step takes from the work that is left;
* `dozing_iff_of_run`: when the parent is asleep;
* `ends_of_run`: every schedule ends, and without failures both processes have ended then exactly
  if no step has put one of them to sleep.
-/

namespace SignalCopy

open Transition

/-! ## The work that is left -/

/-- What a pending `SIG_PRODUCER` can make the parent do before it reads a block. -/
def tokenWork : ℕ := 13

/-- What a pending `SIG_CONSUMER` can make the child do. -/
def blockWork : ℕ := chunkBytes + tokenWork + 12

/-- The steps that are left to the parent's main program, up to the next signal. -/
def ParentPc.work : ParentPc → ℕ
  | .storePid => 8
  | .testProducer => 7
  | .testConsumer => 6
  | .callWaitpid => 5
  | .waiting => 4
  | .closeIn => 3
  | .detach => 2
  | .leaving | .callPause => 1
  | .paused | .exited | .crashed => 0

/-- The steps that are left to the child's main program, with the tokens that it has still to
send. -/
def ChildPc.work : ChildPc → ℕ
  | .openOut => 8 + chunks * (tokenWork + 1)
  | .storePpid => 7 + chunks * (tokenWork + 1)
  | .sendToken i => 6 + (chunks - i) * (tokenWork + 1)
  | .testProducer => 5
  | .testConsumer => 4
  | .closeOut _ => 3
  | .detach _ => 2
  | .leaving _ | .callPause => 1
  | .paused | .exited _ | .aborted | .crashed => 0

/-- The steps that are left to `producer_handler`. -/
def ProducerPc.work : ProducerPc → ℕ
  | .entry _ => 5
  | .reading _ => 4
  | .gotBlock _ _ => blockWork + 3
  | .sendBlock _ => blockWork + 2
  | .atEnd => 2
  | .storeFail | .ignore => 1

/-- The steps that are left to `consumer_handler`. -/
def ConsumerPc.work : ConsumerPc → ℕ
  | .entry _ => chunkBytes + tokenWork + 6
  | .readSize _ => chunkBytes + tokenWork + 5
  | .writing _ bytesToWrite written => bytesToWrite - written + tokenWork + 4
  | .sendToken _ => tokenWork + 2
  | .failWrite => 2
  | .storeFail | .ignore => 1

/-- A bound on the steps that are left to the two processes. A byte pays for the round of the
block in which it is read. -/
def State.work (s : State) : ℕ :=
  blockWork * s.unread.length + (maxAttempts - s.sh.attempts)
    + tokenWork * s.producerQueue.length + blockWork * s.consumerQueue.length
    + s.parent.work + s.child.work
    + s.producer.elim 0 ProducerPc.work + s.consumer.elim 0 ConsumerPc.work

/-- No block is longer than a chunk. -/
structure BlocksFit (s : State) : Prop where
  chunkSize : ∀ c, s.sh.chunkSize c ≤ chunkBytes
  gotBlock : ∀ c n, s.producer = some (.gotBlock c n) → n ≤ chunkBytes

/-- A `write` to a regular file takes at least one byte. -/
def WritesSome (_ : State) (a : Action) : Prop :=
  a ≠ .write (some 0)

section Work

variable {s s' : State} {a : Action}

theorem BlocksFit.congr (h : BlocksFit s) (hsize : s'.sh.chunkSize = s.sh.chunkSize)
    (hgot : ∀ c n, s'.producer = some (.gotBlock c n) → s.producer = some (.gotBlock c n)) :
    BlocksFit s' where
  chunkSize c := hsize ▸ h.chunkSize c
  gotBlock c n hp := h.gotBlock c n (hgot c n hp)

theorem blocksFit_step (h : BlocksFit s) (hmove : Move s a s') : BlocksFit s' := by
  cases hmove with
  | countBlock chunk currSize hp =>
    refine ⟨fun c => ?_, by simp⟩
    -- only a block that `read` has returned gets into `chunk_size`
    show Function.update s.sh.chunkSize chunk currSize c ≤ chunkBytes
    rw [Function.update_apply]
    split
    · exact h.gotBlock chunk currSize hp
    · exact h.chunkSize c
  | readBlock chunk n hp hopen hn =>
    refine ⟨h.chunkSize, fun c m hm => ?_⟩
    obtain ⟨-, rfl⟩ : chunk = c ∧ n + 1 = m := by simpa using hm
    exact hn
  | readNothing chunk hp =>
    refine h.congr rfl fun c n hgot => ?_
    dsimp only at hgot
    split at hgot <;> simp at hgot
  | tokenSent i hc =>
    obtain ⟨queue, hqueue⟩ := sigqueueProducer_frame s i
    rw [hqueue]
    exact h.congr rfl fun _ _ => id
  | tokenReturned chunk hc =>
    obtain ⟨queue, hqueue⟩ := sigqueueProducer_frame s chunk
    rw [hqueue]
    exact h.congr rfl fun _ _ => id
  | blockSent chunk hp =>
    obtain ⟨queue, hqueue, -⟩ := sigqueueConsumer_frame s chunk
    rw [hqueue]
    exact h.congr rfl (by simp)
  | producerEnter | producerChunk | producerNoChunk | producerFail | producerEnd | producerIgnore
  | readFailed | blockFailed => exact h.congr rfl (by simp)
  | _ => exact h.congr rfl fun _ _ => id

/-- A signal for the parent costs no more than one round of its loop. -/
theorem ParentPc.interrupted_work_le (pc : ParentPc) : pc.interrupted.work ≤ pc.work + 7 := by
  cases pc <;> simp [ParentPc.interrupted, ParentPc.work]

theorem ChildPc.interrupted_work_le (pc : ChildPc) : pc.interrupted.work ≤ pc.work + 5 := by
  cases pc <;> simp [ChildPc.interrupted, ChildPc.work]

theorem length_sigqueueProducer_le (s : State) (v : ℤ) :
    (s.sigqueueProducer v).producerQueue.length ≤ s.producerQueue.length + 1 := by
  rcases sigqueueProducer_cases s v with hq | hq <;> simp [hq]

theorem length_sigqueueConsumer_le (s : State) (v : ℤ) :
    (s.sigqueueConsumer v).consumerQueue.length ≤ s.consumerQueue.length + 1 := by
  rcases sigqueueConsumer_cases s v with hq | hq <;> simp [hq]

theorem work_lt_parent (hmove : Move s .parent s') : s'.work < s.work := by
  have hlt : s'.parent.work < s.parent.work := by
    cases hmove with
    | parentTestProducer _ hpc | parentTestConsumer _ hpc =>
      rw [hpc]
      dsimp only
      split <;> decide
    | storePid _ hpc | parentPause _ hpc | callWaitpid _ hpc | reap _ hpc | closeIn _ hpc
    | parentDetach _ hpc | parentExit _ hpc =>
      rw [hpc]
      simp [ParentPc.work]
  obtain ⟨pc, pidStored, inOpen, rfl⟩ := hmove.parent_frame
  simp only [State.work] at hlt ⊢
  omega

theorem work_lt_child (hmove : Move s .child s') : s'.work < s.work := by
  have hlt : s'.child.work < s.child.work := by
    cases hmove with
    | childTestProducer _ hpc =>
      rw [hpc]
      dsimp only
      split <;> decide
    -- the loop over the chunks counts down
    | tokensSent i _ hpc =>
      rw [hpc]
      simp only [ChildPc.work]
      omega
    | storePpid _ hpc | childPause _ hpc | childTestConsumer _ hpc | closeOut _ _ hpc
    | childDetach _ _ hpc | childExit _ _ hpc =>
      rw [hpc]
      simp [ChildPc.work]
  obtain ⟨pc, ppidParent, outOpen, rfl, -⟩ := hmove.child_frame
  simp only [State.work] at hlt ⊢
  omega

/-- A token that is sent costs what was set aside for it. -/
theorem work_lt_childSigqueue {ok : Bool} (hmove : Move s (.childSigqueue ok) s') :
    s'.work < s.work := by
  cases hmove with
  | tokenSent i hc hpc hi =>
    have hlen := length_sigqueueProducer_le s i
    obtain ⟨queue, hqueue⟩ := sigqueueProducer_frame s i
    obtain ⟨k, hk⟩ : ∃ k, chunks - i = k + 1 := ⟨chunks - i - 1, by omega⟩
    have hk' : chunks - (i + 1) = k := by omega
    rw [hqueue] at hlen ⊢
    simp only [State.work, hpc, ChildPc.work, hk, hk', tokenWork] at hlen ⊢
    omega
  | tokenFailed i hc hpc hi =>
    simp only [State.work, hpc, ChildPc.work]
    omega

theorem work_lt_deliver (ha : a = .deliverProducer ∨ a = .deliverConsumer)
    (hmove : Move s a s') : s'.work < s.work := by
  cases hmove with
  | producerCrash v rest hp hq hi hpc =>
    simp only [State.work, hq, hpc, ParentPc.work, List.length_cons, Nat.mul_succ]
    omega
  | producerEnter v rest hp hq =>
    have hle := s.parent.interrupted_work_le
    simp only [State.work, hp, hq, List.length_cons, Nat.mul_succ, Option.elim_some,
      Option.elim_none, ProducerPc.work]
    -- a pending value counts for the steps of the handler that it starts
    rw [tokenWork]
    omega
  | consumerCrash v rest code hc hq hi hpc =>
    simp only [State.work, hq, hpc, ChildPc.work, List.length_cons, Nat.mul_succ]
    omega
  | consumerEnter v rest hc hq =>
    have hle := s.child.interrupted_work_le
    simp only [State.work, hc, hq, List.length_cons, Nat.mul_succ, Option.elim_some,
      Option.elim_none, ConsumerPc.work]
    rw [blockWork]
    omega
  | _ => simp at ha

/-- A block is paid for by the bytes that it takes from the file. -/
theorem blockWork_le_of_drop {n : ℕ} (hn : n + 1 ≤ s.unread.length) :
    blockWork * (s.unread.drop (n + 1)).length + blockWork ≤ blockWork * s.unread.length := by
  rw [← Nat.mul_succ, List.length_drop]
  exact Nat.mul_le_mul_left _ (by omega)

theorem work_lt_producer (ha : a = .producer ∨ (∃ r, a = .read r) ∨ ∃ ok, a = .producerSigqueue ok)
    (hmove : Move s a s') : s'.work < s.work := by
  cases hmove with
  | producerChunk _ hp | producerNoChunk _ hp | countBlock _ _ hp | producerFail hp
  | producerEnd hp | blockFailed _ hp =>
    simp only [State.work, hp, Option.elim_some, Option.elim_none, ProducerPc.work]
    omega
  | producerIgnore hp =>
    simp only [State.work, hp, Option.elim_some, Option.elim_none, ProducerPc.work,
      List.length_nil, Nat.mul_zero]
    omega
  | readFailed chunk hp =>
    simp only [State.work, hp, Option.elim_some, ProducerPc.work]
    omega
  | readNothing chunk hp =>
    simp only [State.work, hp, Option.elim_some, ProducerPc.work]
    -- either an attempt is used up, or the file has ended
    split
    next htry =>
      simp only [Option.elim_some, ProducerPc.work]
      omega
    next =>
      simp only [Option.elim_some, ProducerPc.work]
      omega
  | readBlock chunk n hp hopen hn hle =>
    have hpaid := blockWork_le_of_drop hle
    simp only [State.work, hp, Option.elim_some, ProducerPc.work]
    omega
  | blockSent chunk hp =>
    have hlen := length_sigqueueConsumer_le s chunk
    obtain ⟨queue, hqueue, -⟩ := sigqueueConsumer_frame s chunk
    rw [hqueue] at hlen ⊢
    have hpaid : blockWork * queue.length ≤ blockWork * (s.consumerQueue.length + 1) :=
      Nat.mul_le_mul_left blockWork hlen
    rw [Nat.mul_succ] at hpaid
    simp only [State.work, hp, Option.elim_some, Option.elim_none, ProducerPc.work]
    omega
  | _ => simp at ha

theorem work_lt_consumer (hfit : BlocksFit s) (hwrites : WritesSome s a)
    (ha : a = .consumer ∨ (∃ r, a = .write r) ∨ ∃ ok, a = .consumerSigqueue ok)
    (hmove : Move s a s') : s'.work < s.work := by
  cases hmove with
  | consumerChunk _ hc | consumerNoChunk _ hc | consumerFailWrite hc | consumerFail hc
  | returnFailed _ hc | written _ _ _ hc | writeFailed _ _ _ hc =>
    simp only [State.work, hc, Option.elim_some, Option.elim_none, ConsumerPc.work]
    omega
  | consumerIgnore hc =>
    simp only [State.work, hc, Option.elim_some, Option.elim_none, ConsumerPc.work,
      List.length_nil, Nat.mul_zero]
    omega
  | readSize chunk hc =>
    -- the bytes of the block are what the loop around `write` has to do
    have hle := hfit.chunkSize chunk
    simp only [State.work, hc, Option.elim_some, ConsumerPc.work]
    omega
  | write chunk bytesToWrite written n hc hlt hopen hn =>
    -- a `write` that returns 0 would go round for nothing
    have hpos : n ≠ 0 := fun hzero => hwrites (by rw [hzero])
    simp only [State.work, hc, Option.elim_some, ConsumerPc.work]
    omega
  | tokenReturned chunk hc =>
    have hlen := length_sigqueueProducer_le s chunk
    obtain ⟨queue, hqueue⟩ := sigqueueProducer_frame s chunk
    rw [hqueue] at hlen ⊢
    -- the token that goes back pays for one more run of the other handler
    have hpaid : tokenWork * queue.length ≤ tokenWork * (s.producerQueue.length + 1) :=
      Nat.mul_le_mul_left tokenWork hlen
    rw [Nat.mul_succ] at hpaid
    simp only [State.work, hc, Option.elim_some, Option.elim_none, ConsumerPc.work]
    omega
  | _ => simp at ha

/-- Every step takes from the work that is left. -/
theorem work_lt (hfit : BlocksFit s) (hwrites : WritesSome s a) (hmove : Move s a s') :
    s'.work < s.work := by
  cases a with
  | parent => exact work_lt_parent hmove
  | child => exact work_lt_child hmove
  | openOut ok =>
    cases hmove with
    | opened _ hpc | openFailed _ hpc =>
      simp only [State.work, hpc, ChildPc.work]
      omega
  | childSigqueue ok => exact work_lt_childSigqueue hmove
  | deliverProducer => exact work_lt_deliver (.inl rfl) hmove
  | deliverConsumer => exact work_lt_deliver (.inr rfl) hmove
  | producer => exact work_lt_producer (.inl rfl) hmove
  | read r => exact work_lt_producer (.inr (.inl ⟨r, rfl⟩)) hmove
  | producerSigqueue ok => exact work_lt_producer (.inr (.inr ⟨ok, rfl⟩)) hmove
  | consumer => exact work_lt_consumer hfit hwrites (.inl rfl) hmove
  | write r => exact work_lt_consumer hfit hwrites (.inr (.inl ⟨r, rfl⟩)) hmove
  | consumerSigqueue ok => exact work_lt_consumer hfit hwrites (.inr (.inr ⟨ok, rfl⟩)) hmove

end Work

/-! ## A sleeping parent -/

/-- Nothing will wake the parent from `pause()` any more. -/
structure Dozing (s : State) : Prop where
  parent : s.parent = .paused
  ended : s.sh.producerEnded ≠ .notEnded

/-- The parent does not enter `pause()` with `producer_ended` set. -/
def WakesParent (s : State) : Action → Prop
  | .parent => s.parent = .callPause → s.sh.producerEnded = .notEnded
  | _ => True

instance (s : State) (a : Action) : Decidable (WakesParent s a) :=
  match a with
  | .parent => inferInstanceAs
      (Decidable (s.parent = .callPause → s.sh.producerEnded = .notEnded))
  | .child | .openOut _ | .childSigqueue _ | .deliverProducer | .deliverConsumer | .producer
  | .read _ | .producerSigqueue _ | .consumer | .write _ | .consumerSigqueue _ => isTrue trivial

/-- `output.txt` can be opened, a `write` to it does not fail, and neither does a `sigqueue` to a
running process. -/
def CallsWork (s : State) (a : Action) : Prop :=
  Reliable s a ∧ a ≠ .openOut false

/-- No process has failed, and a handler has interrupted the main program of the parent. -/
structure Unbroken (s : State) : Prop where
  child : s.child ≠ .aborted
  parent : s.parent ≠ .crashed
  pausedIdle : s.producer ≠ none → s.parent ≠ .paused

section Sleep

variable {s s' : State} {a : Action}

theorem ParentPc.interrupted_ne_paused (pc : ParentPc) : pc.interrupted ≠ .paused := by
  cases pc <;> simp [ParentPc.interrupted]

theorem ParentPc.interrupted_eq_crashed {pc : ParentPc} (h : pc.interrupted = .crashed) :
    pc = .crashed := by
  cases pc <;> simp_all [ParentPc.interrupted]

theorem ChildPc.interrupted_eq_aborted {pc : ChildPc} (h : pc.interrupted = .aborted) :
    pc = .aborted := by
  cases pc <;> simp_all [ChildPc.interrupted]

/-- Once `producer_ended` is set and `producer_handler` has returned, `SIG_PRODUCER` is ignored. -/
theorem Orderly.ignored (hord : Orderly s) (hp : s.producer = none)
    (hend : s.sh.producerEnded ≠ .notEnded) : s.producerIgnored = true := by
  rcases (hord.ended hend).ignoring with hi | ⟨-, hi⟩
  · simp [hp] at hi
  · exact hi

theorem Orderly.ended_of_leaving (hord : Orderly s) (h : s.parent.copying = false) :
    s.sh.producerEnded ≠ .notEnded := fun hend => by
  simp [(hord.copying hend).parent] at h

theorem Unbroken.congr (h : Unbroken s) (hchild : s'.child = .aborted → s.child = .aborted)
    (hparent : s'.parent = s.parent) (hproducer : s.producer = none → s'.producer = none) :
    Unbroken s' where
  child hc := h.child (hchild hc)
  parent := hparent ▸ h.parent
  pausedIdle hp := hparent ▸ h.pausedIdle fun hnone => hp (hproducer hnone)

theorem unbroken_step (h : Unbroken s) (hord : Orderly s) (hworks : CallsWork s a)
    (hmove : Move s a s') : Unbroken s' := by
  cases a with
  | parent =>
    cases hmove with
    | parentTestProducer hp | parentTestConsumer hp =>
      refine ⟨h.child, ?_, fun hne => absurd hp hne⟩
      dsimp only
      split <;> simp
    | storePid hp | parentPause hp | callWaitpid hp | reap hp | closeIn hp | parentDetach hp
    | parentExit hp => exact ⟨h.child, by simp, fun hne => absurd hp hne⟩
  | child =>
    cases hmove with
    | childTestProducer _ hpc =>
      refine h.congr (fun hc => ?_) rfl id
      dsimp only at hc
      split at hc <;> cases hc
    | _ => exact h.congr (by simp) rfl id
  | openOut ok =>
    cases hmove with
    | opened => exact h.congr (by simp) rfl id
    | openFailed => exact absurd rfl hworks.2
  | childSigqueue ok =>
    cases hmove with
    | tokenSent i hc hpc hi =>
      obtain ⟨queue, hqueue⟩ := sigqueueProducer_frame s i
      rw [hqueue]
      exact h.congr (by simp) rfl id
    | tokenFailed i hc hpc hi =>
      -- the parent runs as long as the child does, so that `sigqueue` does not fail
      have hrunning := hord.parentRunning (by simp [State.childRunning, hpc])
      have hfails : false = true ∨ s.parentRunning = false := hworks.1
      simp [hrunning] at hfails
  | deliverProducer =>
    cases hmove with
    | producerCrash v rest hp hq haccepts hpc =>
      -- a parent on its way out ignores the signal
      have hend := hord.ended_of_leaving (by simp [hpc, ParentPc.copying])
      simp [hord.ignored hp hend] at haccepts
    | producerEnter v rest hp hq =>
      exact ⟨h.child, fun hc => h.parent (ParentPc.interrupted_eq_crashed hc),
        fun _ => ParentPc.interrupted_ne_paused _⟩
  | deliverConsumer =>
    cases hmove with
    | consumerCrash => exact h.congr (by simp) rfl id
    | consumerEnter => exact h.congr ChildPc.interrupted_eq_aborted rfl id
  | producer =>
    have hne : s.producer ≠ none := by cases hmove <;> simp [*]
    obtain ⟨_, _, _, _, _, _, rfl⟩ := hmove.producer_frame
    exact h.congr id rfl fun hp => absurd hp hne
  | read r =>
    obtain ⟨⟨c, hp⟩, _, _, _, _, _, rfl⟩ := hmove.read_frame
    exact h.congr id rfl fun hnone => by simp [hnone] at hp
  | producerSigqueue ok =>
    obtain ⟨⟨c, hp⟩, _, _, _, _, rfl, -⟩ := hmove.producerSigqueue_frame
    exact h.congr id rfl fun hnone => by simp [hnone] at hp
  | consumer =>
    obtain ⟨-, _, _, _, _, _, rfl⟩ := hmove.consumer_frame
    exact h.congr id rfl id
  | write r =>
    obtain ⟨-, _, _, rfl, -⟩ := hmove.write_frame
    exact h.congr id rfl id
  | consumerSigqueue ok =>
    obtain ⟨-, _, _, rfl⟩ := hmove.consumerSigqueue_frame
    exact h.congr id rfl id

theorem unbroken_init (file : List Byte) : Unbroken (init file) where
  child := by simp [init]
  parent := by simp [init]
  pausedIdle := by simp [init]

theorem dozing_congr (hparent : s'.parent = s.parent)
    (hend : s'.sh.producerEnded = s.sh.producerEnded) : Dozing s' ↔ Dozing s :=
  ⟨fun h => ⟨hparent ▸ h.parent, hend ▸ h.ended⟩,
    fun h => ⟨hparent.trans h.parent, by rw [hend]; exact h.ended⟩⟩

/-- The parent is put to sleep only by entering `pause()`, and does not wake again. -/
theorem dozing_step_iff (h : Unbroken s) (hord : Orderly s) (hmove : Move s a s') :
    Dozing s' ↔ Dozing s ∨ ¬ WakesParent s a := by
  cases a with
  | parent =>
    simp only [WakesParent]
    cases hmove with
    | parentPause hp hpc =>
      have hawake : ¬ Dozing s := fun hd => by simpa [hpc] using hd.parent
      simp only [hpc, hawake, forall_const, false_or]
      exact ⟨fun hd => hd.ended, fun hend => ⟨rfl, hend⟩⟩
    | parentTestProducer hp hpc | parentTestConsumer hp hpc =>
      refine iff_of_false (fun hd => ?_) ?_
      · have hpaused := hd.parent
        dsimp only at hpaused
        split at hpaused <;> cases hpaused
      · rintro (hd | hsleeps)
        · simpa [hpc] using hd.parent
        · simp [hpc] at hsleeps
    | storePid hp hpc | callWaitpid hp hpc | reap hp hpc | closeIn hp hpc | parentDetach hp hpc
    | parentExit hp hpc =>
      refine iff_of_false (fun hd => by simpa using hd.parent) ?_
      rintro (hd | hsleeps)
      · simpa [hpc] using hd.parent
      · simp [hpc] at hsleeps
  | deliverProducer =>
    have hawake : ¬ Dozing s := fun hd => by
      cases hmove with
      | producerCrash v rest hp hq haccepts | producerEnter v rest hp hq haccepts =>
        simp [hord.ignored hp hd.ended] at haccepts
    simp only [hawake, WakesParent, not_true_eq_false, or_self, iff_false]
    intro hd
    cases hmove with
    | producerCrash => simpa using hd.parent
    | producerEnter => exact ParentPc.interrupted_ne_paused _ hd.parent
  | producer =>
    -- `pause()` has returned while the handler runs
    have hne : s.producer ≠ none := by cases hmove <;> simp [*]
    have hpaused := h.pausedIdle hne
    obtain ⟨_, _, _, _, _, _, rfl⟩ := hmove.producer_frame
    simp only [WakesParent, not_true_eq_false, or_false]
    exact iff_of_false (fun hd => hpaused hd.parent) fun hd => hpaused hd.parent
  | child =>
    obtain ⟨_, _, _, rfl, -⟩ := hmove.child_frame
    simp only [WakesParent, not_true_eq_false, or_false]
    exact dozing_congr rfl rfl
  | openOut ok =>
    obtain ⟨-, _, _, _, -, -, rfl⟩ := hmove.openOut_frame
    simp only [WakesParent, not_true_eq_false, or_false]
    exact dozing_congr rfl rfl
  | childSigqueue ok =>
    obtain ⟨_, _, _, -, -, -, -, rfl⟩ := hmove.childSigqueue_frame
    simp only [WakesParent, not_true_eq_false, or_false]
    exact dozing_congr rfl rfl
  | deliverConsumer =>
    simp only [WakesParent, not_true_eq_false, or_false]
    cases hmove <;> exact dozing_congr rfl rfl
  | read r =>
    obtain ⟨-, _, _, _, _, _, rfl⟩ := hmove.read_frame
    simp only [WakesParent, not_true_eq_false, or_false]
    exact dozing_congr rfl rfl
  | producerSigqueue ok =>
    obtain ⟨-, _, _, _, _, rfl, -⟩ := hmove.producerSigqueue_frame
    simp only [WakesParent, not_true_eq_false, or_false]
    exact dozing_congr rfl rfl
  | consumer =>
    obtain ⟨-, _, _, _, _, _, rfl⟩ := hmove.consumer_frame
    simp only [WakesParent, not_true_eq_false, or_false]
    exact dozing_congr rfl rfl
  | write r =>
    obtain ⟨-, _, _, rfl, -⟩ := hmove.write_frame
    simp only [WakesParent, not_true_eq_false, or_false]
    exact dozing_congr rfl rfl
  | consumerSigqueue ok =>
    obtain ⟨-, _, _, rfl⟩ := hmove.consumerSigqueue_frame
    simp only [WakesParent, not_true_eq_false, or_false]
    exact dozing_congr rfl rfl

end Sleep

/-! ## Where the two processes can stay -/

section Stuck

variable {s : State}

/-- A handler can always go on: every call in it can fail. -/
theorem idle_of_stuck (hstuck : ∀ a, step s a = none) : s.producer = none ∧ s.consumer = none := by
  constructor
  · cases hp : s.producer with
    | none => rfl
    | some pc =>
      exfalso
      -- a handler always has a next step, or its system call can fail
      cases pc with
      | entry v =>
        have h := hstuck .producer
        simp only [step, producerStep, hp] at h
        split at h <;> cases h
      | reading chunk => simpa [step, readStep, hp] using hstuck (.read none)
      | sendBlock chunk =>
        simpa [step, producerSigqueueStep, hp] using hstuck (.producerSigqueue false)
      | gotBlock chunk currSize | storeFail | atEnd | ignore =>
        simpa [step, producerStep, hp] using hstuck .producer
  · cases hc : s.consumer with
    | none => rfl
    | some pc =>
      exfalso
      cases pc with
      | entry v =>
        have h := hstuck .consumer
        simp only [step, consumerStep, hc] at h
        split at h <;> cases h
      | writing chunk bytesToWrite written =>
        by_cases hlt : written < bytesToWrite
        · simpa [step, writeStep, hc, hlt] using hstuck (.write none)
        · simpa [step, consumerStep, hc, hlt] using hstuck .consumer
      | sendToken chunk =>
        simpa [step, consumerSigqueueStep, hc] using hstuck (.consumerSigqueue false)
      | readSize chunk | failWrite | ignore | storeFail =>
        simpa [step, consumerStep, hc] using hstuck .consumer

theorem parent_of_stuck (hstuck : ∀ a, step s a = none) :
    s.parent = .paused ∨ (s.parent = .waiting ∧ s.childRunning = true) ∨ s.parent = .exited ∨
      s.parent = .crashed := by
  have h := hstuck .parent
  simp only [step, (idle_of_stuck hstuck).1, if_true] at h
  cases hpc : s.parent <;> simp_all [parentStep]

theorem child_of_stuck (hstuck : ∀ a, step s a = none) :
    s.child = .paused ∨ s.child = .aborted ∨ s.childRunning = false := by
  have h := hstuck .child
  have hidle := (idle_of_stuck hstuck).2
  simp only [step, hidle, if_true] at h
  cases hpc : s.child with
  | openOut => simpa [step, openOutStep, hidle, hpc] using hstuck (.openOut false)
  | sendToken i =>
    by_cases hi : i < chunks
    · simpa [step, childSigqueueStep, hidle, hpc, hi] using hstuck (.childSigqueue false)
    · simp [childStep, hpc, hi] at h
  | paused => exact .inl rfl
  | aborted => exact .inr (.inl rfl)
  | exited code | crashed => simp [State.childRunning, hpc]
  | _ => simp [childStep, hpc] at h

/-- No signal that is neither blocked nor ignored is pending. -/
theorem queues_of_stuck (hstuck : ∀ a, step s a = none) :
    (s.parentRunning = true → s.producerIgnored = false → s.producerQueue = []) ∧
      (s.childRunning = true → s.consumerIgnored = false → s.consumerQueue = []) := by
  obtain ⟨hp, hc⟩ := idle_of_stuck hstuck
  constructor
  · intro hrunning haccepts
    cases hq : s.producerQueue with
    | nil => rfl
    | cons v rest =>
      have h := hstuck .deliverProducer
      simp only [step, deliverProducerStep, hp, hq, hrunning, haccepts, Bool.false_eq_true,
        not_false_eq_true, and_self, if_true] at h
      split at h <;> cases h
  · intro hrunning haccepts
    cases hq : s.consumerQueue with
    | nil => rfl
    | cons v rest =>
      have h := hstuck .deliverConsumer
      simp only [step, deliverConsumerStep, hc, hq, hrunning, haccepts, Bool.false_eq_true,
        not_false_eq_true, and_self, if_true] at h
      split at h <;> cases h

theorem not_starting_of_stuck (hun : Unbroken s) (hstuck : ∀ a, step s a = none) :
    s.child.starting = false := by
  rcases child_of_stuck hstuck with hpc | hpc | hended
  · simp [hpc, ChildPc.starting]
  · exact absurd hpc hun.child
  · cases hpc : s.child <;> simp_all [ChildPc.starting, State.childRunning, hun.child]

/-- While `producer_ended` is not set some token is under way, and nothing is in its way. -/
theorem ended_of_stuck (hun : Unbroken s) (hord : Orderly s) (hstuck : ∀ a, step s a = none) :
    s.sh.producerEnded ≠ .notEnded := by
  intro hend
  have hco := hord.copying hend
  obtain ⟨hp, hc⟩ := idle_of_stuck hstuck
  obtain ⟨hpq, hcq⟩ := queues_of_stuck hstuck
  have hstart := not_starting_of_stuck hun hstuck
  have hcopying : s.child.copying = true := by simpa [hstart] using hco.child
  have hparent := parentRunning_of_serving (ParentPc.serving_of_copying hco.parent)
  have hfine := hord.consumerFine (ChildPc.beforeClose_of_copying hcopying)
  rcases hco.token with h | h | h | h | h
  · simp [hstart] at h
  · exact h (hpq hparent hco.listening)
  · exact h hp
  · exact h (hcq (childRunning_of_copying hcopying) hfine.accepting)
  · exact h hc

/-- Both processes have ended. -/
structure Gone (s : State) : Prop where
  parent : s.parent = .exited
  child : s.childRunning = false

theorem gone_iff_of_stuck (hun : Unbroken s) (hord : Orderly s) (hstuck : ∀ a, step s a = none) :
    Gone s ↔ ¬ Asleep s ∧ ¬ Dozing s := by
  constructor
  · refine fun h => ⟨fun hsleep => ?_, fun hd => by simpa [h.parent] using hd.parent⟩
    simpa [State.childRunning, hsleep.child] using h.child
  · rintro ⟨hawake, hupright⟩
    have hend := ended_of_stuck hun hord hstuck
    have hchild : s.childRunning = false := by
      rcases child_of_stuck hstuck with hpc | hpc | hended
      · -- the child is in `pause()`, and no `SIG_CONSUMER` is pending
        have hfine := hord.consumerFine (by rw [hpc]; rfl)
        have hq := (queues_of_stuck hstuck).2 (by simp [State.childRunning, hpc]) hfine.accepting
        exact absurd ⟨hpc, hq, hend⟩ hawake
      · exact absurd hpc hun.child
      · exact hended
    rcases parent_of_stuck hstuck with hpc | ⟨-, hrunning⟩ | hpc | hpc
    · exact absurd ⟨hpc, hend⟩ hupright
    · simp [hchild] at hrunning
    · exact ⟨hpc, hchild⟩
    · exact absurd hpc hun.parent

end Stuck

/-! ## Along a run -/

section Runs

variable {file : List Byte} {tr : List (State × Action)} {s : State}

/-- A process is asleep exactly when some step of the run has put it to sleep. -/
theorem sleep_iff_of_run (hrun : Run step (init file) tr s) (hworks : StepsMeet CallsWork tr) :
    Unbroken s ∧ (Asleep s ↔ ¬ StepsMeet WakesChild tr) ∧
      (Dozing s ↔ ¬ StepsMeet WakesParent tr) := by
  induction hrun with
  | nil =>
    have hend : (init file).sh.producerEnded = .notEnded := rfl
    refine ⟨unbroken_init file, ?_, ?_⟩
    · simpa using fun hno : Asleep (init file) => hno.ended hend
    · simpa using fun hno : Dozing (init file) => hno.ended hend
  | @snoc tr t u a hrun hlast ih =>
    rw [stepsMeet_snoc] at hworks
    obtain ⟨hun, hasleep, hdozing⟩ := ih hworks.1
    have hord := orderly_of_run hrun (hworks.1.mono fun _ _ h => h.1)
    have hmove := move_of_step hlast
    refine ⟨unbroken_step hun hord hworks.2 hmove, ?_, ?_⟩
    -- whoever sleeps goes on sleeping
    · have hstep : Asleep u ↔ Asleep t ∨ ¬ WakesChild t a := by
        by_cases hsleep : Asleep t
        · exact iff_of_true (asleep_step hord hsleep hlast) (.inl hsleep)
        · rw [asleep_step_iff hord hsleep hlast]
          simp [hsleep]
      rw [hstep, hasleep, stepsMeet_snoc, not_and_or]
    · rw [dozing_step_iff hun hord hmove, hdozing, stepsMeet_snoc, not_and_or]

theorem length_le_of_run (hrun : Run step (init file) tr s) (hwrites : StepsMeet WritesSome tr) :
    BlocksFit s ∧ tr.length + s.work ≤ (init file).work := by
  induction hrun with
  | nil => exact ⟨⟨fun _ => Nat.zero_le _, by simp [init]⟩, by simp⟩
  | snoc hrun hlast ih =>
    rw [stepsMeet_snoc] at hwrites
    obtain ⟨hfit, hle⟩ := ih hwrites.1
    have hlt := work_lt hfit hwrites.2 (move_of_step hlast)
    refine ⟨blocksFit_step hfit (move_of_step hlast), ?_⟩
    rw [List.length_append, List.length_singleton]
    omega

/-- Every schedule of the two processes and of their handlers ends, whatever fails. If no call
fails and nothing can go on any more, both processes have ended exactly if no step has put one of
them to sleep: the child as in `deadlock_iff_of_run`, and the parent by its call of `pause()` after
`producer_handler` has set `producer_ended`. -/
theorem ends_of_run (hrun : Run step (init file) tr s) (hwrites : StepsMeet WritesSome tr) :
    tr.length ≤ blockWork * file.length + 228 ∧
      (StepsMeet CallsWork tr → (∀ a, step s a = none) →
        (Gone s ↔ StepsMeet WakesChild tr ∧ StepsMeet WakesParent tr)) := by
  refine ⟨?_, fun hworks hstuck => ?_⟩
  · have hle := (length_le_of_run hrun hwrites).2
    have hinit : (init file).work = blockWork * file.length + 228 := by
      simp [State.work, init, ParentPc.work, ChildPc.work, maxAttempts, tokenWork, chunks]
    omega
  · obtain ⟨hun, hasleep, hdozing⟩ := sleep_iff_of_run hrun hworks
    have hord := orderly_of_run hrun (hworks.mono fun _ _ h => h.1)
    rw [gone_iff_of_stuck hun hord hstuck, hasleep, hdozing, not_not, not_not]

end Runs

/-- With the child gone, a parent in `pause()` that ignores `SIG_PRODUCER` stays there. -/
theorem stuck_of_paused {s : State} (hp : s.producer = none) (hc : s.consumer = none)
    (hparent : s.parent = .paused) (hignored : s.producerIgnored = true) {code : ℕ}
    (hchild : s.child = .exited code) (a : Action) : step s a = none := by
  cases h : step s a with
  | none => rfl
  | some s' => cases move_of_step h <;> simp_all [State.childRunning]

/-- The parent has tested both flags when the first signal arrives. -/
def lateParent : List Action :=
  childStart ++ [Action.parent, .parent, .parent] ++ copyBlock 1 ++ endOfFile ++ childExit
    ++ [Action.parent]

theorem lateParent_executes :
    (execute step (fun s a => decide (NoFailure s a ∧ a ≠ .openOut false ∧ a ≠ .write (some 0)))
      (init [7]) lateParent).any (fun s => decide (s.producer = none ∧ s.consumer = none ∧
        s.parent = .paused ∧ s.producerIgnored = true ∧ s.child = .exited 1 ∧ s.output = [7]))
      = true := by
  decide

/-- The copy is complete and the child has exited, but the parent never returns from `pause()`. -/
theorem ends_dozing_one_byte : ∃ tr s, Run step (init [7]) tr s ∧ tr.length ≤ blockWork + 228 ∧
    s.output = [7] ∧ s.parent = .paused ∧ (∀ a, step s a = none) ∧
      ¬ (StepsMeet WakesChild tr ∧ StepsMeet WakesParent tr) := by
  obtain ⟨tr, s, hrun, hmeet, hs⟩ := exists_run_of_any lateParent_executes
  obtain ⟨hp, hc, hparent, hignored, hchild, hout⟩ := of_decide_eq_true hs
  have hwrites : StepsMeet WritesSome tr := hmeet.mono fun _ _ h => (of_decide_eq_true h).2.2
  have hworks : StepsMeet CallsWork tr := hmeet.mono fun _ _ h =>
    ⟨(of_decide_eq_true h).1.reliable, (of_decide_eq_true h).2.1⟩
  have hstuck := stuck_of_paused hp hc hparent hignored hchild
  obtain ⟨hlen, hgone⟩ := ends_of_run hrun hwrites
  refine ⟨tr, s, hrun, by simpa using hlen, hout, hparent, hstuck, fun hwake => ?_⟩
  have hended := ((hgone hworks hstuck).mpr hwake).parent
  simp [hparent] at hended

end SignalCopy
