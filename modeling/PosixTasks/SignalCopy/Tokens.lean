import PosixTasks.SignalCopy.Moves

/-!
# Each chunk has at most one token

A chunk number is a token. It starts in the child's main program, travels in `SIG_PRODUCER` to
`producer_handler`, and, once a block has been read into the chunk, in `SIG_CONSUMER` to
`consumer_handler` and back. `State.tokens` counts where the token of a chunk can be, with
`unfinished` standing for the whole way through the child up to the end of the write loop.

## Main results

* `OneToken`: at most one token per chunk, and a chunk on its way through the child is
  unfinished;
* `oneToken_of_run`: the invariant holds at the end of every run;
* `OneToken.not_unfinished`: `producer_handler` only reads into a chunk that is written out.
-/

namespace SignalCopy

open Transition

/-! ## Frames of the main programs -/

/-- A step of the parent's main program changes its own position, `pid` and `fd_in` only. -/
theorem Move.parent_frame {s s' : State} (h : Move s .parent s') :
    ∃ pc pidStored inOpen,
      s' =
        { s with parent := pc, inOpen := inOpen, sh := { s.sh with pidStored := pidStored } } := by
  cases h <;> exact ⟨_, _, _, rfl⟩

/-- The number of tokens the child's main program has still to send for a chunk. -/
def ChildPc.unsent (pc : ChildPc) (c : ChunkNum) : ℕ :=
  match pc with
  | .openOut | .storePpid => 1
  | .sendToken i => if i ≤ c then 1 else 0
  | _ => 0

/-- A step of the child's main program changes its own position, `ppid` and the descriptor of
`output.txt` only, and sends no token. -/
theorem Move.child_frame {s s' : State} (h : Move s .child s') :
    ∃ pc ppidParent outOpen,
      s' = { s with child := pc, outOpen := outOpen,
                    sh := { s.sh with ppidParent := ppidParent } } ∧
      (∀ c, pc.unsent c = s.child.unsent c) ∧ s.childRunning = true ∧ pc ≠ .openOut := by
  cases h with
  | tokensSent i _ hpc hi =>
    refine ⟨.testProducer, _, _, rfl, fun c => ?_, by simp [State.childRunning, hpc], by simp⟩
    have hc := c.isLt
    simp only [ChildPc.unsent, hpc]
    rw [if_neg (by omega)]
  | childTestProducer _ hpc =>
    refine ⟨_, _, _, rfl, fun c => ?_, by simp [State.childRunning, hpc], ?_⟩
    · rw [hpc]
      split <;> rfl
    · split <;> simp
  | storePpid _ hpc | childPause _ hpc | childTestConsumer _ hpc | closeOut _ _ hpc
  | childDetach _ _ hpc | childExit _ _ hpc =>
    exact ⟨_, _, _, rfl, fun c => by simp [ChildPc.unsent, hpc],
      by simp [State.childRunning, hpc], by simp⟩

/-- The child's main program goes on only outside its handler. -/
theorem Move.consumer_of_child {s s' : State} (h : Move s .child s') : s.consumer = none := by
  cases h <;> assumption

/-! ## Counting tokens -/

/-- The chunk `producer_handler` is filling. -/
def ProducerPc.chunk? : ProducerPc → Option ℤ
  | .entry v => some v
  | .reading c | .gotBlock c _ | .sendBlock c => some c
  | .storeFail | .atEnd | .ignore => none

/-- The chunk `consumer_handler` is writing out. -/
def ConsumerPc.chunk? : ConsumerPc → Option ℤ
  | .entry v => some v
  | .readSize c | .writing c _ _ => some c
  | .failWrite | .ignore | .sendToken _ | .storeFail => none

/-- The chunk `consumer_handler` has written out and is about to return. -/
def ConsumerPc.returning? : ConsumerPc → Option ℤ
  | .sendToken c => some c
  | _ => none

/-- The places where the token of a chunk can be. -/
def State.tokens (s : State) (c : ChunkNum) : ℕ :=
  s.child.unsent c + s.producerQueue.count (c : ℤ)
    + (if s.producer.bind ProducerPc.chunk? = some (c : ℤ) then 1 else 0)
    + (s.unfinished c).toNat
    + (if s.consumer.bind ConsumerPc.returning? = some (c : ℤ) then 1 else 0)

/-- The ways in which a chunk can be under way to the end of the write loop. -/
def State.inTransit (s : State) (c : ChunkNum) : ℕ :=
  s.consumerQueue.count (c : ℤ)
    + (if s.consumer.bind ConsumerPc.chunk? = some (c : ℤ) then 1 else 0)

/-- At most one token per chunk, and a chunk under way through the child is unfinished. -/
structure OneToken (s : State) : Prop where
  tokens_le_one : ∀ c, s.tokens c ≤ 1
  inTransit_le : ∀ c, s.inTransit c ≤ (s.unfinished c).toNat

theorem oneToken_init (file : List Byte) : OneToken (init file) where
  tokens_le_one c := by simp [State.tokens, init, ChildPc.unsent]
  inTransit_le c := by simp [State.inTransit, init]

/-- The invariant only reads the queues, the handlers, `unfinished` and the tokens unsent. -/
theorem OneToken.congr {s s' : State} (hs : OneToken s)
    (hchild : ∀ c, s'.child.unsent c = s.child.unsent c)
    (hpq : s'.producerQueue = s.producerQueue) (hp : s'.producer = s.producer)
    (hcq : s'.consumerQueue = s.consumerQueue) (hc : s'.consumer = s.consumer)
    (hu : s'.unfinished = s.unfinished) : OneToken s' where
  tokens_le_one c := by
    have h := hs.tokens_le_one c
    simpa only [State.tokens, hchild, hpq, hp, hc, hu] using h
  inTransit_le c := by
    have h := hs.inTransit_le c
    simpa only [State.inTransit, hcq, hc, hu] using h

@[simp]
theorem interrupted_unsent (pc : ChildPc) (c : ChunkNum) :
    pc.interrupted.unsent c = pc.unsent c := by
  cases pc <;> rfl

/-- A successful `sigqueue` of `SIG_PRODUCER` appends to the pending values, or is dropped. -/
theorem sigqueueProducer_cases (s : State) (v : ℤ) :
    s.sigqueueProducer v = { s with producerQueue := s.producerQueue ++ [v] } ∨
      s.sigqueueProducer v = s := by
  unfold State.sigqueueProducer
  split
  · exact Or.inl rfl
  · exact Or.inr rfl

/-- A successful `sigqueue` of `SIG_CONSUMER` appends to the pending values, or is dropped. -/
theorem sigqueueConsumer_cases (s : State) (v : ℤ) :
    s.sigqueueConsumer v = { s with consumerQueue := s.consumerQueue ++ [v] } ∨
      s.sigqueueConsumer v = s := by
  unfold State.sigqueueConsumer
  split
  · exact Or.inl rfl
  · exact Or.inr rfl

theorem cast_inj {a b : ChunkNum} : (a : ℤ) = (b : ℤ) ↔ a = b := by
  rw [Fin.ext_iff]
  exact_mod_cast Iff.rfl

theorem toNat_update (unfinished : ChunkNum → Bool) (chunk c : ChunkNum) (b : Bool) :
    (Function.update unfinished chunk b c).toNat
      = if chunk = c then b.toNat else (unfinished c).toNat := by
  by_cases hc : chunk = c
  · subst hc
    simp
  · rw [Function.update_of_ne (Ne.symm hc), if_neg hc]

/-! ## Steps of the child's main program -/

theorem oneToken_openOut {s s' : State} {ok : Bool} (hs : OneToken s)
    (h : Move s (.openOut ok) s') : OneToken s' := by
  cases h with
  | opened _ hpc => exact hs.congr (fun c => by simp [hpc, ChildPc.unsent]) rfl rfl rfl rfl rfl
  | openFailed _ hpc =>
    refine ⟨fun c => ?_, hs.inTransit_le⟩
    have := hs.tokens_le_one c
    simp only [State.tokens, hpc, ChildPc.unsent] at this ⊢
    omega

/-- The main program has sent the token of the chunk, or has still to send it. -/
theorem unsent_sendToken_succ (i : ℕ) (c : ChunkNum) :
    (ChildPc.sendToken (i + 1)).unsent c + [(i : ℤ)].count (c : ℤ)
      ≤ (ChildPc.sendToken i).unsent c := by
  by_cases hc : (i : ℤ) = (c : ℤ)
  · have heq : i = (c : ℕ) := by exact_mod_cast hc
    simp [ChildPc.unsent, heq]
  · have hne : i ≠ (c : ℕ) := fun h => hc (by exact_mod_cast h)
    simp only [ChildPc.unsent, List.count_singleton, beq_iff_eq, hc, if_false]
    split_ifs <;> omega

theorem oneToken_childSigqueue {s s' : State} {ok : Bool} (hs : OneToken s)
    (h : Move s (.childSigqueue ok) s') : OneToken s' := by
  cases h with
  | tokenFailed i _ hpc =>
    refine ⟨fun c => ?_, hs.inTransit_le⟩
    have := hs.tokens_le_one c
    simp only [State.tokens, hpc, ChildPc.unsent] at this ⊢
    omega
  | tokenSent i _ hpc =>
    -- the token leaves the main program for the pending signals, or is dropped
    rcases sigqueueProducer_cases s i with hq | hq <;> rw [hq]
    · refine ⟨fun c => ?_, hs.inTransit_le⟩
      have h₁ := hs.tokens_le_one c
      have h₂ := unsent_sendToken_succ i c
      simp only [State.tokens, hpc, List.count_append] at h₁ ⊢
      omega
    · refine ⟨fun c => ?_, hs.inTransit_le⟩
      have h₁ := hs.tokens_le_one c
      have h₂ := unsent_sendToken_succ i c
      simp only [State.tokens, hpc] at h₁ ⊢
      omega

/-! ## Deliveries -/

theorem count_pending {queue rest : List ℤ} {v : ℤ} (hq : queue = v :: rest) (c : ChunkNum) :
    queue.count (c : ℤ) = rest.count (c : ℤ) + if v = (c : ℤ) then 1 else 0 := by
  simp [hq, List.count_cons]

theorem oneToken_deliverProducer {s s' : State} (hs : OneToken s)
    (h : Move s .deliverProducer s') : OneToken s' := by
  cases h with
  | producerCrash v rest hp hq =>
    refine ⟨fun c => ?_, hs.inTransit_le⟩
    have := hs.tokens_le_one c
    simp only [State.tokens, count_pending hq c] at this ⊢
    omega
  | producerEnter v rest hp hq =>
    -- the token moves from the pending signals into the handler
    refine ⟨fun c => ?_, hs.inTransit_le⟩
    have := hs.tokens_le_one c
    simp only [State.tokens, count_pending hq c, hp, Option.bind_none, Option.bind_some,
      ProducerPc.chunk?, Option.some.injEq, reduceCtorEq, if_false] at this ⊢
    omega

theorem oneToken_deliverConsumer {s s' : State} (hs : OneToken s)
    (h : Move s .deliverConsumer s') : OneToken s' := by
  cases h with
  | consumerCrash v rest code hc hq _ hpc =>
    refine ⟨fun c => ?_, fun c => ?_⟩
    · have := hs.tokens_le_one c
      simpa only [State.tokens, hpc, ChildPc.unsent] using this
    · have := hs.inTransit_le c
      simp only [State.inTransit, count_pending hq c] at this ⊢
      omega
  | consumerEnter v rest hc hq =>
    refine ⟨fun c => ?_, fun c => ?_⟩
    · have := hs.tokens_le_one c
      simpa [State.tokens, hc, ConsumerPc.returning?] using this
    · have := hs.inTransit_le c
      simp only [State.inTransit, count_pending hq c, hc, Option.bind_none, Option.bind_some,
        ConsumerPc.chunk?, Option.some.injEq, reduceCtorEq, if_false] at this ⊢
      omega

/-! ## Steps of the handlers -/

/-- The handler gives up the token it holds, or keeps it. -/
theorem OneToken.producer_le {s s' : State} (hs : OneToken s)
    (hchild : s'.child = s.child)
    (hpq : ∀ c : ChunkNum, s'.producerQueue.count (c : ℤ) ≤ s.producerQueue.count (c : ℤ))
    (hp : ∀ c : ChunkNum, s'.producer.bind ProducerPc.chunk? = some (c : ℤ) →
      s.producer.bind ProducerPc.chunk? = some (c : ℤ))
    (hcq : s'.consumerQueue = s.consumerQueue) (hc : s'.consumer = s.consumer)
    (hu : s'.unfinished = s.unfinished) : OneToken s' where
  tokens_le_one c := by
    have h := hs.tokens_le_one c
    have hpq := hpq c
    have hp := hp c
    simp only [State.tokens, hchild, hc, hu] at h ⊢
    split_ifs at h ⊢ <;> first | omega | (exfalso; tauto)
  inTransit_le c := by
    have h := hs.inTransit_le c
    simpa only [State.inTransit, hcq, hc, hu] using h

theorem oneToken_producer {s s' : State} (hs : OneToken s)
    (h : Move s .producer s') : OneToken s' := by
  cases h with
  | producerChunk chunk hp =>
    exact hs.producer_le rfl (fun c => le_rfl) (by simp [ProducerPc.chunk?, hp]) rfl rfl rfl
  | countBlock chunk currSize hp =>
    exact hs.producer_le rfl (fun c => le_rfl) (by simp [ProducerPc.chunk?, hp]) rfl rfl rfl
  | producerNoChunk | producerFail | producerEnd | producerIgnore =>
    exact hs.producer_le rfl (fun c => by simp) (by simp [ProducerPc.chunk?]) rfl rfl rfl

theorem oneToken_read {s s' : State} {r : Option ℕ} (hs : OneToken s)
    (h : Move s (.read r) s') : OneToken s' := by
  cases h with
  | readFailed chunk hp =>
    exact hs.producer_le rfl (fun c => le_rfl) (by simp [ProducerPc.chunk?]) rfl rfl rfl
  | readNothing chunk hp =>
    refine hs.producer_le rfl (fun c => le_rfl) (fun c hc => ?_) rfl rfl rfl
    simp only at hc
    split_ifs at hc
    · simpa [ProducerPc.chunk?, hp] using hc
    · simp [ProducerPc.chunk?] at hc
  | readBlock chunk n hp =>
    exact hs.producer_le rfl (fun c => le_rfl) (by simp [ProducerPc.chunk?, hp]) rfl rfl rfl

/-- While `producer_handler` holds the token of a chunk, it is in no other place. -/
theorem OneToken.of_holding {s : State} (hs : OneToken s) {chunk : ChunkNum}
    (hp : s.producer.bind ProducerPc.chunk? = some (chunk : ℤ)) :
    s.unfinished chunk = false ∧ s.inTransit chunk = 0 := by
  have htokens := hs.tokens_le_one chunk
  have htransit := hs.inTransit_le chunk
  simp only [State.tokens, hp, if_true] at htokens
  have hunfinished : (s.unfinished chunk).toNat = 0 := by omega
  exact ⟨by simpa using hunfinished, by omega⟩

theorem oneToken_producerSigqueue {s s' : State} {ok : Bool} (hs : OneToken s)
    (h : Move s (.producerSigqueue ok) s') : OneToken s' := by
  cases h with
  | blockFailed chunk hp =>
    exact hs.producer_le rfl (fun c => le_rfl) (by simp [ProducerPc.chunk?]) rfl rfl rfl
  | blockSent chunk hp =>
    have hchunk : s.producer.bind ProducerPc.chunk? = some (chunk : ℤ) := by rw [hp]; rfl
    -- the handler holds the only token of the chunk, so nothing of it is in transit yet
    have hfree := (hs.of_holding hchunk).2
    have htok : ∀ c, s.child.unsent c + s.producerQueue.count (c : ℤ)
        + (if chunk = c then 1 else 0) + (s.unfinished c).toNat
        + (if s.consumer.bind ConsumerPc.returning? = some (c : ℤ) then 1 else 0) ≤ 1 := by
      intro c
      have := hs.tokens_le_one c
      simpa only [State.tokens, hchunk, Option.some.injEq, cast_inj] using this
    rcases sigqueueConsumer_cases s chunk with hq | hq <;> rw [hq]
    all_goals
      refine ⟨fun c => ?_, fun c => ?_⟩
      · have := htok c
        simp only [State.tokens, Option.bind_none, reduceCtorEq, if_false, toNat_update,
          Bool.toNat_true]
        split_ifs at this ⊢ <;> omega
      · have := hs.inTransit_le c
        simp only [State.inTransit, toNat_update, Bool.toNat_true, List.count_append,
          List.count_singleton, beq_iff_eq, cast_inj] at this hfree ⊢
        by_cases hc : chunk = c
        · subst hc
          simp only [if_true]
          omega
        · simp only [hc, if_false]
          omega

/-- A step of `consumer_handler` that neither finishes the chunk nor sends its token. -/
theorem OneToken.consumer_le {s s' : State} (hs : OneToken s)
    (hchild : s'.child = s.child) (hpq : s'.producerQueue = s.producerQueue)
    (hp : s'.producer = s.producer)
    (hcq : ∀ c : ChunkNum, s'.consumerQueue.count (c : ℤ) ≤ s.consumerQueue.count (c : ℤ))
    (hc : ∀ c : ChunkNum, s'.consumer.bind ConsumerPc.chunk? = some (c : ℤ) →
      s.consumer.bind ConsumerPc.chunk? = some (c : ℤ))
    (hr : s'.consumer.bind ConsumerPc.returning? = none)
    (hu : s'.unfinished = s.unfinished) : OneToken s' where
  tokens_le_one c := by
    have h := hs.tokens_le_one c
    have hnone : (none : Option ℤ) ≠ some (c : ℤ) := by simp
    rw [State.tokens] at h ⊢
    rw [hchild, hpq, hp, hr, hu, if_neg hnone]
    omega
  inTransit_le c := by
    have h := hs.inTransit_le c
    have hcq := hcq c
    have hc := hc c
    simp only [State.inTransit, hu] at h ⊢
    split_ifs at h ⊢ <;> first | omega | (exfalso; tauto)

/-- The chunk is written out: its token passes from `unfinished` to the handler's return. -/
theorem oneToken_written {s : State} (hs : OneToken s) {chunk : ChunkNum}
    {bytesToWrite written : ℕ} (hc : s.consumer = some (.writing chunk bytesToWrite written)) :
    OneToken { s with
      consumer := some (.sendToken chunk)
      unfinished := Function.update s.unfinished chunk false } := by
  -- a chunk in the hands of the consumer is unfinished
  have htransit : ∀ c : ChunkNum, s.consumerQueue.count (c : ℤ) + (if chunk = c then 1 else 0)
      ≤ (s.unfinished c).toNat := by
    intro c
    have := hs.inTransit_le c
    simpa only [State.inTransit, hc, Option.bind_some, ConsumerPc.chunk?, Option.some.injEq,
      cast_inj] using this
  refine ⟨fun c => ?_, fun c => ?_⟩
  · have h₁ := hs.tokens_le_one c
    have h₂ := htransit c
    simp only [State.tokens, hc, Option.bind_some, ConsumerPc.returning?, reduceCtorEq,
      if_false, Option.some.injEq, cast_inj, toNat_update, Bool.toNat_false] at h₁ ⊢
    by_cases hcc : chunk = c
    · simp only [hcc, if_true] at h₂ ⊢
      omega
    · simp only [hcc, if_false] at h₂ ⊢
      omega
  · have h₂ := htransit c
    have h₃ : (s.unfinished c).toNat ≤ 1 := Bool.toNat_le _
    simp only [State.inTransit, Option.bind_some, ConsumerPc.chunk?, reduceCtorEq, if_false,
      toNat_update, Bool.toNat_false]
    split_ifs at h₂ ⊢ <;> omega

theorem oneToken_consumer {s s' : State} (hs : OneToken s)
    (h : Move s .consumer s') : OneToken s' := by
  cases h with
  | consumerChunk chunk hc =>
    exact hs.consumer_le rfl rfl rfl (fun c => le_rfl) (by simp [ConsumerPc.chunk?, hc]) rfl rfl
  | readSize chunk hc =>
    exact hs.consumer_le rfl rfl rfl (fun c => le_rfl) (by simp [ConsumerPc.chunk?, hc]) rfl rfl
  | written chunk bytesToWrite written hc => exact oneToken_written hs hc
  | consumerNoChunk | consumerFailWrite | consumerIgnore | consumerFail =>
    exact hs.consumer_le rfl rfl rfl (fun c => by simp) (by simp [ConsumerPc.chunk?]) rfl rfl

theorem oneToken_write {s s' : State} {r : Option ℕ} (hs : OneToken s)
    (h : Move s (.write r) s') : OneToken s' := by
  cases h with
  | writeFailed chunk bytesToWrite written hc =>
    exact hs.consumer_le rfl rfl rfl (fun c => le_rfl) (by simp [ConsumerPc.chunk?]) rfl rfl
  | write chunk bytesToWrite written n hc =>
    exact hs.consumer_le rfl rfl rfl (fun c => le_rfl) (by simp [ConsumerPc.chunk?, hc]) rfl rfl

theorem oneToken_consumerSigqueue {s s' : State} {ok : Bool} (hs : OneToken s)
    (h : Move s (.consumerSigqueue ok) s') : OneToken s' := by
  cases h with
  | returnFailed chunk hc =>
    exact hs.consumer_le rfl rfl rfl (fun c => le_rfl) (by simp [ConsumerPc.chunk?]) rfl rfl
  | tokenReturned chunk hc =>
    have htok : ∀ c : ChunkNum, s.child.unsent c + s.producerQueue.count (c : ℤ)
        + (if s.producer.bind ProducerPc.chunk? = some (c : ℤ) then 1 else 0)
        + (s.unfinished c).toNat + (if (chunk : ℤ) = (c : ℤ) then 1 else 0) ≤ 1 := by
      intro c
      have := hs.tokens_le_one c
      simpa only [State.tokens, hc, Option.bind_some, ConsumerPc.returning?,
        Option.some.injEq] using this
    have htransit : ∀ c : ChunkNum, s.consumerQueue.count (c : ℤ) ≤ (s.unfinished c).toNat := by
      intro c
      have := hs.inTransit_le c
      simp only [State.inTransit] at this
      omega
    -- the token moves from the handler into the pending signals, or is dropped
    rcases sigqueueProducer_cases s chunk with hq | hq <;> rw [hq]
    all_goals
      refine ⟨fun c => ?_, fun c => ?_⟩
      · have := htok c
        simp only [State.tokens, Option.bind_none, reduceCtorEq, if_false, List.count_append,
          List.count_singleton, beq_iff_eq]
        omega
      · simpa only [State.inTransit, Option.bind_none, reduceCtorEq, if_false, Nat.add_zero]
          using htransit c

/-! ## The invariant along a run -/

theorem oneToken_step {s s' : State} {a : Action} (hs : OneToken s) (h : step s a = some s') :
    OneToken s' := by
  have hmove := move_of_step h
  cases a with
  | parent =>
    obtain ⟨pc, pidStored, inOpen, rfl⟩ := hmove.parent_frame
    exact hs.congr (fun c => rfl) rfl rfl rfl rfl rfl
  | child =>
    obtain ⟨pc, ppidParent, outOpen, rfl, hunsent, -, -⟩ := hmove.child_frame
    exact hs.congr hunsent rfl rfl rfl rfl rfl
  | openOut => exact oneToken_openOut hs hmove
  | childSigqueue => exact oneToken_childSigqueue hs hmove
  | deliverProducer => exact oneToken_deliverProducer hs hmove
  | deliverConsumer => exact oneToken_deliverConsumer hs hmove
  | producer => exact oneToken_producer hs hmove
  | read => exact oneToken_read hs hmove
  | producerSigqueue => exact oneToken_producerSigqueue hs hmove
  | consumer => exact oneToken_consumer hs hmove
  | write => exact oneToken_write hs hmove
  | consumerSigqueue => exact oneToken_consumerSigqueue hs hmove

theorem oneToken_of_run {file : List Byte} {tr : List (State × Action)} {s : State}
    (h : Run step (init file) tr s) : OneToken s :=
  h.invariant_all (oneToken_init file) fun _ _ _ hs hstep => oneToken_step hs hstep

/-- While `producer_handler` holds a chunk, the last block queued from it is written out. -/
theorem OneToken.not_unfinished {s : State} (hs : OneToken s) {c : ChunkNum}
    (hp : s.producer.bind ProducerPc.chunk? = some (c : ℤ)) : s.unfinished c = false :=
  (hs.of_holding hp).1

end SignalCopy
