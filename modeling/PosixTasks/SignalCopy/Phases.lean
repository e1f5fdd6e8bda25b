import PosixTasks.SignalCopy.Frames

/-!
# The phases of a copy without failures

While `write` does not fail on the open `output.txt` and `sigqueue` does not fail on a running
process, the copy goes through two phases. Until `producer_ended` is set, both main programs
wait in their loops and some token is under way. Once it is set, `producer_handler` ignores
`SIG_PRODUCER` and hands over no further block.

## Main results

* `Orderly`: the two phases as an invariant;
* `orderly_of_run`: it holds along every run whose steps are `Reliable`.
-/

namespace SignalCopy

open Transition

/-- A `write` to the open `output.txt` and a `sigqueue` to a running process do not fail. -/
def Reliable (s : State) : Action → Prop
  | .write result => s.outOpen = true → result ≠ none
  | .producerSigqueue ok => ok = true ∨ s.childRunning = false
  | .childSigqueue ok | .consumerSigqueue ok => ok = true ∨ s.parentRunning = false
  | _ => True

/-- The parent is in its waiting loop, or before it. -/
def ParentPc.copying : ParentPc → Bool
  | .storePid | .testProducer | .testConsumer | .callPause | .paused => true
  | _ => false

/-- The parent has not closed `input.txt`. -/
def ParentPc.serving : ParentPc → Bool
  | .callWaitpid | .waiting => true
  | pc => pc.copying

/-- The child has sent no token yet. -/
def ChildPc.starting : ChildPc → Bool
  | .openOut | .storePpid | .sendToken 0 | .aborted => true
  | _ => false

/-- The child has sent a token and has not left its pause loop. -/
def ChildPc.copying : ChildPc → Bool
  | .sendToken (_ + 1) | .testProducer | .callPause | .paused => true
  | _ => false

/-- The child has not closed `output.txt`. -/
def ChildPc.beforeClose : ChildPc → Bool
  | .detach _ | .leaving _ | .exited _ | .aborted | .crashed => false
  | _ => true

/-- A chunk number that passes the range check of the handlers. -/
def ValidChunk (v : ℤ) : Prop :=
  0 ≤ v ∧ v < chunks

/-- Some token is in a pending signal or in a handler. -/
def State.HasToken (s : State) : Prop :=
  s.producerQueue ≠ [] ∨ s.producer ≠ none ∨ s.consumerQueue ≠ [] ∨ s.consumer ≠ none

/-- `producer_ended` is not set. -/
structure Copying (s : State) : Prop where
  parent : s.parent.copying = true
  ppid : s.sh.ppidParent = true
  listening : s.producerIgnored = false
  notIgnoring : s.producer ≠ some .ignore
  child : s.child.starting = true ∨ s.child.copying = true
  token : s.child.starting = true ∨ s.HasToken

/-- `producer_ended` is set. -/
structure Ended (s : State) : Prop where
  ignoring : s.producer = some .ignore ∨ (s.producer = none ∧ s.producerIgnored = true)
  parent : s.childRunning = true → s.parent.serving = true

/-- Nothing has happened in the handlers while the child is starting. -/
structure Untouched (s : State) : Prop where
  producerQueue : s.producerQueue = []
  producer : s.producer = none
  consumerQueue : s.consumerQueue = []
  consumer : s.consumer = none
  producerEnded : s.sh.producerEnded = .notEnded
  consumerEnded : s.sh.consumerEnded = .notEnded

/-- The consumer's handler has met no failure. -/
structure ConsumerFine (s : State) : Prop where
  consumerEnded : s.sh.consumerEnded = .notEnded
  accepting : s.consumerIgnored = false
  notFailing : ∀ pc, s.consumer = some pc → pc ≠ .failWrite ∧ pc ≠ .ignore ∧ pc ≠ .storeFail

/-- The phases of a copy without failures. -/
structure Orderly (s : State) : Prop where
  valid : ∀ v ∈ s.producerQueue, ValidChunk v
  entry : ∀ v, s.producer = some (.entry v) → ValidChunk v
  producerFine : s.producer ≠ some .storeFail
  outOpen : s.child.beforeClose = true → s.child = .openOut ∨ s.outOpen = true
  consumerFine : s.child.beforeClose = true → ConsumerFine s
  pausedIdle : s.consumer ≠ none → s.child ≠ .paused
  starting : s.child.starting = true → Untouched s
  copying : s.sh.producerEnded = .notEnded → Copying s
  ended : s.sh.producerEnded ≠ .notEnded → Ended s

theorem orderly_init (file : List Byte) : Orderly (init file) where
  valid := by simp [init]
  entry := by simp [init]
  producerFine := by simp [init]
  outOpen _ := Or.inl rfl
  consumerFine _ := ⟨rfl, rfl, by simp [init]⟩
  pausedIdle := by simp [init]
  starting _ := ⟨rfl, rfl, rfl, rfl, rfl, rfl⟩
  copying _ := ⟨rfl, rfl, rfl, by simp [init], Or.inl rfl, Or.inl rfl⟩
  ended h := absurd rfl h

/-! ## What the phases say about the two processes -/

/-- The positions of `copying` are among those of `serving`. -/
theorem ParentPc.serving_of_copying {pc : ParentPc} (h : pc.copying = true) :
    pc.serving = true := by
  cases pc <;> simp_all [ParentPc.copying, ParentPc.serving]

theorem parentRunning_of_serving {s : State} (h : s.parent.serving = true) :
    s.parentRunning = true := by
  unfold State.parentRunning
  cases hpc : s.parent <;> simp_all [ParentPc.copying, ParentPc.serving]

theorem childRunning_of_copying {s : State} (h : s.child.copying = true) :
    s.childRunning = true := by
  unfold State.childRunning
  split <;> simp_all [ChildPc.copying]

theorem ChildPc.beforeClose_of_copying {pc : ChildPc} (h : pc.copying = true) :
    pc.beforeClose = true := by
  cases pc <;> simp_all [ChildPc.copying, ChildPc.beforeClose]

/-- Once some token is under way the child is no longer starting. -/
theorem Orderly.starting_eq_false {s : State} (hs : Orderly s) (h : s.HasToken) :
    s.child.starting = false := by
  by_contra hstart
  have hu := hs.starting (by simpa using hstart)
  rcases h with h | h | h | h
  · exact h hu.producerQueue
  · exact h hu.producer
  · exact h hu.consumerQueue
  · exact h hu.consumer

/-- While `producer_ended` is not set and some token is under way, the child is in its loop. -/
theorem Orderly.child_copying {s : State} (hs : Orderly s)
    (hend : s.sh.producerEnded = .notEnded) (h : s.HasToken) : s.child.copying = true := by
  have hstart := hs.starting_eq_false h
  simpa [hstart] using (hs.copying hend).child

/-- `producer_handler` only runs on, past `producer_ended = ...`, to ignore its signal. -/
theorem Orderly.notEnded {s : State} (hs : Orderly s) {pc : ProducerPc}
    (hp : s.producer = some pc) (hpc : pc ≠ .ignore) : s.sh.producerEnded = .notEnded := by
  by_contra hend
  rcases (hs.ended hend).ignoring with h | ⟨h, -⟩
  · rw [hp, Option.some.injEq] at h
    exact hpc h
  · simp [hp] at h

/-- The parent does not end before the child. -/
theorem Orderly.parentRunning {s : State} (hs : Orderly s) (h : s.childRunning = true) :
    s.parentRunning = true := by
  refine parentRunning_of_serving ?_
  by_cases hend : s.sh.producerEnded = .notEnded
  · exact ParentPc.serving_of_copying (hs.copying hend).parent
  · exact (hs.ended hend).parent h

/-- While `producer_ended` is not set the consumer's handler has met no failure. -/
theorem Orderly.consumerEnded {s : State} (hs : Orderly s)
    (hend : s.sh.producerEnded = .notEnded) : s.sh.consumerEnded = .notEnded := by
  rcases (hs.copying hend).child with h | h
  · exact (hs.starting h).consumerEnded
  · exact (hs.consumerFine (ChildPc.beforeClose_of_copying h)).consumerEnded

/-- In the copying phase a token returned to `producer_handler` is pending. -/
theorem Orderly.sigqueueProducer {s : State} (hs : Orderly s)
    (hend : s.sh.producerEnded = .notEnded) (v : ℤ) :
    s.sigqueueProducer v = { s with producerQueue := s.producerQueue ++ [v] } := by
  have hc := hs.copying hend
  rw [State.sigqueueProducer, if_pos]
  exact ⟨hc.ppid, parentRunning_of_serving (ParentPc.serving_of_copying hc.parent),
    by simp [hc.listening]⟩

/-- In the copying phase a block handed over is pending for the child. -/
theorem Orderly.sigqueueConsumer {s : State} (hs : Orderly s)
    (hend : s.sh.producerEnded = .notEnded) (htok : s.HasToken) (v : ℤ) :
    s.sigqueueConsumer v = { s with consumerQueue := s.consumerQueue ++ [v] } := by
  have hc := hs.child_copying hend htok
  rw [State.sigqueueConsumer, if_pos]
  exact ⟨childRunning_of_copying hc,
    by simp [(hs.consumerFine (ChildPc.beforeClose_of_copying hc)).accepting]⟩

/-! ## The phases are kept by every reliable step -/

theorem orderly_parent {s s' : State} (hs : Orderly s) (h : Move s .parent s') : Orderly s' := by
  -- while the copy goes on, the parent neither waits nor detaches
  have hcopy : s.sh.producerEnded = .notEnded → s'.parent.copying = true := by
    intro hend
    have hpc := (hs.copying hend).parent
    have hcons := hs.consumerEnded hend
    cases h <;> simp_all [ParentPc.copying]
  -- afterwards it keeps the segment as long as the child runs
  have hserve : s.sh.producerEnded ≠ .notEnded → s.childRunning = true →
      s'.parent.serving = true := by
    intro hend hrun
    have hpc := (hs.ended hend).parent hrun
    cases h with
    | parentTestConsumer =>
      dsimp only
      split <;> rfl
    | _ => simp_all [ParentPc.serving, ParentPc.copying]
  obtain ⟨pc, pidStored, inOpen, rfl⟩ := h.parent_frame
  exact
    { valid := hs.valid
      entry := hs.entry
      producerFine := hs.producerFine
      outOpen := hs.outOpen
      consumerFine := fun hb => ⟨(hs.consumerFine hb).consumerEnded,
        (hs.consumerFine hb).accepting, (hs.consumerFine hb).notFailing⟩
      pausedIdle := hs.pausedIdle
      starting := fun hc =>
        have hu := hs.starting hc
        ⟨hu.producerQueue, hu.producer, hu.consumerQueue, hu.consumer, hu.producerEnded,
          hu.consumerEnded⟩
      copying := fun hend =>
        have hc := hs.copying hend
        ⟨hcopy hend, hc.ppid, hc.listening, hc.notIgnoring, hc.child, hc.token⟩
      ended := fun hend => ⟨(hs.ended hend).ignoring, hserve hend⟩ }

/-- The child's main program moves on while no handler runs in its process. -/
theorem Orderly.moveChild {s : State} (hs : Orderly s) (hc : s.consumer = none)
    (hrun : s.childRunning = true) {pc : ChildPc} {out ppid : Bool}
    (hstart : pc.starting = s.child.starting)
    (hclose : pc.beforeClose = true → s.child.beforeClose = true)
    (hout : pc.beforeClose = true → pc = .openOut ∨ out = true)
    (hcopy : s.sh.producerEnded = .notEnded → pc.copying = s.child.copying ∧ ppid = true) :
    Orderly { s with child := pc, outOpen := out, sh := { s.sh with ppidParent := ppid } } where
  valid := hs.valid
  entry := hs.entry
  producerFine := hs.producerFine
  outOpen := hout
  consumerFine hb := ⟨(hs.consumerFine (hclose hb)).consumerEnded,
    (hs.consumerFine (hclose hb)).accepting, (hs.consumerFine (hclose hb)).notFailing⟩
  pausedIdle h := absurd hc h
  starting h :=
    have hu := hs.starting (hstart ▸ h)
    ⟨hu.producerQueue, hu.producer, hu.consumerQueue, hu.consumer, hu.producerEnded,
      hu.consumerEnded⟩
  copying hend :=
    have hco := hs.copying hend
    have hnew := hcopy hend
    ⟨hco.parent, hnew.2, hco.listening, hco.notIgnoring, by rw [hstart, hnew.1]; exact hco.child,
      by rw [hstart]; exact hco.token⟩
  ended hend := ⟨(hs.ended hend).ignoring, fun _ => (hs.ended hend).parent hrun⟩

theorem orderly_child {s s' : State} (hs : Orderly s) (h : Move s .child s') : Orderly s' := by
  have hrun : s.childRunning = true := by
    obtain ⟨pc, ppidParent, outOpen, -, -, hrun, -⟩ := h.child_frame
    exact hrun
  have hopen : s.child.beforeClose = true → s.child = .openOut ∨ s.outOpen = true := hs.outOpen
  -- past the loop `producer_ended` is set
  have hleft : s.child.copying = false → s.child.starting = false →
      s.sh.producerEnded ≠ .notEnded := fun h₁ h₂ hend => by
    simpa [h₁, h₂] using (hs.copying hend).child
  have hppid : s.sh.producerEnded = .notEnded → s.sh.ppidParent = true :=
    fun hend => (hs.copying hend).ppid
  cases h with
  | storePpid hc hpc =>
    -- `getppid()` is the parent's pid, since the parent still waits for the child
    exact hs.moveChild hc hrun (by rw [hpc]; rfl) (by simp [hpc, ChildPc.beforeClose])
      (by simpa [hpc, ChildPc.beforeClose] using hopen)
      (fun hend => ⟨by rw [hpc]; rfl, hs.parentRunning hrun⟩)
  | tokensSent i hc hpc hi =>
    obtain ⟨i, rfl⟩ : ∃ j, i = j + 1 :=
      Nat.exists_eq_add_one.mpr (lt_of_lt_of_le (by decide) hi)
    exact hs.moveChild hc hrun (by rw [hpc]; rfl) (by simp [hpc, ChildPc.beforeClose])
      (by simpa [hpc, ChildPc.beforeClose] using hopen)
      (fun hend => ⟨by rw [hpc]; rfl, hppid hend⟩)
  | childTestProducer hc hpc =>
    refine hs.moveChild hc hrun ?_ (by simp [hpc, ChildPc.beforeClose])
      (fun _ => Or.inr (by simpa [hpc, ChildPc.beforeClose] using hopen))
      (fun hend => ⟨by rw [if_pos hend, hpc]; rfl, hppid hend⟩)
    rw [hpc]
    split <;> rfl
  | childPause hc hpc =>
    exact hs.moveChild hc hrun (by rw [hpc]; rfl) (by simp [hpc, ChildPc.beforeClose])
      (by simpa [hpc, ChildPc.beforeClose] using hopen)
      (fun hend => ⟨by rw [hpc]; rfl, hppid hend⟩)
  | childTestConsumer hc hpc =>
    exact hs.moveChild hc hrun (by rw [hpc]; rfl) (by simp [hpc, ChildPc.beforeClose])
      (by simpa [hpc, ChildPc.beforeClose] using hopen)
      (fun hend => absurd hend (hleft (by rw [hpc]; rfl) (by rw [hpc]; rfl)))
  | closeOut code hc hpc | childDetach code hc hpc | childExit code hc hpc =>
    exact hs.moveChild hc hrun (by rw [hpc]; rfl) (by simp [ChildPc.beforeClose])
      (by simp [ChildPc.beforeClose])
      (fun hend => absurd hend (hleft (by rw [hpc]; rfl) (by rw [hpc]; rfl)))

/-- The call of `open` leaves everything else as it was. -/
theorem Orderly.openOut {s : State} (hs : Orderly s) (hc : s.consumer = none)
    (hpc : s.child = .openOut) {pc : ChildPc} {out : Bool} (hstart : pc.starting = true)
    (hopen : pc.beforeClose = true → out = true) (output : List Byte) :
    Orderly { s with child := pc, outOpen := out, output := output } where
  valid := hs.valid
  entry := hs.entry
  producerFine := hs.producerFine
  outOpen hb := Or.inr (hopen hb)
  consumerFine _ :=
    have hfine := hs.consumerFine (by rw [hpc]; rfl)
    ⟨hfine.consumerEnded, hfine.accepting, hfine.notFailing⟩
  pausedIdle h := absurd hc h
  starting _ :=
    have hu := hs.starting (by rw [hpc]; rfl)
    ⟨hu.producerQueue, hu.producer, hu.consumerQueue, hu.consumer, hu.producerEnded,
      hu.consumerEnded⟩
  copying hend :=
    have hco := hs.copying hend
    ⟨hco.parent, hco.ppid, hco.listening, hco.notIgnoring, Or.inl hstart, Or.inl hstart⟩
  ended hend := absurd (hs.starting (by rw [hpc]; rfl)).producerEnded hend

theorem orderly_openOut {s s' : State} {ok : Bool} (hs : Orderly s)
    (h : Move s (.openOut ok) s') : Orderly s' := by
  cases h with
  | opened hc hpc => exact hs.openOut hc hpc rfl (fun _ => rfl) []
  | openFailed hc hpc => exact hs.openOut hc hpc rfl (by simp [ChildPc.beforeClose]) s.output

theorem valid_append {queue : List ℤ} (h : ∀ v ∈ queue, ValidChunk v) {i : ℕ} (hi : i < chunks) :
    ∀ v ∈ queue ++ [(i : ℤ)], ValidChunk v := by
  intro v hv
  rcases List.mem_append.mp hv with hv | hv
  · exact h v hv
  · rw [List.mem_singleton] at hv
    subst hv
    exact ⟨by omega, by exact_mod_cast hi⟩

/-- The child has sent a token. -/
theorem Orderly.tokenSent {s : State} (hs : Orderly s) (hc : s.consumer = none) {i : ℕ}
    (hpc : s.child = .sendToken i) {queue : List ℤ} (hvalid : ∀ v ∈ queue, ValidChunk v)
    (hqueue : s.sh.producerEnded = .notEnded → queue ≠ []) :
    Orderly { s with producerQueue := queue, child := .sendToken (i + 1) } where
  valid := hvalid
  entry := hs.entry
  producerFine := hs.producerFine
  outOpen _ := Or.inr (by simpa [hpc] using hs.outOpen (by rw [hpc]; rfl))
  consumerFine _ :=
    have hfine := hs.consumerFine (by rw [hpc]; rfl)
    ⟨hfine.consumerEnded, hfine.accepting, hfine.notFailing⟩
  pausedIdle h := absurd hc h
  starting := by simp [ChildPc.starting]
  copying hend :=
    have hco := hs.copying hend
    ⟨hco.parent, hco.ppid, hco.listening, hco.notIgnoring, Or.inr rfl,
      Or.inr (Or.inl (hqueue hend))⟩
  ended hend :=
    ⟨(hs.ended hend).ignoring, fun _ => (hs.ended hend).parent (by simp [State.childRunning, hpc])⟩

theorem orderly_childSigqueue {s s' : State} {ok : Bool} (hs : Orderly s)
    (hok : ok = true ∨ s.parentRunning = false) (h : Move s (.childSigqueue ok) s') :
    Orderly s' := by
  cases h with
  | tokenSent i hc hpc hi =>
    by_cases hend : s.sh.producerEnded = .notEnded
    · rw [hs.sigqueueProducer hend]
      exact hs.tokenSent hc hpc (valid_append hs.valid hi) (by simp)
    · -- the parent no longer handles the signal
      rcases sigqueueProducer_cases s i with hq | hq <;> rw [hq]
      · exact hs.tokenSent hc hpc (valid_append hs.valid hi) (fun hno => absurd hno hend)
      · exact hs.tokenSent hc hpc hs.valid (fun hno => absurd hno hend)
  | tokenFailed i hc hpc hi =>
    -- the parent is there, so its signal does not fail
    have hdead := hok.resolve_left (by simp)
    rw [hs.parentRunning (by simp [State.childRunning, hpc])] at hdead
    exact Bool.noConfusion hdead

/-- `SIG_PRODUCER` is only delivered in the copying phase, in which the parent is in its loop. -/
theorem orderly_deliverProducer {s s' : State} (hs : Orderly s)
    (h : Move s .deliverProducer s') : Orderly s' := by
  -- the parent listens until the end of the file has been handled
  have hend : s.producer = none → s.producerIgnored = false →
      s.sh.producerEnded = .notEnded := by
    intro hp hlisten
    by_contra hend
    rcases (hs.ended hend).ignoring with hi | ⟨-, hi⟩
    · simp [hp] at hi
    · simp [hlisten] at hi
  cases h with
  | producerCrash v rest hp hq hlisten hleaving =>
    simpa [hleaving, ParentPc.copying] using (hs.copying (hend hp hlisten)).parent
  | producerEnter v rest hp hq hlisten =>
    have hend := hend hp hlisten
    have hco := hs.copying hend
    have hstart := hs.starting_eq_false (Or.inl (by simp [hq]))
    have hpar : s.parent.interrupted.copying = true := by
      have := hco.parent
      cases hpc : s.parent <;> simp_all [ParentPc.copying, ParentPc.interrupted]
    exact
      { valid := fun w hw => hs.valid w (by rw [hq]; exact List.mem_cons_of_mem _ hw)
        entry := fun w hw => by
          simp only [Option.some.injEq, ProducerPc.entry.injEq] at hw
          subst hw
          exact hs.valid v (by simp [hq])
        producerFine := by simp
        outOpen := hs.outOpen
        consumerFine := fun hb => ⟨(hs.consumerFine hb).consumerEnded,
          (hs.consumerFine hb).accepting, (hs.consumerFine hb).notFailing⟩
        pausedIdle := hs.pausedIdle
        starting := fun hc => by simp [hstart] at hc
        copying := fun _ => ⟨hpar, hco.ppid, hco.listening, by simp, hco.child,
          Or.inr (Or.inr (Or.inl (by simp)))⟩
        ended := fun hno => absurd hend hno }

theorem ChildPc.interrupted_ne_paused (pc : ChildPc) : pc.interrupted ≠ .paused := by
  cases pc <;> simp [ChildPc.interrupted]

@[simp]
theorem interrupted_starting (pc : ChildPc) : pc.interrupted.starting = pc.starting := by
  cases pc <;> rfl

@[simp]
theorem interrupted_copying (pc : ChildPc) : pc.interrupted.copying = pc.copying := by
  cases pc <;> rfl

@[simp]
theorem interrupted_beforeClose (pc : ChildPc) :
    pc.interrupted.beforeClose = pc.beforeClose := by
  cases pc <;> rfl

theorem orderly_deliverConsumer {s s' : State} (hs : Orderly s)
    (h : Move s .deliverConsumer s') : Orderly s' := by
  cases h with
  | consumerCrash v rest code hc hq haccept hpc =>
    -- killed between `shmdt` and `exit`, long after `producer_ended` was set
    have hend : s.sh.producerEnded ≠ .notEnded := fun hend => by
      simpa [hpc, ChildPc.starting, ChildPc.copying] using (hs.copying hend).child
    exact
      { valid := hs.valid
        entry := hs.entry
        producerFine := hs.producerFine
        outOpen := by simp [ChildPc.beforeClose]
        consumerFine := by simp [ChildPc.beforeClose]
        pausedIdle := by simp
        starting := by simp [ChildPc.starting]
        copying := fun hno => absurd hno hend
        ended := fun _ => ⟨(hs.ended hend).ignoring, by simp [State.childRunning]⟩ }
  | consumerEnter v rest hc hq haccept hrunning =>
    have hstart := hs.starting_eq_false (Or.inr (Or.inr (Or.inl (by simp [hq]))))
    exact
      { valid := hs.valid
        entry := hs.entry
        producerFine := hs.producerFine
        outOpen := fun hb => by
          rcases hs.outOpen (by simpa using hb) with ho | ho
          · simp [ho, ChildPc.starting] at hstart
          · exact Or.inr ho
        consumerFine := fun hb => by
          have hf := hs.consumerFine (by simpa using hb)
          exact ⟨hf.consumerEnded, hf.accepting, by simp⟩
        pausedIdle := fun _ => ChildPc.interrupted_ne_paused _
        starting := fun hno => by simp [hstart] at hno
        copying := fun hend => by
          have hco := hs.copying hend
          exact ⟨hco.parent, hco.ppid, hco.listening, hco.notIgnoring,
            by simpa using hco.child, Or.inr (Or.inr (Or.inr (Or.inr (by simp))))⟩
        ended := fun hend =>
          ⟨(hs.ended hend).ignoring, fun _ => (hs.ended hend).parent hrunning⟩ }

/-- `producer_handler` moves on, and ends the copying phase only to ignore its signal. -/
theorem Orderly.moveProducer {s s' : State} (hs : Orderly s) {pc : ProducerPc}
    (hp : s.producer = some pc) (hpc : pc ≠ .ignore)
    (hchild : s'.child = s.child) (hout : s'.outOpen = s.outOpen)
    (hparent : s'.parent = s.parent) (hppid : s'.sh.ppidParent = s.sh.ppidParent)
    (hign : s'.producerIgnored = s.producerIgnored)
    (hcons : s'.sh.consumerEnded = s.sh.consumerEnded ∧
      s'.consumerIgnored = s.consumerIgnored ∧ s'.consumer = s.consumer)
    (hpq : s'.producerQueue = s.producerQueue) (htok : s'.HasToken)
    (hentry : ∀ v, s'.producer = some (.entry v) → ValidChunk v)
    (hfine : s'.producer ≠ some .storeFail)
    (hend : s'.sh.producerEnded = .notEnded ∧ s'.producer ≠ some .ignore ∨
      s'.sh.producerEnded ≠ .notEnded ∧ s'.producer = some .ignore) : Orderly s' := by
  have hco := hs.copying (hs.notEnded hp hpc)
  -- a handler runs only once the child has sent a token
  have hstart := hs.starting_eq_false (Or.inr (Or.inl (by simp [hp])))
  exact
    { valid := fun v hv => hs.valid v (hpq ▸ hv)
      entry := hentry
      producerFine := hfine
      outOpen := fun hb => by rw [hchild] at hb ⊢; rw [hout]; exact hs.outOpen hb
      consumerFine := fun hb => by
        have hf := hs.consumerFine (hchild ▸ hb)
        exact ⟨hcons.1.trans hf.consumerEnded, hcons.2.1.trans hf.accepting,
          fun q hq => hf.notFailing q (hcons.2.2 ▸ hq)⟩
      pausedIdle := by rw [hcons.2.2, hchild]; exact hs.pausedIdle
      starting := fun hno => by rw [hchild, hstart] at hno; simp at hno
      copying := fun hno => by
        refine ⟨hparent ▸ hco.parent, hppid.trans hco.ppid, hign.trans hco.listening, ?_,
          hchild ▸ hco.child, Or.inr htok⟩
        rcases hend with h | h
        · exact h.2
        · exact absurd hno h.1
      ended := fun hyes => by
        rcases hend with h | h
        · exact absurd h.1 hyes
        · exact ⟨Or.inl h.2, fun _ => hparent ▸ ParentPc.serving_of_copying hco.parent⟩ }

theorem orderly_producer {s s' : State} (hs : Orderly s) (h : Move s .producer s') :
    Orderly s' := by
  cases h with
  | producerChunk chunk hp =>
    exact hs.moveProducer hp (by simp) rfl rfl rfl rfl rfl ⟨rfl, rfl, rfl⟩ rfl
      (Or.inr (Or.inl (by simp))) (by simp) (by simp)
      (Or.inl ⟨hs.notEnded hp (by simp), by simp⟩)
  | producerNoChunk v hp hv => exact absurd (hs.entry v hp) hv
  | countBlock chunk currSize hp =>
    exact hs.moveProducer hp (by simp) rfl rfl rfl rfl rfl ⟨rfl, rfl, rfl⟩ rfl
      (Or.inr (Or.inl (by simp))) (by simp) (by simp)
      (Or.inl ⟨hs.notEnded hp (by simp), by simp⟩)
  | producerFail hp => exact absurd hp hs.producerFine
  | producerEnd hp =>
    refine hs.moveProducer hp (by simp) rfl rfl rfl rfl rfl ⟨rfl, rfl, rfl⟩ rfl
      (Or.inr (Or.inl (by simp))) (by simp) (by simp) (Or.inr ⟨?_, rfl⟩)
    dsimp only
    split <;> simp
  | producerIgnore hp =>
    -- the signal is ignored only after the result is stored
    have hend : s.sh.producerEnded ≠ .notEnded := fun hend => (hs.copying hend).notIgnoring hp
    have hstart := hs.starting_eq_false (Or.inr (Or.inl (by simp [hp])))
    exact
      { valid := by simp
        entry := by simp
        producerFine := by simp
        outOpen := hs.outOpen
        consumerFine := fun hb => ⟨(hs.consumerFine hb).consumerEnded,
          (hs.consumerFine hb).accepting, (hs.consumerFine hb).notFailing⟩
        pausedIdle := hs.pausedIdle
        starting := fun hno => by simp [hstart] at hno
        copying := fun hno => absurd hno hend
        ended := fun _ => ⟨Or.inr ⟨rfl, rfl⟩, (hs.ended hend).parent⟩ }

theorem orderly_read {s s' : State} {r : Option ℕ} (hs : Orderly s)
    (h : Move s (.read r) s') : Orderly s' := by
  have hmove : ∀ chunk pc' unread reads attempts buffer, s.producer = some (.reading chunk) →
      (pc' ≠ .storeFail ∧ pc' ≠ .ignore ∧ ∀ v, pc' ≠ .entry v) →
      Orderly { s with unread := unread, reads := reads, producer := some pc',
                       sh := { s.sh with attempts := attempts, buffer := buffer } } := by
    intro chunk pc' unread reads attempts buffer hp hpc
    exact hs.moveProducer hp (by simp) rfl rfl rfl rfl rfl ⟨rfl, rfl, rfl⟩ rfl
      (Or.inr (Or.inl (by simp))) (by simp [hpc]) (by simp [hpc])
      (Or.inl ⟨hs.notEnded hp (by simp), by simp [hpc]⟩)
  cases h with
  | readFailed chunk hp => exact hmove chunk _ _ _ _ _ hp (by simp)
  | readNothing chunk hp =>
    split
    · exact hmove chunk _ _ _ _ _ hp (by simp)
    · exact hmove chunk _ _ _ _ _ hp (by simp)
  | readBlock chunk n hp => exact hmove chunk _ _ _ _ _ hp (by simp)

theorem orderly_producerSigqueue {s s' : State} {ok : Bool} (hs : Orderly s)
    (hok : ok = true ∨ s.childRunning = false) (h : Move s (.producerSigqueue ok) s') :
    Orderly s' := by
  cases h with
  | blockSent chunk hp =>
    have hend := hs.notEnded hp (by simp)
    rw [hs.sigqueueConsumer hend (Or.inr (Or.inl (by simp [hp])))]
    exact hs.moveProducer hp (by simp) rfl rfl rfl rfl rfl ⟨rfl, rfl, rfl⟩ rfl
      (Or.inr (Or.inr (Or.inl (by simp)))) (by simp) (by simp) (Or.inl ⟨hend, by simp⟩)
  | blockFailed chunk hp =>
    -- the child is there, so its signal does not fail
    have hdead := hok.resolve_left (by simp)
    have hcopying := hs.child_copying (hs.notEnded hp (by simp)) (Or.inr (Or.inl (by simp [hp])))
    rw [childRunning_of_copying hcopying] at hdead
    exact Bool.noConfusion hdead

/-- `consumer_handler` moves on. -/
theorem Orderly.moveConsumer {s s' : State} (hs : Orderly s) (hc : s.consumer ≠ none)
    (hchild : s'.child = s.child) (hout : s'.outOpen = s.outOpen)
    (hparent : s'.parent = s.parent) (hppid : s'.sh.ppidParent = s.sh.ppidParent)
    (hend : s'.sh.producerEnded = s.sh.producerEnded)
    (hprod : s'.producer = s.producer ∧ s'.producerIgnored = s.producerIgnored)
    (hvalid : ∀ v ∈ s'.producerQueue, ValidChunk v)
    (hfine : s.child.beforeClose = true → ConsumerFine s')
    (htok : s.sh.producerEnded = .notEnded → s'.HasToken) : Orderly s' := by
  have hstart := hs.starting_eq_false (Or.inr (Or.inr (Or.inr hc)))
  exact
    { valid := hvalid
      entry := by rw [hprod.1]; exact hs.entry
      producerFine := by rw [hprod.1]; exact hs.producerFine
      outOpen := fun hb => by rw [hchild] at hb ⊢; rw [hout]; exact hs.outOpen hb
      consumerFine := fun hb => hfine (hchild ▸ hb)
      pausedIdle := fun _ => by rw [hchild]; exact hs.pausedIdle hc
      starting := fun hno => by rw [hchild, hstart] at hno; simp at hno
      copying := fun hno => by
        rw [hend] at hno
        have hco := hs.copying hno
        exact ⟨hparent ▸ hco.parent, hppid.trans hco.ppid, hprod.2.trans hco.listening,
          by rw [hprod.1]; exact hco.notIgnoring, hchild ▸ hco.child, Or.inr (htok hno)⟩
      ended := fun hno => by
        rw [hend] at hno
        have he := hs.ended hno
        refine ⟨by rw [hprod.1, hprod.2]; exact he.ignoring, fun hrun => hparent ▸ he.parent ?_⟩
        simpa [State.childRunning, hchild] using hrun }

/-- The handler only fails once `output.txt` is closed, after `producer_ended` was set. -/
theorem Orderly.ended_of_failing {s : State} (hs : Orderly s) {pc : ConsumerPc}
    (hc : s.consumer = some pc) (hpc : pc = .failWrite ∨ pc = .ignore ∨ pc = .storeFail) :
    s.sh.producerEnded ≠ .notEnded := by
  intro hend
  have hco := hs.child_copying hend (Or.inr (Or.inr (Or.inr (by simp [hc]))))
  have hfine := (hs.consumerFine (ChildPc.beforeClose_of_copying hco)).notFailing pc hc
  tauto

/-- `consumer_handler` goes on without a failure. -/
theorem ConsumerFine.goOn {s s' : State} (h : ConsumerFine s) (hsh : s'.sh = s.sh)
    (hign : s'.consumerIgnored = s.consumerIgnored)
    (hpc : ∀ pc, s'.consumer = some pc → pc ≠ .failWrite ∧ pc ≠ .ignore ∧ pc ≠ .storeFail) :
    ConsumerFine s' :=
  ⟨by rw [hsh]; exact h.consumerEnded, hign.trans h.accepting, hpc⟩

theorem orderly_consumer {s s' : State} (hs : Orderly s) (hord : InOrder s)
    (h : Move s .consumer s') : Orderly s' := by
  -- before the output is closed the consumer does not fail
  have hclosed : ∀ pc, s.consumer = some pc → pc = .failWrite ∨ pc = .ignore ∨ pc = .storeFail →
      s.child.beforeClose = true → False := by
    intro pc hc hpc hb
    have := (hs.consumerFine hb).notFailing pc hc
    tauto
  cases h with
  | consumerChunk chunk hc =>
    exact hs.moveConsumer (by simp [hc]) rfl rfl rfl rfl rfl ⟨rfl, rfl⟩ hs.valid
      (fun hb => (hs.consumerFine hb).goOn rfl rfl (by simp))
      (fun _ => Or.inr (Or.inr (Or.inr (by simp))))
  | consumerNoChunk v hc hv =>
    obtain ⟨done, p, rest, -, rfl, -⟩ := hord.draining_of_working (v := v)
      (by rw [State.working, hc]; rfl)
    exact absurd ⟨by omega, by exact_mod_cast p.1.isLt⟩ hv
  | readSize chunk hc =>
    exact hs.moveConsumer (by simp [hc]) rfl rfl rfl rfl rfl ⟨rfl, rfl⟩ hs.valid
      (fun hb => (hs.consumerFine hb).goOn rfl rfl (by simp))
      (fun _ => Or.inr (Or.inr (Or.inr (by simp))))
  | written chunk bytesToWrite written hc =>
    exact hs.moveConsumer (by simp [hc]) rfl rfl rfl rfl rfl ⟨rfl, rfl⟩ hs.valid
      (fun hb => (hs.consumerFine hb).goOn rfl rfl (by simp))
      (fun _ => Or.inr (Or.inr (Or.inr (by simp))))
  | consumerFailWrite hc | consumerIgnore hc | consumerFail hc =>
    exact hs.moveConsumer (by simp [hc]) rfl rfl rfl rfl rfl ⟨rfl, rfl⟩ hs.valid
      (fun hb => (hclosed _ hc (by simp) hb).elim)
      (fun hend => absurd hend (hs.ended_of_failing hc (by simp)))

theorem orderly_write {s s' : State} {r : Option ℕ} (hs : Orderly s)
    (hr : s.outOpen = true → r ≠ none) (h : Move s (.write r) s') : Orderly s' := by
  cases h with
  | writeFailed chunk bytesToWrite written hc =>
    have hhas : s.HasToken := Or.inr (Or.inr (Or.inr (by simp [hc])))
    -- a failed `write`: `output.txt` is closed
    have hb : ¬ s.child.beforeClose = true := fun hb => by
      rcases hs.outOpen hb with ho | ho
      · simpa [ho, ChildPc.starting] using hs.starting_eq_false hhas
      · exact hr ho rfl
    exact hs.moveConsumer (by simp [hc]) rfl rfl rfl rfl rfl ⟨rfl, rfl⟩ hs.valid
      (fun hb' => absurd hb' hb)
      (fun hend => absurd (ChildPc.beforeClose_of_copying (hs.child_copying hend hhas)) hb)
  | write chunk bytesToWrite written n hc =>
    exact hs.moveConsumer (by simp [hc]) rfl rfl rfl rfl rfl ⟨rfl, rfl⟩ hs.valid
      (fun hb => (hs.consumerFine hb).goOn rfl rfl (by simp))
      (fun _ => Or.inr (Or.inr (Or.inr (by simp))))

theorem orderly_consumerSigqueue {s s' : State} {ok : Bool} (hs : Orderly s)
    (hok : ok = true ∨ s.parentRunning = false) (h : Move s (.consumerSigqueue ok) s') :
    Orderly s' := by
  cases h with
  | tokenReturned chunk hc =>
    by_cases hend : s.sh.producerEnded = .notEnded
    · rw [hs.sigqueueProducer hend]
      exact hs.moveConsumer (by simp [hc]) rfl rfl rfl rfl rfl ⟨rfl, rfl⟩
        (valid_append hs.valid chunk.isLt) (fun hb => (hs.consumerFine hb).goOn rfl rfl (by simp))
        (fun _ => Or.inl (by simp))
    · rcases sigqueueProducer_cases s chunk with hq | hq <;> rw [hq]
      · exact hs.moveConsumer (by simp [hc]) rfl rfl rfl rfl rfl ⟨rfl, rfl⟩
          (valid_append hs.valid chunk.isLt)
          (fun hb => (hs.consumerFine hb).goOn rfl rfl (by simp)) (fun hno => absurd hno hend)
      · exact hs.moveConsumer (by simp [hc]) rfl rfl rfl rfl rfl ⟨rfl, rfl⟩ hs.valid
          (fun hb => (hs.consumerFine hb).goOn rfl rfl (by simp)) (fun hno => absurd hno hend)
  | returnFailed chunk hc =>
    -- the parent is gone, so the child is past its loop
    have hdead := hok.resolve_left (by simp)
    have hrun : ¬ s.childRunning = true := fun hrun => by
      rw [hs.parentRunning hrun] at hdead
      exact Bool.noConfusion hdead
    have hb : ¬ s.child.beforeClose = true := fun hb => hrun (by
      unfold State.childRunning
      split <;> simp_all [ChildPc.beforeClose])
    have hhas : s.HasToken := Or.inr (Or.inr (Or.inr (by simp [hc])))
    exact hs.moveConsumer (by simp [hc]) rfl rfl rfl rfl rfl ⟨rfl, rfl⟩ hs.valid
      (fun hb' => absurd hb' hb)
      (fun hend => absurd (ChildPc.beforeClose_of_copying (hs.child_copying hend hhas)) hb)

/-! ## The phases along a run -/

theorem orderly_step {s s' : State} {a : Action} (hs : Orderly s) (hord : InOrder s)
    (hrel : Reliable s a) (h : step s a = some s') : Orderly s' := by
  have hmove := move_of_step h
  cases a with
  | parent => exact orderly_parent hs hmove
  | child => exact orderly_child hs hmove
  | openOut => exact orderly_openOut hs hmove
  | childSigqueue => exact orderly_childSigqueue hs hrel hmove
  | deliverProducer => exact orderly_deliverProducer hs hmove
  | deliverConsumer => exact orderly_deliverConsumer hs hmove
  | producer => exact orderly_producer hs hmove
  | read => exact orderly_read hs hmove
  | producerSigqueue => exact orderly_producerSigqueue hs hrel hmove
  | consumer => exact orderly_consumer hs hord hmove
  | write => exact orderly_write hs hrel hmove
  | consumerSigqueue => exact orderly_consumerSigqueue hs hrel hmove

/-- The copy goes through its two phases in every run without failures. -/
theorem orderly_of_run {file : List Byte} {tr : List (State × Action)} {s : State}
    (h : Run step (init file) tr s) (hrel : StepsMeet Reliable tr) : Orderly s := by
  induction h with
  | nil => exact orderly_init file
  | snoc hrun hlast ih =>
    rw [stepsMeet_snoc] at hrel
    exact orderly_step (ih hrel.1) (inOrder_of_run hrun) hrel.2 hlast

end SignalCopy
