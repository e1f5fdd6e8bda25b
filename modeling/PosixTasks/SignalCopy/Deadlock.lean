import PosixTasks.SignalCopy.Phases

/-!
# When the copy deadlocks

`producer_handler` sets `producer_ended` without signalling the child, and the child tests the
flag and calls `pause()` in two steps. If the flag is set while the child is blocked, or between
its test and its `pause()`, and no `SIG_CONSUMER` is pending, the child is never woken again:
`producer_handler` now ignores `SIG_PRODUCER`, so no further block is handed over. The parent
then blocks in `waitpid` (or in `pause()`).

## Main results

* `deadlock_iff_of_run`: a run without failures in which every step leaves the child a
  reason to wake does not deadlock, and one with any other step can only go on to a deadlock;
* `deadlock_one_byte`: the deadlock, for a file of one byte.
-/

namespace SignalCopy

open Transition

/-- No `read`, `write` or `sigqueue` fails. -/
def NoFailure (_ : State) : Action → Prop
  | .read result | .write result => result ≠ none
  | .childSigqueue ok | .producerSigqueue ok | .consumerSigqueue ok => ok = true
  | _ => True

instance (s : State) (a : Action) : Decidable (NoFailure s a) :=
  match a with
  | .read result | .write result => inferInstanceAs (Decidable (result ≠ none))
  | .childSigqueue ok | .producerSigqueue ok | .consumerSigqueue ok =>
      inferInstanceAs (Decidable (ok = true))
  | .parent | .child | .openOut _ | .deliverProducer | .deliverConsumer | .producer
  | .consumer => isTrue trivial

theorem NoFailure.reliable {s : State} {a : Action} (h : NoFailure s a) : Reliable s a := by
  cases a <;> simp_all [NoFailure, Reliable]

/-- Both processes are blocked, and no signal that is neither blocked nor ignored is pending
for either of them. -/
structure Deadlock (s : State) : Prop where
  child : s.child = .paused
  consumer : s.consumer = none
  parent : s.parent = .paused ∨ s.parent = .waiting
  producer : s.producer = none
  producerQueue : s.producerIgnored = true ∨ s.producerQueue = []
  consumerQueue : s.consumerIgnored = true ∨ s.consumerQueue = []

/-- The step does not leave the child in `pause()` with `producer_ended` set and no
`SIG_CONSUMER` pending: `producer_handler` does not set the flag, and the child does not enter
`pause()`, in such a state. -/
def WakesChild (s : State) : Action → Prop
  | .producer => s.producer = some .atEnd → s.child = .paused → s.consumerQueue ≠ []
  | .child => s.child = .callPause → s.sh.producerEnded = .notEnded ∨ s.consumerQueue ≠ []
  | _ => True

instance (s : State) (a : Action) : Decidable (WakesChild s a) :=
  match a with
  | .producer => inferInstanceAs
      (Decidable (s.producer = some .atEnd → s.child = .paused → s.consumerQueue ≠ []))
  | .child => inferInstanceAs
      (Decidable (s.child = .callPause → s.sh.producerEnded = .notEnded ∨ s.consumerQueue ≠ []))
  | .parent | .openOut _ | .childSigqueue _ | .deliverProducer | .deliverConsumer | .read _
  | .producerSigqueue _ | .consumer | .write _ | .consumerSigqueue _ => isTrue trivial

/-- Nothing will wake the child from `pause()` any more. -/
structure Asleep (s : State) : Prop where
  child : s.child = .paused
  consumerQueue : s.consumerQueue = []
  ended : s.sh.producerEnded ≠ .notEnded

/-- A step that leaves the child's position, `producer_ended` and the pending signals of the
child as they are, or only adds a signal, does not put the child to sleep. -/
theorem not_asleep_of_frame {s s' : State} (h : ¬ Asleep s) (hc : s'.child = s.child)
    (he : s'.sh.producerEnded = s.sh.producerEnded)
    (hq : s'.consumerQueue = [] → s.consumerQueue = []) : ¬ Asleep s' :=
  fun hno => h ⟨hc ▸ hno.child, hq hno.consumerQueue, he ▸ hno.ended⟩

/-- The handler runs, and leaves the child's main program where it is. -/
theorem not_asleep_consumer {s s' : State} (hs : Orderly s)
    (h : s.consumer ≠ none ∧ s'.child = s.child) : ¬ Asleep s' :=
  fun hno => hs.pausedIdle h.1 (h.2 ▸ hno.child)

/-- The child's main program is put to sleep only by entering `pause()`. -/
theorem asleep_child_iff {s s' : State} (h : Move s .child s') :
    Asleep s' ↔ ¬ WakesChild s .child := by
  simp only [WakesChild]
  cases h with
  | childPause _ hpc =>
    push Not
    exact ⟨fun hno => ⟨hpc, hno.ended, hno.consumerQueue⟩, fun ⟨_, hend, hq⟩ => ⟨rfl, hq, hend⟩⟩
  | childTestProducer _ hpc =>
    refine iff_of_false (fun hno => ?_) (by simp [hpc])
    have hpaused := hno.child
    dsimp only at hpaused
    split at hpaused <;> cases hpaused
  | storePpid _ hpc | tokensSent _ _ hpc | childTestConsumer _ hpc | closeOut _ _ hpc
  | childDetach _ _ hpc | childExit _ _ hpc =>
    exact iff_of_false (fun hno => by simpa using hno.child) (by simp [hpc])

/-- `producer_handler` puts the child to sleep only by setting `producer_ended`. -/
theorem asleep_producer_iff {s s' : State} (hs : Orderly s) (hawake : ¬ Asleep s)
    (h : Move s .producer s') : Asleep s' ↔ ¬ WakesChild s .producer := by
  simp only [WakesChild]
  cases h with
  | producerFail hp => exact absurd hp hs.producerFine
  | producerEnd hp =>
    simp only [hp, forall_const, not_forall, Decidable.not_not]
    constructor
    · exact fun hno => ⟨hno.child, hno.consumerQueue⟩
    · rintro ⟨hpaused, hq⟩
      refine ⟨hpaused, hq, ?_⟩
      dsimp only
      split <;> simp
  | producerChunk _ hp | producerNoChunk _ hp | countBlock _ _ hp | producerIgnore hp =>
    exact iff_of_false (not_asleep_of_frame hawake rfl rfl id) (by simp [hp])

/-- The other steps do not put the child to sleep. -/
theorem not_asleep_step {s s' : State} {a : Action} (hs : Orderly s) (hawake : ¬ Asleep s)
    (hchild : a ≠ .child) (hproducer : a ≠ .producer) (h : step s a = some s') :
    ¬ Asleep s' := by
  have hmove := move_of_step h
  cases a with
  | parent =>
    obtain ⟨pc, pidStored, inOpen, rfl⟩ := hmove.parent_frame
    exact not_asleep_of_frame hawake rfl rfl id
  | child => exact absurd rfl hchild
  | producer => exact absurd rfl hproducer
  | openOut =>
    obtain ⟨-, output, outOpen, pc, -, hpc, rfl⟩ := hmove.openOut_frame
    exact fun hno => hpc hno.child
  | childSigqueue =>
    obtain ⟨queue, outOpen, pc, -, -, hpc, -, rfl⟩ := hmove.childSigqueue_frame
    exact fun hno => hpc hno.child
  | deliverProducer => cases hmove <;> exact not_asleep_of_frame hawake rfl rfl id
  | deliverConsumer =>
    cases hmove with
    | consumerCrash => exact fun hno => by simpa using hno.child
    -- the handler wakes a child that is in `pause`
    | consumerEnter => exact fun hno => ChildPc.interrupted_ne_paused _ hno.child
  | read =>
    obtain ⟨-, _, _, _, _, _, rfl⟩ := hmove.read_frame
    exact not_asleep_of_frame hawake rfl rfl id
  | producerSigqueue =>
    obtain ⟨-, _, _, _, _, rfl, hempty⟩ := hmove.producerSigqueue_frame
    exact not_asleep_of_frame hawake rfl rfl hempty
  | consumer =>
    obtain ⟨hc, _, _, _, _, _, rfl⟩ := hmove.consumer_frame
    exact not_asleep_consumer hs ⟨hc, rfl⟩
  | write =>
    obtain ⟨hc, _, _, rfl, -⟩ := hmove.write_frame
    exact not_asleep_consumer hs ⟨hc, rfl⟩
  | consumerSigqueue =>
    obtain ⟨hc, _, _, rfl⟩ := hmove.consumerSigqueue_frame
    exact not_asleep_consumer hs ⟨hc, rfl⟩

/-- An awake child is put to sleep exactly by the steps that do not leave it a reason to
wake. -/
theorem asleep_step_iff {s s' : State} {a : Action} (hs : Orderly s) (hawake : ¬ Asleep s)
    (h : step s a = some s') : Asleep s' ↔ ¬ WakesChild s a := by
  by_cases hchild : a = .child
  · subst hchild
    exact asleep_child_iff (move_of_step h)
  by_cases hproducer : a = .producer
  · subst hproducer
    exact asleep_producer_iff hs hawake (move_of_step h)
  have hwake : WakesChild s a := by
    cases a <;> first | exact absurd rfl hchild | exact absurd rfl hproducer | exact trivial
  exact iff_of_false (not_asleep_step hs hawake hchild hproducer h) (not_not.mpr hwake)

/-- A sleeping child stays asleep. -/
theorem asleep_step {s s' : State} {a : Action} (hs : Orderly s) (hsleep : Asleep s)
    (h : step s a = some s') : Asleep s' := by
  have hpaused : s.child = .paused := hsleep.child
  have hidle : s.consumer = none := by
    by_contra hc
    exact hs.pausedIdle hc hpaused
  have hprod : ∀ pc, s.producer = some pc → pc = .ignore := by
    intro pc hp
    by_contra hpc
    exact hsleep.ended (hs.notEnded hp hpc)
  have hframe : s'.child = s.child → s'.sh.producerEnded = s.sh.producerEnded →
      s'.consumerQueue = s.consumerQueue → Asleep s' := fun hc he hq =>
    ⟨hc.trans hsleep.child, hq.trans hsleep.consumerQueue, by rw [he]; exact hsleep.ended⟩
  have hmove := move_of_step h
  cases a with
  | parent =>
    obtain ⟨pc, pidStored, inOpen, rfl⟩ := hmove.parent_frame
    exact hframe rfl rfl rfl
  | child => cases hmove <;> simp_all
  | openOut => simp [hmove.openOut_frame.1] at hpaused
  | childSigqueue => cases hmove <;> simp_all
  | deliverProducer => cases hmove <;> exact hframe rfl rfl rfl
  | deliverConsumer =>
    -- no signal is pending
    have hempty := hsleep.consumerQueue
    cases hmove <;> simp_all
  | producer =>
    cases hmove with
    | producerIgnore => exact hframe rfl rfl rfl
    | producerChunk _ hp | producerNoChunk _ hp | countBlock _ _ hp | producerFail hp
    | producerEnd hp => simpa using hprod _ hp
  | read =>
    obtain ⟨⟨c, hp⟩, -⟩ := hmove.read_frame
    simpa using hprod _ hp
  | producerSigqueue =>
    obtain ⟨⟨c, hp⟩, -⟩ := hmove.producerSigqueue_frame
    simpa using hprod _ hp
  | consumer => exact absurd hidle hmove.consumer_frame.1
  | write => exact absurd hidle hmove.write_frame.1
  | consumerSigqueue => exact absurd hidle hmove.consumerSigqueue_frame.1

/-- The child is asleep exactly when some step of the run has not left it a reason to wake. -/
theorem asleep_iff_of_run {file : List Byte} {tr : List (State × Action)} {s : State}
    (h : Run step (init file) tr s) (hok : StepsMeet NoFailure tr) :
    Asleep s ↔ ¬ StepsMeet WakesChild tr := by
  induction h with
  | nil => simpa using fun hno : Asleep (init file) => hno.ended rfl
  | @snoc tr t u a hrun hlast ih =>
    rw [stepsMeet_snoc] at hok ⊢
    have ht := orderly_of_run hrun (hok.1.mono fun _ _ => NoFailure.reliable)
    by_cases hsleep : Asleep t
    · exact iff_of_true (asleep_step ht hsleep hlast) (fun hmeet => (ih hok.1).mp hsleep hmeet.1)
    · have hmeet : StepsMeet WakesChild tr := by
        simpa [hsleep] using ih hok.1
      rw [asleep_step_iff ht hsleep hlast]
      simp [hmeet]

/-- The blocked states of a run without failures are those with a sleeping child. -/
theorem Deadlock.asleep {s : State} (h : Deadlock s) (hs : Orderly s) : Asleep s := by
  have hbefore : s.child.beforeClose = true := by rw [h.child]; rfl
  have hq : s.consumerQueue = [] := by
    simpa [(hs.consumerFine hbefore).accepting] using h.consumerQueue
  refine ⟨h.child, hq, fun hend => ?_⟩
  have hco := hs.copying hend
  rcases hco.token with hstart | htok | htok | htok | htok
  · simp [h.child, ChildPc.starting] at hstart
  · exact htok (by simpa [hco.listening] using h.producerQueue)
  · exact htok h.producer
  · exact htok hq
  · exact htok h.consumer

/-! ## A sleeping child ends in a deadlock -/

/-- Once `producer_handler` ignores its signal, a parent about to block makes a deadlock. -/
theorem Asleep.deadlock {s : State} (h : Asleep s) (hs : Orderly s) (hp : s.producer = none)
    (hpar : s.parent = .paused ∨ s.parent = .waiting) : Deadlock s where
  child := h.child
  consumer := by
    by_contra hc
    exact hs.pausedIdle hc h.child
  parent := hpar
  producer := hp
  producerQueue := by
    rcases (hs.ended h.ended).ignoring with hi | ⟨-, hi⟩
    · simp [hp] at hi
    · exact Or.inl hi
  consumerQueue := Or.inr h.consumerQueue

/-- The parent's next step, towards a deadlock. -/
theorem canReach_deadlock_of_parent {s s' : State} (h : Move s .parent s')
    (hnext : CanReach step NoFailure Deadlock s') : CanReach step NoFailure Deadlock s :=
  CanReach.of_step (show NoFailure s .parent from trivial) (step_of_move h) hnext

/-- With the child asleep and no handler running, the parent goes on to block. -/
theorem Asleep.canReach_deadlock_of_idle {s : State} (h : Asleep s) (hs : Orderly s)
    (hp : s.producer = none) : CanReach step NoFailure Deadlock s := by
  -- from behind to in front: each place of the parent leads to one from which it blocks
  have hwaiting : ∀ {t : State}, Asleep t → Orderly t → t.producer = none →
      t.parent = .callWaitpid → CanReach step NoFailure Deadlock t := by
    intro t h hs hp hpar
    have hmove := Move.callWaitpid hp hpar
    refine canReach_deadlock_of_parent hmove (CanReach.here ?_)
    exact Asleep.deadlock ⟨h.child, h.consumerQueue, h.ended⟩ (orderly_parent hs hmove) hp
      (Or.inr rfl)
  have hpaused : ∀ {t : State}, Asleep t → Orderly t → t.producer = none →
      t.parent = .callPause → CanReach step NoFailure Deadlock t := by
    intro t h hs hp hpar
    have hmove := Move.parentPause hp hpar
    refine canReach_deadlock_of_parent hmove (CanReach.here ?_)
    exact Asleep.deadlock ⟨h.child, h.consumerQueue, h.ended⟩ (orderly_parent hs hmove) hp
      (Or.inl rfl)
  have htest : ∀ {t : State}, Asleep t → Orderly t → t.producer = none →
      t.parent = .testProducer → CanReach step NoFailure Deadlock t := by
    intro t h hs hp hpar
    have hmove := Move.parentTestProducer hp hpar
    rw [if_neg h.ended] at hmove
    exact canReach_deadlock_of_parent hmove
      (hwaiting ⟨h.child, h.consumerQueue, h.ended⟩ (orderly_parent hs hmove) hp rfl)
  have hserve := (hs.ended h.ended).parent (by simp [State.childRunning, h.child])
  cases hpar : s.parent <;> simp [hpar, ParentPc.serving, ParentPc.copying] at hserve
  case storePid =>
    have hmove := Move.storePid hp hpar
    exact canReach_deadlock_of_parent hmove
      (htest ⟨h.child, h.consumerQueue, h.ended⟩ (orderly_parent hs hmove) hp rfl)
  case testProducer => exact htest h hs hp hpar
  case testConsumer =>
    have hcons := (hs.consumerFine (by rw [h.child]; rfl)).consumerEnded
    have hmove := Move.parentTestConsumer hp hpar
    rw [if_pos hcons] at hmove
    exact canReach_deadlock_of_parent hmove
      (hpaused ⟨h.child, h.consumerQueue, h.ended⟩ (orderly_parent hs hmove) hp rfl)
  case callPause => exact hpaused h hs hp hpar
  case paused => exact CanReach.here (h.deadlock hs hp (Or.inl hpar))
  case callWaitpid => exact hwaiting h hs hp hpar
  case waiting => exact CanReach.here (h.deadlock hs hp (Or.inr hpar))

/-- A sleeping child ends in a deadlock, with no failure on the way. -/
theorem Asleep.canReach_deadlock {s : State} (h : Asleep s) (hs : Orderly s) :
    CanReach step NoFailure Deadlock s := by
  rcases (hs.ended h.ended).ignoring with hp | ⟨hp, -⟩
  · -- `producer_handler` has still to return
    have hmove := Move.producerIgnore hp
    refine CanReach.of_step (show NoFailure s .producer from trivial) (step_of_move hmove) ?_
    exact Asleep.canReach_deadlock_of_idle ⟨h.child, h.consumerQueue, h.ended⟩
      (orderly_producer hs hmove) rfl
  · exact h.canReach_deadlock_of_idle hs hp

/-- In a run without failures whose steps all leave the child a reason to wake, no state is a
deadlock; after any other step a deadlock can be reached from every later state. -/
theorem deadlock_iff_of_run {file : List Byte} {tr : List (State × Action)} {s : State}
    (h : Run step (init file) tr s) (hok : StepsMeet NoFailure tr) :
    (StepsMeet WakesChild tr → ¬ Deadlock s) ∧
      (¬ StepsMeet WakesChild tr → CanReach step NoFailure Deadlock s) := by
  have hs := orderly_of_run h (hok.mono fun _ _ => NoFailure.reliable)
  have hiff := asleep_iff_of_run h hok
  constructor
  · intro hwake hdead
    exact hiff.mp (hdead.asleep hs) hwake
  · intro hsleep
    exact (hiff.mpr hsleep).canReach_deadlock hs

/-- The parent's handler meets the end of `input.txt`. -/
def endOfFile : List Action :=
  [.deliverProducer, .producer, .read (some 0), .producer, .producer]

private theorem wakes_executes :
    (execute step (fun s a => decide (NoFailure s a ∧ WakesChild s a)) (init [7])
      (childStart ++ [Action.parent] ++ copyBlock 1 ++ endOfFile)).isSome = true := by
  decide

/-- `deadlock_iff_of_run` where `producer_ended` is set before the child tests it again. -/
theorem deadlock_iff_of_run_one_byte :
    ∃ s, Reachable step (init [7]) s ∧ s.sh.producerEnded = .prodEndSucc ∧ ¬ Deadlock s := by
  obtain ⟨tr, h, hmeet⟩ := exists_run_of_isSome wakes_executes
  have hok : StepsMeet NoFailure tr := hmeet.mono fun s a h => (of_decide_eq_true h).1
  have hwake : StepsMeet WakesChild tr := hmeet.mono fun s a h => (of_decide_eq_true h).2
  exact ⟨_, ⟨tr, h⟩, by decide, (deadlock_iff_of_run h hok).1 hwake⟩

private theorem deadlock_executes :
    (execute step (fun s a => decide (NoFailure s a)) (init [7])
      (childStart ++ [Action.parent] ++ copyBlock 1 ++ [Action.child, .child] ++ endOfFile
        ++ [Action.parent, .parent])).isSome = true := by
  decide

/-- The child is back in `pause()` when `producer_handler` meets the end of the file: both
processes stay blocked. -/
theorem deadlock_one_byte :
    ∃ tr s, Run step (init [7]) tr s ∧ StepsMeet NoFailure tr ∧ Deadlock s := by
  obtain ⟨tr, h, hmeet⟩ := exists_run_of_isSome deadlock_executes
  refine ⟨tr, _, h, hmeet.mono fun s a h => of_decide_eq_true h, ?_⟩
  exact
    { child := by decide
      consumer := by decide
      parent := by decide
      producer := by decide
      producerQueue := by decide
      consumerQueue := by decide }

end SignalCopy
