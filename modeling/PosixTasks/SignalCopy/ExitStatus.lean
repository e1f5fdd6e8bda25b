import PosixTasks.SignalCopy.Completion

/-!
# What the exit status of the child says

The child exits with 0 if it reads `CONS_END_SUCC` in `consumer_ended`. Only `sig_exit_handler`
stores this value, and neither process sends `SIG_EXIT`. So the status is 1 whatever was copied,
and it is right exactly if something is missing in `output.txt`.

## Main results

* `exitsOne_of_run`: the exit code of the child is 1 along every run;
* `output_ne_iff_of_closing`: what is missing when the child closes `output.txt`;
* `exitCode_iff_of_run`: the exit status is right exactly if the child closes an incomplete file.
-/

namespace SignalCopy

open Transition

/-! ## The exit code -/

/-- The exit code that the child has computed. -/
def ChildPc.exitCode : ChildPc → Option ℕ
  | .closeOut code | .detach code | .leaving code | .exited code => some code
  | _ => none

/-- `consumer_ended` is not `CONS_END_SUCC`, and the exit code computed from it is 1. -/
structure ExitsOne (s : State) : Prop where
  notSucc : s.sh.consumerEnded ≠ .consEndSucc
  one : ∀ code, s.child.exitCode = some code → code = 1

theorem exitsOne_init (file : List Byte) : ExitsOne (init file) where
  notSucc := by simp [init]
  one := by simp [init, ChildPc.exitCode]

theorem ExitsOne.congr {s s' : State} (h : ExitsOne s)
    (hended : s'.sh.consumerEnded = s.sh.consumerEnded)
    (hcode : ∀ code, s'.child.exitCode = some code → s.child.exitCode = some code) :
    ExitsOne s' where
  notSucc := by
    rw [hended]
    exact h.notSucc
  one code hexit := h.one code (hcode code hexit)

theorem interrupted_exitCode (pc : ChildPc) : pc.interrupted.exitCode = pc.exitCode := by
  cases pc <;> rfl

/-- The test of `consumer_ended` gives 1, and the steps after it keep the code. -/
theorem exitsOne_child {s s' : State} (hs : ExitsOne s) (h : Move s .child s') :
    ExitsOne s' := by
  cases h with
  | childTestProducer =>
    refine hs.congr rfl fun code hcode => ?_
    dsimp only at hcode
    split at hcode <;> cases hcode
  | childTestConsumer =>
    refine ⟨hs.notSucc, fun code hcode => ?_⟩
    rw [if_neg hs.notSucc, ChildPc.exitCode, Option.some.injEq] at hcode
    exact hcode.symm
  | storePpid | tokensSent | childPause => exact hs.congr rfl (by simp [ChildPc.exitCode])
  | closeOut _ _ hpc | childDetach _ _ hpc | childExit _ _ hpc =>
    exact hs.congr rfl (by simp [ChildPc.exitCode, hpc])

/-- `consumer_handler` only stores `CONS_END_FAIL`. -/
theorem exitsOne_consumer {s s' : State} (hs : ExitsOne s) (h : Move s .consumer s') :
    ExitsOne s' := by
  cases h with
  | consumerFailWrite | consumerFail => exact ⟨by simp, hs.one⟩
  | consumerChunk | consumerNoChunk | readSize | written | consumerIgnore =>
    exact hs.congr rfl fun _ hcode => hcode

theorem exitsOne_step {s s' : State} {a : Action} (hs : ExitsOne s) (h : step s a = some s') :
    ExitsOne s' := by
  have hmove := move_of_step h
  cases a with
  | parent =>
    -- the exit code is the child's own, and most steps leave the child where it is
    obtain ⟨pc, pidStored, inOpen, rfl⟩ := hmove.parent_frame
    exact hs.congr rfl fun _ hcode => hcode
  | child => exact exitsOne_child hs hmove
  | openOut => cases hmove <;> exact hs.congr rfl (by simp [ChildPc.exitCode])
  | childSigqueue =>
    cases hmove with
    | tokenSent i =>
      obtain ⟨queue, hqueue⟩ := sigqueueProducer_frame s i
      rw [hqueue]
      exact hs.congr rfl (by simp [ChildPc.exitCode])
    | tokenFailed => exact hs.congr rfl (by simp [ChildPc.exitCode])
  | deliverProducer => cases hmove <;> exact hs.congr rfl fun _ hcode => hcode
  | deliverConsumer =>
    cases hmove with
    | consumerCrash => exact hs.congr rfl (by simp [ChildPc.exitCode])
    | consumerEnter => exact hs.congr rfl fun code hcode => by rwa [interrupted_exitCode] at hcode
  | producer =>
    obtain ⟨_, _, _, _, _, _, rfl⟩ := hmove.producer_frame
    exact hs.congr rfl fun _ hcode => hcode
  | read =>
    obtain ⟨-, _, _, _, _, _, rfl⟩ := hmove.read_frame
    exact hs.congr rfl fun _ hcode => hcode
  | producerSigqueue =>
    obtain ⟨-, _, _, _, _, rfl, -⟩ := hmove.producerSigqueue_frame
    exact hs.congr rfl fun _ hcode => hcode
  | consumer => exact exitsOne_consumer hs hmove
  | write =>
    obtain ⟨-, _, _, rfl, -⟩ := hmove.write_frame
    exact hs.congr rfl fun _ hcode => hcode
  | consumerSigqueue =>
    obtain ⟨-, _, _, rfl⟩ := hmove.consumerSigqueue_frame
    exact hs.congr rfl fun _ hcode => hcode

theorem exitsOne_of_run {file : List Byte} {tr : List (State × Action)} {s : State}
    (h : Run step (init file) tr s) : ExitsOne s :=
  h.invariant_all (exitsOne_init file) fun _ _ _ hs hstep => exitsOne_step hs hstep

/-! ## Failing writes -/

/-- A `write` of `consumer_handler` has failed. -/
def WriteFailed (s : State) : Prop :=
  s.consumerIgnored = true ∨ s.consumer = some .failWrite ∨ s.consumer = some .ignore

/-- After a failing `write`, `output.txt` falls short of the blocks handed over. -/
def FailsShort (s : State) : Prop :=
  WriteFailed s → s.output.length < s.handedOver.flatten.length

theorem failsShort_init (file : List Byte) : FailsShort (init file) := by
  simp [FailsShort, WriteFailed, init]

theorem FailsShort.mono {s s' : State} (h : FailsShort s) (hfail : WriteFailed s' → WriteFailed s)
    (hout : s'.output.length ≤ s.output.length)
    (hhanded : s.handedOver.flatten.length ≤ s'.handedOver.flatten.length) : FailsShort s' := by
  intro hfailed
  have hshort := h (hfail hfailed)
  omega

/-- A step that leaves the files, the consumer's handler and the history alone. -/
theorem FailsShort.congr {s s' : State} (h : FailsShort s)
    (hign : s'.consumerIgnored = s.consumerIgnored) (hc : s'.consumer = s.consumer)
    (hout : s'.output = s.output) (hreads : s'.reads = s.reads) : FailsShort s' := by
  have hhanded : s'.handedOver = s.handedOver := by rw [State.handedOver, hreads]; rfl
  refine h.mono (fun hfailed => ?_) (by rw [hout]) (by rw [hhanded])
  rw [WriteFailed, hign, hc] at hfailed
  exact hfailed

/-- The blocks handed over stay handed over when the last block read is marked. -/
theorem handed_length_le_markQueued (reads : List (List Byte × Bool)) :
    ((reads.filter (·.2)).map (·.1)).flatten.length
      ≤ (((markQueued reads).filter (·.2)).map (·.1)).flatten.length := by
  rcases List.eq_nil_or_concat reads with rfl | ⟨pre, r, rfl⟩
  · simp [markQueued]
  · rw [List.concat_eq_append, markQueued_concat]
    simp only [List.filter_append, List.map_append, List.flatten_append, List.length_append,
      List.filter_cons, List.filter_nil, if_true]
    split <;> simp

/-- A `read` hands nothing over. -/
theorem Move.read_handedOver {s s' : State} {r : Option ℕ} (h : Move s (.read r) s') :
    s'.handedOver = s.handedOver := by
  cases h with
  | readFailed | readNothing => rfl
  | readBlock => simp [State.handedOver]

theorem failsShort_producerSigqueue {s s' : State} {ok : Bool} (hs : FailsShort s)
    (h : Move s (.producerSigqueue ok) s') : FailsShort s' := by
  cases h with
  | blockSent chunk =>
    obtain ⟨queue, hqueue, -⟩ := sigqueueConsumer_frame s chunk
    rw [hqueue]
    exact hs.mono id le_rfl (handed_length_le_markQueued s.reads)
  | blockFailed => exact hs.congr rfl rfl rfl rfl

/-- The steps on memory follow a failure or know of none. -/
theorem failsShort_consumer {s s' : State} (hs : FailsShort s) (h : Move s .consumer s') :
    FailsShort s' := by
  cases h <;> exact hs.mono (by simp [WriteFailed, *]) le_rfl le_rfl

/-- A failing `write` leaves the end of its block out. -/
theorem failsShort_write {s s' : State} {r : Option ℕ} (hord : InOrder s)
    (h : Move s (.write r) s') : FailsShort s' := by
  cases h with
  | writeFailed chunk bytesToWrite written hc hlt =>
    obtain ⟨done, b, rest, hdrain, hlen, hout, -⟩ := hord.draining_of_writing hc
    intro _
    have hhanded := hdrain.handed
    simp only [State.handedOver, List.map_cons] at hhanded ⊢
    rw [hout, hhanded]
    simp only [List.flatten_append, List.flatten_cons, List.length_append, List.length_take]
    omega
  | write chunk bytesToWrite written n hc =>
    -- the consumer is live
    obtain ⟨done, b, rest, hdrain, -⟩ := hord.draining_of_writing hc
    intro hfailed
    simp [WriteFailed, hdrain.accepting] at hfailed

theorem failsShort_consumerSigqueue {s s' : State} {ok : Bool} (hs : FailsShort s)
    (h : Move s (.consumerSigqueue ok) s') : FailsShort s' := by
  have hpc : s'.consumer ≠ some .failWrite ∧ s'.consumer ≠ some .ignore := by
    cases h <;> simp
  obtain ⟨-, _, _, rfl⟩ := h.consumerSigqueue_frame
  refine hs.mono (fun hfailed => ?_) le_rfl le_rfl
  exact Or.inl (hfailed.resolve_right (by simpa using hpc))

theorem failsShort_step {s s' : State} {a : Action} (hs : FailsShort s) (hord : InOrder s)
    (h : step s a = some s') : FailsShort s' := by
  -- only the reads, the writes and the handlers around them are concerned
  have hmove := move_of_step h
  cases a with
  | parent =>
    obtain ⟨pc, pidStored, inOpen, rfl⟩ := hmove.parent_frame
    exact hs.congr rfl rfl rfl rfl
  | child =>
    obtain ⟨pc, ppidParent, outOpen, rfl, -⟩ := hmove.child_frame
    exact hs.congr rfl rfl rfl rfl
  | openOut =>
    cases hmove with
    | opened => exact hs.mono id (Nat.zero_le _) le_rfl
    | openFailed => exact hs.congr rfl rfl rfl rfl
  | childSigqueue =>
    obtain ⟨_, _, _, -, -, -, -, rfl⟩ := hmove.childSigqueue_frame
    exact hs.congr rfl rfl rfl rfl
  | deliverProducer => cases hmove <;> exact hs.congr rfl rfl rfl rfl
  | deliverConsumer =>
    cases hmove with
    | consumerCrash => exact hs.congr rfl rfl rfl rfl
    | consumerEnter => exact hs.mono (by simp +contextual [WriteFailed]) le_rfl le_rfl
  | producer =>
    obtain ⟨_, _, _, _, _, _, rfl⟩ := hmove.producer_frame
    exact hs.congr rfl rfl rfl rfl
  | read =>
    have hhanded := hmove.read_handedOver
    obtain ⟨-, _, _, _, _, _, rfl⟩ := hmove.read_frame
    exact hs.mono id le_rfl (by rw [hhanded])
  | producerSigqueue => exact failsShort_producerSigqueue hs hmove
  | consumer => exact failsShort_consumer hs hmove
  | write => exact failsShort_write hord hmove
  | consumerSigqueue => exact failsShort_consumerSigqueue hs hmove

theorem failsShort_of_run {file : List Byte} {tr : List (State × Action)} {s : State}
    (h : Run step (init file) tr s) : FailsShort s := by
  have hboth : (OneToken s ∧ InOrder s) ∧ FailsShort s := by
    refine h.invariant_all (I := fun s => (OneToken s ∧ InOrder s) ∧ FailsShort s)
      ⟨⟨oneToken_init file, inOrder_init file⟩, failsShort_init file⟩ ?_
    rintro t a u ⟨⟨htok, hord⟩, hs⟩ hstep
    exact ⟨⟨oneToken_step htok hstep, inOrder_step hord htok hstep⟩, failsShort_step hs hord hstep⟩
  exact hboth.2

/-! ## Closing `output.txt` -/

/-- Something is missing in `output.txt`: a part of `input.txt` that no `read` has returned, a
block for which no `SIG_CONSUMER` was queued, a `SIG_CONSUMER` that is pending, or what a failing
`write` has left out. -/
def Incomplete (s : State) : Prop :=
  s.unread ≠ [] ∨ (∃ r ∈ s.reads, r.2 = false) ∨ s.consumerQueue ≠ [] ∨ s.consumerIgnored = true

instance (s : State) : Decidable (Incomplete s) := by
  unfold Incomplete
  infer_instance

/-- The child only closes `output.txt` when something is missing in it. -/
def ClosesIncomplete (s : State) : Action → Prop
  | .child => s.child.closing = true → Incomplete s
  | _ => True

instance (s : State) (a : Action) : Decidable (ClosesIncomplete s a) :=
  match a with
  | .child => inferInstanceAs (Decidable (s.child.closing = true → Incomplete s))
  | .parent | .openOut _ | .childSigqueue _ | .deliverProducer | .deliverConsumer | .producer
  | .read _ | .producerSigqueue _ | .consumer | .write _ | .consumerSigqueue _ => isTrue trivial

/-- With its handler idle, a running child is draining the blocks or a `write` has failed. -/
theorem InOrder.draining_of_idle {s : State} (hord : InOrder s) (hrun : s.childRunning = true)
    (hc : s.consumer = none) :
    s.consumerIgnored = true ∨ ∃ done owed, Draining s done owed := by
  rcases hord.consumer with hstop | hdrain
  · rcases hstop.stopped with h | h | h | h
    · exact Or.inl h
    · simp [hrun] at h
    · simp [hc] at h
    · simp [hc] at h
  · exact Or.inr hdrain

/-- What is missing makes `output.txt` shorter than `input.txt`. -/
theorem Incomplete.output_length_lt {file : List Byte} {s : State} (h : Incomplete s)
    (hord : InOrder s) (hcount : Counted file s) (hfail : FailsShort s)
    (hrun : s.childRunning = true) (hc : s.consumer = none) : s.output.length < file.length := by
  have hout : s.output.length ≤ s.handedOver.flatten.length := hord.output_start.length_le
  have hhanded : s.handedOver.flatten.length ≤ ((s.reads.map (·.1)).flatten).length :=
    handed_length_le s.reads
  have hfile := congrArg List.length hcount.content
  rw [List.length_append] at hfile
  -- bytes are unread, not handed over, still pending, or were refused
  rcases h with hunread | ⟨⟨b, _⟩, hmem, rfl⟩ | hqueue | hign
  · have := List.length_pos_iff.mpr hunread
    omega
  · have hlt : s.handedOver.flatten.length < ((s.reads.map (·.1)).flatten).length :=
      handed_length_lt hmem (hcount.nonempty _ hmem)
    omega
  · rcases hord.draining_of_idle hrun hc with hign | ⟨done, owed, hdrain⟩
    · have := hfail (Or.inl hign)
      omega
    · obtain ⟨hidle, hvalues⟩ := hdrain.idle hc
      exact output_length_lt_of_pending hcount hdrain.handed hidle fun hnil => hqueue (by
        rw [← hvalues, hnil, List.map_nil])
  · have := hfail (Or.inl hign)
    omega

/-- Where nothing is missing, `output.txt` is `input.txt`. -/
theorem output_eq_of_complete {file : List Byte} {s : State} (h : ¬ Incomplete s)
    (hord : InOrder s) (hcount : Counted file s) (hrun : s.childRunning = true)
    (hc : s.consumer = none) : s.output = file := by
  simp only [Incomplete, not_or, not_exists, not_and, not_not, Bool.not_eq_true,
    Bool.not_eq_false] at h
  obtain ⟨hunread, hreads, hqueue, hign⟩ := h
  obtain ⟨done, owed, hdrain⟩ :=
    (hord.draining_of_idle hrun hc).resolve_left (by simp [hign])
  obtain ⟨hidle, hvalues⟩ := hdrain.idle hc
  have howed : owed = [] := by
    rwa [hqueue, List.map_eq_nil_iff] at hvalues
  have hhanded : s.handedOver = s.reads.map (·.1) := by
    rw [State.handedOver, List.filter_eq_self.mpr hreads]
  calc
    s.output = done.flatten := hidle
    _ = s.handedOver.flatten := by rw [hdrain.handed, howed, List.map_nil, List.append_nil]
    _ = file := by simpa [hhanded, hunread] using hcount.content

theorem output_ne_iff_of_closing {file : List Byte} {s : State} (hord : InOrder s)
    (hcount : Counted file s) (hfail : FailsShort s) (hrun : s.childRunning = true)
    (hc : s.consumer = none) : s.output ≠ file ↔ Incomplete s := by
  constructor
  · intro hne
    by_contra hcomplete
    exact hne (output_eq_of_complete hcomplete hord hcount hrun hc)
  · intro h hout
    have hlt := h.output_length_lt hord hcount hfail hrun hc
    rw [hout] at hlt
    exact lt_irrefl _ hlt

/-! ## The exit status along a run -/

/-- A child that has closed `output.txt` stays past this point. -/
theorem finished_step {s s' : State} {a : Action} (h : step s a = some s')
    (hfin : s.child.finished = true) : s'.child.finished = true := by
  -- the child has no way back; a signal is accepted without moving it
  have hmove := move_of_step h
  cases a with
  | parent =>
    obtain ⟨pc, pidStored, inOpen, rfl⟩ := hmove.parent_frame
    exact hfin
  | child =>
    cases hmove with
    | closeOut | childDetach | childExit => rfl
    | storePpid _ hpc | tokensSent _ _ hpc | childTestProducer _ hpc | childPause _ hpc
    | childTestConsumer _ hpc => simp [hpc, ChildPc.finished] at hfin
  | openOut =>
    rw [hmove.openOut_frame.1] at hfin
    simp [ChildPc.finished] at hfin
  | childSigqueue =>
    cases hmove with
    | tokenSent _ _ hpc | tokenFailed _ _ hpc => simp [hpc, ChildPc.finished] at hfin
  | deliverProducer => cases hmove <;> exact hfin
  | deliverConsumer =>
    cases hmove with
    | consumerCrash => rfl
    | consumerEnter => simpa using hfin
  | producer =>
    obtain ⟨_, _, _, _, _, _, rfl⟩ := hmove.producer_frame
    exact hfin
  | read =>
    obtain ⟨-, _, _, _, _, _, rfl⟩ := hmove.read_frame
    exact hfin
  | producerSigqueue =>
    obtain ⟨-, _, _, _, _, rfl, -⟩ := hmove.producerSigqueue_frame
    exact hfin
  | consumer =>
    obtain ⟨-, _, _, _, _, _, rfl⟩ := hmove.consumer_frame
    exact hfin
  | write =>
    obtain ⟨-, _, _, rfl, -⟩ := hmove.write_frame
    exact hfin
  | consumerSigqueue =>
    obtain ⟨-, _, _, rfl⟩ := hmove.consumerSigqueue_frame
    exact hfin

/-- Only the step that closes `output.txt` is looked at. -/
theorem closesIncomplete_of_ne {s : State} {a : Action}
    (h : ¬ (a = .child ∧ s.child.closing = true)) : ClosesIncomplete s a := by
  cases a
  case child => exact fun hclosing => absurd ⟨rfl, hclosing⟩ h
  all_goals trivial

theorem Move.finished_of_closing {s s' : State} (h : Move s .child s')
    (hclosing : s.child.closing = true) : s'.child.finished = true := by
  cases h with
  | closeOut => rfl
  | _ => simp_all [ChildPc.closing]

/-- What the steps so far tell about `output.txt`: while it is open, nothing; once it is closed,
whether something is missing. -/
structure ClosedKnown (file : List Byte) (tr : List (State × Action)) (s : State) : Prop where
  before : s.child.finished = false → StepsMeet ClosesIncomplete tr
  closed : s.child.finished = true → s.outOpen = false
  known : s.child.finished = true → (s.output ≠ file ↔ StepsMeet ClosesIncomplete tr)

/-- The step that closes `output.txt`. -/
theorem ClosedKnown.close {file : List Byte} {tr : List (State × Action)} {t u : State}
    (h : ClosedKnown file tr t) (hrun : Run step (init file) tr t) (hfin : t.child.finished = false)
    (hclosing : t.child.closing = true) (hlast : step t .child = some u) :
    ClosedKnown file (tr ++ [(t, .child)]) u := by
  have hmove := move_of_step hlast
  obtain ⟨_, _, _, -, -, hrunning, -⟩ := hmove.child_frame
  obtain ⟨hclosed, -, hout, -, -⟩ := hmove.child_of_closing hclosing
  have hiff := output_ne_iff_of_closing (inOrder_of_run hrun) (counted_of_run hrun)
    (failsShort_of_run hrun) hrunning hmove.consumer_of_child
  refine ⟨fun hnot => ?_, fun _ => hclosed, fun _ => ?_⟩
  · simp [hmove.finished_of_closing hclosing] at hnot
  · rw [hout, hiff, stepsMeet_snoc]
    exact ⟨fun hmissing => ⟨h.before hfin, fun _ => hmissing⟩, fun hmeet => hmeet.2 hclosing⟩

/-- A step after `output.txt` is closed. -/
theorem ClosedKnown.after {file : List Byte} {tr : List (State × Action)} {t u : State}
    {a : Action} (h : ClosedKnown file tr t) (hfin : t.child.finished = true)
    (hlast : step t a = some u) : ClosedKnown file (tr ++ [(t, a)]) u := by
  have hopened : t.child ≠ .openOut := by
    intro hpc
    simp [hpc, ChildPc.finished] at hfin
  have hnot : ¬ (a = .child ∧ t.child.closing = true) := by
    rintro ⟨-, hclosing⟩
    cases hpc : t.child <;> simp [hpc, ChildPc.closing, ChildPc.finished] at hclosing hfin
  obtain ⟨hclosed, -, hout⟩ := step_closed_frame hlast (h.closed hfin) hopened
  refine ⟨fun hfin' => ?_, fun _ => hclosed, fun _ => ?_⟩
  · simp [finished_step hlast hfin] at hfin'
  · rw [hout, stepsMeet_snoc, and_iff_left (closesIncomplete_of_ne hnot)]
    exact h.known hfin

theorem closedKnown_of_run {file : List Byte} {tr : List (State × Action)} {s : State}
    (h : Run step (init file) tr s) : ClosedKnown file tr s := by
  induction h with
  | nil => exact ⟨fun _ => stepsMeet_nil _, by simp [init, ChildPc.finished],
      by simp [init, ChildPc.finished]⟩
  | @snoc tr t u a hrun hlast ih =>
    rcases hfin : t.child.finished with _ | _
    · by_cases hclose : a = .child ∧ t.child.closing = true
      · obtain ⟨rfl, hclosing⟩ := hclose
        exact ih.close hrun hfin hclosing hlast
      · -- the file is open before and after the step
        have hopen : u.child.finished ≠ true := by
          intro hfin'
          by_cases ha : a = .child
          · subst ha
            rcases (move_of_step hlast).closing_of_finished hfin' with h | h
            · exact hclose ⟨rfl, h⟩
            · simp [hfin] at h
          · simp [step_child_frame hlast ha hfin'] at hfin
        refine ⟨fun _ => ?_, fun hfin' => absurd hfin' hopen, fun hfin' => absurd hfin' hopen⟩
        exact (stepsMeet_snoc _ _ _ _).mpr ⟨ih.before hfin, closesIncomplete_of_ne hclose⟩
    · exact ih.after hfin hlast

/-- When the child has left its loop and exited, its exit status tells whether `output.txt` is
`input.txt` exactly if something was missing in `output.txt` when the child closed it. -/
theorem exitCode_iff_of_run {file : List Byte} {tr : List (State × Action)} {s : State}
    {code : ℕ} (h : Run step (init file) tr s) (hexit : s.child = .exited code) :
    (code = 0 ↔ s.output = file) ↔ StepsMeet ClosesIncomplete tr := by
  have hone : code = 1 := (exitsOne_of_run h).one code (by rw [hexit]; rfl)
  have hknown := (closedKnown_of_run h).known (by rw [hexit]; rfl)
  rw [← hknown, hone]
  simp

private theorem incomplete_executes :
    (execute step (fun s a => decide (ClosesIncomplete s a)) (init [7]) pidTooLate).isSome
      = true := by
  decide

/-- `exitCode_iff_of_run` at a copy of one byte that ends with nothing written. -/
theorem exitCode_iff_of_run_one_byte :
    ∃ s, Reachable step (init [7]) s ∧ s.child = .exited 1 ∧ (1 = 0 ↔ s.output = [7]) := by
  obtain ⟨tr, h, hmeet⟩ := exists_run_of_isSome incomplete_executes
  have hexit : ((execute step _ (init [7]) pidTooLate).get incomplete_executes).child
      = .exited 1 := by decide
  exact ⟨_, ⟨tr, h⟩, hexit,
    (exitCode_iff_of_run h hexit).mpr (hmeet.mono fun s a h => of_decide_eq_true h)⟩

private theorem complete_executes :
    (execute step (fun s a => decide (Dependable s a)) (init [7])
      (childStart ++ [Action.parent] ++ copyBlock 1 ++ endOfFile ++ childExit)).any
        (fun s => decide (s.child = .exited 1 ∧ s.output = [7])) = true := by
  decide

/-- A copy of one byte that is complete ends with the exit status 1. -/
theorem not_exitCode_iff :
    ¬ ∀ (file : List Byte) (tr : List (State × Action)) (s : State) (code : ℕ),
      Run step (init file) tr s → s.child = .exited code → (code = 0 ↔ s.output = file) := by
  intro h
  obtain ⟨tr, s, hrun, -, hs⟩ := exists_run_of_any complete_executes
  obtain ⟨hexit, hout⟩ := of_decide_eq_true hs
  exact absurd ((h [7] tr s 1 hrun hexit).mpr hout) one_ne_zero

end SignalCopy
