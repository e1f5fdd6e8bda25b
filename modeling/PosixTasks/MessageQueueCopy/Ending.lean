import PosixTasks.MessageQueueCopy.Complete

/-!
# How the copy through the message queue ends

A block that the child takes for the end leaves the rest of the blocks in the queue. Nobody
receives them any more, and if they leave no room for the end message, the parent waits in its
last `msgsnd` for ever. In every other case both processes end.

## Main results

* `going_step`: when the child can have exited, and what the two still hold;
* `endsOver_of_init`: every schedule ends, with `wait` returned or with the parent stuck in its last
  `msgsnd` behind a child that has stopped too early;
* `stuck_behind_data`: the parent can get stuck.
-/

namespace MessageQueueCopy

open Transition

variable {input : List Byte} {qbytes : ℕ} {old : Option (List Byte)} {s u : State} {a : Action}

/-! ## Where the two processes can be -/

/-- What the end of the copy depends on, besides the bytes. -/
structure Going (input : List Byte) (s : State) : Prop where
  flag : s.eofFlag = true → s.parent = .sendingEof ∨ s.parent.EofSent
  exited : s.child = .exited → s.eofFlag = true
  /-- A child that exits before the end message is sent has taken data for it. -/
  early : s.child = .exited → s.parent.EofSent ∨ s.output ≠ some input
  waited : s.parent = .waited → s.child = .exited
  writing : ∀ n written, s.child = .writing n written → written < n
  sending : ∀ n, s.parent = .sending n → n ≤ mqSize

theorem going_init (input : List Byte) (old : Option (List Byte)) : Going input (init old) where
  flag := by simp [init]
  exited := by simp [init]
  early := by simp [init]
  waited := by simp [init]
  writing := by simp [init]
  sending := by simp [init]

/-- A step of the parent that goes on to another part of its program. -/
theorem Going.of_parent (h : Going input s) (ha : a.OfParent)
    (hs : step input qbytes s a = some u)
    (flag : u.eofFlag = true → u.parent = .sendingEof ∨ u.parent.EofSent)
    (kept : s.eofFlag = true → u.eofFlag = true)
    (waited : u.parent = .waited → s.child = .exited)
    (sending : ∀ n, u.parent = .sending n → n ≤ mqSize) : Going input u := by
  obtain ⟨hchild, -, houtput⟩ := frame_parent ha hs
  refine ⟨flag, ?_, ?_, ?_, ?_, sending⟩
  · rw [hchild]
    exact fun hc => kept (h.exited hc)
  · rw [hchild, houtput]
    exact fun hc => (h.early hc).imp_left fun hsent => (frame_parent_sent ha hsent hs).1
  · rw [hchild]
    exact waited
  · rw [hchild]
    exact h.writing

/-- A step of the child that does not exit. -/
theorem Going.of_child (h : Going input s) (ha : ¬ a.OfParent)
    (hs : step input qbytes s a = some u) (hexited : s.child ≠ .exited)
    (exited : u.child ≠ .exited)
    (writing : ∀ n written, u.child = .writing n written → written < n) : Going input u := by
  obtain ⟨hparent, -, -, hflag⟩ := frame_child ha hs
  refine ⟨?_, fun hc => absurd hc exited, fun hc => absurd hc exited, ?_, writing, ?_⟩
  · rw [hflag, hparent]
    exact h.flag
  · rw [hparent]
    exact fun hw => absurd (h.waited hw) hexited
  · rw [hparent]
    exact h.sending

theorem lt_of_writeLoop {n written n' written' : ℕ}
    (h : writeLoop n written = .writing n' written') : written' < n' := by
  rw [writeLoop] at h
  split at h
  next hlt =>
    obtain ⟨rfl, rfl⟩ := ChildPc.writing.inj h
    exact hlt
  next => cases h

/-- The child exits with data in its hands, or on the end message. -/
theorem going_exit (h : Going input s) (hstage : Stage input s) (hend : isEnd s.eofFlag s.childText)
    (hs : step input qbytes s .childTest = some u) : Going input u := by
  have hframe := frame_child (by simp [Action.OfParent]) hs
  obtain ⟨hparent, -, -, hflag⟩ := hframe
  -- the test reads the flag as set
  have hset : s.eofFlag = true := by
    simp only [isEnd, Bool.and_eq_true] at hend
    exact hend.1
  refine ⟨?_, fun _ => hflag.trans hset, fun _ => ?_, fun hw => ?_, fun n w hc => ?_, ?_⟩
  · rw [hflag, hparent]
    exact h.flag
  · rw [hparent]
    cases hstage with
    | flowing data hflow => exact .inr (broken_of_test hflow hend hs).output
    | received n hsent => exact .inl hsent
    | ended hchild => simp [step, hchild] at hs
  · rw [hparent] at hw
    simp [step, h.waited hw] at hs
  · simp only [step, hend] at hs
    split at hs
    · obtain rfl := Option.some.inj hs
      simp at hc
    · cases hs
  · rw [hparent]
    exact h.sending

/-- What the end of the copy depends on is kept by every step. -/
theorem going_step (h : Going input s) (hstage : Stage input s ∨ Broken input s)
    (hs : step input qbytes s a = some u) : Going input u := by
  have hmoved := hs
  cases a with
  | parentRead n =>
    simp only [step, Option.ite_none_right_eq_some, Option.some.injEq] at hmoved
    obtain ⟨⟨hpc, hread⟩, rfl⟩ := hmoved
    refine h.of_parent (a := .parentRead n) trivial hs ?_ id ?_ ?_
    · intro hflag
      have := h.flag hflag
      simp [hpc, ParentPc.EofSent] at this
    · dsimp only
      split <;> simp
    · intro k hk
      dsimp only at hk
      split at hk
      next =>
        obtain rfl := ParentPc.sending.inj hk
        exact hread.1
      next => cases hk
  | parentSend =>
    simp only [step] at hmoved
    split at hmoved
    next n hpc =>
      simp only [Option.ite_none_right_eq_some, Option.some.injEq] at hmoved
      obtain ⟨-, rfl⟩ := hmoved
      refine h.of_parent (a := .parentSend) trivial hs ?_ id (by simp) (by simp)
      intro hflag
      have := h.flag hflag
      simp [hpc, ParentPc.EofSent] at this
    next => cases hmoved
  | parentSetFlag =>
    simp only [step, Option.ite_none_right_eq_some, Option.some.injEq] at hmoved
    obtain ⟨-, rfl⟩ := hmoved
    exact h.of_parent (a := .parentSetFlag) trivial hs (by simp) (by simp) (by simp) (by simp)
  | parentSendEof =>
    simp only [step, Option.ite_none_right_eq_some, Option.some.injEq] at hmoved
    obtain ⟨-, rfl⟩ := hmoved
    refine h.of_parent (a := .parentSendEof) trivial hs ?_ id (by simp) (by simp)
    simp [ParentPc.EofSent]
  | parentWait =>
    simp only [step, Option.ite_none_right_eq_some, Option.some.injEq] at hmoved
    obtain ⟨⟨-, hexited⟩, rfl⟩ := hmoved
    refine h.of_parent (a := .parentWait) trivial hs ?_ id (fun _ => hexited) (by simp)
    simp [ParentPc.EofSent]
  | childOpen =>
    simp only [step, Option.ite_none_right_eq_some, Option.some.injEq] at hmoved
    obtain ⟨hpc, rfl⟩ := hmoved
    exact h.of_child (a := .childOpen) (by simp [Action.OfParent]) hs (by simp [hpc]) (by simp)
      (by simp)
  | childReceive =>
    simp only [step] at hmoved
    split at hmoved
    next text queue hpc _ =>
      obtain rfl := Option.some.inj hmoved
      exact h.of_child (a := .childReceive) (by simp [Action.OfParent]) hs (by simp [hpc])
        (by simp) (by simp)
    next => cases hmoved
  | childTest =>
    -- a child that takes what it has for the end is the only one that exits
    by_cases hend : isEnd s.eofFlag s.childText = true
    · rcases hstage with hstage | hbroken
      · exact going_exit h hstage hend hs
      · simp [step, hbroken.exited] at hs
    · simp only [step, hend] at hmoved
      split at hmoved
      next n hpc =>
        obtain rfl := Option.some.inj hmoved
        exact h.of_child (a := .childTest) (by simp [Action.OfParent]) hs (by simp [hpc])
          (writeLoop_inLoop _ 0).2.1 fun _ _ => lt_of_writeLoop
      next => cases hmoved
  | childWrite k =>
    simp only [step] at hmoved
    split at hmoved
    next n written hpc =>
      simp only [Option.ite_none_right_eq_some, Option.some.injEq] at hmoved
      obtain ⟨-, rfl⟩ := hmoved
      exact h.of_child (a := .childWrite k) (by simp [Action.OfParent]) hs (by simp [hpc])
        (writeLoop_inLoop _ _).2.1 fun _ _ => lt_of_writeLoop
    next => cases hmoved

/-! ## How long it takes -/

/-- The steps of the producer, and what it makes of the bytes that are left. -/
def ParentPc.work (left : ℕ) : ParentPc → ℕ
  | .reading => 6 * left + 10
  | .sending n => 6 * left + n + 14
  | .settingFlag => 9
  | .sendingEof => 8
  | .waiting => 1
  | .waited => 0

/-- The steps of the consumer. -/
def ChildPc.work : ChildPc → ℕ
  | .opening => 2
  | .receiving => 1
  | .testing n => n + 3
  | .writing n written => n - written + 2
  | .exited => 0

/-- What the consumer will do with the messages that it has not received. -/
def queueWork (queue : List (List Byte)) : ℕ :=
  (queue.map fun text => text.length + 3).sum

/-- What is still to be done. -/
def State.work (input : List Byte) (s : State) : ℕ :=
  s.parent.work (input.length - s.offset) + s.child.work + queueWork s.queue

theorem work_writeLoop_le (n written : ℕ) : (writeLoop n written).work ≤ n - written + 2 := by
  rw [writeLoop]
  split <;> simp [ChildPc.work]

theorem queueWork_snoc (queue : List (List Byte)) (text : List Byte) :
    queueWork (queue ++ [text]) = queueWork queue + (text.length + 3) := by
  simp [queueWork]

/-- What is still to be done gets less with every step. -/
theorem work_lt (hs : step input qbytes s a = some u) : u.work input < s.work input := by
  cases a with
  | parentRead n =>
    simp only [step, Option.ite_none_right_eq_some, Option.some.injEq] at hs
    obtain ⟨⟨hpc, hread⟩, rfl⟩ := hs
    -- a block is sent and received, which the bytes that leave the input pay for
    have hleft := hread.2.1
    by_cases hpos : 0 < n
    · simp only [State.work, hpc, hpos, ↓reduceIte, ParentPc.work]
      omega
    · simp only [State.work, hpc, hpos, ↓reduceIte, ParentPc.work]
      omega
  | parentSend =>
    simp only [step] at hs
    split at hs
    next n hpc =>
      simp only [Option.ite_none_right_eq_some, Option.some.injEq] at hs
      obtain ⟨-, rfl⟩ := hs
      -- the block is handed over to the queue
      have hlen : (s.parentText.take n).length ≤ n := List.length_take_le ..
      simp only [State.work, hpc, ParentPc.work, queueWork_snoc]
      omega
    next => cases hs
  | parentSetFlag =>
    simp only [step, Option.ite_none_right_eq_some, Option.some.injEq] at hs
    obtain ⟨hpc, rfl⟩ := hs
    simp [State.work, hpc, ParentPc.work]
  | parentSendEof =>
    simp only [step, Option.ite_none_right_eq_some, Option.some.injEq] at hs
    obtain ⟨⟨hpc, -⟩, rfl⟩ := hs
    -- the consumer has to receive and to test this message as well
    have hlen : eofMsg.length = 3 := rfl
    simp only [State.work, hpc, ParentPc.work, queueWork_snoc]
    omega
  | parentWait =>
    simp only [step, Option.ite_none_right_eq_some, Option.some.injEq] at hs
    obtain ⟨⟨hpc, -⟩, rfl⟩ := hs
    simp [State.work, hpc, ParentPc.work]
  | childOpen =>
    simp only [step, Option.ite_none_right_eq_some, Option.some.injEq] at hs
    obtain ⟨hpc, rfl⟩ := hs
    simp [State.work, hpc, ChildPc.work]
  | childReceive =>
    simp only [step] at hs
    split at hs
    next text queue hpc hqueue =>
      obtain rfl := Option.some.inj hs
      -- the first message leaves the queue
      have hsplit : queueWork s.queue = text.length + 3 + queueWork queue := by
        rw [hqueue, queueWork, List.map_cons, List.sum_cons, queueWork]
      simp only [State.work, hpc, ChildPc.work, hsplit]
      omega
    next => cases hs
  | childTest =>
    simp only [step] at hs
    split at hs
    next n hpc =>
      obtain rfl := Option.some.inj hs
      have hloop := work_writeLoop_le n 0
      have hchild : s.child.work = n + 3 := by rw [hpc]; rfl
      simp only [State.work, hchild]
      split
      next => simp only [ChildPc.work]; omega
      next => omega
    next => cases hs
  | childWrite k =>
    simp only [step] at hs
    split at hs
    next n written hpc =>
      simp only [Option.ite_none_right_eq_some, Option.some.injEq] at hs
      obtain ⟨hk, rfl⟩ := hs
      have hloop := work_writeLoop_le n (written + k)
      have hchild : s.child.work = n - written + 2 := by rw [hpc]; rfl
      simp only [State.work, hchild]
      omega
    next => cases hs

/-! ## Who can wait for ever -/

theorem exists_readReturns (input : List Byte) (offset : ℕ) : ∃ n, ReadReturns input offset n := by
  refine ⟨min mqSize (input.length - offset), min_le_left .., min_le_right .., ?_⟩
  have hsize : 0 < mqSize := by decide
  omega

/-- An empty queue has room for a block, and for the end message. -/
theorem hasRoom_nil {n : ℕ} (hqbytes : mqSize ≤ qbytes) (hn : n ≤ mqSize) :
    HasRoom qbytes [] n := by
  have hsize : 0 < mqSize := by decide
  constructor
  · simp only [List.flatten_nil, List.length_nil]
    omega
  · simp only [List.length_nil]
    omega

/-- A child that has not exited can go on, unless it waits for a message. -/
theorem exists_child_step (h : Going input s) (hexited : s.child ≠ .exited)
    (hmessage : s.child = .receiving → s.queue ≠ []) : ∃ a, step input qbytes s a ≠ none := by
  cases hpc : s.child with
  | opening => exact ⟨.childOpen, by simp [step, hpc]⟩
  | receiving =>
    obtain ⟨text, queue, hqueue⟩ := List.exists_cons_of_ne_nil (hmessage hpc)
    exact ⟨.childReceive, by simp [step, hpc, hqueue]⟩
  | testing n => exact ⟨.childTest, by simp [step, hpc]⟩
  | writing n written =>
    have hlt := h.writing n written hpc
    have hone : 0 < 1 ∧ 1 ≤ n - written := by omega
    exact ⟨.childWrite 1, by simp [step, hpc, hone]⟩
  | exited => exact absurd hpc hexited

/-- The parent can go on, unless the queue is full or it waits for its child. -/
theorem exists_parent_step (h : Going input s) (hqbytes : mqSize ≤ qbytes)
    (hparent : ¬ s.parent.EofSent) (hqueue : s.queue = []) :
    ∃ a, step input qbytes s a ≠ none := by
  cases hpc : s.parent with
  | reading =>
    obtain ⟨n, hn⟩ := exists_readReturns input s.offset
    exact ⟨.parentRead n, by simp [step, hpc, hn]⟩
  | sending n =>
    have hroom := hasRoom_nil hqbytes (h.sending n hpc)
    exact ⟨.parentSend, by simp [step, hpc, hqueue, hroom]⟩
  | settingFlag => exact ⟨.parentSetFlag, by simp [step, hpc]⟩
  | sendingEof =>
    have hroom := hasRoom_nil hqbytes (by decide : eofMsg.length ≤ mqSize)
    exact ⟨.parentSendEof, by simp [step, hpc, hqueue, hroom]⟩
  | waiting | waited =>
    rw [hpc] at hparent
    exact absurd trivial hparent

/-- The copy is over: `wait` has returned, or the parent is stuck in its last `msgsnd` because the
child has exited without the rest of the file. -/
def Over (input : List Byte) (qbytes : ℕ) (s : State) : Prop :=
  s.child = .exited ∧ (s.parent = .waited ∨
    s.parent = .sendingEof ∧ ¬ HasRoom qbytes s.queue eofMsg.length ∧ s.output ≠ some input)

/-- A queue that the child still receives from does not stay empty behind the end message. -/
theorem child_exited_of_stuck (h : Going input s) (hstage : Stage input s ∨ Broken input s)
    (hqbytes : mqSize ≤ qbytes) (hstuck : ∀ a, step input qbytes s a = none) :
    s.child = .exited := by
  by_contra hexited
  have hmessage : ¬ (s.child = .receiving → s.queue ≠ []) := fun hmessage => by
    obtain ⟨a, ha⟩ : ∃ a, step input qbytes s a ≠ none := exists_child_step h hexited hmessage
    exact ha (hstuck a)
  obtain ⟨hreceiving, hempty⟩ : s.child = .receiving ∧ s.queue = [] := by
    simpa only [Classical.not_imp, not_not, ne_eq] using hmessage
  by_cases hsent : s.parent.EofSent
  · -- the end message is in the queue
    rcases hstage with hstage | hbroken
    · cases hstage with
      | flowing data hflow =>
        have hqueue := hflow.queue
        rw [hempty, endPart, if_pos hsent] at hqueue
        simp at hqueue
      | received n _ _ hchild => simp [hreceiving] at hchild
      | ended hchild => exact hexited hchild
    · exact hexited hbroken.exited
  · obtain ⟨a, ha⟩ := exists_parent_step h hqbytes hsent hempty
    exact ha (hstuck a)

/-- Where no step is left, the copy is over. -/
theorem over_of_stuck (h : Going input s) (hstage : Stage input s ∨ Broken input s)
    (hqbytes : mqSize ≤ qbytes) (hstuck : ∀ a, step input qbytes s a = none) :
    Over input qbytes s := by
  have hexited := child_exited_of_stuck h hstage hqbytes hstuck
  refine ⟨hexited, ?_⟩
  rcases h.flag (h.exited hexited) with hpc | hsent
  · refine .inr ⟨hpc, fun hroom => ?_, ?_⟩
    · have hstep := hstuck .parentSendEof
      simp [step, hpc, hroom] at hstep
    · exact (h.early hexited).resolve_left (by simp [hpc, ParentPc.EofSent])
  · cases hpc : s.parent <;> rw [hpc] at hsent
    case waiting =>
      have hstep := hstuck .parentWait
      simp [step, hpc, hexited] at hstep
    case waited => exact .inl rfl
    all_goals exact hsent.elim

/-- Every schedule of the two processes ends after a number of steps that the length of `input.txt`
bounds, where a queue has room for a full message. The child has exited then, and `wait` has
returned, or the parent waits for ever with the end message, and `output.txt` is not complete. -/
theorem endsOver_of_init (input : List Byte) (old : Option (List Byte))
    (hqbytes : mqSize ≤ qbytes) :
    EndsWithin (step input qbytes) (6 * input.length + 12) (Over input qbytes) (init old) := by
  have hwork : (init old).work input = 6 * input.length + 12 := by
    simp [State.work, init, ParentPc.work, ChildPc.work, queueWork]
  rw [← hwork]
  refine EndsWithin.of_invariant
    (I := fun v => FlagSet v ∧ (Stage input v ∨ Broken input v) ∧ Going input v)
    ⟨by simp [FlagSet, init, ParentPc.EofSent], .inl (stage_init old), going_init input old⟩
    (fun v a w hv hs => ?_) (fun _ _ _ _ => work_lt)
    fun v hv => over_of_stuck hv.2.2 hv.2.1 hqbytes
  obtain ⟨hflag, hstage, hgoing⟩ := hv
  refine ⟨flagSet_step hflag hs, ?_, going_step hgoing hstage hs⟩
  rcases hstage with hstage | hbroken
  · by_cases hok : EndsOnEof v a
    · exact .inl (stage_step hstage hflag hok hs)
    · exact .inr (broken_of_step hstage hok hs)
  · exact .inr (broken_step hbroken hs)

/-- `endsOver_of_init` with the default limit of a queue. -/
theorem ends_two_bytes :
    EndsWithin (step [7, 8] 16384) 24 (Over [7, 8] 16384) (init none) :=
  endsOver_of_init [7, 8] none (by decide)

/-- A short block that reads `EOF`, and a full one. -/
def eofAndBlock : List Byte := eofMsg ++ List.replicate mqSize 7

/-- The child receives the first block and tests it when the flag is set. By then the second block
fills the queue. -/
def testedBehindFlag : List Action :=
  [.parentRead 3, .parentSend, .childOpen, .childReceive, .parentRead 4096, .parentSend,
    .parentRead 0, .parentSetFlag, .childTest]

private theorem tested_behind_flag_executes :
    (execute (step eofAndBlock 4096) (fun _ _ => true) (init none) testedBehindFlag).isSome =
      true := by
  decide +kernel

/-- The parent can get stuck: the child has exited, and the second block leaves no room for the end
message. -/
theorem stuck_behind_data :
    ∃ tr s, Run (step eofAndBlock 4096) (init none) tr s ∧ s.child = .exited ∧
      s.parent = .sendingEof ∧ ∀ a, step eofAndBlock 4096 s a = none := by
  obtain ⟨tr, h, -⟩ := exists_run_of_isSome tested_behind_flag_executes
  have hchild : ((execute (step eofAndBlock 4096) (fun _ _ => true) (init none)
      testedBehindFlag).get tested_behind_flag_executes).child = .exited := by decide +kernel
  have hparent : ((execute (step eofAndBlock 4096) (fun _ _ => true) (init none)
      testedBehindFlag).get tested_behind_flag_executes).parent = .sendingEof := by
    decide +kernel
  have hfull : ¬ HasRoom 4096 ((execute (step eofAndBlock 4096) (fun _ _ => true) (init none)
      testedBehindFlag).get tested_behind_flag_executes).queue eofMsg.length := by
    decide +kernel
  refine ⟨tr, _, h, hchild, hparent, fun a => ?_⟩
  cases a <;> simp [step, hchild, hparent, hfull]

end MessageQueueCopy
