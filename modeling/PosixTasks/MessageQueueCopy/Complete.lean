import PosixTasks.MessageQueueCopy.Model

/-!
# When the copy through the message queue is complete

Until the consumer has the end message in its hands, the input is what it has written, followed
by its message, the messages in the queue and what the producer holds and has not read. The
consumer stops on `EOF` in front of its buffer, though, and once `eof_flag` is set that may as
well be a block of the file, or a short block over the remains of a longer one. It then leaves
the message in its hands and those in the queue unwritten.

## Main results

* `stage_step`: a step that does not take data for the end keeps the copy in one of its stages;
* `broken_of_step`: a step that does loses at least the message it is about;
* `outputComplete_iff_of_run`: `output.txt` is complete at the exit of the child exactly if the
  child has stopped on the end message.
-/

namespace MessageQueueCopy

open Transition

variable {input : List Byte} {qbytes : ℕ} {old : Option (List Byte)} {s u : State} {a : Action}

/-! ## The bytes of the copy -/

/-- The bytes the producer has read and not yet sent. -/
def ParentPc.pending (text : List Byte) : ParentPc → List Byte
  | .sending n => text.take n
  | _ => []

/-- The bytes the consumer has received and not yet written. -/
def ChildPc.pending (text : List Byte) : ChildPc → List Byte
  | .testing n => Pieces.rest text n 0
  | .writing n written => Pieces.rest text n written
  | _ => []

/-- The producer has seen the end of its input. -/
def ParentPc.AtEnd : ParentPc → Prop
  | .reading | .sending _ => False
  | _ => True

/-- What this copy has put in `output.txt`. -/
def State.written (s : State) : List Byte :=
  if s.child = .opening then [] else s.output.getD []

/-- The end message, as long as it is in the queue. -/
def endPart (parent : ParentPc) : List (List Byte) :=
  if parent.EofSent then [eofMsg] else []

/-- The consumer is still to receive the end message, and the queue holds the blocks `data` in
front of it. -/
structure Flowing (input : List Byte) (data : List (List Byte)) (s : State) : Prop where
  queue : s.queue = data ++ endPart s.parent
  bytes : s.written ++ s.child.pending s.childText ++ data.flatten ++
    s.parent.pending s.parentText ++ input.drop s.offset = input
  atEnd : s.parent.AtEnd → input.length ≤ s.offset
  opened : s.child ≠ .opening → s.output.isSome
  notExited : s.child ≠ .exited
  /-- No block is empty, wherever it is. -/
  sentNonempty : [] ∉ data
  sendingNonempty : ∀ n, s.parent = .sending n → s.parentText.take n ≠ []
  testingNonempty : ∀ n, s.child = .testing n → Pieces.rest s.childText n 0 ≠ []

/-- Where a copy can be that has not taken data for the end. -/
inductive Stage (input : List Byte) (s : State) : Prop
  | flowing (data : List (List Byte)) (h : Flowing input data s)
  /-- The consumer has the end message in its buffer. -/
  | received (n : ℕ) (hsent : s.parent.EofSent) (hqueue : s.queue = [])
      (hchild : s.child = .testing n) (htext : s.childText.take eofMsg.length = eofMsg)
      (houtput : s.output = some input)
  | ended (hchild : s.child = .exited) (houtput : s.output = some input)

/-- The consumer has stopped too early. -/
structure Broken (input : List Byte) (s : State) : Prop where
  exited : s.child = .exited
  output : s.output ≠ some input

@[simp]
theorem pending_writeLoop (text : List Byte) (n written : ℕ) :
    (writeLoop n written).pending text = Pieces.rest text n written := by
  unfold writeLoop
  split
  · rfl
  · exact (Pieces.rest_eq_nil text (by omega)).symm

/-- The loop around `write` is behind `open` and in front of `exit` and of the next test. -/
theorem writeLoop_inLoop (n written : ℕ) :
    writeLoop n written ≠ .opening ∧ writeLoop n written ≠ .exited ∧
      ∀ k, writeLoop n written ≠ .testing k := by
  unfold writeLoop
  split <;> simp

theorem ParentPc.EofSent.atEnd {p : ParentPc} (h : p.EofSent) : p.AtEnd := by
  cases p <;> trivial

/-- Nothing is read and not sent behind the end message. -/
theorem ParentPc.EofSent.pending {p : ParentPc} (h : p.EofSent) (text : List Byte) :
    p.pending text = [] := by
  cases p <;> trivial

/-! ## Steps of the producer -/

/-- The actions of the producer. -/
def Action.OfParent : Action → Prop
  | .parentRead _ | .parentSend | .parentSetFlag | .parentSendEof | .parentWait => True
  | _ => False

/-- The producer leaves the consumer and `output.txt` alone. -/
theorem frame_parent (ha : a.OfParent) (hs : step input qbytes s a = some u) :
    u.child = s.child ∧ u.childText = s.childText ∧ u.output = s.output := by
  cases a with
  | parentSend =>
    simp only [step] at hs
    split at hs
    next =>
      simp only [Option.ite_none_right_eq_some, Option.some.injEq] at hs
      obtain ⟨-, rfl⟩ := hs
      exact ⟨rfl, rfl, rfl⟩
    next => cases hs
  | parentRead | parentSetFlag | parentSendEof | parentWait =>
    simp only [step, Option.ite_none_right_eq_some, Option.some.injEq] at hs
    obtain ⟨-, rfl⟩ := hs
    exact ⟨rfl, rfl, rfl⟩
  | _ => exact ha.elim

/-- Once the end message is sent, only `wait` is left. -/
theorem frame_parent_sent (ha : a.OfParent) (hsent : s.parent.EofSent)
    (hs : step input qbytes s a = some u) : u.parent.EofSent ∧ u.queue = s.queue := by
  cases a with
  | parentSend =>
    simp only [step] at hs
    split at hs
    next hpc => simp [hpc, ParentPc.EofSent] at hsent
    next => cases hs
  | parentRead | parentSetFlag | parentSendEof =>
    simp only [step, Option.ite_none_right_eq_some, Option.some.injEq] at hs
    obtain ⟨hpc, rfl⟩ := hs
    simp [hpc, ParentPc.EofSent] at hsent
  | parentWait =>
    simp only [step, Option.ite_none_right_eq_some, Option.some.injEq] at hs
    obtain ⟨-, rfl⟩ := hs
    exact ⟨trivial, rfl⟩
  | _ => exact ha.elim

/-- What the consumer does not see leaves its part of `Flowing` alone. -/
theorem Flowing.of_frame {data data' : List (List Byte)} (h : Flowing input data s)
    (hframe : u.child = s.child ∧ u.childText = s.childText ∧ u.output = s.output)
    (queue : u.queue = data' ++ endPart u.parent)
    (bytes : data'.flatten ++ u.parent.pending u.parentText ++ input.drop u.offset =
      data.flatten ++ s.parent.pending s.parentText ++ input.drop s.offset)
    (atEnd : u.parent.AtEnd → input.length ≤ u.offset) (sentNonempty : [] ∉ data')
    (sendingNonempty : ∀ n, u.parent = .sending n → u.parentText.take n ≠ []) :
    Flowing input data' u := by
  obtain ⟨hchild, htext, houtput⟩ := hframe
  exact {
    queue := queue
    bytes := by
      have hwritten : u.written = s.written := by simp [State.written, hchild, houtput]
      have hall := h.bytes
      simp only [List.append_assoc] at hall bytes ⊢
      rw [hwritten, hchild, htext, bytes, hall]
    atEnd := atEnd
    opened := by simpa only [hchild, houtput] using h.opened
    notExited := by simpa only [hchild] using h.notExited
    sentNonempty := sentNonempty
    sendingNonempty := sendingNonempty
    testingNonempty := by simpa only [hchild, htext] using h.testingNonempty }

/-- A block goes from the file through the producer's buffer into the queue. -/
theorem flowing_parent {data : List (List Byte)} (ha : a.OfParent) (h : Flowing input data s)
    (hs : step input qbytes s a = some u) : ∃ data', Flowing input data' u := by
  have hframe := frame_parent ha hs
  cases a with
  | parentRead n =>
    simp only [step, Option.ite_none_right_eq_some, Option.some.injEq] at hs
    obtain ⟨⟨hpc, hread⟩, rfl⟩ := hs
    have hlen : ((input.drop s.offset).take n).length = n := Pieces.length_take_drop hread.2.1
    have htext : ((input.drop s.offset).take n ++ s.parentText.drop n).take n =
        (input.drop s.offset).take n := by
      rw [List.take_append_of_le_length hlen.ge, List.take_of_length_le hlen.le]
    refine ⟨data, h.of_frame hframe ?_ ?_ ?_ h.sentNonempty ?_⟩
    · have hqueue := h.queue
      split <;> simp [endPart, hqueue, hpc, ParentPc.EofSent]
    · rcases Nat.eq_zero_or_pos n with rfl | hpos
      · simp [ParentPc.pending, hpc]
      · simp [ParentPc.pending, hpc, hpos, htext]
    · rcases Nat.eq_zero_or_pos n with rfl | hpos
      · exact fun _ => by simpa using hread.2.2 rfl
      · simp [hpos, ParentPc.AtEnd]
    · intro k hk
      split at hk
      next hpos =>
        obtain rfl : n = k := by simpa using hk
        rw [htext]
        exact List.ne_nil_of_length_pos (by rw [hlen]; exact hpos)
      next => cases hk
  | parentSend =>
    simp only [step] at hs
    split at hs
    next n hpc =>
      simp only [Option.ite_none_right_eq_some, Option.some.injEq] at hs
      obtain ⟨-, rfl⟩ := hs
      -- the block is behind those the queue holds
      refine ⟨data ++ [s.parentText.take n], h.of_frame hframe ?_ ?_ ?_ ?_ (by simp)⟩
      · simpa [endPart, hpc, ParentPc.EofSent] using h.queue
      · simp [hpc, ParentPc.pending]
      · simp [ParentPc.AtEnd]
      · rw [List.mem_append, List.mem_singleton, not_or]
        exact ⟨h.sentNonempty, (h.sendingNonempty n hpc).symm⟩
    next => cases hs
  | parentSetFlag =>
    simp only [step, Option.ite_none_right_eq_some, Option.some.injEq] at hs
    obtain ⟨hpc, rfl⟩ := hs
    have hend : input.length ≤ s.offset := h.atEnd (by rw [hpc]; trivial)
    refine ⟨data, h.of_frame hframe ?_ (by simp [hpc, ParentPc.pending]) (fun _ => hend)
      h.sentNonempty (by simp)⟩
    simpa [endPart, hpc, ParentPc.EofSent] using h.queue
  | parentSendEof =>
    simp only [step, Option.ite_none_right_eq_some, Option.some.injEq] at hs
    obtain ⟨⟨hpc, -⟩, rfl⟩ := hs
    have hend : input.length ≤ s.offset := h.atEnd (by rw [hpc]; trivial)
    refine ⟨data, h.of_frame hframe ?_ (by simp [hpc, ParentPc.pending]) (fun _ => hend)
      h.sentNonempty (by simp)⟩
    simpa [endPart, hpc, ParentPc.EofSent] using h.queue
  | parentWait =>
    simp only [step, Option.ite_none_right_eq_some, Option.some.injEq] at hs
    obtain ⟨⟨-, hexited⟩, -⟩ := hs
    exact absurd hexited h.notExited
  | _ => exact ha.elim

/-! ## Steps of the consumer -/

/-- The consumer leaves the producer and the unread part of the file alone. -/
theorem frame_child (ha : ¬ a.OfParent) (hs : step input qbytes s a = some u) :
    u.parent = s.parent ∧ u.parentText = s.parentText ∧ u.offset = s.offset ∧
      u.eofFlag = s.eofFlag := by
  cases a with
  | childOpen =>
    simp only [step, Option.ite_none_right_eq_some, Option.some.injEq] at hs
    obtain ⟨-, rfl⟩ := hs
    exact ⟨rfl, rfl, rfl, rfl⟩
  | childReceive | childTest =>
    simp only [step] at hs
    split at hs
    next =>
      obtain rfl := Option.some.inj hs
      exact ⟨rfl, rfl, rfl, rfl⟩
    next => cases hs
  | childWrite =>
    simp only [step] at hs
    split at hs
    next =>
      simp only [Option.ite_none_right_eq_some, Option.some.injEq] at hs
      obtain ⟨-, rfl⟩ := hs
      exact ⟨rfl, rfl, rfl, rfl⟩
    next => cases hs
  | _ => exact absurd trivial ha

/-- What the producer does not see leaves its part of `Flowing` alone. -/
theorem Flowing.of_frame_child {data data' : List (List Byte)} (h : Flowing input data s)
    (hframe : u.parent = s.parent ∧ u.parentText = s.parentText ∧ u.offset = s.offset ∧
      u.eofFlag = s.eofFlag)
    (queue : u.queue = data' ++ endPart s.parent)
    (bytes : u.written ++ u.child.pending u.childText ++ data'.flatten =
      s.written ++ s.child.pending s.childText ++ data.flatten)
    (opened : u.output.isSome) (notExited : u.child ≠ .exited) (sentNonempty : [] ∉ data')
    (testingNonempty : ∀ n, u.child = .testing n → Pieces.rest u.childText n 0 ≠ []) :
    Flowing input data' u := by
  obtain ⟨hparent, htext, hoffset, -⟩ := hframe
  exact {
    queue := by rw [queue, hparent]
    bytes := by rw [bytes, hparent, htext, hoffset, h.bytes]
    atEnd := by simpa only [hparent, hoffset] using h.atEnd
    opened := fun _ => opened
    notExited := notExited
    sentNonempty := sentNonempty
    sendingNonempty := by simpa only [hparent, htext] using h.sendingNonempty
    testingNonempty := testingNonempty }

theorem flowing_open {data : List (List Byte)} (h : Flowing input data s)
    (hs : step input qbytes s .childOpen = some u) : Flowing input data u := by
  have hframe := frame_child (by simp [Action.OfParent]) hs
  simp only [step, Option.ite_none_right_eq_some, Option.some.injEq] at hs
  obtain ⟨hpc, rfl⟩ := hs
  refine h.of_frame_child hframe h.queue ?_ rfl (by simp) h.sentNonempty (by simp)
  simp [State.written, hpc, ChildPc.pending]

/-- A piece of the message goes to `output.txt`. -/
theorem flowing_write {data : List (List Byte)} {k : ℕ} (h : Flowing input data s)
    (hs : step input qbytes s (.childWrite k) = some u) : Flowing input data u := by
  have hframe := frame_child (by simp [Action.OfParent]) hs
  simp only [step] at hs
  split at hs
  next n written hpc =>
    simp only [Option.ite_none_right_eq_some, Option.some.injEq] at hs
    obtain ⟨⟨-, hle⟩, rfl⟩ := hs
    obtain ⟨hne, hexit, htesting⟩ := writeLoop_inLoop n (written + k)
    obtain ⟨out, hout⟩ := Option.isSome_iff_exists.mp (h.opened (by simp [hpc]))
    refine h.of_frame_child hframe h.queue ?_ (by simp [hout]) hexit h.sentNonempty
      (fun m hm => absurd hm (htesting m))
    -- the piece leaves the rest of the message and is behind what the file held
    have hpiece : s.child.pending s.childText = (s.childText.drop written).take k ++
        Pieces.rest s.childText n (written + k) := by
      rw [hpc]
      exact (Pieces.take_append_rest s.childText hle).symm
    have hwritten : s.written = out := by simp [State.written, hpc, hout]
    rw [hpiece, hwritten]
    simp [State.written, hne, hout]
  next => cases hs

/-- The consumer receives the oldest block, or the end message if there is no block left. -/
theorem stage_receive {data : List (List Byte)} (h : Flowing input data s)
    (hs : step input qbytes s .childReceive = some u) : Stage input u := by
  have hframe := frame_child (by simp [Action.OfParent]) hs
  simp only [step] at hs
  split at hs
  next text queue hpc hqueue =>
    obtain rfl := Option.some.inj hs
    have hrest : Pieces.rest (text ++ s.childText.drop text.length) text.length 0 = text :=
      Pieces.rest_append text _
    have hopened : s.output.isSome := h.opened (by simp [hpc])
    cases data with
    | cons block data =>
      have hq := h.queue
      rw [hqueue, List.cons_append, List.cons.injEq] at hq
      obtain ⟨rfl, hq⟩ := hq
      have hne : ([] : List Byte) ∉ text :: data := h.sentNonempty
      rw [List.mem_cons, not_or] at hne
      refine .flowing data (h.of_frame_child hframe hq ?_ hopened (by simp) hne.2 ?_)
      · simp [State.written, hpc, ChildPc.pending, hrest]
      · intro n hn
        obtain rfl : text.length = n := by simpa using hn
        rw [hrest]
        exact Ne.symm hne.1
    | nil =>
      have hq := h.queue
      rw [hqueue, List.nil_append] at hq
      -- only the end message can be there
      have hsent : s.parent.EofSent := by
        by_contra hnot
        rw [endPart, if_neg hnot] at hq
        cases hq
      rw [endPart, if_pos hsent, List.cons.injEq] at hq
      obtain ⟨rfl, rfl⟩ := hq
      obtain ⟨out, hout⟩ := Option.isSome_iff_exists.mp hopened
      have hall := h.bytes
      rw [hsent.pending, List.drop_eq_nil_of_le (h.atEnd hsent.atEnd)] at hall
      refine .received eofMsg.length hsent rfl rfl (by simp) ?_
      simpa [State.written, hpc, ChildPc.pending, hout] using hall
  next => cases hs

/-- A block that is not taken for the end message is written. -/
theorem flowing_test {data : List (List Byte)} (h : Flowing input data s)
    (hend : isEnd s.eofFlag s.childText = false)
    (hs : step input qbytes s .childTest = some u) : Flowing input data u := by
  have hframe := frame_child (by simp [Action.OfParent]) hs
  simp only [step, hend] at hs
  split at hs
  next n hpc =>
    obtain rfl := Option.some.inj hs
    obtain ⟨hne, hexit, htesting⟩ := writeLoop_inLoop n 0
    refine h.of_frame_child hframe h.queue ?_ (h.opened (by simp [hpc])) hexit h.sentNonempty
      (fun m hm => absurd hm (htesting m))
    have hwritten : s.written = s.output.getD [] := if_neg (by simp [hpc])
    have hpending : s.child.pending s.childText = Pieces.rest s.childText n 0 := by rw [hpc]; rfl
    rw [hwritten, hpending]
    simp [State.written, hne]
  next => cases hs

/-- A block that is taken for the end message is lost. -/
theorem broken_of_test {data : List (List Byte)} (h : Flowing input data s)
    (hend : isEnd s.eofFlag s.childText = true)
    (hs : step input qbytes s .childTest = some u) : Broken input u := by
  simp only [step, hend] at hs
  split at hs
  next n hpc =>
    obtain rfl := Option.some.inj hs
    refine ⟨rfl, fun hout => ?_⟩
    have hblock : Pieces.rest s.childText n 0 ≠ [] := h.testingNonempty n hpc
    have hall := h.bytes
    simp only at hout
    -- with all of the input written there is nothing left for the block
    simp only [State.written, hpc, reduceCtorEq, if_false, hout, Option.getD_some,
      List.append_assoc, List.append_right_eq_self, List.append_eq_nil_iff] at hall
    exact hblock hall.1
  next => cases hs

/-- While blocks are under way, a message that is taken for the end is not the end message. -/
theorem not_endsOnEof {data : List (List Byte)} (h : Flowing input data s)
    (hend : isEnd s.eofFlag s.childText = true) : ¬ EndsOnEof s .childTest := by
  intro hok
  obtain ⟨hsent, hempty⟩ := hok hend
  have hqueue := h.queue
  rw [hempty, endPart, if_pos hsent] at hqueue
  simp at hqueue

/-! ## Runs -/

/-- The producer sets the flag before it sends the end message. -/
def FlagSet (s : State) : Prop :=
  s.parent = .sendingEof ∨ s.parent.EofSent → s.eofFlag = true

theorem flagSet_step (h : FlagSet s) (hs : step input qbytes s a = some u) : FlagSet u := by
  by_cases ha : a.OfParent
  · cases a with
    | parentRead n =>
      simp only [step, Option.ite_none_right_eq_some, Option.some.injEq] at hs
      obtain ⟨-, rfl⟩ := hs
      unfold FlagSet
      split <;> simp [ParentPc.EofSent]
    | parentSend =>
      simp only [step] at hs
      split at hs
      next =>
        simp only [Option.ite_none_right_eq_some, Option.some.injEq] at hs
        obtain ⟨-, rfl⟩ := hs
        simp [FlagSet, ParentPc.EofSent]
      next => cases hs
    | parentSetFlag =>
      simp only [step, Option.ite_none_right_eq_some, Option.some.injEq] at hs
      obtain ⟨-, rfl⟩ := hs
      exact fun _ => rfl
    | parentSendEof =>
      simp only [step, Option.ite_none_right_eq_some, Option.some.injEq] at hs
      obtain ⟨⟨hpc, -⟩, rfl⟩ := hs
      exact fun _ => h (.inl hpc)
    | parentWait =>
      simp only [step, Option.ite_none_right_eq_some, Option.some.injEq] at hs
      obtain ⟨⟨hpc, -⟩, rfl⟩ := hs
      exact fun _ => h (.inr (by rw [hpc]; trivial))
    | _ => exact ha.elim
  · obtain ⟨hparent, -, -, hflag⟩ := frame_child ha hs
    unfold FlagSet
    rw [hparent, hflag]
    exact h

/-- A step that does not take data for the end keeps the copy in one of its stages. -/
theorem stage_step (h : Stage input s) (hflag : FlagSet s) (hok : EndsOnEof s a)
    (hs : step input qbytes s a = some u) : Stage input u := by
  by_cases ha : a.OfParent
  · obtain ⟨hchild, htext, houtput⟩ := frame_parent ha hs
    cases h with
    | flowing data h =>
      obtain ⟨data', h'⟩ := flowing_parent ha h hs
      exact .flowing data' h'
    | received n hsent hqueue hpc hend hout =>
      obtain ⟨hsent', hqueue'⟩ := frame_parent_sent ha hsent hs
      exact .received n hsent' (hqueue'.trans hqueue) (hchild.trans hpc) (htext ▸ hend)
        (houtput.trans hout)
    | ended hpc hout => exact .ended (hchild.trans hpc) (houtput.trans hout)
  · cases h with
    | flowing data h =>
      cases a with
      | childOpen => exact .flowing data (flowing_open h hs)
      | childReceive => exact stage_receive h hs
      | childWrite k => exact .flowing data (flowing_write h hs)
      | childTest =>
        cases hend : isEnd s.eofFlag s.childText with
        | false => exact .flowing data (flowing_test h hend hs)
        -- the child would leave its loop before the end
        | true => exact absurd hok (not_endsOnEof h hend)
      | _ => exact absurd trivial ha
    | received n hsent hqueue hpc hend hout =>
      -- the flag is set and the end text is what was received
      have hisEnd : isEnd s.eofFlag s.childText = true := by
        rw [isEnd, hflag (.inr hsent), hend]
        rfl
      cases a with
      | childTest =>
        simp only [step, hpc, hisEnd] at hs
        obtain rfl := Option.some.inj hs
        exact .ended rfl hout
      | childOpen | childReceive | childWrite => simp [step, hpc] at hs
      | _ => exact absurd trivial ha
    | ended hpc hout =>
      cases a with
      | childOpen | childReceive | childTest | childWrite => simp [step, hpc] at hs
      | _ => exact absurd trivial ha

/-- A step that takes data for the end loses them. -/
theorem broken_of_step (h : Stage input s) (hnot : ¬ EndsOnEof s a)
    (hs : step input qbytes s a = some u) : Broken input u := by
  cases a with
  | childTest =>
    simp only [EndsOnEof, Classical.not_imp] at hnot
    obtain ⟨hend, hnotSent⟩ := hnot
    cases h with
    | flowing data h => exact broken_of_test h hend hs
    | received n hsent hqueue => exact absurd ⟨hsent, hqueue⟩ hnotSent
    | ended hpc => simp [step, hpc] at hs
  | _ => exact absurd trivial hnot

/-- Nobody writes what the child has left behind. -/
theorem broken_step (h : Broken input s) (hs : step input qbytes s a = some u) :
    Broken input u := by
  by_cases ha : a.OfParent
  · obtain ⟨hchild, -, houtput⟩ := frame_parent ha hs
    exact ⟨hchild.trans h.exited, houtput ▸ h.output⟩
  · cases a with
    | childOpen | childReceive | childTest | childWrite => simp [step, h.exited] at hs
    | _ => exact absurd trivial ha

theorem stage_init (old : Option (List Byte)) : Stage input (init old) := by
  apply Stage.flowing []
  exact {
    queue := rfl
    bytes := by simp [init, State.written, ChildPc.pending, ParentPc.pending]
    atEnd := by simp [init, ParentPc.AtEnd]
    opened := by simp [init]
    notExited := by simp [init]
    sentNonempty := by simp
    sendingNonempty := by simp [init]
    testingNonempty := by simp [init] }

/-- A run stays in the stages of the copy until a step takes data for the end. -/
theorem outcome_of_run {tr : List (State × Action)}
    (hrun : Run (step input qbytes) (init old) tr s) :
    FlagSet s ∧ (Stage input s ∧ StepsMeet EndsOnEof tr ∨
      Broken input s ∧ ¬ StepsMeet EndsOnEof tr) := by
  induction hrun with
  | nil => exact ⟨by simp [FlagSet, init, ParentPc.EofSent], .inl ⟨stage_init old, by simp⟩⟩
  | @snoc tr t u a hrun hlast ih =>
    obtain ⟨hflag, hbefore⟩ := ih
    refine ⟨flagSet_step hflag hlast, ?_⟩
    rw [stepsMeet_snoc]
    rcases hbefore with ⟨hstage, hmeet⟩ | ⟨hbroken, hnot⟩
    · by_cases hok : EndsOnEof t a
      · exact .inl ⟨stage_step hstage hflag hok hlast, hmeet, hok⟩
      · exact .inr ⟨broken_of_step hstage hok hlast, fun h => hok h.2⟩
    · exact .inr ⟨broken_step hbroken hlast, fun h => hnot h.1⟩

/-- In the stages of the copy the child exits with a complete file. -/
theorem Stage.output_eq (h : Stage input s) (hexited : s.child = .exited) :
    s.output = some input := by
  cases h with
  | flowing data h => exact absurd hexited h.notExited
  | received n hsent hqueue hpc => simp [hpc] at hexited
  | ended hpc hout => exact hout

/-- When the child has exited, `output.txt` is `input.txt` exactly if the child has taken no block
of the file for the end message. -/
theorem outputComplete_iff_of_run {tr : List (State × Action)}
    (hrun : Run (step input qbytes) (init old) tr s) :
    (s.child = .exited → s.output = some input) ↔ StepsMeet EndsOnEof tr := by
  obtain ⟨-, ⟨hstage, hmeet⟩ | ⟨hbroken, hnot⟩⟩ := outcome_of_run hrun
  · exact ⟨fun _ => hmeet, fun _ => hstage.output_eq⟩
  · exact ⟨fun h => absurd (h hbroken.exited) hbroken.output, fun h => absurd h hnot⟩

/-- A file that begins with `EOF`, copied by a child that tests its block before the flag is
set. -/
def testedInTime : List Action :=
  [.childOpen, .parentRead 4, .parentSend, .childReceive, .childTest, .childWrite 1,
    .childWrite 3, .parentRead 0, .parentSetFlag, .parentSendEof, .childReceive, .childTest,
    .parentWait]

private theorem tested_in_time_executes :
    (execute (step [69, 79, 70, 33] 16384) (fun t a => decide (EndsOnEof t a)) (init none)
      testedInTime).isSome = true := by
  decide +kernel

/-- `outputComplete_iff_of_run` on a run that copies a file which begins with `EOF`. -/
theorem output_eq_tested_in_time :
    ∃ tr s, Run (step [69, 79, 70, 33] 16384) (init none) tr s ∧ s.child = .exited ∧
      StepsMeet EndsOnEof tr ∧ s.output = some [69, 79, 70, 33] := by
  obtain ⟨tr, h, hmeet⟩ := exists_run_of_isSome tested_in_time_executes
  have hends : StepsMeet EndsOnEof tr := hmeet.mono fun t a => of_decide_eq_true
  have hexited : ((execute (step [69, 79, 70, 33] 16384) (fun t a => decide (EndsOnEof t a))
      (init none) testedInTime).get tested_in_time_executes).child = .exited := by
    decide +kernel
  exact ⟨tr, _, h, hexited, hends, (outputComplete_iff_of_run h).mpr hends hexited⟩

private theorem tested_late_executes :
    (execute (step [69, 79, 70, 33] 16384) (fun _ _ => true) (init none)
      [.parentRead 4, .parentSend, .parentRead 0, .parentSetFlag, .childOpen, .childReceive,
        .childTest]).isSome = true := by
  decide +kernel

/-- The same file copied by a child that is slower: the flag is set when it tests the block, and it
exits with an empty `output.txt`. -/
theorem block_taken_for_end :
    ∃ tr s, Run (step [69, 79, 70, 33] 16384) (init none) tr s ∧ s.child = .exited ∧
      s.output = some [] := by
  obtain ⟨tr, h, -⟩ := exists_run_of_isSome tested_late_executes
  exact ⟨tr, _, h, by decide +kernel, by decide +kernel⟩

end MessageQueueCopy
