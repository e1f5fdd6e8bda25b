import PosixTasks.FifoCopy.Model

/-!
# The copy through the FIFO keeps every byte in order

At every moment a byte of `input.txt` is in one of five places: in `output.txt`, in the buffer of
the child behind what is written of it, in the FIFO, in the buffer of the parent behind what is
written of it, or still unread. `State.stream` lists the five in the order of the file, and a
step only moves bytes from one place to the one before it.

The child takes the end of its loop from a `read` that returns zero. By then the parent has closed
the FIFO, hence has read all of its input, and nothing is left in the FIFO.

## Main results

* `conserved_step`: a step moves bytes and neither loses, adds nor exchanges any;
* `together_step`: the parent has closed the FIFO when the child has seen its end;
* `stream_of_run`: the stream is the input in every state from the `open` of `output.txt` on,
  and the file is complete when `wait` has returned.
-/

namespace FifoCopy

open Transition

variable {input : List Byte} {capacity : ℕ} {old : Option (List Byte)} {s u : State} {a : Action}

/-! ## The bytes of the copy -/

/-- What this copy has put in `output.txt`. -/
def State.written (s : State) : List Byte :=
  if s.child = .openingOutput then [] else s.output.getD []

/-- No byte is lost, added or out of order. -/
structure Conserved (input : List Byte) (s : State) : Prop where
  bytes : s.written ++ s.inFlight ++ input.drop s.offset = input
  /-- The child opens `output.txt` before it does anything else. -/
  opened : s.child ≠ .openingOutput → s.output.isSome

@[simp]
theorem pending_parentWriteLoop (buffer : List Byte) (toWrite written : ℕ) :
    (parentWriteLoop toWrite written).pending buffer = Pieces.rest buffer toWrite written := by
  unfold parentWriteLoop
  split
  · rfl
  · exact (Pieces.rest_eq_nil buffer (by omega)).symm

@[simp]
theorem pending_childWriteLoop (buffer : List Byte) (toWrite written : ℕ) :
    (childWriteLoop toWrite written).pending buffer = Pieces.rest buffer toWrite written := by
  unfold childWriteLoop
  split
  · rfl
  · exact (Pieces.rest_eq_nil buffer (by omega)).symm

@[simp]
theorem childWriteLoop_ne_openingOutput (toWrite written : ℕ) :
    childWriteLoop toWrite written ≠ .openingOutput := by
  unfold childWriteLoop
  split <;> simp

/-- Behind a `read` of the parent the whole block is pending, at the end of the file nothing. -/
theorem pending_parentRead {n : ℕ} (buffer : List Byte) (hread : ReadReturns input s.offset n) :
    (if 0 < n then parentWriteLoop n 0 else ParentPc.closing).pending
        ((input.drop s.offset).take n ++ buffer) =
      (input.drop s.offset).take n := by
  have hlen : ((input.drop s.offset).take n).length = n := Pieces.length_take_drop hread.2.1
  split
  next =>
    rw [pending_parentWriteLoop]
    simpa only [hlen] using Pieces.rest_append ((input.drop s.offset).take n) buffer
  next hzero =>
    have h0 : n = 0 := by omega
    simp [ParentPc.pending, h0]

/-- Behind a `read` of the child the whole block is pending, at the end of the FIFO nothing. -/
theorem pending_childRead {n : ℕ} (buffer : List Byte) (hread : FifoReadReturns s n) :
    (if 0 < n then childWriteLoop n 0 else ChildPc.closing).pending (s.fifo.take n ++ buffer) =
      s.fifo.take n := by
  have hlen : (s.fifo.take n).length = n := List.length_take_of_le hread.2.1
  split
  next =>
    rw [pending_childWriteLoop]
    simpa only [hlen] using Pieces.rest_append (s.fifo.take n) buffer
  next hzero =>
    have h0 : n = 0 := by omega
    simp [ChildPc.pending, h0]

/-- A step moves bytes towards `output.txt` and keeps their order. -/
theorem conserved_step (h : Conserved input s) (hs : step input capacity s a = some u) :
    Conserved input u := by
  obtain ⟨hbytes, hopen⟩ := h
  cases a with
  | parentOpen | parentOpened | parentClose | parentWait =>
    simp only [step, Option.ite_none_right_eq_some, Option.some.injEq] at hs
    obtain ⟨hpc, rfl⟩ := hs
    refine ⟨?_, hopen⟩
    simpa [State.written, State.inFlight, ParentPc.pending, hpc] using hbytes
  | childOpen | childOpened | childExit =>
    simp only [step, Option.ite_none_right_eq_some, Option.some.injEq] at hs
    obtain ⟨hpc, rfl⟩ := hs
    refine ⟨?_, fun _ => hopen (by simp [hpc])⟩
    simpa [State.written, State.inFlight, ChildPc.pending, hpc] using hbytes
  | childOpenOutput =>
    simp only [step, Option.ite_none_right_eq_some, Option.some.injEq] at hs
    obtain ⟨hpc, rfl⟩ := hs
    refine ⟨?_, fun _ => rfl⟩
    simpa [State.written, State.inFlight, ChildPc.pending, hpc] using hbytes
  | parentRead n =>
    simp only [step, Option.ite_none_right_eq_some, Option.some.injEq] at hs
    obtain ⟨⟨hpc, hread⟩, rfl⟩ := hs
    refine ⟨?_, hopen⟩
    -- what is read leaves the unread part and is pending in the parent
    have hnone : s.parent.pending s.parentBuffer = [] := by rw [hpc]; rfl
    rw [← Pieces.take_append_drop_add input s.offset n] at hbytes
    simpa [State.written, State.inFlight, pending_parentRead _ hread, hnone] using hbytes
  | parentWrite n =>
    simp only [step] at hs
    split at hs
    next toWrite written hpc =>
      simp only [Option.ite_none_right_eq_some, Option.some.injEq] at hs
      obtain ⟨⟨_, hle, _⟩, rfl⟩ := hs
      refine ⟨?_, hopen⟩
      -- the piece leaves the rest of the block and is behind what the FIFO held
      have hpiece : s.parent.pending s.parentBuffer = (s.parentBuffer.drop written).take n ++
          Pieces.rest s.parentBuffer toWrite (written + n) := by
        rw [hpc]
        exact (Pieces.take_append_rest s.parentBuffer hle).symm
      simpa [State.written, State.inFlight, hpiece] using hbytes
    next => cases hs
  | childRead n =>
    simp only [step, Option.ite_none_right_eq_some, Option.some.injEq] at hs
    obtain ⟨⟨hpc, hread⟩, rfl⟩ := hs
    refine ⟨?_, fun _ => hopen (by simp [hpc])⟩
    -- what is read leaves the FIFO and is pending in the child
    have hnone : s.child.pending s.childBuffer = [] := by rw [hpc]; rfl
    have hwritten : s.written = s.output.getD [] := if_neg (by simp [hpc])
    have hnext : (if 0 < n then childWriteLoop n 0 else ChildPc.closing) ≠ .openingOutput := by
      split <;> simp
    simp only [State.inFlight, hnone, hwritten, List.nil_append] at hbytes
    rw [← List.take_append_drop n s.fifo] at hbytes
    simpa [State.written, State.inFlight, pending_childRead _ hread, hnext] using hbytes
  | childWrite n =>
    simp only [step] at hs
    split at hs
    next toWrite written hpc =>
      simp only [Option.ite_none_right_eq_some, Option.some.injEq] at hs
      obtain ⟨⟨_, hle⟩, rfl⟩ := hs
      have hsome : s.output.isSome := hopen (by simp [hpc])
      obtain ⟨out, hout⟩ := Option.isSome_iff_exists.mp hsome
      refine ⟨?_, fun _ => by simp [hout]⟩
      -- the piece leaves the rest of the block and is behind what the file held
      have hpiece : s.child.pending s.childBuffer = (s.childBuffer.drop written).take n ++
          Pieces.rest s.childBuffer toWrite (written + n) := by
        rw [hpc]
        exact (Pieces.take_append_rest s.childBuffer hle).symm
      have hwritten : s.written = out := by simp [State.written, hpc, hout]
      simp only [State.inFlight, hpiece, hwritten] at hbytes
      simpa [State.written, State.inFlight, hout] using hbytes
    next => cases hs

/-! ## The end of the copy -/

/-- The parent has closed the FIFO. -/
def ParentPc.Closed : ParentPc → Prop
  | .waiting | .waited => True
  | _ => False

/-- The parent has seen the end of its input. -/
def ParentPc.AtEnd : ParentPc → Prop
  | .closing | .waiting | .waited => True
  | _ => False

/-- The child has seen the end of the FIFO. -/
def ChildPc.AtEnd : ChildPc → Prop
  | .closing | .exited => True
  | _ => False

/-- The child has come back from `open` on the FIFO. -/
def ChildPc.HasOpened : ChildPc → Prop
  | .openingOutput | .opening | .inOpen => False
  | _ => True

/-- Where the two processes can be at the same time, as far as the end of the copy goes. -/
structure Together (input : List Byte) (s : State) : Prop where
  /-- The child does not come back from `open` before the parent has entered it. -/
  met : s.child.HasOpened → s.parent ≠ .opening
  atEnd : s.parent.AtEnd → input.length ≤ s.offset
  /-- The child sees the end of the FIFO only if the parent has closed it. -/
  drained : s.child.AtEnd → s.parent.Closed ∧ s.fifo = []
  waited : s.parent = .waited → s.child = .exited

/-- Without the FIFO the parent is in front of it or behind it. -/
theorem ParentPc.closed_of_holdsFifo {p : ParentPc} (h : p.holdsFifo = false)
    (hmet : p ≠ .opening) : p.Closed := by
  cases p <;> simp_all [ParentPc.holdsFifo, ParentPc.Closed]

theorem ParentPc.ne_opening_of_holdsFifo {p : ParentPc} (h : p.holdsFifo = true) :
    p ≠ .opening := by
  rintro rfl
  cases h

/-- With the parent in its loop around `write`, neither process is at the end. -/
theorem Together.of_parentLoop {toWrite written : ℕ} (h : Together input s)
    (hopen : ¬ s.parent.Closed) (hparent : u.parent = parentWriteLoop toWrite written)
    (hchild : u.child = s.child) : Together input u where
  met := by
    intro _
    rw [hparent, parentWriteLoop]
    split <;> simp
  atEnd := by
    rw [hparent, parentWriteLoop]
    split <;> simp [ParentPc.AtEnd]
  drained := by
    rw [hchild]
    exact fun hc => absurd (h.drained hc).1 hopen
  waited := by
    rw [hparent, parentWriteLoop]
    split <;> simp

/-- The child in its loop around `write` is not at the end. -/
theorem Together.of_childLoop {toWrite written : ℕ} (h : Together input s)
    (hopened : s.child.HasOpened) (hrunning : s.child ≠ .exited)
    (hchild : u.child = childWriteLoop toWrite written) (hparent : u.parent = s.parent)
    (hoffset : u.offset = s.offset) : Together input u where
  met := by
    rw [hparent]
    exact fun _ => h.met hopened
  atEnd := by
    rw [hparent, hoffset]
    exact h.atEnd
  drained := by
    rw [hchild, childWriteLoop]
    split <;> simp [ChildPc.AtEnd]
  waited := by
    rw [hparent]
    exact fun hw => absurd (h.waited hw) hrunning

/-- A process that is not in front of or behind the FIFO keeps the other one from its end. -/
theorem together_step (h : Together input s) (hs : step input capacity s a = some u) :
    Together input u := by
  cases a with
  | parentOpen | parentOpened | parentClose =>
    simp only [step, Option.ite_none_right_eq_some, Option.some.injEq] at hs
    obtain ⟨hpc, rfl⟩ := hs
    obtain ⟨hmet, hend, hdrained, hwaited⟩ := h
    constructor <;> simp_all [ParentPc.AtEnd, ParentPc.Closed]
  | parentWait =>
    simp only [step, Option.ite_none_right_eq_some, Option.some.injEq] at hs
    obtain ⟨⟨hpc, hexited⟩, rfl⟩ := hs
    exact {
      met := by simp
      atEnd := fun _ => h.atEnd (by rw [hpc]; trivial)
      drained := fun hc => ⟨trivial, (h.drained hc).2⟩
      waited := fun _ => hexited }
  | parentRead n =>
    simp only [step, Option.ite_none_right_eq_some, Option.some.injEq] at hs
    obtain ⟨⟨hpc, hread⟩, rfl⟩ := hs
    -- in its loop the parent holds the FIFO
    have hopen : ¬ s.parent.Closed := by simp [hpc, ParentPc.Closed]
    by_cases hpos : 0 < n
    · exact h.of_parentLoop hopen (if_pos hpos) rfl
    · -- the parent leaves its loop, as it has read up to the end
      have hzero : n = 0 := by omega
      simp only [hpos, ↓reduceIte]
      exact {
        met := by simp
        atEnd := fun _ => by simpa [hzero] using hread.2.2 hzero
        drained := fun hc => absurd (h.drained hc).1 hopen
        waited := by simp }
  | parentWrite n =>
    simp only [step] at hs
    split at hs
    next toWrite written hpc =>
      simp only [Option.ite_none_right_eq_some, Option.some.injEq] at hs
      obtain ⟨-, rfl⟩ := hs
      have hopen : ¬ s.parent.Closed := by simp [hpc, ParentPc.Closed]
      exact h.of_parentLoop hopen rfl rfl
    next => cases hs
  | childOpenOutput | childOpen =>
    simp only [step, Option.ite_none_right_eq_some, Option.some.injEq] at hs
    obtain ⟨hpc, rfl⟩ := hs
    obtain ⟨hmet, hend, hdrained, hwaited⟩ := h
    constructor <;> simp_all [ChildPc.AtEnd, ChildPc.HasOpened]
  | childOpened =>
    simp only [step, Option.ite_none_right_eq_some, Option.some.injEq] at hs
    obtain ⟨⟨hpc, hheld⟩, rfl⟩ := hs
    -- the child's `open` returns once the parent has the FIFO open
    have hne := ParentPc.ne_opening_of_holdsFifo hheld
    obtain ⟨hmet, hend, hdrained, hwaited⟩ := h
    constructor <;> simp_all [ChildPc.AtEnd]
  | childRead n =>
    simp only [step, Option.ite_none_right_eq_some, Option.some.injEq] at hs
    obtain ⟨⟨hpc, hread⟩, rfl⟩ := hs
    have hopened : s.child.HasOpened := by rw [hpc]; trivial
    have hrunning : s.child ≠ .exited := by simp [hpc]
    by_cases hpos : 0 < n
    · exact h.of_childLoop hopened hrunning (if_pos hpos) rfl rfl
    · -- `read` returns zero only if the FIFO is empty and the parent has closed it
      have hzero : n = 0 := by omega
      obtain ⟨hempty, hfree⟩ := hread.2.2 hzero
      have hne := h.met hopened
      simp only [hpos, ↓reduceIte]
      exact {
        met := fun _ => hne
        atEnd := h.atEnd
        drained := fun _ => ⟨ParentPc.closed_of_holdsFifo hfree hne, by simp [hempty]⟩
        waited := fun hw => absurd (h.waited hw) hrunning }
  | childWrite n =>
    simp only [step] at hs
    split at hs
    next toWrite written hpc =>
      simp only [Option.ite_none_right_eq_some, Option.some.injEq] at hs
      obtain ⟨-, rfl⟩ := hs
      have hopened : s.child.HasOpened := by rw [hpc]; trivial
      have hrunning : s.child ≠ .exited := by simp [hpc]
      exact h.of_childLoop hopened hrunning rfl rfl rfl
    next => cases hs
  | childExit =>
    simp only [step, Option.ite_none_right_eq_some, Option.some.injEq] at hs
    obtain ⟨hpc, rfl⟩ := hs
    obtain ⟨hmet, hend, hdrained, hwaited⟩ := h
    constructor <;> simp_all [ChildPc.AtEnd, ChildPc.HasOpened]

theorem conserved_init (input : List Byte) (old : Option (List Byte)) :
    Conserved input (init old) where
  bytes := by simp [init, State.written, State.inFlight, ParentPc.pending, ChildPc.pending]
  opened := by simp [init]

theorem together_init (input : List Byte) (old : Option (List Byte)) :
    Together input (init old) where
  met := by simp [init, ChildPc.HasOpened]
  atEnd := by simp [init, ParentPc.AtEnd]
  drained := by simp [init, ChildPc.AtEnd]
  waited := by simp [init]

/-- Before the child has opened `output.txt`, the file is the one from an earlier run. -/
theorem old_output_step (h : s.child = .openingOutput → s.output = old)
    (hs : step input capacity s a = some u) : u.child = .openingOutput → u.output = old := by
  intro hopening
  cases a with
  | parentOpen | parentOpened | parentRead _ | parentClose | parentWait | childOpenOutput
  | childOpen | childOpened | childExit =>
    simp only [step, Option.ite_none_right_eq_some, Option.some.injEq] at hs
    obtain ⟨-, rfl⟩ := hs
    first
    | exact h hopening
    | cases hopening
  | parentWrite n =>
    simp only [step] at hs
    split at hs
    next =>
      simp only [Option.ite_none_right_eq_some, Option.some.injEq] at hs
      obtain ⟨-, rfl⟩ := hs
      exact h hopening
    next => cases hs
  | childRead n =>
    simp only [step, Option.ite_none_right_eq_some, Option.some.injEq] at hs
    obtain ⟨-, rfl⟩ := hs
    have hnext : (if 0 < n then childWriteLoop n 0 else ChildPc.closing) ≠ .openingOutput := by
      split <;> simp
    exact absurd hopening hnext
  | childWrite n =>
    simp only [step] at hs
    split at hs
    next =>
      simp only [Option.ite_none_right_eq_some, Option.some.injEq] at hs
      obtain ⟨-, rfl⟩ := hs
      exact absurd hopening (childWriteLoop_ne_openingOutput _ _)
    next => cases hs

/-- When `wait` has returned, nothing is under way any more. -/
theorem output_eq_of_waited (hbytes : Conserved input s) (htogether : Together input s)
    (hwaited : s.parent = .waited) : s.output = some input := by
  have hexited : s.child = .exited := htogether.waited hwaited
  have hempty : s.fifo = [] := (htogether.drained (by rw [hexited]; trivial)).2
  have hunread : input.drop s.offset = [] :=
    List.drop_eq_nil_of_le (htogether.atEnd (by rw [hwaited]; trivial))
  obtain ⟨out, hout⟩ := Option.isSome_iff_exists.mp (hbytes.opened (by simp [hexited]))
  have hall := hbytes.bytes
  simp only [State.written, State.inFlight, hexited, hwaited, hempty, hunread, hout] at hall
  simpa [ParentPc.pending, ChildPc.pending, hout] using hall

/-- In every state of every run the five places hold the input in its order, from the `open` of
`output.txt` on or, where the file of an earlier run is absent or empty, from the start; and the
file is complete when `wait` has returned. -/
theorem stream_of_run {tr : List (State × Action)}
    (hrun : Run (step input capacity) (init old) tr s) :
    (∀ t ∈ states tr s, (t.child = .openingOutput → old.getD [] = []) → t.stream input = input) ∧
      (s.parent = .waited → s.output = some input) := by
  have hall : ∀ t ∈ states tr s, Conserved input t ∧ Together input t ∧
      (t.child = .openingOutput → t.output = old) := by
    refine hrun.invariant_all_states ⟨conserved_init _ _, together_init _ _, fun _ => rfl⟩ ?_
    rintro t a v ⟨hbytes, htogether, hold⟩ hs
    exact ⟨conserved_step hbytes hs, together_step htogether hs, old_output_step hold hs⟩
  refine ⟨fun t ht hnew => ?_, fun hwaited => ?_⟩
  · obtain ⟨hbytes, -, hold⟩ := hall t ht
    have hwritten : t.written = t.output.getD [] := by
      unfold State.written
      split
      next hc => rw [hold hc, hnew hc]
      next => rfl
    rw [State.stream, ← hwritten]
    exact hbytes.bytes
  · obtain ⟨hbytes, htogether, -⟩ := hall s (mem_states_last tr s)
    exact output_eq_of_waited hbytes htogether hwaited

/-- Two bytes in one block, which the parent writes in two pieces. The FIFO holds one byte at a
time, and the child writes the first one before the second one is in it. -/
def twoBytes : List Action :=
  [.childOpenOutput, .parentOpen, .childOpen, .childOpened, .parentOpened, .parentRead 2,
    .parentWrite 1, .childRead 1, .childWrite 1, .parentWrite 1, .childRead 1, .parentRead 0,
    .parentClose, .childWrite 1, .childRead 0, .childExit, .parentWait]

private theorem two_bytes_execute :
    (execute (step [7, 8] 1) (fun _ _ => true) (init none) twoBytes).isSome = true := by
  decide +kernel

/-- `stream_of_run` on a run that copies two bytes. -/
theorem stream_of_run_two_bytes :
    ∃ tr s, Run (step [7, 8] 1) (init none) tr s ∧ s.parent = .waited ∧
      (∀ t ∈ states tr s, t.stream [7, 8] = [7, 8]) ∧ s.output = some [7, 8] := by
  obtain ⟨tr, h, -⟩ := exists_run_of_isSome two_bytes_execute
  obtain ⟨hstream, houtput⟩ := stream_of_run h
  exact ⟨tr, _, h, by decide +kernel, fun t ht => hstream t ht fun _ => rfl,
    houtput (by decide +kernel)⟩

end FifoCopy
