import PosixTasks.SemaphoreCopy.Model

/-!
# The copy through the shared buffer is exclusive and complete

One token goes round between semaphore 0, the producer, semaphore 1 and the consumer. `Stage`
lists the places where it can be, and for each of them how much of the file has reached the
buffer and `output.txt`.

The producer hands over the token for the last time when it leaves its loop. By then the
consumer has written everything, for only the consumer can have given the token back. It has
written nothing if there was nothing to write, and then it may not even have opened
`output.txt`.

## Main results

* `stage_of_run`: every run stays in these stages, also after the semaphores are gone;
* `copyOk_iff_of_run`: the copy is exclusive and complete in all states of a run exactly if what
  `output.txt` held before is a part of the input and the consumer has opened `output.txt` when
  the producer leaves its loop with nothing read.
-/

namespace SemaphoreCopy

open Transition

variable {input : List Byte} {o₀ : Option (List Byte)} {s u : State}

/-! ## Stages of the copy -/

/-- The consumer has not been given the token. -/
def ChildPc.Idle : ChildPc → Prop
  | .opening | .waiting => True
  | _ => False

/-- The consumer may be here once the semaphores are gone. -/
def ChildPc.Finishing : ChildPc → Prop
  | .sizing | .writing _ _ | .signalling false => False
  | _ => True

/-- Where the producer goes on after its `sem_signal`. -/
def ParentPc.afterSignal (last : Bool) : ParentPc :=
  if last then .left true else .waiting

/-- `output.txt` holds the first `k` bytes of the input. Until the consumer opens it, it is what
it was before. -/
def OutputAt (input : List Byte) (o₀ : Option (List Byte)) (child : ChildPc)
    (output : Option (List Byte)) (k : ℕ) : Prop :=
  if child = .opening then k = 0 ∧ output = o₀ else output = some (input.take k)

/-- The buffer starts with the last `n` bytes read, and `n` is zero at the end of the file only. -/
structure Chunk (input : List Byte) (offset : ℕ) (buffer : List Byte) (n : ℕ) : Prop where
  le_offset : n ≤ offset
  offset_le : offset ≤ input.length
  bytes : buffer.take n = (input.drop (offset - n)).take n
  atEnd : n = 0 → offset = input.length

/-- The segment as the producer hands it over: the size is that of the chunk, and `eof` is set
exactly with an empty one. -/
structure Filled (input : List Byte) (offset : ℕ) (shd : SharedData) : Prop where
  chunk : Chunk input offset shd.buffer shd.bufSize
  eof_iff : shd.eof = true ↔ shd.bufSize = 0

/-- Where the token is, and what has been copied by then. -/
inductive Stage (input : List Byte) (o₀ : Option (List Byte)) (s : State) : Prop where
  /-- in semaphore 0, for the producer -/
  | free (hsems : s.sems = some (1, 0)) (hparent : s.parent = .waiting)
      (hchild : s.child.Idle) (hle : s.offset ≤ input.length)
      (hout : OutputAt input o₀ s.child s.output s.offset)
  | reading (hsems : s.sems = some (0, 0)) (hparent : s.parent = .reading)
      (hchild : s.child.Idle) (hle : s.offset ≤ input.length)
      (hout : OutputAt input o₀ s.child s.output s.offset)
  | storing (n : ℕ) (hsems : s.sems = some (0, 0)) (hparent : s.parent = .storing n)
      (hchild : s.child.Idle) (hchunk : Chunk input s.offset s.shd.buffer n)
      (hout : OutputAt input o₀ s.child s.output (s.offset - n))
  | halfStored (n : ℕ) (hsems : s.sems = some (0, 0)) (hparent : s.parent = .halfStored n)
      (hchild : s.child.Idle) (hchunk : Chunk input s.offset s.shd.buffer n)
      (hhalf : if 0 < n then s.shd.bufSize = n else s.shd.eof = true)
      (hout : OutputAt input o₀ s.child s.output (s.offset - n))
  | signalling (hsems : s.sems = some (0, 0)) (hparent : s.parent = .signalling s.shd.eof)
      (hchild : s.child.Idle) (hfilled : Filled input s.offset s.shd)
      (hout : OutputAt input o₀ s.child s.output (s.offset - s.shd.bufSize))
  /-- in semaphore 1, for the consumer -/
  | handed (hsems : s.sems = some (0, 1)) (hparent : s.parent = .afterSignal s.shd.eof)
      (hchild : s.child.Idle) (hfilled : Filled input s.offset s.shd)
      (hout : OutputAt input o₀ s.child s.output (s.offset - s.shd.bufSize))
  | checking (hsems : s.sems = some (0, 0)) (hparent : s.parent = .afterSignal s.shd.eof)
      (hchild : s.child = .checking) (hfilled : Filled input s.offset s.shd)
      (hout : OutputAt input o₀ s.child s.output (s.offset - s.shd.bufSize))
  | sizing (hsems : s.sems = some (0, 0)) (hparent : s.parent = .waiting)
      (hchild : s.child = .sizing) (hchunk : Chunk input s.offset s.shd.buffer s.shd.bufSize)
      (hout : OutputAt input o₀ s.child s.output (s.offset - s.shd.bufSize))
  | writing (total w : ℕ) (hsems : s.sems = some (0, 0)) (hparent : s.parent = .waiting)
      (hchild : s.child = .writing total w) (hlt : w < total)
      (hchunk : Chunk input s.offset s.shd.buffer total)
      (hout : OutputAt input o₀ s.child s.output (s.offset - total + w))
  | flushed (last : Bool) (hsems : s.sems = some (0, 0)) (hparent : s.parent = .afterSignal last)
      (hchild : s.child = .signalling last) (hle : s.offset ≤ input.length)
      (hlast : last = true → s.shd.eof = true ∧ s.offset = input.length)
      (hout : OutputAt input o₀ s.child s.output s.offset)
  /-- back in semaphore 0, with the producer gone -/
  | finished (hsems : s.sems = some (1, 0)) (hparent : s.parent = .left true)
      (hchild : s.child = .ended) (heof : s.shd.eof = true) (hend : s.offset = input.length)
      (hout : OutputAt input o₀ s.child s.output s.offset)
  /-- gone with the semaphores -/
  | removed (hsems : s.sems = none) (hparent : s.parent = .removed true)
      (hchild : s.child.Finishing) (heof : s.shd.eof = true) (hend : s.offset = input.length)
      (hout : OutputAt input o₀ s.child s.output s.offset)

/-! ## Chunks and output -/

theorem outputAt_of_ne {child : ChildPc} {output : Option (List Byte)} {k : ℕ}
    (h : child ≠ .opening) : OutputAt input o₀ child output k ↔ output = some (input.take k) := by
  rw [OutputAt, if_neg h]

/-- What the output holds does not depend on where exactly the consumer is. -/
theorem OutputAt.move {child child' : ChildPc} {output : Option (List Byte)} {k : ℕ}
    (h : OutputAt input o₀ child output k) (hne : child ≠ .opening) (hne' : child' ≠ .opening) :
    OutputAt input o₀ child' output k := by
  rw [outputAt_of_ne hne] at h
  exact (outputAt_of_ne hne').mpr h

/-- Opening `output.txt` empties it, and there is nothing in it that would be lost. -/
theorem OutputAt.opened {output : Option (List Byte)} {k : ℕ}
    (h : OutputAt input o₀ .opening output k) : OutputAt input o₀ .waiting (some []) k := by
  obtain ⟨rfl, -⟩ : k = 0 ∧ output = o₀ := by simpa [OutputAt] using h
  simp [OutputAt]

/-- What `read` returns becomes the chunk. -/
theorem chunk_read {offset n : ℕ} {buffer : List Byte} (hle : offset ≤ input.length)
    (hread : ReadReturns input offset n) :
    Chunk input (offset + n) ((input.drop offset).take n ++ buffer.drop n) n := by
  obtain ⟨-, havail, hzero⟩ := hread
  have hlength : ((input.drop offset).take n).length = n := by
    simp only [List.length_take, List.length_drop]
    omega
  exact {
    le_offset := by omega
    offset_le := by omega
    bytes := by
      rw [Nat.add_sub_cancel, List.take_append_of_le_length hlength.ge,
        List.take_of_length_le hlength.le]
    atEnd := fun hn => by
      have := hzero hn
      omega }

/-- The bytes of the chunk that `write` takes are the next ones of the input. -/
theorem Chunk.take_append {offset total w n : ℕ} {buffer : List Byte}
    (h : Chunk input offset buffer total) (hn : w + n ≤ total) :
    input.take (offset - total + w) ++ (buffer.drop w).take n =
      input.take (offset - total + (w + n)) := by
  have hbytes : (buffer.drop w).take n = (input.drop (offset - total + w)).take n := by
    -- both sides lie inside the chunk
    have hdrop := congrArg (fun l => (l.drop w).take n) h.bytes
    simp only [List.drop_take, List.take_take, List.drop_drop] at hdrop
    rwa [min_eq_left (by omega)] at hdrop
  rw [hbytes, ← Nat.add_assoc, ← List.take_add]

/-- At the end of the file nothing is missing from the output. -/
theorem Filled.at_end {offset : ℕ} {shd : SharedData} (h : Filled input offset shd)
    (heof : shd.eof = true) : shd.bufSize = 0 ∧ offset = input.length :=
  ⟨h.eof_iff.mp heof, h.chunk.atEnd (h.eof_iff.mp heof)⟩

/-! ## One step of the producer -/

/-- The initial state is a stage. -/
theorem stage_init (shd : SharedData) : Stage input o₀ (init o₀ shd) :=
  .free rfl rfl trivial (Nat.zero_le _) (by simp [OutputAt, init])

/-- Once it has given the token away the producer only waits for it, or removes the semaphores. -/
theorem step_afterSignal {last : Bool} (hparent : s.parent = .afterSignal last) :
    (∀ n, step input s (.parentRead n) = none) ∧ step input s .parentStore = none ∧
      step input s .parentSignal = none := by
  cases last <;> simp [step, hparent, ParentPc.afterSignal]

theorem stage_parentWait (hs : Stage input o₀ s) (h : step input s .parentWait = some u) :
    Stage input o₀ u := by
  cases hs with
  | free hsems hparent hchild hle hout =>
    simp only [step, hparent, hsems, semWait, Option.some.injEq] at h
    subst h
    exact .reading rfl rfl hchild hle hout
  | handed hsems | checking hsems | flushed _ hsems =>
    -- the token is not in semaphore 0
    simp [step, hsems, semWait] at h
  | _ => simp_all [step, semWait]

theorem stage_parentRead {n : ℕ} (hs : Stage input o₀ s)
    (h : step input s (.parentRead n) = some u) : Stage input o₀ u := by
  cases hs with
  | reading hsems hparent hchild hle hout =>
    simp only [step, Option.ite_none_right_eq_some, Option.some.injEq] at h
    obtain ⟨⟨-, hread⟩, rfl⟩ := h
    refine .storing n hsems rfl hchild (chunk_read hle hread) ?_
    simpa using hout
  | handed _ hparent | checking _ hparent | flushed _ _ hparent =>
    simp [(step_afterSignal hparent).1] at h
  | _ => simp_all [step]

theorem stage_parentStore (hs : Stage input o₀ s) (h : step input s .parentStore = some u) :
    Stage input o₀ u := by
  -- the size and the flag are stored in two steps, in an order that the size decides
  cases hs with
  | storing n hsems hparent hchild hchunk hout =>
    simp only [step, hparent] at h
    split at h <;> cases h
    next hn => exact .halfStored n hsems rfl hchild hchunk (by simp [hn]) hout
    next hn => exact .halfStored n hsems rfl hchild hchunk (by simp [hn]) hout
  | halfStored n hsems hparent hchild hchunk hhalf hout =>
    simp only [step, hparent] at h
    split at h <;> cases h
    next hn =>
      rw [if_pos hn] at hhalf
      subst hhalf
      exact .signalling hsems rfl hchild ⟨hchunk, by simp; omega⟩ hout
    next hn =>
      rw [if_neg hn] at hhalf
      obtain rfl : n = 0 := by omega
      refine .signalling hsems ?_ hchild ⟨hchunk, by simp [hhalf]⟩ hout
      simp [hhalf]
  | handed _ hparent | checking _ hparent | flushed _ _ hparent =>
    simp [(step_afterSignal hparent).2.1] at h
  | _ => simp_all [step]

theorem stage_parentSignal (hs : Stage input o₀ s) (h : step input s .parentSignal = some u) :
    Stage input o₀ u := by
  cases hs with
  | signalling hsems hparent hchild hfilled hout =>
    simp only [step, hparent, hsems, semSignal, Option.some.injEq] at h
    subst h
    exact .handed rfl rfl hchild hfilled hout
  | handed _ hparent | checking _ hparent | flushed _ _ hparent =>
    simp [(step_afterSignal hparent).2.2] at h
  | _ => simp_all [step, semSignal]

/-- The producer removes the semaphores only after it has handed over an empty chunk. -/
theorem stage_parentRemove (hs : Stage input o₀ s) (h : step input s .parentRemove = some u) :
    Stage input o₀ u := by
  -- the child may be anywhere behind its last wait, or still before it
  cases hs with
  | handed hsems hparent hchild hfilled hout =>
    cases heof : s.shd.eof <;> simp only [step, hparent, ParentPc.afterSignal, heof] at h <;>
      cases h
    obtain ⟨hsize, hend⟩ := hfilled.at_end heof
    refine .removed rfl rfl ?_ heof hend (by simpa [hsize] using hout)
    cases hc : s.child <;> simp_all [ChildPc.Idle, ChildPc.Finishing]
  | checking hsems hparent hchild hfilled hout =>
    cases heof : s.shd.eof <;> simp only [step, hparent, ParentPc.afterSignal, heof] at h <;>
      cases h
    obtain ⟨hsize, hend⟩ := hfilled.at_end heof
    exact .removed rfl rfl (by simp [hchild, ChildPc.Finishing]) heof hend
      (by simpa [hsize] using hout)
  | flushed last hsems hparent hchild hle hlast hout =>
    cases last <;> simp only [step, hparent, ParentPc.afterSignal] at h <;> cases h
    obtain ⟨heof, hend⟩ := hlast rfl
    exact .removed rfl rfl (by simp [hchild, ChildPc.Finishing]) heof hend hout
  | finished hsems hparent hchild heof hend hout =>
    simp only [step, hparent, Option.some.injEq] at h
    subst h
    exact .removed rfl rfl (by simp [hchild, ChildPc.Finishing]) heof hend hout
  | _ => simp_all [step]

/-! ## One step of the consumer -/

/-- Opening `output.txt` leaves the consumer idle, or finishing. -/
theorem stage_childOpen (hs : Stage input o₀ s) (h : step input s .childOpen = some u) :
    Stage input o₀ u := by
  simp only [step, Option.ite_none_right_eq_some, Option.some.injEq] at h
  obtain ⟨hopening, rfl⟩ := h
  cases hs with
  | free hsems hparent _ hle hout =>
    exact .free hsems hparent trivial hle (hopening ▸ hout).opened
  | reading hsems hparent _ hle hout =>
    exact .reading hsems hparent trivial hle (hopening ▸ hout).opened
  | storing n hsems hparent _ hchunk hout =>
    exact .storing n hsems hparent trivial hchunk (hopening ▸ hout).opened
  | halfStored n hsems hparent _ hchunk hhalf hout =>
    exact .halfStored n hsems hparent trivial hchunk hhalf (hopening ▸ hout).opened
  | signalling hsems hparent _ hfilled hout =>
    exact .signalling hsems hparent trivial hfilled (hopening ▸ hout).opened
  | handed hsems hparent _ hfilled hout =>
    exact .handed hsems hparent trivial hfilled (hopening ▸ hout).opened
  | removed hsems hparent _ heof hend hout =>
    exact .removed hsems hparent trivial heof hend (hopening ▸ hout).opened
  | _ => simp_all

theorem stage_childWait (hs : Stage input o₀ s) (h : step input s .childWait = some u) :
    Stage input o₀ u := by
  cases hs with
  | handed hsems hparent hchild hfilled hout =>
    cases hc : s.child <;> simp only [step, hc, hsems, semWait] at h <;> cases h
    exact .checking rfl hparent rfl hfilled (hout.move (by simp [hc]) (by simp))
  | removed hsems hparent hchild heof hend hout =>
    cases hc : s.child <;> simp only [step, hc, hsems, semWait] at h <;> cases h
    exact .removed rfl hparent trivial heof hend (hout.move (by simp [hc]) (by simp))
  | free hsems | reading hsems | storing _ hsems | halfStored _ hsems | signalling hsems =>
    -- the token is not in semaphore 1
    simp [step, hsems, semWait] at h
  | _ => simp_all [step, semWait]

theorem stage_childCheck (hs : Stage input o₀ s) (h : step input s .childCheck = some u) :
    Stage input o₀ u := by
  simp only [step, Option.ite_none_right_eq_some, Option.some.injEq] at h
  obtain ⟨hchecking, rfl⟩ := h
  cases hs with
  | checking hsems hparent hchild hfilled hout =>
    have hne : s.child ≠ .opening := by simp [hchild]
    -- at the end of the file nothing more is written
    cases heof : s.shd.eof with
    | true =>
      obtain ⟨hsize, hend⟩ := hfilled.at_end heof
      rw [heof] at hparent
      refine .flushed true hsems hparent (by simp) hend.le (fun _ => ⟨heof, hend⟩) ?_
      exact (by simpa [hsize] using hout : OutputAt input o₀ s.child s.output s.offset).move hne
        (by simp)
    | false =>
      rw [heof] at hparent
      exact .sizing hsems hparent (by simp) hfilled.chunk (hout.move hne (by simp))
  | removed hsems hparent hchild heof hend hout =>
    refine .removed hsems hparent (by simp [heof, ChildPc.Finishing]) heof hend ?_
    exact hout.move (by simp [hchecking]) (by simp [heof])
  | _ => simp_all [ChildPc.Idle]

/-- The loop around `write` is left when all of the chunk is in the output. -/
theorem stage_writeLoop {total w : ℕ} {output : Option (List Byte)}
    (hsems : s.sems = some (0, 0)) (hparent : s.parent = .waiting)
    (hchunk : Chunk input s.offset s.shd.buffer total) (hle : w ≤ total)
    (hout : output = some (input.take (s.offset - total + w))) :
    Stage input o₀ { s with child := writeLoop total w, output := output } := by
  rcases hle.lt_or_eq with hlt | rfl
  · have hloop : writeLoop total w = .writing total w := if_pos hlt
    refine .writing total w hsems hparent hloop hlt hchunk ?_
    exact (outputAt_of_ne (by simp [hloop])).mpr hout
  · have hloop : writeLoop w w = .signalling false := if_neg (Nat.lt_irrefl w)
    refine .flushed false hsems hparent hloop hchunk.offset_le nofun ?_
    rw [Nat.sub_add_cancel hchunk.le_offset] at hout
    exact (outputAt_of_ne (by simp [hloop])).mpr hout

theorem stage_childSize (hs : Stage input o₀ s) (h : step input s .childSize = some u) :
    Stage input o₀ u := by
  simp only [step, Option.ite_none_right_eq_some, Option.some.injEq] at h
  obtain ⟨hsizing, rfl⟩ := h
  cases hs with
  | sizing hsems hparent hchild hchunk hout =>
    rw [outputAt_of_ne (by simp [hchild])] at hout
    exact stage_writeLoop hsems hparent hchunk (Nat.zero_le _) hout
  | _ => simp_all [ChildPc.Idle, ChildPc.Finishing]

theorem stage_childWrite {n : ℕ} (hs : Stage input o₀ s)
    (h : step input s (.childWrite n) = some u) : Stage input o₀ u := by
  cases hs with
  | writing total w hsems hparent hchild hlt hchunk hout =>
    simp only [step, hchild, Option.ite_none_right_eq_some, Option.some.injEq] at h
    obtain ⟨⟨-, hn⟩, rfl⟩ := h
    rw [outputAt_of_ne (by simp [hchild])] at hout
    have hle : w + n ≤ total := by omega
    refine stage_writeLoop hsems hparent hchunk hle ?_
    rw [hout, Option.map_some, hchunk.take_append hle]
  | _ => cases hc : s.child <;> simp_all [step, ChildPc.Idle, ChildPc.Finishing]

theorem stage_childSignal (hs : Stage input o₀ s) (h : step input s .childSignal = some u) :
    Stage input o₀ u := by
  cases hs with
  | flushed last hsems hparent hchild hle hlast hout =>
    simp only [step, hchild, hsems, semSignal, Option.some.injEq] at h
    subst h
    have hne : s.child ≠ .opening := by simp [hchild]
    cases last with
    | true =>
      obtain ⟨heof, hend⟩ := hlast rfl
      exact .finished rfl hparent rfl heof hend (hout.move hne (by simp))
    | false => exact .free rfl hparent trivial hle (hout.move hne (by simp))
  | removed hsems hparent hchild heof hend hout =>
    cases hc : s.child <;> simp only [step, hc, hsems, semSignal] at h <;> cases h
    exact .removed rfl hparent trivial heof hend (hout.move (by simp [hc]) (by simp))
  | _ => cases hc : s.child <;> simp_all [step, ChildPc.Idle]

/-! ## Runs -/

/-- Every step leads from one stage of the copy to another. -/
theorem stage_step {a : Action} (hs : Stage input o₀ s) (h : step input s a = some u) :
    Stage input o₀ u := by
  cases a with
  | parentWait => exact stage_parentWait hs h
  | parentRead n => exact stage_parentRead hs h
  | parentStore => exact stage_parentStore hs h
  | parentSignal => exact stage_parentSignal hs h
  | parentRemove => exact stage_parentRemove hs h
  | childOpen => exact stage_childOpen hs h
  | childWait => exact stage_childWait hs h
  | childCheck => exact stage_childCheck hs h
  | childSize => exact stage_childSize hs h
  | childWrite n => exact stage_childWrite hs h
  | childSignal => exact stage_childSignal hs h

/-- Every run stays in the stages of the copy. -/
theorem stage_of_run {shd : SharedData} {tr : List (State × Action)}
    (hrun : Run (step input) (init o₀ shd) tr s) : Stage input o₀ s :=
  hrun.invariant_all (stage_init shd) fun _ _ _ => stage_step

/-! ## Exclusive and complete -/

/-- The two processes never hold the token together. -/
theorem Stage.exclusive (hs : Stage input o₀ s) : ¬ (s.parent.Inside ∧ s.child.Inside) := by
  rintro ⟨hparent, hchild⟩
  cases hs with
  | handed _ hpc | checking _ hpc | flushed _ _ hpc =>
    -- the producer has given the token away
    rw [hpc, ParentPc.afterSignal] at hparent
    split at hparent <;> exact hparent
  | free _ _ hidle | reading _ _ hidle | storing _ _ _ hidle | halfStored _ _ _ hidle
    | signalling _ _ hidle =>
    cases hc : s.child <;> simp_all [ChildPc.Idle, ChildPc.Inside]
  | _ => simp_all [ParentPc.Inside]

/-- In every stage `output.txt` holds some first part of the input. -/
theorem Stage.outputAt (hs : Stage input o₀ s) : ∃ k, OutputAt input o₀ s.child s.output k := by
  cases hs <;> exact ⟨_, ‹OutputAt _ _ _ _ _›⟩

theorem Stage.isPart (hs : Stage input o₀ s) (ho : ∀ out ∈ o₀, out <+: input) :
    ∀ out ∈ s.output, out <+: input := by
  obtain ⟨k, hout⟩ := hs.outputAt
  rw [OutputAt] at hout
  split at hout
  · rwa [hout.2]
  · rw [hout]
    rintro out ⟨⟩
    exact List.take_prefix k input

/-- When the producer has left its loop the consumer has written everything. -/
theorem Stage.outputAt_end (hs : Stage input o₀ s) (hleft : s.parent.LeftOnEof) :
    OutputAt input o₀ s.child s.output input.length := by
  cases hs with
  | handed _ hparent _ hfilled hout | checking _ hparent _ hfilled hout =>
    cases heof : s.shd.eof with
    | true =>
      obtain ⟨hsize, hend⟩ := hfilled.at_end heof
      simpa [hsize, hend] using hout
    | false => simp [hparent, heof, ParentPc.afterSignal, ParentPc.LeftOnEof] at hleft
  | flushed last _ hparent _ _ hlast hout =>
    cases last with
    | true => simpa [(hlast rfl).2] using hout
    | false => simp [hparent, ParentPc.afterSignal, ParentPc.LeftOnEof] at hleft
  | finished _ _ _ _ hend hout | removed _ _ _ _ hend hout => simpa [hend] using hout
  | _ => simp_all [ParentPc.LeftOnEof]

/-- A step of the producer. -/
def Action.OfParent : Action → Prop
  | .parentWait | .parentRead _ | .parentStore | .parentSignal | .parentRemove => True
  | _ => False

/-- A step of the producer leaves the consumer and `output.txt` alone. -/
theorem frame_parent {a : Action} (ha : a.OfParent) (h : step input s a = some u) :
    u.child = s.child ∧ u.output = s.output := by
  cases a with
  | parentWait | parentSignal | parentRemove =>
    simp only [step] at h
    split at h <;> cases h <;> exact ⟨rfl, rfl⟩
  | parentRead n =>
    simp only [step, Option.ite_none_right_eq_some, Option.some.injEq] at h
    obtain ⟨-, rfl⟩ := h
    exact ⟨rfl, rfl⟩
  | parentStore =>
    simp only [step] at h
    split at h
    · split at h <;> cases h <;> exact ⟨rfl, rfl⟩
    · split at h <;> cases h <;> exact ⟨rfl, rfl⟩
    · cases h
  | _ => exact ha.elim

/-- A step of the consumer leaves the producer alone, and has `output.txt` open in the end. -/
theorem frame_child {a : Action} (ha : ¬ a.OfParent) (h : step input s a = some u) :
    u.parent = s.parent ∧ u.child ≠ .opening := by
  have hloop (total w : ℕ) : writeLoop total w ≠ .opening := by
    rw [writeLoop]
    split <;> simp
  cases a with
  | childOpen =>
    simp only [step, Option.ite_none_right_eq_some, Option.some.injEq] at h
    obtain ⟨-, rfl⟩ := h
    exact ⟨rfl, nofun⟩
  | childCheck =>
    simp only [step, Option.ite_none_right_eq_some, Option.some.injEq] at h
    obtain ⟨-, rfl⟩ := h
    cases heof : s.shd.eof <;> simp
  | childSize =>
    simp only [step, Option.ite_none_right_eq_some, Option.some.injEq] at h
    obtain ⟨-, rfl⟩ := h
    exact ⟨rfl, hloop _ _⟩
  | childWait =>
    simp only [step] at h
    split at h <;> cases h <;> simp
  | childWrite n =>
    simp only [step] at h
    split at h
    · simp only [Option.ite_none_right_eq_some, Option.some.injEq] at h
      obtain ⟨-, rfl⟩ := h
      exact ⟨rfl, hloop _ _⟩
    · cases h
  | childSignal =>
    simp only [step] at h
    split at h <;> cases h <;> simp
    split <;> simp
  | _ => exact (ha trivial).elim

/-- The producer leaves its loop on the end of the file by its last `sem_signal`. -/
theorem leftOnEof_of_step {a : Action} (ha : a.OfParent) (h : step input s a = some u)
    (hleft : u.parent.LeftOnEof) :
    s.parent.LeftOnEof ∨ (a = .parentSignal ∧ s.parent = .signalling true) := by
  cases a with
  | parentWait =>
    simp only [step] at h
    split at h <;> cases h <;> simp [ParentPc.LeftOnEof] at hleft
  | parentRead n =>
    simp only [step, Option.ite_none_right_eq_some, Option.some.injEq] at h
    obtain ⟨-, rfl⟩ := h
    exact hleft.elim
  | parentStore =>
    simp only [step] at h
    split at h
    · split at h <;> cases h <;> exact hleft.elim
    · split at h <;> cases h <;> exact hleft.elim
    · cases h
  -- the last signal is the way out of the loop
  | parentSignal =>
    right
    simp only [step] at h
    split at h
    next last _ hparent _ =>
      cases h
      cases last
      · exact hleft.elim
      · exact ⟨rfl, hparent⟩
    next last hparent _ =>
      cases h
      exact ⟨rfl, hparent.trans (congrArg _ hleft)⟩
    next => cases h
  | parentRemove =>
    left
    simp only [step] at h
    split at h <;> cases h
    next hparent => simpa [hparent, ParentPc.LeftOnEof] using hleft
  | _ => exact ha.elim

/-- When the producer leaves its loop with nothing read, the consumer has opened `output.txt`,
unless `output.txt` is an empty file anyway. -/
def OpenedInTime (input : List Byte) (s : State) (a : Action) : Prop :=
  a = .parentSignal → s.parent = .signalling true → input = [] → s.child = .opening →
    s.output = some []

/-- Only the opening of `output.txt` can be missing when the producer has left its loop. -/
theorem complete_of_step {a : Action} (hs : Stage input o₀ s) (hopened : OpenedInTime input s a)
    (h : step input s a = some u) (hcomplete : s.parent.LeftOnEof → s.output = some input)
    (hleft : u.parent.LeftOnEof) : u.output = some input := by
  have hout := (stage_step hs h).outputAt_end hleft
  by_cases hc : u.child = .opening
  · -- the child may still be opening, but then the input is empty
    rw [OutputAt, if_pos hc] at hout
    have hempty : input = [] := List.eq_nil_of_length_eq_zero hout.1
    have ha : a.OfParent := by
      by_contra ha
      exact (frame_child ha h).2 hc
    obtain ⟨hchild, houtput⟩ := frame_parent ha h
    rw [houtput]
    obtain hleft' | ⟨rfl, hlast⟩ := leftOnEof_of_step ha h hleft
    · exact hcomplete hleft'
    · rw [hempty]
      exact hopened rfl hlast hempty (hchild.symm.trans hc)
  · rw [outputAt_of_ne hc, List.take_length] at hout
    exact hout

/-- In all states of a run the two processes exclude each other, `output.txt` is a part of
`input.txt` and it is complete when the parent has left its loop on the end of the file, exactly
if what `output.txt` held before the run is a part of `input.txt` and, where there is nothing to
copy, the child has opened it before the parent leaves the loop. -/
theorem copyOk_iff_of_run {shd : SharedData} {tr : List (State × Action)}
    (hrun : Run (step input) (init o₀ shd) tr s) :
    (∀ t ∈ states tr s, CopyOk input t) ↔
      (∀ out ∈ o₀, out <+: input) ∧ StepsMeet (OpenedInTime input) tr := by
  constructor
  · intro hok
    refine ⟨(hok _ hrun.mem_states_first).isPart, ?_⟩
    refine hrun.stepsMeet_of_states (fun t a u _ hu h => ?_) hok
    rintro rfl hlast hempty hchild
    -- the step takes the producer out of its loop, or it does not happen
    have hleft : u.parent.LeftOnEof := by
      simp only [step, hlast] at h
      split at h <;> cases h <;> simp_all [ParentPc.LeftOnEof]
    have houtput := (frame_parent (a := .parentSignal) trivial h).2
    rw [← houtput, hu.complete hleft, hempty]
  · rintro ⟨ho, hopened⟩
    have hall : ∀ t ∈ states tr s,
        Stage input o₀ t ∧ (t.parent.LeftOnEof → t.output = some input) := by
      refine hrun.invariant_states ⟨stage_init shd, nofun⟩ (fun t a u ht hguard h => ?_) hopened
      exact ⟨stage_step ht.1 h, complete_of_step ht.1 hguard h ht.2⟩
    intro t ht
    obtain ⟨hs, hcomplete⟩ := hall t ht
    exact ⟨hs.exclusive, hs.isPart ho, hcomplete⟩

/-- A segment that an earlier run has left behind. -/
def oldSegment : SharedData where
  bufSize := 7
  buffer := [9, 9, 9, 9]
  eof := true

/-- Three bytes in two chunks, the first of them written in two parts. The semaphores are gone
before the child waits for the last time. -/
def threeBytes : List Action :=
  [.parentWait, .parentRead 2, .parentStore, .parentStore, .parentSignal, .childOpen, .childWait,
    .childCheck, .childSize, .childWrite 1, .childWrite 1, .childSignal, .parentWait,
    .parentRead 1, .parentStore, .parentStore, .parentSignal, .childWait, .childCheck, .childSize,
    .childWrite 1, .childSignal, .parentWait, .parentRead 0, .parentStore, .parentStore,
    .parentSignal, .parentRemove, .childWait]

private theorem three_bytes_execute :
    (execute (step [1, 2, 3]) (fun _ _ => true) (init none oldSegment) threeBytes).isSome =
      true := by
  decide +kernel

/-- `copyOk_iff_of_run` on a run that copies three bytes. -/
theorem copyOk_three_bytes :
    ∃ tr s, Run (step [1, 2, 3]) (init none oldSegment) tr s ∧ s.parent = .removed true ∧
      s.child = .ended ∧ s.output = some [1, 2, 3] ∧ ∀ t ∈ states tr s, CopyOk [1, 2, 3] t := by
  obtain ⟨tr, h, -⟩ := exists_run_of_isSome three_bytes_execute
  have hopened : StepsMeet (OpenedInTime [1, 2, 3]) tr := fun _ _ _ _ hempty => by cases hempty
  exact ⟨tr, _, h, by decide +kernel, by decide +kernel, by decide +kernel,
    (copyOk_iff_of_run h).mpr ⟨nofun, hopened⟩⟩

private theorem no_bytes_execute :
    (execute (step []) (fun _ _ => true) (init none oldSegment)
      [.parentWait, .parentRead 0, .parentStore, .parentStore, .parentSignal]).isSome = true := by
  decide +kernel

/-- `input.txt` is empty and the parent is faster than the child: it leaves its loop, and there is
no `output.txt`. -/
theorem left_without_output :
    ∃ tr s, Run (step []) (init none oldSegment) tr s ∧ s.parent = .left true ∧
      s.output = none ∧ ¬ CopyOk [] s := by
  obtain ⟨tr, h, -⟩ := exists_run_of_isSome no_bytes_execute
  refine ⟨tr, _, h, by decide +kernel, by decide +kernel, fun hok => ?_⟩
  have hcomplete : ((execute (step []) (fun _ _ => true) (init none oldSegment)
      [.parentWait, .parentRead 0, .parentStore, .parentStore, .parentSignal]).get
        no_bytes_execute).output = some [] := hok.complete rfl
  revert hcomplete
  decide +kernel

end SemaphoreCopy
