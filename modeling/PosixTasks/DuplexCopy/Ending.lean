import PosixTasks.DuplexCopy.Output

/-!
# The two processes always end

The child waits in its first `rcv` until nobody has the end for writing of `fd_direct` open. The
child itself closes this end before, and the parent has it open until it closes everything behind
its loop. There the parent waits for nothing, as it does not use the pipes.

## Main results

* `going_step`: who has the end for writing open, and until when;
* `endsWaited_of_create`: every schedule ends, with the child reaped by `waitpid`.
-/

namespace DuplexCopy

open Descriptors Transition

variable {self : DuplexPipe} {input : List Byte} {capacity : ℕ} {old : Option (List Byte)}
  {t : Table File} {s u : State} {a : Action}

/-! ## Who can write to the child -/

/-- The parent has not closed the end for writing of `fd_direct`. -/
def ParentPc.BeforeClose (pipe : DuplexPipe) : ParentPc → Prop
  | .finishing fds => pipe.fdDirect.2 ∈ fds
  | .waiting | .waited => False
  | _ => True

/-- Nothing but the two processes keeps the child from the end of its input, and neither of them
does so for ever. -/
structure Going (pipe : DuplexPipe) (s : State) : Prop where
  parentEnd : ∀ fd, get s.parentTable fd = some .directWrite →
    fd = pipe.fdDirect.2 ∧ s.parent.BeforeClose pipe
  childEnd : ∀ fd, get s.childTable fd = some .directWrite →
    fd = pipe.fdDirect.2 ∧ ∃ fds, s.child = .closing fds ∧ pipe.fdDirect.2 ∈ fds
  parentFds : s.parent ≠ .finishing []
  childFds : s.child ≠ .closing []
  waited : s.parent = .waited → s.child = .exited

/-- `CreateDuplexPipe` puts the end for writing into one place. -/
theorem createDuplexPipe_directWrite {t₀ : Table File} (hfree : ¬ Holds t₀ .directWrite) {fd : ℕ}
    (h : get (createDuplexPipe t₀).2 fd = some .directWrite) :
    fd = (createDuplexPipe t₀).1.fdDirect.2 := by
  simp only [createDuplexPipe, get_alloc] at h ⊢
  split at h
  · cases h
  split at h
  · cases h
  split at h
  next hwrite => exact hwrite
  split at h
  · cases h
  · exact absurd (holds_iff.mpr ⟨fd, h⟩) hfree

theorem going_init {t₀ : Table File} (hfree : ¬ Holds t₀ .directWrite)
    (old : Option (List Byte)) :
    Going (createDuplexPipe t₀).1 (init (createDuplexPipe t₀).1 (createDuplexPipe t₀).2 old) where
  parentEnd fd h := ⟨createDuplexPipe_directWrite hfree h, trivial⟩
  childEnd fd h := ⟨createDuplexPipe_directWrite hfree h, _, rfl, by simp⟩
  parentFds := by simp [init]
  childFds := by simp [init]
  waited := by simp [init]

/-- A file that the parent opens is not the end of a pipe. -/
theorem get_alloc_directWrite {f : File} (hf : f ≠ .directWrite) {fd : ℕ}
    (h : get (alloc t f).2 fd = some .directWrite) : get t fd = some .directWrite := by
  rw [get_alloc] at h
  split at h
  · exact absurd (Option.some.inj h) hf
  · exact h

/-- A descriptor that is open after a `close` was open before it. -/
theorem get_of_close {fd fd' : ℕ} {f : File} (h : get (close t fd') fd = some f) :
    fd ≠ fd' ∧ get t fd = some f := by
  rw [get_close] at h
  split at h
  · cases h
  next hne => exact ⟨hne, h⟩

/-- Leaving the loop, the parent is still to close the end. -/
theorem Going.of_leaveLoop (h : Going self s) (hparent : u.parent = (s.leaveLoop self).parent)
    (htable : u.parentTable = s.parentTable) (hchild : u.child = s.child)
    (hchildTable : u.childTable = s.childTable) : Going self u where
  parentEnd fd hfd := by
    rw [htable] at hfd
    refine ⟨(h.parentEnd fd hfd).1, ?_⟩
    rw [hparent]
    simp [State.leaveLoop, ParentPc.BeforeClose, DuplexPipe.all]
  childEnd := by
    rw [hchildTable, hchild]
    exact h.childEnd
  parentFds := by
    rw [hparent]
    simp [State.leaveLoop, DuplexPipe.all]
  childFds := by
    rw [hchild]
    exact h.childFds
  waited := by
    rw [hparent]
    simp [State.leaveLoop]

/-- In its loop the parent closes nothing. -/
theorem Going.of_inLoop (h : Going self s) (hloop : u.parent.InLoop)
    (htable : u.parentTable = s.parentTable) (hchild : u.child = s.child)
    (hchildTable : u.childTable = s.childTable) : Going self u where
  parentEnd fd hfd := by
    rw [htable] at hfd
    refine ⟨(h.parentEnd fd hfd).1, ?_⟩
    cases hpc : u.parent <;> simp_all [ParentPc.InLoop, ParentPc.BeforeClose]
  childEnd := by
    rw [hchildTable, hchild]
    exact h.childEnd
  parentFds := by
    rintro hpc
    rw [hpc] at hloop
    exact hloop
  childFds := by
    rw [hchild]
    exact h.childFds
  waited hpc := by
    rw [hpc] at hloop
    exact hloop.elim

/-- No step of the child opens the end, or leaves the child with nothing to close. -/
theorem going_child (ha : a.OfChild) (hstage : Stage self t s) (h : Going self s)
    (hs : step self input capacity s a = some u) : Going self u := by
  have hsame := frame_child ha hstage hs
  obtain ⟨hparentEnd, hchildEnd, hparentFds, hchildFds, hwaited⟩ := h
  rw [← hsame.parentTable, ← hsame.parent] at hparentEnd
  rw [← hsame.parent] at hparentFds hwaited
  cases a with
  | childClose =>
    simp only [step] at hs
    split at hs
    next fd fds hpc =>
      cases hs
      refine ⟨hparentEnd, fun fd' hfd' => ?_, hparentFds, ?_, fun hw => ?_⟩
      · obtain ⟨hne, hfd'⟩ := get_of_close hfd'
        obtain ⟨rfl, fds', hclosing, hmem⟩ := hchildEnd fd' hfd'
        obtain rfl : fd :: fds = fds' := ChildPc.closing.inj (hpc.symm.trans hclosing)
        -- the end is still in the list, as this was another one
        have hrest : self.fdDirect.2 ∈ fds := (List.mem_cons.mp hmem).resolve_left hne
        exact ⟨rfl, fds, by simp [List.ne_nil_of_mem hrest], hrest⟩
      · by_cases hnil : fds = [] <;> simp [hnil]
      · simp [hpc] at hwaited
        exact absurd hw hwaited
    next fd fds hpc =>
      cases hs
      refine ⟨hparentEnd, fun fd' hfd' => ?_, hparentFds, by simp, fun hw => ?_⟩
      · obtain ⟨-, fds', hclosing, -⟩ := hchildEnd fd' (get_of_close hfd').2
        simp [hpc] at hclosing
      · simp [hpc] at hwaited
        exact absurd hw hwaited
    next => cases hs
  | childExit =>
    simp only [step, Option.ite_none_right_eq_some, Option.some.injEq] at hs
    obtain ⟨-, rfl⟩ := hs
    exact ⟨hparentEnd, by simp, hparentFds, by simp, fun _ => rfl⟩
  | childReceive n =>
    obtain ⟨hpc, -⟩ := by
      simpa only [step, Option.ite_none_right_eq_some] using hs
    obtain ⟨-, rfl⟩ := step_childReceive hstage hs
    refine ⟨hparentEnd, fun fd hfd => ?_, hparentFds, by simp, fun hw => ?_⟩
    · obtain ⟨-, fds, hclosing, -⟩ := hchildEnd fd hfd
      simp [hpc] at hclosing
    · simp [hpc] at hwaited
      exact absurd hw hwaited
  | childSend n =>
    have hchild := hstage.childTable
    simp only [step, Option.ite_none_right_eq_some] at hs
    rw [ChildTable, hs.1] at hchild
    exact hchild.elim
  | _ => exact ha.elim

/-- Every step leaves the end where it was, or closes it for good. -/
theorem going_step (hends : Ends self t) (hstage : Stage self t s) (h : Going self s)
    (hs : step self input capacity s a = some u) : Going self u := by
  cases a with
  | parentClose =>
    obtain ⟨hparentEnd, hchildEnd, hparentFds, hchildFds, hwaited⟩ := h
    simp only [step] at hs
    split at hs
    next fd fds hpc =>
      cases hs
      refine ⟨fun fd' hfd' => ⟨(hparentEnd fd' (get_of_close hfd').2).1, ?_⟩, hchildEnd, ?_,
        hchildFds, ?_⟩ <;>
        by_cases hnil : fds = [] <;> simp [hnil, ParentPc.BeforeClose]
    next fd fds hpc =>
      cases hs
      refine ⟨fun fd' hfd' => ?_, hchildEnd, ?_, hchildFds, ?_⟩
      · obtain ⟨hne, hfd'⟩ := get_of_close hfd'
        obtain ⟨rfl, hmem⟩ := hparentEnd fd' hfd'
        rw [hpc] at hmem
        -- what is closed here is another descriptor, so the end is among what is left to close
        have hrest : self.fdDirect.2 ∈ fds := (List.mem_cons.mp hmem).resolve_left hne
        rw [if_neg (List.ne_nil_of_mem hrest)]
        exact ⟨rfl, hrest⟩
      · by_cases hnil : fds = [] <;> simp [hnil]
      · by_cases hnil : fds = [] <;> simp [hnil]
    next => cases hs
  | parentOpenIn | parentOpenOut =>
    obtain ⟨hparentEnd, hchildEnd, hparentFds, hchildFds, hwaited⟩ := h
    simp only [step, Option.ite_none_right_eq_some, Option.some.injEq] at hs
    obtain ⟨hpc, rfl⟩ := hs
    refine ⟨fun fd hfd => ?_, hchildEnd, by simp, hchildFds, by simp⟩
    exact ⟨(hparentEnd fd (get_alloc_directWrite (by simp) hfd)).1, trivial⟩
  | parentRead n =>
    have hfiles := hstage.meansFiles hends (inLoop_of_step (a := .parentRead n) trivial hs)
    obtain ⟨-, -, rfl⟩ := step_parentRead hfiles hs
    split
    · exact h.of_inLoop trivial rfl rfl rfl
    · exact h.of_leaveLoop rfl rfl rfl rfl
  | parentSend n =>
    have hfiles := hstage.meansFiles hends (inLoop_of_step (a := .parentSend n) trivial hs)
    obtain ⟨-, -, rfl⟩ := step_parentSend hfiles hs
    split
    · exact h.of_inLoop trivial rfl rfl rfl
    · exact h.of_leaveLoop rfl rfl rfl rfl
  | parentReceive n =>
    have hfiles := hstage.meansFiles hends (inLoop_of_step (a := .parentReceive n) trivial hs)
    obtain ⟨-, -, rfl⟩ := step_parentReceive hfiles hs
    split
    · exact h.of_inLoop trivial rfl rfl rfl
    · exact h.of_leaveLoop rfl rfl rfl rfl
  | parentWrite n =>
    have hfiles := hstage.meansFiles hends (inLoop_of_step (a := .parentWrite n) trivial hs)
    obtain ⟨-, -, rfl⟩ := step_parentWrite hfiles hs
    exact h.of_inLoop trivial rfl rfl rfl
  | parentWait =>
    obtain ⟨hparentEnd, hchildEnd, hparentFds, hchildFds, hwaited⟩ := h
    simp only [step, Option.ite_none_right_eq_some, Option.some.injEq] at hs
    obtain ⟨⟨hpc, hexited⟩, rfl⟩ := hs
    rw [hpc] at hparentEnd
    exact ⟨hparentEnd, hchildEnd, by simp, hchildFds, fun _ => hexited⟩
  | childClose => exact going_child (a := .childClose) trivial hstage h hs
  | childExit => exact going_child (a := .childExit) trivial hstage h hs
  | childReceive n => exact going_child (a := .childReceive n) trivial hstage h hs
  | childSend n => exact going_child (a := .childSend n) trivial hstage h hs

/-! ## How long it takes -/

/-- How many steps the parent has still to take, with so much of its file left. -/
def ParentPc.work (left : ℕ) : ParentPc → ℕ
  | .closing fds => 4 * left + 10 + fds.length
  | .openingIn => 4 * left + 10
  | .openingOut => 4 * left + 9
  | .reading => 4 * left + 8
  | .writing => 4 * left + 9
  | .receiving => 4 * left + 10
  | .sending => 4 * left + 11
  | .finishing fds => fds.length + 1
  | .waiting => 1
  | .waited => 0

/-- How many steps the child has still to take. -/
def ChildPc.work : ChildPc → ℕ
  | .closing fds => 6 + fds.length
  | .receiving => 6
  | .sending => 7
  | .finishing fds => fds.length + 1
  | .exited => 0

/-- How many steps the two have still to take. -/
def State.work (input : List Byte) (s : State) : ℕ :=
  s.parent.work (input.length - s.offset) + s.child.work

theorem work_leaveLoop (left : ℕ) : (s.leaveLoop self).parent.work left = 7 := by
  simp [State.leaveLoop, DuplexPipe.all, ParentPc.work]

/-- The parent reads its file only once. -/
theorem work_lt (hends : Ends self t) (hstage : Stage self t s)
    (hs : step self input capacity s a = some u) : u.work input < s.work input := by
  cases a with
  | parentClose =>
    simp only [step] at hs
    split at hs
    next fd fds hpc =>
      cases hs
      by_cases hnil : fds = [] <;> simp [State.work, hpc, hnil, ParentPc.work]
    next fd fds hpc =>
      cases hs
      by_cases hnil : fds = [] <;> simp [State.work, hpc, hnil, ParentPc.work]
    next => cases hs
  | parentOpenIn | parentOpenOut =>
    simp only [step, Option.ite_none_right_eq_some, Option.some.injEq] at hs
    obtain ⟨hpc, rfl⟩ := hs
    simp [State.work, hpc, ParentPc.work]
  | parentRead n =>
    have hfiles := hstage.meansFiles hends (inLoop_of_step (a := .parentRead n) trivial hs)
    obtain ⟨hpc, hread, rfl⟩ := step_parentRead hfiles hs
    -- a block that is not empty leaves less of the file, which pays for the rest of the turn
    have hleft := hread.2.1
    split
    next hpos =>
      simp only [State.work, State.afterRead, hpc, ParentPc.work]
      omega
    next =>
      -- the loop is left for good
      rw [State.work, work_leaveLoop, State.work, hpc]
      simp only [State.leaveLoop, State.afterRead, ParentPc.work]
      omega
  | parentSend n =>
    have hfiles := hstage.meansFiles hends (inLoop_of_step (a := .parentSend n) trivial hs)
    obtain ⟨hpc, -, rfl⟩ := step_parentSend hfiles hs
    split
    next => simp [State.work, State.afterWrite, hpc, ParentPc.work]
    next =>
      rw [State.work, work_leaveLoop, State.work, hpc]
      simp only [State.leaveLoop, State.afterWrite, ParentPc.work]
      omega
  | parentReceive n =>
    have hfiles := hstage.meansFiles hends (inLoop_of_step (a := .parentReceive n) trivial hs)
    obtain ⟨hpc, -, rfl⟩ := step_parentReceive hfiles hs
    split
    next =>
      simp only [State.work, State.afterRead, hpc, ParentPc.work]
      omega
    next =>
      rw [State.work, work_leaveLoop, State.work, hpc]
      simp only [State.leaveLoop, State.afterRead, ParentPc.work]
      omega
  | parentWrite n =>
    have hfiles := hstage.meansFiles hends (inLoop_of_step (a := .parentWrite n) trivial hs)
    obtain ⟨hpc, -, rfl⟩ := step_parentWrite hfiles hs
    simp [State.work, State.afterWrite, hpc, ParentPc.work]
  | parentWait =>
    simp only [step, Option.ite_none_right_eq_some, Option.some.injEq] at hs
    obtain ⟨⟨hpc, -⟩, rfl⟩ := hs
    simp [State.work, hpc, ParentPc.work]
  | childClose =>
    simp only [step] at hs
    split at hs
    next fd fds hpc =>
      cases hs
      by_cases hnil : fds = [] <;> simp [State.work, hpc, hnil, ChildPc.work]
    next fd fds hpc =>
      cases hs
      simp [State.work, hpc, ChildPc.work]
    next => cases hs
  | childExit =>
    simp only [step, Option.ite_none_right_eq_some, Option.some.injEq] at hs
    obtain ⟨hpc, rfl⟩ := hs
    simp [State.work, hpc, ChildPc.work]
  | childReceive n =>
    have hpc : s.child = .receiving := by
      simp only [step, Option.ite_none_right_eq_some] at hs
      exact hs.1
    obtain ⟨-, rfl⟩ := step_childReceive hstage hs
    simp [State.work, hpc, ChildPc.work, DuplexPipe.all]
  | childSend n =>
    -- the child reads the end of the pipe at once, and never gets to its `snd`
    have hchild := hstage.childTable
    simp only [step, Option.ite_none_right_eq_some] at hs
    rw [ChildTable, hs.1] at hchild
    exact hchild.elim

/-! ## Nobody waits for ever -/

/-- A regular file can be read from, up to its end. -/
theorem exists_fileReadReturns (input : List Byte) (offset : ℕ) :
    ∃ n, FileReadReturns input offset n := by
  refine ⟨min maxBufSize (input.length - offset), min_le_left .., min_le_right .., ?_⟩
  have hmax : 0 < maxBufSize := by decide
  omega

/-- A `write` can take everything. -/
theorem writeReturns_all (total : ℕ) : WriteReturns total total :=
  ⟨le_rfl, id⟩

/-- The parent in its loop waits for nothing. -/
theorem exists_parent_step (hends : Ends self t) (hstage : Stage self t s) (hgoing : Going self s)
    (hwaiting : s.parent ≠ .waiting) (hwaited : s.parent ≠ .waited) :
    ∃ a, step self input capacity s a ≠ none := by
  -- in the loop all four descriptors are regular files, which never block
  have hfiles := hstage.meansFiles hends
  cases hpc : s.parent with
  | closing fds =>
    have htable := hstage.parentTable
    rw [ParentTable, hpc] at htable
    refine ⟨.parentClose, ?_⟩
    rcases htable with ⟨rfl, -⟩ | ⟨rfl, -⟩ <;> simp [step, hpc]
  | openingIn => exact ⟨.parentOpenIn, by simp [step, hpc]⟩
  | openingOut => exact ⟨.parentOpenOut, by simp [step, hpc]⟩
  | reading =>
    obtain ⟨n, hn⟩ := exists_fileReadReturns input s.offset
    refine ⟨.parentRead n, ?_⟩
    simp only [step, hpc, ↓reduceIte, readFd_parentTxt (hfiles (by rw [hpc]; trivial)).inFd,
      if_pos hn]
    split <;> simp
  | sending =>
    refine ⟨.parentSend (s.parentData.take s.parentLen).length, ?_⟩
    simp only [step, hpc, ↓reduceIte, writeDuplex,
      writeFd_childTxt (hfiles (by rw [hpc]; trivial)).snd, if_pos (writeReturns_all _)]
    split <;> simp
  | receiving =>
    obtain ⟨n, hn⟩ := exists_fileReadReturns input s.offset
    refine ⟨.parentReceive n, ?_⟩
    simp only [step, hpc, ↓reduceIte, readDuplex,
      readFd_parentTxt (hfiles (by rw [hpc]; trivial)).rcv, if_pos hn]
    split <;> simp
  | writing =>
    refine ⟨.parentWrite (s.parentData.take s.parentLen).length, ?_⟩
    simp [step, hpc, writeFd_childTxt (hfiles (by rw [hpc]; trivial)).outFd,
      if_pos (writeReturns_all _)]
  | finishing fds =>
    obtain ⟨fd, rest, rfl⟩ := List.exists_cons_of_ne_nil fun hnil => hgoing.parentFds (hnil ▸ hpc)
    exact ⟨.parentClose, by simp [step, hpc]⟩
  | waiting => exact absurd hpc hwaiting
  | waited => exact absurd hpc hwaited

/-- With the parent behind its loop, the child waits for nothing. -/
theorem exists_child_step (hstage : Stage self t s) (hgoing : Going self s)
    (hparent : ¬ s.parent.BeforeClose self) (hexited : s.child ≠ .exited) :
    ∃ a, step self input capacity s a ≠ none := by
  have hchild := hstage.childTable
  cases hpc : s.child with
  | closing fds =>
    obtain ⟨fd, rest, rfl⟩ := List.exists_cons_of_ne_nil fun hnil => hgoing.childFds (hnil ▸ hpc)
    exact ⟨.childClose, by simp [step, hpc]⟩
  | receiving =>
    rw [ChildTable, hpc] at hchild
    -- both processes have closed the end for writing, so that the child reads the end of the pipe
    have hclosed : ¬ s.IsOpen .directWrite := by
      rintro (hopen | hopen) <;> obtain ⟨fd, hfd⟩ := holds_iff.mp hopen
      · exact hparent (hgoing.parentEnd fd hfd).2
      · obtain ⟨-, fds, hclosing, -⟩ := hgoing.childEnd fd hfd
        simp [hpc] at hclosing
    have hread : PipeReadReturns s s.direct .directWrite 0 :=
      ⟨Nat.zero_le _, Nat.zero_le _, fun _ => ⟨hstage.direct, hclosed⟩⟩
    exact ⟨.childReceive 0, by simp [step, hpc, readDuplex, readFd, hchild, if_pos hread]⟩
  | sending =>
    rw [ChildTable, hpc] at hchild
    exact hchild.elim
  | finishing fds =>
    cases fds with
    | nil => exact ⟨.childExit, by simp [step, hpc]⟩
    | cons fd fds => exact ⟨.childClose, by simp [step, hpc]⟩
  | exited => exact absurd hpc hexited

/-- Where no step is left, `waitpid` has returned. -/
theorem waited_of_stuck (hends : Ends self t) (hstage : Stage self t s) (hgoing : Going self s)
    (hstuck : ∀ a, step self input capacity s a = none) :
    s.parent = .waited ∧ s.child = .exited := by
  by_cases hwaited : s.parent = .waited
  · exact ⟨hwaited, hgoing.waited hwaited⟩
  · exfalso
    -- a parent in `waitpid` waits for a child that can go on; any other can go on itself
    by_cases hwaiting : s.parent = .waiting
    · by_cases hexited : s.child = .exited
      · have hstep := hstuck .parentWait
        simp [step, hwaiting, hexited] at hstep
      · have hclosed : ¬ s.parent.BeforeClose self := by
          rw [hwaiting]
          exact id
        obtain ⟨a, ha⟩ : ∃ a, step self input capacity s a ≠ none :=
          exists_child_step hstage hgoing hclosed hexited
        exact ha (hstuck a)
    · obtain ⟨a, ha⟩ : ∃ a, step self input capacity s a ≠ none :=
        exists_parent_step hends hstage hgoing hwaiting hwaited
      exact ha (hstuck a)

/-- Every schedule of the two processes ends after a number of steps that the length of
`parent.txt` bounds, with the child reaped: nothing blocks for ever, whatever the process had open
before and however small the pipes are. -/
theorem endsWaited_of_create (t₀ : Table File) (hfree : ¬ Holds t₀ .directWrite) :
    EndsWithin (step (createDuplexPipe t₀).1 input capacity) (4 * input.length + 20)
      (fun s => s.parent = .waited ∧ s.child = .exited)
      (init (createDuplexPipe t₀).1 (createDuplexPipe t₀).2 old) := by
  have hends := createDuplexPipe_ends t₀
  show EndsWithin _
    (State.work input (init (createDuplexPipe t₀).1 (createDuplexPipe t₀).2 old)) _ _
  exact EndsWithin.of_invariant
    (I := fun v => Stage (createDuplexPipe t₀).1 (createDuplexPipe t₀).2 v ∧
      Going (createDuplexPipe t₀).1 v)
    ⟨stage_init hends old, going_init hfree old⟩
    (fun _ _ _ hv hs => ⟨stage_step hends hv.1 hs, going_step hends hv.1 hv.2 hs⟩)
    (fun _ _ _ hv hs => work_lt hends hv.1 hs)
    (fun _ hv => waited_of_stuck hends hv.1 hv.2)

/-- `endsWaited_of_create` with the standard descriptors open before, and pipes for one byte. -/
theorem ends_standard :
    EndsWithin (step (createDuplexPipe standard).1 [7, 8, 9] 1) 32
      (fun s => s.parent = .waited ∧ s.child = .exited)
      (init (createDuplexPipe standard).1 (createDuplexPipe standard).2 none) :=
  endsWaited_of_create standard (by decide)

end DuplexCopy
