import PosixTasks.DuplexCopy.Model
import PosixTasks.Lib.Pieces

/-!
# Nothing travels through the duplex pipe

The parent closes its ends `fd_direct[0]` and `fd_back[1]`, and the two files it opens next get
just these numbers, whatever else the process has open. So `snd` writes to `child.txt`, and `rcv`
reads the next block of `parent.txt`: the pipes stay empty, the child waits in its first `rcv`
until the parent has closed everything, and what reaches `child.txt` gets there behind its back.

## Main results

* `get_openTable`: the two files take the numbers of the closed ends;
* `stage_step`: as long as the parent is in its loop, `snd` and `rcv` mean the files, and nothing
  is in the pipes;
* `echoed_iff_of_run`: when the parent has left its loop, the file has come through the child
  exactly if it is empty.
-/

namespace DuplexCopy

open Descriptors Transition

variable {self : DuplexPipe} {input : List Byte} {capacity : ℕ} {old : Option (List Byte)}
  {t : Table File} {s u : State} {a : Action}

/-! ## The descriptors -/

/-- The ends of the two pipes in a table with nothing free below them. -/
structure Ends (pipe : DuplexPipe) (t : Table File) : Prop where
  direct_lt : pipe.fdDirect.1 < pipe.fdDirect.2
  direct_lt_back : pipe.fdDirect.2 < pipe.fdBack.1
  back_lt : pipe.fdBack.1 < pipe.fdBack.2
  directRead : get t pipe.fdDirect.1 = some .directRead
  backWrite : get t pipe.fdBack.2 = some .backWrite
  taken : ∀ k < pipe.fdBack.2, get t k ≠ none

/-- `CreateDuplexPipe` takes the four lowest free descriptors in their order. -/
theorem createDuplexPipe_ends (t : Table File) :
    Ends (createDuplexPipe t).1 (createDuplexPipe t).2 := by
  have h₀ := alloc_lt_lowest t File.directRead
  have h₁ := alloc_lt_lowest (alloc t File.directRead).2 File.directWrite
  have h₂ := alloc_lt_lowest (alloc (alloc t File.directRead).2 File.directWrite).2 File.backRead
  refine ⟨h₀, h₁, h₂, ?_, get_alloc_self _ _, fun k hk => ?_⟩
  · calc get (createDuplexPipe t).2 (createDuplexPipe t).1.fdDirect.1
        = get (alloc (alloc (alloc t .directRead).2 .directWrite).2 .backRead).2 (lowest t) :=
          get_alloc_of_lt (h₀.trans (h₁.trans h₂))
      _ = get (alloc (alloc t .directRead).2 .directWrite).2 (lowest t) :=
          get_alloc_of_lt (h₀.trans h₁)
      _ = get (alloc t .directRead).2 (lowest t) := get_alloc_of_lt h₀
      _ = some .directRead := get_alloc_self t _
  · have hlt : k < lowest (alloc (alloc (alloc t .directRead).2 .directWrite).2 .backRead).2 := hk
    have hsame : get (createDuplexPipe t).2 k = get _ k := get_alloc_of_lt hlt
    rw [hsame]
    exact get_of_lt_lowest hlt

/-- The table of the parent behind `close_parent`. -/
def closedTable (self : DuplexPipe) (t : Table File) : Table File :=
  close (close t self.fdDirect.1) self.fdBack.2

/-- The first `open` gets the number of the closed end of `fd_direct`. -/
theorem lowest_closedTable (h : Ends self t) : lowest (closedTable self t) = self.fdDirect.1 := by
  have hlt := h.direct_lt.trans (h.direct_lt_back.trans h.back_lt)
  apply lowest_eq
  · rw [closedTable, get_close, if_neg hlt.ne, get_close, if_pos rfl]
  · intro k hk
    rw [closedTable, get_close, if_neg (hk.trans hlt).ne, get_close, if_neg hk.ne]
    exact h.taken k (hk.trans hlt)

/-- The second `open` gets the number of the closed end of `fd_back`. -/
theorem lowest_opened (h : Ends self t) :
    lowest (alloc (closedTable self t) .parentTxt).2 = self.fdBack.2 := by
  have hlt := h.direct_lt.trans (h.direct_lt_back.trans h.back_lt)
  have hfirst : (alloc (closedTable self t) File.parentTxt).1 = self.fdDirect.1 :=
    lowest_closedTable h
  apply lowest_eq
  · rw [get_alloc, hfirst, if_neg hlt.ne', closedTable, get_close, if_pos rfl]
  · intro k hk
    rw [get_alloc, hfirst]
    split
    next => simp
    next hne =>
      rw [closedTable, get_close, if_neg hk.ne, get_close, if_neg hne]
      exact h.taken k hk

/-- The table of the parent in its loop. -/
def openTable (self : DuplexPipe) (t : Table File) : Table File :=
  (alloc (alloc (closedTable self t) .parentTxt).2 .childTxt).2

/-- In the loop the numbers of the closed ends name the two files. -/
theorem get_openTable (h : Ends self t) :
    get (openTable self t) self.fdDirect.1 = some .parentTxt ∧
      get (openTable self t) self.fdBack.2 = some .childTxt := by
  have hlt := h.direct_lt.trans (h.direct_lt_back.trans h.back_lt)
  have hfirst : (alloc (closedTable self t) File.parentTxt).1 = self.fdDirect.1 :=
    lowest_closedTable h
  have hsecond : (alloc (alloc (closedTable self t) File.parentTxt).2 File.childTxt).1 =
      self.fdBack.2 := lowest_opened h
  constructor
  · rw [openTable, get_alloc, hsecond, if_neg hlt.ne, get_alloc, hfirst, if_pos rfl]
  · rw [openTable, get_alloc, hsecond, if_pos rfl]

/-! ## What `rcv` and `snd` do -/

theorem readFd_parentTxt {fd n : ℕ} (h : get t fd = some .parentTxt) :
    readFd input s t fd n =
      if FileReadReturns input s.offset n then
        some (some ((input.drop s.offset).take n), { s with offset := s.offset + n })
      else none := by
  simp only [readFd, h]

theorem writeFd_childTxt {fd n : ℕ} {bytes : List Byte} (h : get t fd = some .childTxt) :
    writeFd capacity s t fd bytes n =
      if WriteReturns bytes.length n then
        some (some n, { s with childTxt := s.childTxt.map (· ++ bytes.take n) })
      else none := by
  simp only [writeFd, h]

/-- What the table of the parent is, as far as its loop depends on it. -/
def ParentTable (self : DuplexPipe) (t : Table File) (s : State) : Prop :=
  match s.parent with
  | .closing fds =>
      (fds = [self.fdDirect.1, self.fdBack.2] ∧ s.parentTable = t) ∨
        (fds = [self.fdBack.2] ∧ s.parentTable = close t self.fdDirect.1)
  | .openingIn => s.parentTable = closedTable self t
  | .openingOut =>
      s.parentTable = (alloc (closedTable self t) .parentTxt).2 ∧ s.inFd = self.fdDirect.1
  | .reading | .sending | .receiving | .writing =>
      s.parentTable = openTable self t ∧ s.inFd = self.fdDirect.1 ∧ s.outFd = self.fdBack.2
  | .finishing _ | .waiting | .waited => True

/-- The child has its end of `fd_direct` open, and nothing to send. -/
def ChildTable (self : DuplexPipe) (s : State) : Prop :=
  match s.child with
  | .closing fds => self.fdDirect.1 ∉ fds ∧ get s.childTable self.fdDirect.1 = some .directRead
  | .receiving => get s.childTable self.fdDirect.1 = some .directRead
  | .sending => False
  | .finishing _ | .exited => True

/-- The parent means the two files and not the pipes, and the pipes are empty. -/
structure Stage (pipe : DuplexPipe) (t : Table File) (s : State) : Prop where
  parentTable : ParentTable pipe t s
  childTable : ChildTable pipe s
  direct : s.direct = []
  back : s.back = []

theorem stage_init (h : Ends self t) (old : Option (List Byte)) :
    Stage self t (init self t old) where
  parentTable := .inl ⟨rfl, rfl⟩
  childTable := by
    have hlt := h.direct_lt.trans h.direct_lt_back
    refine ⟨?_, h.directRead⟩
    simp [h.direct_lt.ne, hlt.ne]
  direct := rfl
  back := rfl

/-- The parent in its loop: `read(in, …)` and `rcv` read `parent.txt`, `snd` and `write(out, …)`
write `child.txt`. -/
structure MeansFiles (pipe : DuplexPipe) (s : State) : Prop where
  inFd : get s.parentTable s.inFd = some .parentTxt
  outFd : get s.parentTable s.outFd = some .childTxt
  rcv : get s.parentTable pipe.fdDirect.1 = some .parentTxt
  snd : get s.parentTable pipe.fdBack.2 = some .childTxt

/-- The parent is in its loop. -/
def ParentPc.InLoop : ParentPc → Prop
  | .reading | .sending | .receiving | .writing => True
  | _ => False

theorem Stage.meansFiles (h : Stage self t s) (hends : Ends self t) (hloop : s.parent.InLoop) :
    MeansFiles self s := by
  have htable : s.parentTable = openTable self t ∧ s.inFd = self.fdDirect.1 ∧
      s.outFd = self.fdBack.2 := by
    have hall := h.parentTable
    rw [ParentTable] at hall
    cases hpc : s.parent <;> simp_all [ParentPc.InLoop]
  obtain ⟨htable, hin, hout⟩ := htable
  obtain ⟨hparent, hchild⟩ := get_openTable hends
  exact {
    inFd := by rw [htable, hin, hparent]
    outFd := by rw [htable, hout, hchild]
    rcv := by rw [htable, hparent]
    snd := by rw [htable, hchild] }

/-- `parent.txt` after a `read` of `n` bytes. -/
def State.afterRead (s : State) (n : ℕ) : State :=
  { s with offset := s.offset + n }

/-- `child.txt` after a `write` that takes `n` of the bytes in the parent's buffer. -/
def State.afterWrite (s : State) (n : ℕ) : State :=
  { s with childTxt := s.childTxt.map (· ++ (s.parentData.take s.parentLen).take n) }

/-- The parent's buffer after a `read` of `n` bytes of `parent.txt`. -/
def State.readInto (input : List Byte) (s : State) (n : ℕ) : List Byte :=
  (input.drop s.offset).take n ++ s.parentData.drop n

theorem step_parentRead {n : ℕ} (hfiles : MeansFiles self s)
    (hs : step self input capacity s (.parentRead n) = some u) :
    s.parent = .reading ∧ FileReadReturns input s.offset n ∧
      u = if 0 < n then
        { s.afterRead n with
          parentData := s.readInto input n
          parentLen := n
          parent := .sending }
      else (s.afterRead n).leaveLoop self := by
  simp only [step, Option.ite_none_right_eq_some, readFd_parentTxt hfiles.inFd] at hs
  obtain ⟨hpc, hs⟩ := hs
  by_cases hread : FileReadReturns input s.offset n
  · have hlen : ((input.drop s.offset).take n).length = n := Pieces.length_take_drop hread.2.1
    rw [if_pos hread] at hs
    simp only [hlen] at hs
    refine ⟨hpc, hread, ?_⟩
    split at hs <;> cases hs
    next hpos => rw [if_pos hpos]; rfl
    next hpos => rw [if_neg hpos]; rfl
  · rw [if_neg hread] at hs
    cases hs

theorem step_parentSend {n : ℕ} (hfiles : MeansFiles self s)
    (hs : step self input capacity s (.parentSend n) = some u) :
    s.parent = .sending ∧ WriteReturns (s.parentData.take s.parentLen).length n ∧
      u = if n = s.parentLen then { s.afterWrite n with parent := .receiving }
      else (s.afterWrite n).leaveLoop self := by
  simp only [step, writeDuplex, Option.ite_none_right_eq_some, writeFd_childTxt hfiles.snd] at hs
  obtain ⟨hpc, hs⟩ := hs
  by_cases hwrite : WriteReturns (s.parentData.take s.parentLen).length n
  · rw [if_pos hwrite] at hs
    refine ⟨hpc, hwrite, ?_⟩
    simp only [Option.some.injEq] at hs
    split at hs <;> cases hs
    next heq => rw [if_pos heq]; rfl
    next hne => rw [if_neg hne]; rfl
  · rw [if_neg hwrite] at hs
    cases hs

theorem step_parentReceive {n : ℕ} (hfiles : MeansFiles self s)
    (hs : step self input capacity s (.parentReceive n) = some u) :
    s.parent = .receiving ∧ FileReadReturns input s.offset n ∧
      u = if n = s.parentLen then
        { s.afterRead n with parentData := s.readInto input n, parent := .writing }
      else { s.afterRead n with parentData := s.readInto input n }.leaveLoop self := by
  simp only [step, readDuplex, Option.ite_none_right_eq_some, readFd_parentTxt hfiles.rcv] at hs
  obtain ⟨hpc, hs⟩ := hs
  by_cases hread : FileReadReturns input s.offset n
  · have hlen : ((input.drop s.offset).take n).length = n := Pieces.length_take_drop hread.2.1
    rw [if_pos hread] at hs
    simp only [hlen] at hs
    refine ⟨hpc, hread, ?_⟩
    split at hs <;> cases hs
    next heq => rw [if_pos heq]; rfl
    next hne => rw [if_neg hne]; rfl
  · rw [if_neg hread] at hs
    cases hs

theorem step_parentWrite {n : ℕ} (hfiles : MeansFiles self s)
    (hs : step self input capacity s (.parentWrite n) = some u) :
    s.parent = .writing ∧ WriteReturns (s.parentData.take s.parentLen).length n ∧
      u = { s.afterWrite n with parent := .reading } := by
  simp only [step, Option.ite_none_right_eq_some, writeFd_childTxt hfiles.outFd] at hs
  obtain ⟨hpc, hs⟩ := hs
  by_cases hwrite : WriteReturns (s.parentData.take s.parentLen).length n
  · rw [if_pos hwrite] at hs
    exact ⟨hpc, hwrite, (Option.some.inj hs).symm⟩
  · rw [if_neg hwrite] at hs
    cases hs

/-- On the empty pipe the `rcv` of the child can only return zero. -/
theorem step_childReceive {n : ℕ} (h : Stage self t s)
    (hs : step self input capacity s (.childReceive n) = some u) :
    get s.childTable self.fdDirect.1 = some .directRead ∧
      u = { s with child := .finishing self.all } := by
  obtain ⟨-, hchild, hdirect, -⟩ := h
  simp only [step, Option.ite_none_right_eq_some] at hs
  obtain ⟨hpc, hs⟩ := hs
  rw [ChildTable, hpc] at hchild
  refine ⟨hchild, ?_⟩
  simp only [readDuplex, readFd, hchild] at hs
  by_cases hread : PipeReadReturns s s.direct .directWrite n
  · obtain rfl : n = 0 := by simpa [hdirect] using hread.2.1
    rw [if_pos hread] at hs
    simpa only [List.take_zero, List.length_nil, lt_self_iff_false, if_false, List.drop_zero,
      Option.some.injEq, eq_comm] using hs
  · rw [if_neg hread] at hs
    cases hs

/-! ## Stages -/

/-- The calls of the parent's loop. -/
def Action.InLoop : Action → Prop
  | .parentRead _ | .parentSend _ | .parentReceive _ | .parentWrite _ => True
  | _ => False

theorem inLoop_of_step (ha : a.InLoop) (hs : step self input capacity s a = some u) :
    s.parent.InLoop := by
  cases a with
  | parentRead | parentSend | parentReceive | parentWrite =>
    simp only [step, Option.ite_none_right_eq_some] at hs
    rw [hs.1]
    trivial
  | _ => exact ha.elim

/-- The parent's loop changes no table and leaves the pipes and the child alone. -/
theorem stage_inLoop (ha : a.InLoop) (hends : Ends self t) (h : Stage self t s)
    (hs : step self input capacity s a = some u) : Stage self t u := by
  have hloop := inLoop_of_step ha hs
  have hfiles := h.meansFiles hends hloop
  -- the four calls of the loop change buffers and files, not the tables
  obtain ⟨hparent, hchild, hdirect, hback⟩ := h
  cases a with
  | parentRead n =>
    obtain ⟨hpc, -, rfl⟩ := step_parentRead hfiles hs
    rw [ParentTable, hpc] at hparent
    split
    · exact ⟨hparent, hchild, hdirect, hback⟩
    · exact ⟨trivial, hchild, hdirect, hback⟩
  | parentSend n =>
    obtain ⟨hpc, -, rfl⟩ := step_parentSend hfiles hs
    rw [ParentTable, hpc] at hparent
    split
    · exact ⟨hparent, hchild, hdirect, hback⟩
    · exact ⟨trivial, hchild, hdirect, hback⟩
  | parentReceive n =>
    obtain ⟨hpc, -, rfl⟩ := step_parentReceive hfiles hs
    rw [ParentTable, hpc] at hparent
    split
    · exact ⟨hparent, hchild, hdirect, hback⟩
    · exact ⟨trivial, hchild, hdirect, hback⟩
  | parentWrite n =>
    obtain ⟨hpc, -, rfl⟩ := step_parentWrite hfiles hs
    rw [ParentTable, hpc] at hparent
    exact ⟨hparent, hchild, hdirect, hback⟩
  | _ => exact ha.elim

/-- Every step keeps the parent away from the pipes. -/
theorem stage_step (hends : Ends self t) (h : Stage self t s)
    (hs : step self input capacity s a = some u) : Stage self t u := by
  cases a with
  | parentRead n => exact stage_inLoop (a := .parentRead n) trivial hends h hs
  | parentSend n => exact stage_inLoop (a := .parentSend n) trivial hends h hs
  | parentReceive n => exact stage_inLoop (a := .parentReceive n) trivial hends h hs
  | parentWrite n => exact stage_inLoop (a := .parentWrite n) trivial hends h hs
  | parentClose =>
    obtain ⟨hparent, hchild, hdirect, hback⟩ := h
    simp only [step] at hs
    split at hs
    next fd fds hpc =>
      cases hs
      refine ⟨?_, hchild, hdirect, hback⟩
      rw [ParentTable, hpc] at hparent
      -- the two descriptors that `CloseParentPipes` closes, one after the other
      rcases hparent with ⟨hfds, htable⟩ | ⟨hfds, htable⟩
      · obtain ⟨rfl, rfl⟩ := List.cons.inj hfds
        exact .inr ⟨rfl, congrArg (close · _) htable⟩
      · obtain ⟨rfl, rfl⟩ := List.cons.inj hfds
        exact congrArg (close · _) htable
    next fd fds hpc =>
      cases hs
      refine ⟨?_, hchild, hdirect, hback⟩
      -- behind the loop nothing is said about the table any more
      by_cases hnil : fds = [] <;> simp [ParentTable, hnil]
    next => cases hs
  | parentOpenIn =>
    obtain ⟨hparent, hchild, hdirect, hback⟩ := h
    simp only [step, Option.ite_none_right_eq_some, Option.some.injEq] at hs
    obtain ⟨hpc, rfl⟩ := hs
    rw [ParentTable, hpc] at hparent
    refine ⟨⟨by rw [hparent], ?_⟩, hchild, hdirect, hback⟩
    rw [hparent]
    -- `open` gets the number of the read end that has just been closed
    exact lowest_closedTable hends
  | parentOpenOut =>
    obtain ⟨hparent, hchild, hdirect, hback⟩ := h
    simp only [step, Option.ite_none_right_eq_some, Option.some.injEq] at hs
    obtain ⟨hpc, rfl⟩ := hs
    rw [ParentTable, hpc] at hparent
    obtain ⟨htable, hin⟩ := hparent
    refine ⟨⟨by rw [htable, openTable], hin, ?_⟩, hchild, hdirect, hback⟩
    rw [htable]
    -- `open` gets the number of the write end that has just been closed
    exact lowest_opened hends
  | parentWait =>
    obtain ⟨hparent, hchild, hdirect, hback⟩ := h
    simp only [step, Option.ite_none_right_eq_some, Option.some.injEq] at hs
    obtain ⟨-, rfl⟩ := hs
    exact ⟨trivial, hchild, hdirect, hback⟩
  | childClose =>
    obtain ⟨hparent, hchild, hdirect, hback⟩ := h
    simp only [step] at hs
    split at hs
    next fd fds hpc =>
      cases hs
      refine ⟨hparent, ?_, hdirect, hback⟩
      rw [ChildTable, hpc] at hchild
      obtain ⟨hnot, hopen⟩ := hchild
      rw [List.mem_cons, not_or] at hnot
      -- what the child closes is not its read end
      have hstill : get (close s.childTable fd) self.fdDirect.1 = some .directRead := by
        rw [get_close, if_neg hnot.1, hopen]
      by_cases hnil : fds = []
      · simpa [ChildTable, hnil] using hstill
      · simpa [ChildTable, hnil] using ⟨hnot.2, hstill⟩
    next fd fds hpc =>
      cases hs
      exact ⟨hparent, trivial, hdirect, hback⟩
    next => cases hs
  | childExit =>
    obtain ⟨hparent, hchild, hdirect, hback⟩ := h
    simp only [step, Option.ite_none_right_eq_some, Option.some.injEq] at hs
    obtain ⟨-, rfl⟩ := hs
    exact ⟨hparent, trivial, hdirect, hback⟩
  | childReceive n =>
    obtain ⟨-, rfl⟩ := step_childReceive h hs
    exact ⟨h.parentTable, trivial, h.direct, h.back⟩
  | childSend n =>
    obtain ⟨-, hchild, -, -⟩ := h
    simp only [step, Option.ite_none_right_eq_some] at hs
    rw [ChildTable, hs.1] at hchild
    exact hchild.elim

theorem stage_of_run (hends : Ends self t) {tr : List (State × Action)}
    (hrun : Run (step self input capacity) (init self t old) tr s) :
    ∀ v ∈ states tr s, Stage self t v :=
  hrun.invariant_all_states (stage_init hends old) fun _ _ _ => stage_step hends

/-! ## What goes through the pipes -/

/-- No byte gets into the pipe to the child. -/
theorem intoDirect_eq_nil (hends : Ends self t) (h : Stage self t s)
    (hs : step self input capacity s a = some u) : intoDirect self s a = [] := by
  cases a with
  | parentSend n =>
    have hfiles := h.meansFiles hends (inLoop_of_step (a := .parentSend n) trivial hs)
    simp [intoDirect, hfiles.snd]
  | parentWrite n =>
    have hfiles := h.meansFiles hends (inLoop_of_step (a := .parentWrite n) trivial hs)
    simp [intoDirect, hfiles.outFd]
  | _ => rfl

/-- The steps of a run put nothing into the pipe to the child. -/
theorem sent_eq_nil (hends : Ends self t) {tr : List (State × Action)}
    (hrun : Run (step self input capacity) (init self t old) tr s) :
    tr.flatMap (fun x => intoDirect self x.1 x.2) = [] := by
  induction hrun with
  | nil => rfl
  | @snoc tr v w a hrun hlast ih =>
    have hstage : Stage self t v := stage_of_run hends hrun v (mem_states_last tr v)
    rw [List.flatMap_append, ih]
    simpa using intoDirect_eq_nil hends hstage hlast

/-! ## An empty file -/

/-- With an empty `parent.txt` the parent reads once and leaves its loop. -/
structure StageEmpty (s : State) : Prop where
  parent : s.parent ≠ .sending ∧ s.parent ≠ .receiving ∧ s.parent ≠ .writing
  childTxt : s.parent = .reading ∨ s.parent.LeftLoop → s.childTxt = some []

/-- The step of an empty copy uses open descriptors, and takes nothing from the pipes. -/
theorem stageEmpty_step (hends : Ends self t) (h : Stage self t s) (hempty : StageEmpty s)
    (hs : step self [] capacity s a = some u) :
    StageEmpty u ∧ UsesOpenEnds self s a ∧ fromBack self s a = [] := by
  obtain ⟨⟨hsending, hreceiving, hwriting⟩, htxt⟩ := hempty
  cases a with
  | parentClose =>
    simp only [step] at hs
    refine ⟨?_, trivial, rfl⟩
    split at hs
    next fd fds hpc =>
      cases hs
      by_cases hnil : fds = [] <;> constructor <;> simp [hnil, ParentPc.LeftLoop]
    next fd fds hpc =>
      cases hs
      have hdone := htxt (.inr (by rw [hpc]; trivial))
      by_cases hnil : fds = [] <;> constructor <;> simp [hnil, hdone]
    next => cases hs
  | parentOpenIn | parentOpenOut =>
    simp only [step, Option.ite_none_right_eq_some, Option.some.injEq] at hs
    obtain ⟨hpc, rfl⟩ := hs
    exact ⟨by constructor <;> simp [ParentPc.LeftLoop], trivial, rfl⟩
  | parentRead n =>
    have hfiles := h.meansFiles hends (inLoop_of_step (a := .parentRead n) trivial hs)
    obtain ⟨hpc, hread, rfl⟩ := step_parentRead hfiles hs
    -- there is nothing to read, so that the first `read` ends the loop
    have hzero : n = 0 := by simpa using hread.2.1
    refine ⟨?_, trivial, by simp [fromBack, hfiles.inFd]⟩
    rw [if_neg (by omega)]
    exact ⟨by simp [State.leaveLoop], fun _ => htxt (.inl hpc)⟩
  | parentSend n =>
    have hfiles := h.meansFiles hends (inLoop_of_step (a := .parentSend n) trivial hs)
    exact absurd (step_parentSend hfiles hs).1 hsending
  | parentReceive n =>
    have hfiles := h.meansFiles hends (inLoop_of_step (a := .parentReceive n) trivial hs)
    exact absurd (step_parentReceive hfiles hs).1 hreceiving
  | parentWrite n =>
    have hfiles := h.meansFiles hends (inLoop_of_step (a := .parentWrite n) trivial hs)
    exact absurd (step_parentWrite hfiles hs).1 hwriting
  | parentWait =>
    simp only [step, Option.ite_none_right_eq_some, Option.some.injEq] at hs
    obtain ⟨⟨hpc, -⟩, rfl⟩ := hs
    exact ⟨⟨by simp, fun _ => htxt (.inr (by rw [hpc]; trivial))⟩, trivial, rfl⟩
  | childClose =>
    simp only [step] at hs
    split at hs
    · cases hs
      exact ⟨⟨⟨hsending, hreceiving, hwriting⟩, htxt⟩, trivial, rfl⟩
    · cases hs
      exact ⟨⟨⟨hsending, hreceiving, hwriting⟩, htxt⟩, trivial, rfl⟩
    · cases hs
  | childExit =>
    simp only [step, Option.ite_none_right_eq_some, Option.some.injEq] at hs
    obtain ⟨-, rfl⟩ := hs
    exact ⟨⟨⟨hsending, hreceiving, hwriting⟩, htxt⟩, trivial, rfl⟩
  | childReceive n =>
    obtain ⟨hopen, rfl⟩ := step_childReceive h hs
    exact ⟨⟨⟨hsending, hreceiving, hwriting⟩, htxt⟩, hopen, rfl⟩
  | childSend n =>
    have hchild := h.childTable
    simp only [step, Option.ite_none_right_eq_some] at hs
    rw [ChildTable, hs.1] at hchild
    exact hchild.elim

/-- A run with an empty `parent.txt` uses open descriptors only. -/
theorem stageEmpty_of_run (hends : Ends self t) {tr : List (State × Action)}
    (hrun : Run (step self [] capacity) (init self t old) tr s) :
    StageEmpty s ∧ StepsMeet (UsesOpenEnds self) tr ∧
      tr.flatMap (fun x => fromBack self x.1 x.2) = [] := by
  induction hrun with
  | nil =>
    refine ⟨⟨by simp [init], ?_⟩, stepsMeet_nil _, rfl⟩
    simp [init, ParentPc.LeftLoop]
  | @snoc tr v w a hrun hlast ih =>
    obtain ⟨hempty, hopen, hnone⟩ := ih
    have hstage : Stage self t v := stage_of_run hends hrun v (mem_states_last tr v)
    obtain ⟨hempty', hopen', hnone'⟩ := stageEmpty_step hends hstage hempty hlast
    refine ⟨hempty', (stepsMeet_snoc _ _ _ _).mpr ⟨hopen, hopen'⟩, ?_⟩
    rw [List.flatMap_append, hnone]
    simpa using hnone'

/-- When the parent has left its loop, `child.txt` is `parent.txt`, has come through the pipes and
has been transferred over open descriptors only if and only if `parent.txt` is empty. This is so
whatever the process had open before, and for every interleaving. -/
theorem echoed_iff_of_run (t₀ : Table File) {tr : List (State × Action)}
    (hrun : Run (step (createDuplexPipe t₀).1 input capacity)
      (init (createDuplexPipe t₀).1 (createDuplexPipe t₀).2 old) tr s)
    (hleft : s.parent.LeftLoop) :
    Echoed (createDuplexPipe t₀).1 input tr s ↔ input = [] := by
  have hends := createDuplexPipe_ends t₀
  constructor
  · intro h
    rw [← h.sent]
    exact sent_eq_nil hends hrun
  · rintro rfl
    obtain ⟨hempty, hopen, hnone⟩ := stageEmpty_of_run hends hrun
    exact {
      copied := hempty.childTxt (.inr hleft)
      sent := sent_eq_nil hends hrun
      receivedBack := hnone
      openEnds := hopen }

/-- The standard descriptors. -/
def standard : Table File :=
  [some (.other 0), some (.other 1), some (.other 2)]

/-- There is nothing to copy, and the child reads zero once the parent has closed everything. -/
def nothingToCopy : List Action :=
  [.parentClose, .childClose, .parentClose, .parentOpenIn, .childClose, .parentOpenOut,
    .parentRead 0, .parentClose, .parentClose, .parentClose, .parentClose, .parentClose,
    .parentClose, .childReceive 0, .childClose, .childClose, .childClose, .childClose, .childExit,
    .parentWait]

private theorem nothing_to_copy_executes :
    (execute (step (createDuplexPipe standard).1 [] 65536) (fun _ _ => true)
      (init (createDuplexPipe standard).1 (createDuplexPipe standard).2 none)
      nothingToCopy).isSome = true := by
  decide +kernel

/-- `echoed_iff_of_run` on a run that copies an empty file. -/
theorem echoed_nothing_to_copy :
    ∃ tr s, Run (step (createDuplexPipe standard).1 [] 65536)
      (init (createDuplexPipe standard).1 (createDuplexPipe standard).2 none) tr s ∧
      s.parent = .waited ∧ Echoed (createDuplexPipe standard).1 [] tr s := by
  obtain ⟨tr, h, -⟩ := exists_run_of_isSome nothing_to_copy_executes
  exact ⟨tr, _, h, by decide +kernel, (echoed_iff_of_run standard h (by decide +kernel)).mpr rfl⟩

/-- One byte is to be copied. The child never gets out of its first `rcv` while the parent is in
its loop. -/
def oneByte : List Action :=
  [.childClose, .childClose, .parentClose, .parentClose, .parentOpenIn, .parentOpenOut,
    .parentRead 1, .parentSend 1, .parentReceive 0]

private theorem one_byte_executes :
    (execute (step (createDuplexPipe standard).1 [7] 65536) (fun _ _ => true)
      (init (createDuplexPipe standard).1 (createDuplexPipe standard).2 none) oneByte).isSome =
      true := by
  decide +kernel

/-- The byte is in `child.txt`, but `snd` has written it there and not into the pipe, over the
number of an end that the parent has closed. -/
theorem not_echoed_one_byte :
    ∃ tr s, Run (step (createDuplexPipe standard).1 [7] 65536)
      (init (createDuplexPipe standard).1 (createDuplexPipe standard).2 none) tr s ∧
      s.parent.LeftLoop ∧ s.childTxt = some [7] ∧
      tr.flatMap (fun x => intoDirect (createDuplexPipe standard).1 x.1 x.2) = [] ∧
      ¬ Echoed (createDuplexPipe standard).1 [7] tr s := by
  obtain ⟨tr, h, -⟩ := exists_run_of_isSome one_byte_executes
  have hnone := sent_eq_nil (createDuplexPipe_ends standard) h
  refine ⟨tr, _, h, by decide +kernel, by decide +kernel, hnone, fun hok => ?_⟩
  have hsent := hok.sent
  rw [hnone] at hsent
  cases hsent

end DuplexCopy
