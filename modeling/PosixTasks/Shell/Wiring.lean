import PosixTasks.Shell.RunCmd

/-!
# The wiring of a pipeline

Every command executes with its descriptors 0 and 1 at the pipes next to it, and once all of them
execute, nobody else has the ends of these pipes, except for one that the parent is about to
close. The parent never has more than three ends open.

`LoopTable` and `ForkTable` say what the parent has open in a round, and `Wired` what a child has
open when it reaches `execvp`; the former is what `pipe` and `fork` start from, and what the calls
of a round lead back to.

## Main results

* `wired_childCalls`: the calls of a child lead from the parent's table to its own;
* `loopTable_parentCalls`: the calls of the parent lead to the table of the next round;
* `wired_of_run`: the wiring holds in every run, every run ends, and it cannot stop before all
  commands execute.
-/

namespace Shell

open Descriptors Transition

/-! ## The parent's table -/

/-- What is open before `RunCmd`. -/
def stdFiles : Table File := [some .stdin, some .stdout, some .stderr]

/-- What is open at the start of round `i`: the standard descriptors, and the end for reading of
the pipe before. -/
structure LoopTable (prev : Option ℕ) (i : ℕ) (t : Table File) : Prop where
  files : ∀ fd, get t fd = if prev = some fd then some (.readEnd (i - 1)) else get stdFiles fd
  prev_iff : prev = none ↔ i = 0
  le_prev : ∀ fd, prev = some fd → 3 ≤ fd

/-- What is open between `pipe` and `fork` in round `i`. -/
structure ForkTable (prev : Option ℕ) (pipeFd : ℕ × ℕ) (i : ℕ) (t : Table File) : Prop where
  files : ∀ fd, get t fd =
    if fd = pipeFd.2 then some (.writeEnd i)
    else if fd = pipeFd.1 then some (.readEnd i)
    else if prev = some fd then some (.readEnd (i - 1))
    else get stdFiles fd
  prev_iff : prev = none ↔ i = 0
  le_prev : ∀ fd, prev = some fd → 3 ≤ fd ∧ fd ≠ pipeFd.1 ∧ fd ≠ pipeFd.2
  le_read : 3 ≤ pipeFd.1
  le_write : 3 ≤ pipeFd.2
  ne : pipeFd.1 ≠ pipeFd.2

theorem get_stdFiles_of_le {fd : ℕ} (h : 3 ≤ fd) : get stdFiles fd = none :=
  get_of_length_le h

theorem get_stdFiles_ne_none {fd : ℕ} (h : fd < 3) : get stdFiles fd ≠ none := by
  interval_cases fd <;> simp [Descriptors.get, stdFiles]

variable {prev : Option ℕ} {pipeFd : ℕ × ℕ} {i fd k : ℕ} {t : Table File} {o : File} {last : Bool}

theorem LoopTable.get_ne_none (h : LoopTable prev i t) (hfd : fd < 3) : get t fd ≠ none := by
  rw [h.files]
  split
  next => simp
  next => exact get_stdFiles_ne_none hfd

/-- No pipe is open before `RunCmd`. -/
theorem isPipe_of_get_stdFiles (h : get stdFiles fd = some o) : o.isPipe = false := by
  have hlt : fd < 3 := by
    by_contra hle
    simp [get_stdFiles_of_le (not_lt.mp hle)] at h
  interval_cases fd <;> simp [Descriptors.get, stdFiles] at h <;> simp [← h, File.isPipe]

/-- `pipe` opens two further descriptors. -/
theorem LoopTable.pipe (h : LoopTable prev i t) :
    ForkTable prev
      ((alloc t (.readEnd i)).1, (alloc (alloc t (.readEnd i)).2 (.writeEnd i)).1) i
      (alloc (alloc t (.readEnd i)).2 (.writeEnd i)).2 := by
  have hread : get t (alloc t (.readEnd i)).1 = none := get_lowest t
  have hwrite : get (alloc t (.readEnd i)).2 (alloc (alloc t (.readEnd i)).2 (.writeEnd i)).1 =
      none := get_lowest _
  have hwrite' := hwrite
  rw [get_alloc] at hwrite'
  split at hwrite'
  next => simp at hwrite'
  next hne =>
    -- the standard descriptors are open, so that the two new ones are above them
    have hle : ∀ fd, get t fd = none → 3 ≤ fd := by
      intro fd hfree
      by_contra hlt
      exact h.get_ne_none (not_le.mp hlt) hfree
    exact {
      files := by
        intro fd
        simp only [get_alloc, h.files]
      prev_iff := h.prev_iff
      le_prev := by
        intro fd hfd
        have hopen : get t fd ≠ none := by simp [h.files, hfd]
        refine ⟨h.le_prev fd hfd, ?_, ?_⟩
        · rintro rfl
          exact hopen hread
        · rintro rfl
          exact hopen hwrite'
      le_read := hle _ hread
      le_write := hle _ hwrite'
      ne := Ne.symm hne }

/-- A pipe is open only in one of these places. -/
theorem ForkTable.of_isPipe (h : ForkTable prev pipeFd i t) (hfd : get t fd = some o)
    (ho : o.isPipe = true) :
    fd = pipeFd.2 ∧ o = .writeEnd i ∨ fd = pipeFd.1 ∧ o = .readEnd i ∨
      prev = some fd ∧ o = .readEnd (i - 1) := by
  -- the two new ends, what is left of the pipe before, and the standard files
  rw [h.files] at hfd
  split at hfd
  next heq => exact Or.inl ⟨heq, (Option.some.inj hfd).symm⟩
  next =>
    split at hfd
    next heq => exact Or.inr (Or.inl ⟨heq, (Option.some.inj hfd).symm⟩)
    next =>
      split at hfd
      next heq => exact Or.inr (Or.inr ⟨heq, (Option.some.inj hfd).symm⟩)
      next => exact absurd ho (by simp [isPipe_of_get_stdFiles hfd])

theorem ForkTable.mem_of_isPipe (h : ForkTable prev pipeFd i t) (fd : ℕ) (o : File)
    (hfd : get t fd = some o) (ho : o.isPipe = true) :
    fd ∈ [prev.getD 0, pipeFd.1, pipeFd.2] := by
  rcases h.of_isPipe hfd ho with ⟨heq, -⟩ | ⟨heq, -⟩ | ⟨heq, -⟩ <;> simp [heq]

/-! ## A child's table -/

/-- What the command `j` of `n` has open when it is executed. The last one has both ends of a pipe
that no other process has. -/
structure Wired (n j : ℕ) (t : Table File) : Prop where
  stdin : get t 0 = some (if j = 0 then .stdin else .readEnd (j - 1))
  stdout : get t 1 = some (if j < n - 1 then .writeEnd j else .stdout)
  writeEnd : ∀ k fd, get t fd = some (.writeEnd k) → k = j
  readEnd : ∀ k fd, get t fd = some (.readEnd k) → k + 1 = j ∨ k = j ∧ j + 1 = n

/-- The part of a child's calls that moves the pipe before to descriptor 0. -/
theorem ForkTable.get_stdin (h : ForkTable prev pipeFd i t) (k : ℕ) :
    get ((childCalls prev pipeFd true).foldl Call.apply t) k =
      if k = 0 then some (if i = 0 then .stdin else .readEnd (i - 1))
      else if prev = some k then none
      else get t k := by
  cases hprev : prev with
  | none =>
    -- in the first round no pipe is left, and descriptor 0 stays what it was
    have hzero : i = 0 := h.prev_iff.mp hprev
    have hread := h.le_read
    have hwrite := h.le_write
    have hfirst : get t 0 = some .stdin := by
      rw [h.files, if_neg (by omega), if_neg (by omega), hprev]
      rfl
    by_cases hk : k = 0
    · simpa [childCalls, hk, hzero] using hfirst
    · simp [childCalls, hk]
  | some fd =>
    obtain ⟨hle, hneread, hnewrite⟩ := h.le_prev fd hprev
    have hpos : i ≠ 0 := fun hzero => by simp [h.prev_iff.mpr hzero] at hprev
    -- `dup2` puts the read end of the pipe before in the place of descriptor 0
    have hopen : get t fd = some (.readEnd (i - 1)) := by
      rw [h.files, if_neg hnewrite, if_neg hneread, if_pos hprev]
    simp only [childCalls, if_true, List.append_nil, List.foldl_cons, List.foldl_nil, Call.apply,
      get_close, get_dup2 hopen, hpos, if_false, Option.some.injEq]
    by_cases hk : k = 0
    · rw [if_neg (by omega), if_pos hk, if_pos hk]
    · rw [if_neg hk, if_neg hk]
      simp only [eq_comm]

/-- The calls of a child, whichever command it runs. -/
theorem ForkTable.get_childCalls (h : ForkTable prev pipeFd i t) (last : Bool) (k : ℕ) :
    get ((childCalls prev pipeFd last).foldl Call.apply t) k =
      if k = 0 then some (if i = 0 then .stdin else .readEnd (i - 1))
      else if prev = some k then none
      else if last then get t k
      else if k = pipeFd.1 ∨ k = pipeFd.2 then none
      else if k = 1 then some (.writeEnd i)
      else get t k := by
  have hread := h.le_read
  have hwrite := h.le_write
  cases last with
  | true => simpa using h.get_stdin k
  | false =>
    have hsplit : childCalls prev pipeFd false =
        childCalls prev pipeFd true ++ [.dup2 pipeFd.2 1, .close pipeFd.1, .close pipeFd.2] := by
      simp [childCalls]
    have hopen : get ((childCalls prev pipeFd true).foldl Call.apply t) pipeFd.2 =
        some (.writeEnd i) := by
      have hprev : prev ≠ some pipeFd.2 := fun hp => (h.le_prev _ hp).2.2 rfl
      rw [h.get_stdin, if_neg (by omega), if_neg hprev, h.files, if_pos rfl]
    rw [hsplit, List.foldl_append]
    simp only [List.foldl_cons, List.foldl_nil, Call.apply, get_close, get_dup2 hopen,
      h.get_stdin, Bool.false_eq_true, if_false]
    -- the numbers that are written and closed are apart from each other
    have hprev := h.le_prev k
    by_cases hzero : k = 0
    · rw [if_neg (by omega), if_neg (by omega), if_neg (by omega), if_pos hzero, if_pos hzero]
    · by_cases hk : prev = some k
      · have := hprev hk
        rw [if_neg this.2.2, if_neg this.2.1, if_neg (by omega), if_neg hzero, if_pos hk,
          if_neg hzero, if_pos hk]
      · grind

/-- The calls of a child lead from what the parent has open to what its command needs. -/
theorem wired_childCalls {n : ℕ} (h : ForkTable prev pipeFd i t) (hi : i < n) :
    Wired n i ((childCalls prev pipeFd (¬ i < n - 1)).foldl Call.apply t) := by
  have hread := h.le_read
  have hwrite := h.le_write
  -- descriptor 1 is not the read end that is left from the round before
  have hone : prev ≠ some 1 := fun hp => by have := h.le_prev 1 hp; omega
  have hstdout : get t 1 = some .stdout := by
    rw [h.files, if_neg (by omega), if_neg (by omega), if_neg hone]
    rfl
  exact {
    stdin := by rw [h.get_childCalls, if_pos rfl]
    stdout := by
      rw [h.get_childCalls, if_neg one_ne_zero, if_neg hone]
      -- the last command keeps the standard output
      by_cases hlast : i < n - 1
      · have hnot : ¬ (1 = pipeFd.1 ∨ 1 = pipeFd.2) := by omega
        simp [hlast, hnot]
      · simp [hlast, hstdout]
    writeEnd := by
      intro k fd hfd
      rw [h.get_childCalls] at hfd
      have hopen : get t fd = some (.writeEnd k) → _ := h.of_isPipe
      have hfirst : (if i = 0 then File.stdin else .readEnd (i - 1)) ≠ .writeEnd k := by
        split <;> simp
      grind [File.isPipe]
    readEnd := by
      intro k fd hfd
      rw [h.get_childCalls] at hfd
      have hopen : get t fd = some (.readEnd k) → _ := h.of_isPipe
      have hprev := h.prev_iff
      grind [File.isPipe] }

/-! ## From one round to the next -/

/-- The calls of the parent, in whichever round. -/
theorem get_parentCalls (t : Table File) (prev : Option ℕ) (pipeFd : ℕ × ℕ) (last : Bool) (k : ℕ) :
    get ((parentCalls prev pipeFd last).foldl Call.apply t) k =
      if last = false ∧ k = pipeFd.2 then none
      else if prev = some k then none
      else get t k := by
  cases prev with
  | none => cases last <;> simp [parentCalls, Call.apply, get_close]
  | some fd => cases last <;> simp [parentCalls, Call.apply, get_close, eq_comm]

/-- The parent only closes. -/
theorem get_of_parentCalls {before calls : List Call}
    (hsplit : parentCalls prev pipeFd last = before ++ calls)
    (hfd : get (before.foldl Call.apply t) fd = some o) : get t fd = some o := by
  have hclose : ∀ call ∈ before, ∃ fd, call = .close fd := by
    intro call hmem
    have : call ∈ parentCalls prev pipeFd last := by simp [hsplit, hmem]
    cases prev <;> cases last <;> simp [parentCalls] at this <;> grind
  clear hsplit
  induction before generalizing t with
  | nil => exact hfd
  | cons call before ih =>
    obtain ⟨fd', rfl⟩ := hclose _ List.mem_cons_self
    have hrest := ih hfd fun call hmem => hclose call (List.mem_cons_of_mem _ hmem)
    rw [Call.apply, get_close] at hrest
    split at hrest
    next => simp at hrest
    next => exact hrest

/-- The calls of the parent lead to the table that the next round starts with. -/
theorem loopTable_parentCalls (h : ForkTable prev pipeFd i t) :
    LoopTable (some pipeFd.1) (i + 1) ((parentCalls prev pipeFd false).foldl Call.apply t) where
  files := by
    intro fd
    have hprev := h.le_prev fd
    have hread := get_stdFiles_of_le h.le_read
    have hwrite := get_stdFiles_of_le h.le_write
    have hne := h.ne
    rw [get_parentCalls, h.files]
    by_cases hp : prev = some fd
    · have := hprev hp
      have hstd := get_stdFiles_of_le this.1
      grind
    · grind
  prev_iff := by simp
  le_prev := by
    intro fd hfd
    rw [← Option.some.inj hfd]
    exact h.le_read

/-! ## The invariant -/

/-- What the parent has open where it is. `prev` in a round that is over is what `prev_pipe_read`
was at its start. -/
def ParentOk (n : ℕ) (s : State) : ParentPc → Prop
  | .piping => s.i < n ∧ s.children.length = s.i ∧ LoopTable s.prevPipeRead s.i s.table
  | .forking =>
      s.i < n ∧ s.children.length = s.i ∧ ForkTable s.prevPipeRead s.pipeFd s.i s.table
  | .closing calls =>
      s.i < n ∧ s.children.length = s.i + 1 ∧ ∃ prev before t,
        ForkTable prev s.pipeFd s.i t ∧
        parentCalls prev s.pipeFd (¬ s.i < n - 1) = before ++ calls ∧
        s.table = before.foldl Call.apply t ∧
        s.prevPipeRead = if s.i < n - 1 then some s.pipeFd.1 else prev
  | .reaping | .done =>
      s.children.length = n ∧ ∃ readFd writeFd, ∀ fd o,
        get s.table fd = some o → o.isPipe = true →
          fd = writeFd ∧ o = .writeEnd (n - 1) ∨ fd = readFd ∧ o = .readEnd (n - 1)

/-- What a child has open where it is. -/
def ChildOk (n j : ℕ) (child : Child) : Prop :=
  child.command = j ∧
    match child.pc with
    | .starting calls => Wired n j (calls.foldl Call.apply child.table)
    | .executing => Wired n j child.table
    | .ended _ | .reaped _ => child.table = []

/-- What holds throughout a run. -/
structure WiringOk (n : ℕ) (s : State) : Prop where
  parent : ParentOk n s s.pc
  children : ∀ j child, s.children[j]? = some child → ChildOk n j child

variable {n : ℕ} {line : CommandLine} {s s' : State}

theorem loopTable_stdFiles : LoopTable none 0 stdFiles where
  files := by simp
  prev_iff := by simp
  le_prev := by simp

theorem wiringOk_init (line : CommandLine) : WiringOk line.cmdCount (init line) where
  parent := by
    by_cases hcmds : 0 < line.cmdCount
    · rw [init, if_pos hcmds]
      exact ⟨hcmds, rfl, loopTable_stdFiles⟩
    · have hzero : line.cmdCount = 0 := by omega
      simp only [init, State.startReaping, nextRound, hzero, lt_irrefl, if_false, ParentOk]
      refine ⟨rfl, 3, 4, fun fd o hfd ho => ?_⟩
      exact absurd ho (by simp [isPipe_of_get_stdFiles hfd])
  children := by
    have hnone : (init line).children = [] := by
      rw [init]
      split <;> rfl
    simp [hnone]

/-- A child keeps its place and its table as they should be. -/
theorem ChildOk.step {j : ℕ} {child child' : Child} {b : ChildAction} (h : ChildOk n j child)
    (hb : childStep child b = some child') : ChildOk n j child' := by
  rcases childStep_cases hb with ⟨call, calls, -, hpc, rfl⟩ | ⟨-, hpc, rfl⟩ | ⟨status, -, hpc, rfl⟩
  · simp only [ChildOk, hpc, List.foldl_cons] at h ⊢
    exact h
  · simp only [ChildOk, hpc, List.foldl_nil] at h ⊢
    exact h
  · simp only [ChildOk, and_true]
    exact h.1

/-- The places of the children do not change. -/
theorem childrenOk_set {children : List Child} {j : ℕ} {child : Child}
    (h : ∀ j child, children[j]? = some child → ChildOk n j child) (hok : ChildOk n j child) :
    ∀ k child', (children.set j child)[k]? = some child' → ChildOk n k child' := by
  intro k child' hk
  rw [List.getElem?_set] at hk
  split at hk
  next heq =>
    split at hk
    next =>
      rw [← heq, ← Option.some.inj hk]
      exact hok
    next => simp at hk
  next => exact h k child' hk

/-- Only the number of the children matters for the parent. -/
theorem ParentOk.setChild {pc : ParentPc} (h : ParentOk n s pc) (j : ℕ) (child : Child) :
    ParentOk n (s.setChild j child) pc := by
  cases pc <;>
  · simp only [ParentOk, State.setChild, List.length_set] at h ⊢
    exact h

/-- A fork: the child has what the parent has open. -/
theorem WiringOk.fork (h : WiringOk n s) (hpc : s.pc = .forking) : WiringOk n (s.fork n) := by
  have hparent := h.parent
  rw [hpc] at hparent
  obtain ⟨hi, hlength, htable⟩ := hparent
  exact {
    parent := by
      refine ⟨hi, by simp [State.fork, hlength], s.prevPipeRead, [], s.table, htable, rfl, rfl, ?_⟩
      by_cases hlast : s.i < n - 1 <;> simp [State.fork, hlast]
    children := by
      intro j child hj
      rw [State.fork, List.getElem?_append] at hj
      split at hj
      next => exact h.children j child hj
      next hle =>
        rw [List.getElem?_singleton] at hj
        split at hj
        next =>
          -- the new child starts from a copy of the table
          have heq : j = s.i := by omega
          rw [← Option.some.inj hj, heq]
          exact ⟨rfl, wired_childCalls htable hi⟩
        next => simp at hj }

/-- The end of a round. -/
theorem WiringOk.nextCommand (h : WiringOk n s) (hpc : s.pc = .closing []) :
    WiringOk n (s.nextCommand n) := by
  have hparent := h.parent
  rw [hpc] at hparent
  obtain ⟨hi, hlength, prev, before, t, htable, hsplit, ht, hprev⟩ := hparent
  rw [List.append_nil] at hsplit
  subst hsplit
  -- in front of the last round the parent has closed the write end, behind it both ends are open
  by_cases hmore : s.i + 1 < n
  · have hlast : s.i < n - 1 := by omega
    rw [State.nextCommand, if_pos hmore]
    exact {
      parent := by
        refine ⟨hmore, hlength, ?_⟩
        simp only [hlast, if_true, not_true_eq_false, decide_false] at ht hprev
        rw [ht, hprev]
        exact loopTable_parentCalls htable
      children := h.children }
  · have hlast : ¬ s.i < n - 1 := by omega
    rw [State.nextCommand, if_neg hmore, State.startReaping, nextRound]
    exact {
      parent := by
        rw [if_pos (by omega)]
        refine ⟨by simp only [hlength]; omega, s.pipeFd.1, s.pipeFd.2, fun fd o hfd ho => ?_⟩
        have hi' : s.i = n - 1 := by omega
        simp only [hlast, not_false_eq_true, decide_true] at ht
        simp only [ht, get_parentCalls] at hfd
        split at hfd
        next => simp at hfd
        next =>
          split at hfd
          next => simp at hfd
          next hnot =>
            rw [← hi']
            rcases htable.of_isPipe hfd ho with h | h | ⟨h, -⟩
            · exact Or.inl h
            · exact Or.inr h
            · exact absurd h hnot
      children := h.children }

/-- Every step keeps the wiring. -/
theorem WiringOk.step {a : Action} (h : WiringOk line.cmdCount s)
    (hstep : step line s a = some s') : WiringOk line.cmdCount s' := by
  have hparent := h.parent
  rcases step_cases hstep with ⟨-, hpc, rfl⟩ | ⟨-, hpc, rfl⟩ | ⟨call, calls, -, hpc, rfl⟩ |
    ⟨-, hpc, rfl⟩ | ⟨j, child, status, -, hpc, hj, hended, rfl⟩ |
    ⟨j, b, child, child', -, hj, hb, rfl⟩
  · rw [hpc] at hparent
    exact {
      parent := ⟨hparent.1, hparent.2.1, hparent.2.2.pipe⟩
      children := h.children }
  · exact h.fork hpc
  · rw [hpc] at hparent
    obtain ⟨hi, hlength, prev, before, t, htable, hsplit, ht, hprev⟩ := hparent
    exact {
      parent := ⟨hi, hlength, prev, before ++ [call], t, htable, by simpa using hsplit,
        by simp [ht], hprev⟩
      children := h.children }
  · exact h.nextCommand hpc
  · rw [hpc] at hparent
    -- a child that has ended has nothing open, and a reaped one neither
    have hold := h.children j child hj
    simp only [ChildOk, hended] at hold
    exact {
      parent := by
        have hset := hparent.setChild j { child with pc := .reaped status }
        simp only [State.reap, nextRound]
        split <;> exact hset
      children := childrenOk_set h.children hold }
  · exact {
      parent := hparent.setChild j child'
      children := childrenOk_set h.children ((h.children j child hj).step hb) }

/-- The wiring holds at the end of every run. -/
theorem wiringOk_of_run {tr : List (State × Action)} (hrun : Run (step line) (init line) tr s) :
    WiringOk line.cmdCount s :=
  hrun.invariant_all (wiringOk_init line) fun _ _ _ h hstep => h.step hstep

/-! ## Every run ends -/

/-- The steps that a child can still take. -/
def ChildPc.work : ChildPc → ℕ
  | .starting calls => calls.length + 2
  | .executing => 1
  | .ended _ | .reaped _ => 0

/-- The steps that the parent can still take, where what a child can do counts as a step of the
parent's until it is forked. -/
def ParentPc.work (n i : ℕ) : ParentPc → ℕ
  | .piping => 12 * (n - i - 1) + 12 + n
  | .forking => 12 * (n - i - 1) + 11 + n
  | .closing calls => 12 * (n - i - 1) + calls.length + 1 + n
  | .reaping => n - i - 1 + 1
  | .done => 0

/-- The steps that can still be taken. -/
def State.work (n : ℕ) (s : State) : ℕ :=
  s.pc.work n s.i + (s.children.map fun child => child.pc.work).sum

theorem length_childCalls_le (prev : Option ℕ) (pipeFd : ℕ × ℕ) (last : Bool) :
    (childCalls prev pipeFd last).length ≤ 5 := by
  cases prev <;> cases last <;> simp [childCalls]

theorem length_parentCalls_le (prev : Option ℕ) (pipeFd : ℕ × ℕ) (last : Bool) :
    (parentCalls prev pipeFd last).length ≤ 2 := by
  cases prev <;> cases last <;> simp [parentCalls]

/-- What a child does is one step less to do for it. -/
theorem work_childStep {child child' : Child} {b : ChildAction}
    (h : childStep child b = some child') : child'.pc.work < child.pc.work := by
  rcases childStep_cases h with ⟨call, calls, -, hpc, rfl⟩ | ⟨-, hpc, rfl⟩ | ⟨status, -, hpc, rfl⟩
  · simp [hpc, ChildPc.work]
  · simp [hpc, ChildPc.work]
  · simp [hpc, ChildPc.work]

/-- Every step leaves less to do. -/
theorem work_step {a : Action} (h : step line s a = some s') :
    s'.work line.cmdCount < s.work line.cmdCount := by
  rcases step_cases h with ⟨-, hpc, rfl⟩ | ⟨-, hpc, rfl⟩ | ⟨call, calls, -, hpc, rfl⟩ |
    ⟨-, hpc, rfl⟩ | ⟨j, child, status, -, hpc, hj, hended, rfl⟩ |
    ⟨j, b, child, child', -, hj, hb, rfl⟩
  · simp only [State.work, State.pipe, hpc, ParentPc.work]
    omega
  -- a fork pays for the calls of the child and for those of the parent
  · have hchild := length_childCalls_le s.prevPipeRead s.pipeFd (¬ s.i < line.cmdCount - 1)
    have hparent := length_parentCalls_le s.prevPipeRead s.pipeFd (¬ s.i < line.cmdCount - 1)
    simp only [State.work, State.fork, hpc, ParentPc.work, ChildPc.work, List.map_append,
      List.sum_append, List.map_cons, List.map_nil, List.sum_cons, List.sum_nil]
    omega
  · simp only [State.work, hpc, ParentPc.work, List.length_cons]
    omega
  · simp only [State.work, State.nextCommand, State.startReaping, nextRound, hpc]
    split
    next =>
      simp only [ParentPc.work, List.length_nil]
      omega
    next =>
      split
      next =>
        simp only [ParentPc.work, List.length_nil]
        omega
      next =>
        simp only [ParentPc.work, List.length_nil]
        omega
  · have hsum := sum_map_set (fun child => child.pc.work) hj { child with pc := .reaped status }
    -- the child has no steps left, the parent one less
    have hbefore : child.pc.work = 0 := by simp [hended, ChildPc.work]
    have hafter : (ChildPc.reaped status).work = 0 := rfl
    simp only [hbefore, hafter, add_zero] at hsum
    simp only [State.work, State.reap, State.setChild, hsum, hpc, nextRound]
    split
    next =>
      simp only [ParentPc.work]
      omega
    next =>
      simp only [ParentPc.work]
      omega
  · have hsum := sum_map_set (fun child => child.pc.work) hj child'
    have hless := work_childStep hb
    simp only [State.work, State.setChild]
    omega

theorem work_init (line : CommandLine) :
    (init line).work line.cmdCount ≤ 13 * line.cmdCount := by
  by_cases hcmds : 0 < line.cmdCount
  · simp only [init, if_pos hcmds, State.work, ParentPc.work, List.map_nil, List.sum_nil]
    omega
  · simp [init, hcmds, State.work, State.startReaping, nextRound, ParentPc.work]

/-! ## The wiring -/

/-- A child has reached `execvp`. -/
def ChildPc.hasExecuted : ChildPc → Bool
  | .starting _ => false
  | .executing | .ended _ | .reaped _ => true

/-- All children have been forked and have reached `execvp`. -/
def AllExecuted (n : ℕ) (s : State) : Prop :=
  s.children.length = n ∧ ∀ child ∈ s.children, child.pc.hasExecuted = true

instance (n : ℕ) (s : State) : Decidable (AllExecuted n s) :=
  inferInstanceAs (Decidable (_ ∧ _))

/-- No child but `j` has `o` open. -/
def OnlyInChild (s : State) (o : File) (j : ℕ) : Prop :=
  ∀ k child, s.children[k]? = some child → Holds child.table o → k = j

/-- As long as a child has not reached `execvp`, something other than the end of a command can
happen. -/
theorem allExecuted_of_stuck (h : WiringOk line.cmdCount s)
    (hstuck : ∀ a, step line s a ≠ none → ∃ j status, a = .child j (.finish status)) :
    AllExecuted line.cmdCount s := by
  -- every other step is blocked
  have hno : ∀ a, (∀ j status, a ≠ .child j (.finish status)) → step line s a = none := by
    intro a ha
    by_contra hsome
    obtain ⟨j, status, heq⟩ := hstuck a hsome
    exact ha j status heq
  refine ⟨?_, fun child hchild => ?_⟩
  · have hparent := h.parent
    cases hpc : s.pc with
    | piping => simpa [step, hpc] using hno .pipe (by simp)
    | forking => simpa [step, hpc] using hno .fork (by simp)
    | closing calls =>
      have := hno .call (by simp)
      cases calls <;> simp [step, hpc] at this
    | reaping | done =>
      rw [hpc] at hparent
      exact hparent.1
  · obtain ⟨j, hj⟩ := List.mem_iff_getElem?.mp hchild
    cases hpc : child.pc with
    | starting calls =>
      cases calls with
      | nil => simpa [step, hj, childStep, hpc] using hno (.child j .exec) (by simp)
      | cons call calls => simpa [step, hj, childStep, hpc] using hno (.child j .call) (by simp)
    | executing | ended _ | reaped _ => rfl

/-- A command that is executed has the ends of the pipes next to it. -/
theorem WiringOk.of_executing {j : ℕ} {child : Child} (h : WiringOk n s)
    (hj : s.children[j]? = some child) (hpc : child.pc = .executing) : Wired n j child.table := by
  have hok := h.children j child hj
  simp only [ChildOk, hpc] at hok
  exact hok.2

/-- What a child behind `execvp` has open. -/
theorem WiringOk.of_executed {j fd : ℕ} {child : Child} (h : WiringOk n s)
    (hall : AllExecuted n s) (hj : s.children[j]? = some child)
    (ho : get child.table fd = some o) : Wired n j child.table := by
  have hok := h.children j child hj
  cases hpc : child.pc with
  | starting calls =>
    have := hall.2 child (List.mem_of_getElem? hj)
    simp [hpc, ChildPc.hasExecuted] at this
  | executing => exact h.of_executing hj hpc
  | ended _ | reaped _ =>
    simp only [ChildOk, hpc] at hok
    simp [hok.2] at ho

/-- Once all commands execute, the end for writing of a pipe is open only in the child in front of
it. -/
theorem WiringOk.onlyInChild_writeEnd (h : WiringOk n s) (hall : AllExecuted n s) (k : ℕ) :
    OnlyInChild s (.writeEnd k) k := by
  intro j child hj hholds
  obtain ⟨fd, hfd⟩ := holds_iff.mp hholds
  exact ((h.of_executed hall hj hfd).writeEnd k fd hfd).symm

/-- The end for reading is open only in the child behind it. -/
theorem WiringOk.onlyInChild_readEnd (h : WiringOk n s) (hall : AllExecuted n s)
    (hk : k < n - 1) : OnlyInChild s (.readEnd k) (k + 1) := by
  intro j child hj hholds
  obtain ⟨fd, hfd⟩ := holds_iff.mp hholds
  rcases (h.of_executed hall hj hfd).readEnd k fd hfd with h | ⟨h, hlast⟩
  · exact h.symm
  · omega

/-- Once all commands execute, the parent has at most one end of a pipe between two of them open:
the one for reading of the last such pipe, right before it closes it. -/
theorem WiringOk.parent_of_allExecuted (h : WiringOk n s) (hall : AllExecuted n s)
    (hfd : get s.table fd = some o) (ho : o.isPipe = true) :
    o = .readEnd (n - 1) ∨ o = .writeEnd (n - 1) ∨
      o = .readEnd (n - 2) ∧ s.pc = .closing [.close fd] := by
  have hparent := h.parent
  have hlength := hall.1
  cases hpc : s.pc with
  | piping =>
    rw [hpc] at hparent
    obtain ⟨hi, hchildren, -⟩ := hparent
    omega
  | forking =>
    rw [hpc] at hparent
    obtain ⟨hi, hchildren, -⟩ := hparent
    omega
  | closing calls =>
    rw [hpc] at hparent
    obtain ⟨hi, hchildren, prev, before, t, htable, hsplit, ht, -⟩ := hparent
    have hi' : s.i = n - 1 := by omega
    rcases htable.of_isPipe (get_of_parentCalls hsplit (ht ▸ hfd)) ho with
      ⟨-, h⟩ | ⟨-, h⟩ | ⟨hprev, h⟩
    · exact Or.inr (Or.inl (hi' ▸ h))
    · exact Or.inl (hi' ▸ h)
    · refine Or.inr (Or.inr ⟨by rw [h, hi']; rfl, ?_⟩)
      -- the only call of the last round is still to come, because the descriptor is open
      simp only [hi', lt_irrefl, not_false_eq_true, decide_true, hprev, parentCalls, if_true,
        List.append_nil] at hsplit
      cases before with
      | nil => rw [← List.nil_append calls, ← hsplit]
      | cons call before =>
        obtain ⟨rfl, hnil⟩ := List.cons.inj hsplit
        obtain ⟨rfl, -⟩ := List.append_eq_nil_iff.mp hnil.symm
        simp [ht, Call.apply, get_close] at hfd
  | reaping =>
    rw [hpc] at hparent
    obtain ⟨-, readFd, writeFd, hopen⟩ := hparent
    rcases hopen fd o hfd ho with ⟨-, h⟩ | ⟨-, h⟩
    · exact Or.inr (Or.inl h)
    · exact Or.inl h
  | done =>
    rw [hpc] at hparent
    obtain ⟨-, readFd, writeFd, hopen⟩ := hparent
    rcases hopen fd o hfd ho with ⟨-, h⟩ | ⟨-, h⟩
    · exact Or.inr (Or.inl h)
    · exact Or.inl h

/-- The parent has the ends of one pipe open, and the end for reading of the one before. -/
theorem WiringOk.count_le (h : WiringOk n s) : count s.table File.isPipe ≤ 3 := by
  -- three numbers cover them: the end that is left and the two of the new pipe
  obtain ⟨a, b, c, hopen⟩ : ∃ a b c, ∀ fd o, get s.table fd = some o → o.isPipe = true →
      fd ∈ [a, b, c] := by
    have hparent := h.parent
    cases hpc : s.pc with
    | piping =>
      rw [hpc] at hparent
      obtain ⟨-, -, htable⟩ := hparent
      refine ⟨s.prevPipeRead.getD 0, 0, 0, fun fd o hfd ho => ?_⟩
      rw [htable.files] at hfd
      split at hfd
      next hprev => simp [hprev]
      next => exact absurd ho (by simp [isPipe_of_get_stdFiles hfd])
    | forking =>
      rw [hpc] at hparent
      obtain ⟨-, -, htable⟩ := hparent
      exact ⟨_, _, _, htable.mem_of_isPipe⟩
    | closing calls =>
      rw [hpc] at hparent
      obtain ⟨-, -, prev, before, t, htable, hsplit, ht, -⟩ := hparent
      exact ⟨_, _, _, fun fd o hfd => htable.mem_of_isPipe fd o
        (get_of_parentCalls hsplit (ht ▸ hfd))⟩
    | reaping | done =>
      rw [hpc] at hparent
      obtain ⟨-, readFd, writeFd, hopen⟩ := hparent
      refine ⟨readFd, writeFd, 0, fun fd o hfd ho => ?_⟩
      rcases hopen fd o hfd ho with ⟨h, -⟩ | ⟨h, -⟩ <;> simp [h]
  exact Descriptors.count_le hopen

/-! ## Runs -/

/-- Every command executes with its descriptors 0 and 1 at the pipes next to it. -/
def PipesInPlace (n : ℕ) (s : State) : Prop :=
  ∀ j child, s.children[j]? = some child → child.pc = .executing → child.command = j ∧
    get child.table 0 = some (if j = 0 then .stdin else .readEnd (j - 1)) ∧
    get child.table 1 = some (if j < n - 1 then .writeEnd j else .stdout)

/-- Once all commands execute, the ends of the pipes between them are open only in the children
next to them, and the end for reading of the last one in the parent too, if that is right before
its last `close`. -/
def EndsApart (n : ℕ) (s : State) : Prop :=
  AllExecuted n s → ∀ k < n - 1,
    (OnlyInChild s (.writeEnd k) k ∧ ¬ Holds s.table (.writeEnd k)) ∧
    OnlyInChild s (.readEnd k) (k + 1) ∧
    ∀ fd, get s.table fd = some (.readEnd k) → k + 2 = n ∧ s.pc = .closing [.close fd]

theorem WiringOk.pipesInPlace (h : WiringOk n s) : PipesInPlace n s := by
  intro j child hj hpc
  have hwired := h.of_executing hj hpc
  exact ⟨(h.children j child hj).1, hwired.stdin, hwired.stdout⟩

theorem WiringOk.endsApart (h : WiringOk n s) : EndsApart n s := by
  refine fun hall k hk => ⟨⟨h.onlyInChild_writeEnd hall k, ?_⟩, h.onlyInChild_readEnd hall hk, ?_⟩
  · intro hholds
    obtain ⟨fd, hfd⟩ := holds_iff.mp hholds
    have := h.parent_of_allExecuted hall hfd (by simp [File.isPipe])
    simp only [File.writeEnd.injEq, reduceCtorEq, false_and, or_false, false_or] at this
    omega
  · intro fd hfd
    have := h.parent_of_allExecuted hall hfd (by simp [File.isPipe])
    simp only [File.readEnd.injEq, reduceCtorEq, false_or] at this
    rcases this with heq | ⟨heq, hpc⟩
    · omega
    · exact ⟨by omega, hpc⟩

/-- The wiring in every run, whatever the order of the steps, and that it comes about: the parent
has at most three ends of pipes open, no run takes more than `13 * n` steps, and where nothing can
happen but the end of a command, all commands have been executed. -/
theorem wired_of_run {tr : List (State × Action)} (hrun : Run (step line) (init line) tr s) :
    PipesInPlace line.cmdCount s ∧ EndsApart line.cmdCount s ∧
    count s.table File.isPipe ≤ 3 ∧
    tr.length ≤ 13 * line.cmdCount ∧
    ((∀ a, step line s a ≠ none → ∃ j status, a = .child j (.finish status)) →
      AllExecuted line.cmdCount s) := by
  have h := wiringOk_of_run hrun
  refine ⟨h.pipesInPlace, h.endsApart, h.count_le, ?_, allExecuted_of_stuck h⟩
  have hbound := hrun.length_add_le fun _ _ _ => work_step
  have := work_init line
  omega

/-- `a | b` -/
def twoCommands : CommandLine :=
  ⟨[⟨[['a']]⟩, ⟨[['b']]⟩]⟩

/-- The second command executes before the parent has closed its end of the pipe. -/
def hastyChild : List Action :=
  [.pipe, .fork, .child 0 .call, .child 0 .call, .child 0 .call, .child 0 .exec, .call, .call,
    .pipe, .fork, .child 1 .call, .child 1 .call, .child 1 .exec]

private theorem hasty_executes :
    (execute (step twoCommands) (fun _ _ => true) (init twoCommands) hastyChild).any (fun s =>
      AllExecuted twoCommands.cmdCount s ∧ Holds s.table (.readEnd 0)) = true := by
  decide +kernel

/-- `wired_of_run` for two commands. -/
theorem wired_two_commands :
    ∃ tr s, Run (step twoCommands) (init twoCommands) tr s ∧
      AllExecuted twoCommands.cmdCount s ∧ PipesInPlace twoCommands.cmdCount s ∧
      EndsApart twoCommands.cmdCount s ∧ count s.table File.isPipe ≤ 3 := by
  obtain ⟨tr, s, h, -, hs⟩ := exists_run_of_any hasty_executes
  obtain ⟨hall, -⟩ := of_decide_eq_true hs
  obtain ⟨hplace, hends, hcount, -, -⟩ := wired_of_run h
  exact ⟨tr, s, h, hall, hplace, hends, hcount⟩

/-- Both commands execute, and the parent still has the end for reading of their pipe. -/
theorem readEnd_of_hasty_child :
    ∃ tr s, Run (step twoCommands) (init twoCommands) tr s ∧
      AllExecuted twoCommands.cmdCount s ∧ 0 < twoCommands.cmdCount - 1 ∧
      Holds s.table (.readEnd 0) := by
  obtain ⟨tr, s, h, -, hs⟩ := exists_run_of_any hasty_executes
  obtain ⟨hall, hholds⟩ := of_decide_eq_true hs
  exact ⟨tr, s, h, hall, by decide, hholds⟩

end Shell
