import PosixTasks.Shell.Wiring

/-!
# The exit codes of a pipeline

`RunCmd` numbers the commands it reports in the order in which their processes are waited for, and
not by the command that a process has executed. So a report is right only if the processes end as
they would have to in the order of the commands.

## Main results

* `mem_printed_iff`: what is printed for the command `i` is how the process ended that was waited
  for in round `i`;
* `exitCodesRight_iff_of_run`: all reports are right if and only if in each round a process ended
  like that of the command with the number of the round.
-/

namespace Shell

open Transition

/-! ## What a run has seen -/

/-- How a process has ended; `none` if it has not. -/
def ChildPc.status : ChildPc → Option Status
  | .starting _ | .executing => none
  | .ended status | .reaped status => some status

/-- How the child `j` has ended. -/
def State.statusAt (s : State) (j : ℕ) : Option Status :=
  s.children[j]?.bind fun child => child.pc.status

/-- The child that is waited for. -/
def Action.waited : Action → Option ℕ
  | .reap j => some j
  | .pipe | .fork | .call | .child _ _ => none

/-- How the child `j` ends with a step. -/
def Action.statusFor (j : ℕ) : Action → Option Status
  | .child k (.finish status) => if k = j then some status else none
  | .pipe | .fork | .call | .reap _ | .child _ .call | .child _ .exec => none

/-- The children in the order in which they were waited for. -/
def waitedFor (tr : List (State × Action)) : List ℕ :=
  tr.filterMap fun x => x.2.waited

/-- How the child `j` ended in a run. -/
def statusOf (tr : List (State × Action)) (j : ℕ) : Option Status :=
  tr.findSome? fun x => x.2.statusFor j

/-- In each round, a process ended like that of the command with the number of the round. -/
def EndInOrder (n : ℕ) (tr : List (State × Action)) : Prop :=
  (waitedFor tr).map (statusOf tr) = (List.range n).map (statusOf tr)

/-- Every line names the exit code of the child that executed the command, and there is one for
every command that exited. -/
def ExitCodesRight (line : CommandLine) (s : State) : Prop :=
  (∀ p ∈ s.printed, p.name = line.cmds[p.index]?.bind Command.name ∧
    ∃ child ∈ s.children, child.command = p.index ∧
      child.pc.status = some (.exited p.code)) ∧
  ∀ child ∈ s.children, ∀ code, child.pc.status = some (.exited code) →
    ∃ p ∈ s.printed, p.index = child.command

variable {line : CommandLine} {n : ℕ} {s s' t : State} {a : Action} {tr : List (State × Action)}

theorem waitedFor_snoc : waitedFor (tr ++ [(t, a)]) = waitedFor tr ++ a.waited.toList := by
  cases hwaited : a.waited <;> simp [waitedFor, hwaited]

theorem statusOf_snoc (j : ℕ) :
    statusOf (tr ++ [(t, a)]) j = (statusOf tr j).or (a.statusFor j) := by
  rw [statusOf, List.findSome?_append]
  simp [statusOf]

/-! ## What is printed -/

/-- What is printed if the children are waited for in this order. -/
def printedLines (line : CommandLine) (status : ℕ → Option Status) (order : List ℕ) :
    List Printed :=
  order.zipIdx.flatMap fun x => (status x.1).elim [] (printedFor line x.2)

theorem printedLines_snoc (status : ℕ → Option Status) (order : List ℕ) (j : ℕ) :
    printedLines line status (order ++ [j]) =
      printedLines line status order ++ (status j).elim [] (printedFor line order.length) := by
  simp [printedLines, List.zipIdx_append]

theorem printedLines_congr {status status' : ℕ → Option Status} {order : List ℕ}
    (h : ∀ j ∈ order, status j = status' j) :
    printedLines line status order = printedLines line status' order := by
  apply List.flatMap_congr
  intro x hx
  rw [h x.1 (List.fst_mem_of_mem_zipIdx hx)]

theorem mem_printedFor_iff {p : Printed} {i : ℕ} {status : Status} :
    p ∈ printedFor line i status ↔
      p.index = i ∧ p.name = line.cmds[i]?.bind Command.name ∧ status = .exited p.code := by
  cases status with
  | exited code =>
    obtain ⟨index, name, code'⟩ := p
    simp [printedFor, eq_comm]
  | signalled => simp [printedFor]

/-- A line is that of the child waited for in the round that it names. -/
theorem mem_printedLines_iff {p : Printed} {status : ℕ → Option Status} {order : List ℕ} :
    p ∈ printedLines line status order ↔
      p.name = line.cmds[p.index]?.bind Command.name ∧
        ∃ j, order[p.index]? = some j ∧ status j = some (.exited p.code) := by
  simp only [printedLines, List.mem_flatMap, List.mem_zipIdx_iff_getElem?]
  constructor
  · rintro ⟨⟨j, i⟩, hj, hp⟩
    cases hstatus : status j with
    | none => simp [hstatus] at hp
    | some st =>
      simp only [hstatus, Option.elim_some, mem_printedFor_iff] at hp
      obtain ⟨rfl, hname, rfl⟩ := hp
      exact ⟨hname, j, hj, hstatus⟩
  · rintro ⟨hname, j, hj, hstatus⟩
    refine ⟨(j, p.index), hj, ?_⟩
    rw [hstatus, Option.elim_some, mem_printedFor_iff]
    exact ⟨rfl, hname, rfl⟩

/-! ## The invariant -/

/-- How many children have been waited for. -/
def ParentPc.waitedCount (n i : ℕ) : ParentPc → ℕ
  | .piping | .forking | .closing _ => 0
  | .reaping => i
  | .done => n

/-- What holds at the end of a run. -/
structure ReapOk (line : CommandLine) (tr : List (State × Action)) (s : State) : Prop where
  status : ∀ j, s.statusAt j = statusOf tr j
  waited : ∀ j ∈ waitedFor tr, ∃ child status, s.children[j]? = some child ∧
    child.pc = .reaped status
  nodup : (waitedFor tr).Nodup
  length : (waitedFor tr).length = s.pc.waitedCount line.cmdCount s.i
  lt : s.pc = .reaping → s.i < line.cmdCount
  printed : s.printed = printedLines line (statusOf tr) (waitedFor tr)

theorem reapOk_init (line : CommandLine) : ReapOk line [] (init line) := by
  by_cases hcmds : 0 < line.cmdCount
  · exact {
      status := by simp [init, hcmds, State.statusAt, statusOf]
      waited := by simp [waitedFor]
      nodup := by simp [waitedFor]
      length := by simp [waitedFor, init, hcmds, ParentPc.waitedCount]
      lt := by simp [init, hcmds]
      printed := by simp [init, hcmds, printedLines, waitedFor] }
  · have hzero : line.cmdCount = 0 := by omega
    exact {
      status := by simp [init, hzero, State.startReaping, State.statusAt, statusOf]
      waited := by simp [waitedFor]
      nodup := by simp [waitedFor]
      length := by simp [waitedFor, init, hzero, State.startReaping, nextRound,
        ParentPc.waitedCount]
      lt := by simp [init, hzero, State.startReaping, nextRound]
      printed := by simp [init, hzero, State.startReaping, printedLines, waitedFor] }

/-- What a child that is waited for ended with does not change any more. -/
theorem ReapOk.statusOf_snoc_of_mem (h : ReapOk line tr s) {j : ℕ} (hj : j ∈ waitedFor tr) :
    statusOf (tr ++ [(t, a)]) j = statusOf tr j := by
  obtain ⟨child, status, hchild, hpc⟩ := h.waited j hj
  have hsome : statusOf tr j = some status := by
    rw [← h.status, State.statusAt, hchild]
    simp [hpc, ChildPc.status]
  rw [statusOf_snoc, hsome, Option.some_or]

/-- A step with which nothing is waited for. -/
theorem ReapOk.of_not_waited (h : ReapOk line tr s) (hwaited : a.waited = none)
    (hstatus : ∀ j, s'.statusAt j = (s.statusAt j).or (a.statusFor j))
    (hchildren : ∀ (j : ℕ) child status, s.children[j]? = some child →
      child.pc = .reaped status → s'.children[j]? = some child)
    (hcount : s'.pc.waitedCount line.cmdCount s'.i = s.pc.waitedCount line.cmdCount s.i)
    (hlt : s'.pc = .reaping → s'.i < line.cmdCount) (hprinted : s'.printed = s.printed) :
    ReapOk line (tr ++ [(t, a)]) s' := by
  -- the step waits for no child
  have hwaitedFor : waitedFor (tr ++ [(t, a)]) = waitedFor tr := by
    simp [waitedFor_snoc, hwaited]
  exact {
    status := by
      intro j
      rw [hstatus, statusOf_snoc, h.status]
    waited := by
      intro j hj
      rw [hwaitedFor] at hj
      obtain ⟨child, status, hchild, hpc⟩ := h.waited j hj
      exact ⟨child, status, hchildren j child status hchild hpc, hpc⟩
    nodup := by
      rw [hwaitedFor]
      exact h.nodup
    length := by rw [hwaitedFor, hcount, h.length]
    lt := hlt
    printed := by
      rw [hprinted, hwaitedFor, h.printed]
      exact printedLines_congr fun j hj => (h.statusOf_snoc_of_mem hj).symm }

theorem statusAt_setChild {j : ℕ} {child : Child} (hj : s.children[j]? = some child)
    (child' : Child) (k : ℕ) :
    (s.setChild j child').statusAt k = if j = k then child'.pc.status else s.statusAt k := by
  obtain ⟨hlt, -⟩ := List.getElem?_eq_some_iff.mp hj
  rw [State.statusAt, State.setChild, List.getElem?_set]
  split
  next => simp
  next => rfl

/-- A fork adds a child that has not ended. -/
theorem ReapOk.fork (h : ReapOk line tr s) (hpc : s.pc = .forking) :
    ReapOk line (tr ++ [(t, .fork)]) (s.fork line.cmdCount) := by
  apply h.of_not_waited rfl
  · intro j
    simp only [State.statusAt, State.fork, Action.statusFor, Option.or_none, List.getElem?_append]
    split
    next => rfl
    next hle =>
      rw [List.getElem?_singleton, List.getElem?_eq_none (not_lt.mp hle)]
      split <;> rfl
  · intro j child status hj _
    obtain ⟨hlt, -⟩ := List.getElem?_eq_some_iff.mp hj
    rwa [State.fork, List.getElem?_append_left hlt]
  · simp [State.fork, hpc, ParentPc.waitedCount]
  · simp [State.fork]
  · rfl

/-- Where the parent is behind a round of the first loop. -/
theorem nextCommand_cases (n : ℕ) (s : State) :
    s.nextCommand n = { s with pc := .piping, i := s.i + 1 } ∨
    0 < n ∧ s.nextCommand n = { s with pc := .reaping, i := 0 } ∨
    n = 0 ∧ s.nextCommand n = { s with pc := .done, i := 0 } := by
  rw [State.nextCommand, State.startReaping, nextRound]
  split
  next => exact Or.inl rfl
  next =>
    split
    next hcmds => exact Or.inr (Or.inl ⟨hcmds, rfl⟩)
    next hnone => exact Or.inr (Or.inr ⟨Nat.eq_zero_of_not_pos hnone, rfl⟩)

/-- The end of a round of the first loop, which may be the last one. -/
theorem ReapOk.nextCommand (h : ReapOk line tr s) (hpc : s.pc = .closing []) :
    ReapOk line (tr ++ [(t, .call)]) (s.nextCommand line.cmdCount) := by
  -- another round, or the second loop, or the return where there is no command
  rcases nextCommand_cases line.cmdCount s with heq | ⟨hcmds, heq⟩ | ⟨hzero, heq⟩
  · rw [heq]
    exact h.of_not_waited rfl (by simp [State.statusAt, Action.statusFor]) (fun _ _ _ hj _ => hj)
      (by simp [hpc, ParentPc.waitedCount]) (by simp) rfl
  · rw [heq]
    exact h.of_not_waited rfl (by simp [State.statusAt, Action.statusFor]) (fun _ _ _ hj _ => hj)
      (by simp [hpc, ParentPc.waitedCount]) (fun _ => hcmds) rfl
  · rw [heq]
    exact h.of_not_waited rfl (by simp [State.statusAt, Action.statusFor]) (fun _ _ _ hj _ => hj)
      (by simp [hpc, ParentPc.waitedCount, hzero]) (by simp) rfl

/-- A step of a child. -/
theorem ReapOk.child (h : ReapOk line tr s) {j : ℕ} {child child' : Child} {b : ChildAction}
    (hj : s.children[j]? = some child) (hb : childStep child b = some child') :
    ReapOk line (tr ++ [(t, .child j b)]) (s.setChild j child') := by
  -- it had not ended, and its own step is what it ends with
  obtain ⟨hnone, hafter⟩ : child.pc.status = none ∧
      child'.pc.status = Action.statusFor j (.child j b) := by
    rcases childStep_cases hb with ⟨call, calls, rfl, hpc, rfl⟩ | ⟨rfl, hpc, rfl⟩ |
      ⟨status, rfl, hpc, rfl⟩ <;> simp [hpc, ChildPc.status, Action.statusFor]
  apply h.of_not_waited rfl
  · intro k
    rw [statusAt_setChild hj]
    split
    next heq => rw [← heq, hafter, State.statusAt, hj, Option.bind_some, hnone, Option.none_or]
    next hne =>
      have hother : Action.statusFor k (.child j b) = none := by
        cases b <;> simp [Action.statusFor, hne]
      rw [hother, Option.or_none]
  · intro k child'' status hk hreaped
    have hne : j ≠ k := by
      rintro rfl
      obtain rfl : child = child'' := Option.some.inj (hj.symm.trans hk)
      simp [hreaped, ChildPc.status] at hnone
    rw [State.setChild, List.getElem?_set_ne hne, hk]
  · rfl
  · exact h.lt
  · rfl

/-- A child is waited for. -/
theorem ReapOk.reap (h : ReapOk line tr s) {j : ℕ} {child : Child} {status : Status}
    (hpc : s.pc = .reaping) (hj : s.children[j]? = some child)
    (hended : child.pc = .ended status) :
    ReapOk line (tr ++ [(t, .reap j)]) (s.reap line j child status) := by
  have hi := h.lt hpc
  -- a child is waited for once, for it has not been reaped before
  have hnew : j ∉ waitedFor tr := by
    intro hmem
    obtain ⟨child', status', hchild, hreaped⟩ := h.waited j hmem
    obtain rfl : child = child' := Option.some.inj (hj.symm.trans hchild)
    simp [hended] at hreaped
  have hlength : (waitedFor tr).length = s.i := by
    simpa [hpc, ParentPc.waitedCount] using h.length
  have hstatus : statusOf tr j = some status := by
    rw [← h.status, State.statusAt, hj, Option.bind_some, hended]
    rfl
  -- the step changes what was waited for, and not what the children have ended with
  have hstatusOf : statusOf (tr ++ [(t, .reap j)]) = statusOf tr := by
    funext k
    simp [statusOf_snoc, Action.statusFor]
  have hwaitedFor : waitedFor (tr ++ [(t, .reap j)]) = waitedFor tr ++ [j] := by
    simp [waitedFor_snoc, Action.waited]
  exact {
    status := by
      intro k
      have hset := statusAt_setChild hj { child with pc := .reaped status } k
      have hreap : (s.reap line j child status).statusAt k =
          (s.setChild j { child with pc := .reaped status }).statusAt k := rfl
      rw [hstatusOf, hreap, hset]
      split
      next heq => rw [← heq, hstatus]; rfl
      next => exact h.status k
    waited := by
      intro k hk
      have hset : (s.reap line j child status).children =
          s.children.set j { child with pc := .reaped status } := rfl
      rw [hset]
      by_cases heq : k = j
      · obtain ⟨hlt, -⟩ := List.getElem?_eq_some_iff.mp hj
        rw [heq, List.getElem?_set_self hlt]
        exact ⟨_, status, rfl, rfl⟩
      · rw [hwaitedFor, List.mem_append, List.mem_singleton, or_iff_left heq] at hk
        rw [List.getElem?_set_ne (Ne.symm heq)]
        exact h.waited k hk
    nodup := by
      rw [hwaitedFor, ← List.concat_eq_append]
      exact List.Nodup.concat hnew h.nodup
    length := by
      rw [hwaitedFor, List.length_append, hlength, List.length_singleton]
      simp only [State.reap, nextRound]
      split
      next => rfl
      next => simp only [ParentPc.waitedCount]; omega
    lt := by
      simp only [State.reap, nextRound]
      split
      next hmore => exact fun _ => hmore
      next => simp
    printed := by
      rw [hwaitedFor, hstatusOf, printedLines_snoc, hlength, hstatus, ← h.printed]
      rfl }

/-- The invariant holds at the end of every run. -/
theorem reapOk_of_run (hrun : Run (step line) (init line) tr s) : ReapOk line tr s := by
  induction hrun with
  | nil => exact reapOk_init line
  | snoc _ hlast ih =>
    rcases step_cases hlast with ⟨rfl, hpc, rfl⟩ | ⟨rfl, hpc, rfl⟩ | ⟨call, calls, rfl, hpc, rfl⟩ |
      ⟨rfl, hpc, rfl⟩ | ⟨j, child, status, rfl, hpc, hj, hended, rfl⟩ |
      ⟨j, b, child, child', rfl, hj, hb, rfl⟩
    · exact ih.of_not_waited rfl (by simp [State.statusAt, Action.statusFor, State.pipe])
        (fun _ _ _ hj _ => hj) (by simp [hpc, ParentPc.waitedCount, State.pipe])
        (by simp [State.pipe]) rfl
    · exact ih.fork hpc
    · exact ih.of_not_waited rfl (by simp [State.statusAt, Action.statusFor])
        (fun _ _ _ hj _ => hj) (by simp [hpc, ParentPc.waitedCount]) (by simp) rfl
    · exact ih.nextCommand hpc
    · exact ih.reap hpc hj hended
    · exact ih.child hj hb

/-! ## Behind the last round -/

/-- What is known behind both loops: which children there are, and that each of them has been
waited for. -/
structure AllReaped (line : CommandLine) (tr : List (State × Action)) (s : State) : Prop where
  length : (waitedFor tr).length = line.cmdCount
  /-- `none` stands for neither an exit nor a signal, which is no longer possible. -/
  status : ∀ j < line.cmdCount, ∃ child status, s.children[j]? = some child ∧
    child.command = j ∧ child.pc.status = some status ∧ statusOf tr j = some status
  lt : ∀ j ∈ waitedFor tr, j < line.cmdCount
  command : ∀ child ∈ s.children, s.children[child.command]? = some child
  count : s.children.length = line.cmdCount

theorem allReaped_of_run (hrun : Run (step line) (init line) tr s) (hdone : s.pc = .done) :
    AllReaped line tr s := by
  have h := reapOk_of_run hrun
  have hwiring := wiringOk_of_run hrun
  have hcount : s.children.length = line.cmdCount := by
    have hparent := hwiring.parent
    rw [hdone] at hparent
    exact hparent.1
  have hlength : (waitedFor tr).length = line.cmdCount := by
    simpa [hdone, ParentPc.waitedCount] using h.length
  have hlt : ∀ j ∈ waitedFor tr, j < line.cmdCount := by
    intro j hj
    obtain ⟨child, status, hchild, -⟩ := h.waited j hj
    obtain ⟨hlt, -⟩ := List.getElem?_eq_some_iff.mp hchild
    rwa [← hcount]
  -- as many different children have been waited for as there are
  have hsub : waitedFor tr ⊆ List.range line.cmdCount :=
    fun j hj => List.mem_range.mpr (hlt j hj)
  have hperm : (waitedFor tr).Perm (List.range line.cmdCount) :=
    (h.nodup.subperm hsub).perm_of_length_le (by simp [hlength])
  exact {
    length := hlength
    status := by
      intro j hj
      obtain ⟨child, status, hchild, hpc⟩ := h.waited j (hperm.mem_iff.mpr (List.mem_range.mpr hj))
      have hstatus : child.pc.status = some status := by rw [hpc, ChildPc.status]
      refine ⟨child, status, hchild, (hwiring.children j child hchild).1, hstatus, ?_⟩
      rw [← h.status, State.statusAt, hchild, Option.bind_some, hstatus]
    lt := hlt
    command := by
      intro child hchild
      obtain ⟨j, hj⟩ := List.mem_iff_getElem?.mp hchild
      rw [(hwiring.children j child hj).1, hj]
    count := hcount }

/-- The condition on each round. -/
theorem endInOrder_iff (hlength : (waitedFor tr).length = n) :
    EndInOrder n tr ↔ ∀ i j, (waitedFor tr)[i]? = some j → statusOf tr j = statusOf tr i := by
  rw [EndInOrder, List.ext_getElem?_iff]
  simp only [List.getElem?_map]
  constructor
  · intro h i j hj
    obtain ⟨hi, -⟩ := List.getElem?_eq_some_iff.mp hj
    have := h i
    rw [hj, List.getElem?_range (hlength ▸ hi)] at this
    simpa using this
  · intro h i
    rcases lt_or_ge i n with hi | hi
    · have hj := List.getElem?_eq_getElem (hlength.symm ▸ hi)
      rw [hj, List.getElem?_range hi, Option.map_some, Option.map_some, h i _ hj]
    · rw [List.getElem?_eq_none (hlength.trans_le hi), List.getElem?_eq_none (by simpa using hi)]

/-- What is printed for a command is how the process ended that was waited for in its round. -/
theorem mem_printed_iff (hrun : Run (step line) (init line) tr s) (p : Printed) :
    p ∈ s.printed ↔ p.name = line.cmds[p.index]?.bind Command.name ∧
      ∃ j, (waitedFor tr)[p.index]? = some j ∧ statusOf tr j = some (.exited p.code) := by
  rw [(reapOk_of_run hrun).printed, mem_printedLines_iff]

/-- All reports are right if and only if in each round a process ended like that of the command
with the number of the round. -/
theorem exitCodesRight_iff_of_run (hrun : Run (step line) (init line) tr s)
    (hdone : s.pc = .done) : ExitCodesRight line s ↔ EndInOrder line.cmdCount tr := by
  have hall := allReaped_of_run hrun hdone
  rw [endInOrder_iff hall.length]
  constructor
  · rintro ⟨hright, hevery⟩ i j hj
    obtain ⟨hi, -⟩ := List.getElem?_eq_some_iff.mp hj
    rw [hall.length] at hi
    obtain ⟨child, status, hchild, hcommand, hstatus, hof⟩ := hall.status i hi
    obtain ⟨-, statusj, -, -, -, hofj⟩ := hall.status j (hall.lt j (List.mem_of_getElem? hj))
    cases statusj with
    | exited code =>
      -- the line that is printed has the code of the command
      obtain ⟨-, child', hmem, hcommand', hcode⟩ :=
        hright ⟨i, line.cmds[i]?.bind Command.name, code⟩
          ((mem_printed_iff hrun _).mpr ⟨rfl, j, hj, hofj⟩)
      have hchild' := hall.command child' hmem
      rw [hcommand', hchild] at hchild'
      rw [hofj, hof, ← hstatus, Option.some.inj hchild', hcode]
    | signalled =>
      cases status with
      | exited code =>
        -- no line is printed, but the command has exited
        obtain ⟨p, hp, hindex⟩ := hevery child (List.mem_of_getElem? hchild) code hstatus
        obtain ⟨-, k, hk, hofk⟩ := (mem_printed_iff hrun p).mp hp
        rw [hindex, hcommand, hj] at hk
        rw [← Option.some.inj hk, hofj] at hofk
        simp at hofk
      | signalled => rw [hofj, hof]
  · intro horder
    refine ⟨fun p hp => ?_, fun child hmem code hcode => ?_⟩
    · obtain ⟨hname, j, hj, hofj⟩ := (mem_printed_iff hrun p).mp hp
      obtain ⟨hi, -⟩ := List.getElem?_eq_some_iff.mp hj
      rw [hall.length] at hi
      obtain ⟨child, status, hchild, hcommand, hstatus, hof⟩ := hall.status p.index hi
      refine ⟨hname, child, List.mem_of_getElem? hchild, hcommand, ?_⟩
      rw [hstatus, ← hof, ← horder _ _ hj, hofj]
    · have hchild := hall.command child hmem
      obtain ⟨hi, -⟩ := List.getElem?_eq_some_iff.mp hchild
      rw [hall.count, ← hall.length] at hi
      have hj := List.getElem?_eq_getElem hi
      obtain ⟨child', status, hchild', -, hstatus, hof⟩ :=
        hall.status child.command (hall.length ▸ hi)
      rw [hchild] at hchild'
      rw [← Option.some.inj hchild', hcode] at hstatus
      refine ⟨⟨child.command, line.cmds[child.command]?.bind Command.name, code⟩, ?_, rfl⟩
      rw [mem_printed_iff hrun]
      exact ⟨rfl, _, hj, by rw [horder _ _ hj, hof, ← hstatus]⟩

/-! ## Two commands -/

/-- Both commands are started; the children take all their steps up to `execvp`. Then come the
actions of `ends`. -/
def startTwo (ends : List Action) : List Action :=
  .pipe :: .fork :: .child 0 .call :: .child 0 .call :: .child 0 .call :: .child 0 .exec ::
    .call :: .call :: .pipe :: .fork :: .child 1 .call :: .child 1 .call :: .child 1 .exec ::
    .call :: .call :: ends

/-- The first command ends with 0 and the second one with 1, in this order. -/
def endInTurn : List Action :=
  startTwo [.child 0 (.finish (.exited 0)), .reap 0, .child 1 (.finish (.exited 1)), .reap 1]

/-- They end the other way round. -/
def endOutOfTurn : List Action :=
  startTwo [.child 1 (.finish (.exited 1)), .reap 1, .child 0 (.finish (.exited 0)), .reap 0]

private theorem inTurn_executes :
    (execute (step twoCommands) (fun _ _ => true) (init twoCommands) endInTurn).any (fun s =>
      s.pc = .done ∧ s.printed.map Printed.code = [0, 1]) = true := by
  decide +kernel

private theorem outOfTurn_executes :
    (execute (step twoCommands) (fun _ _ => true) (init twoCommands) endOutOfTurn).any (fun s =>
      s.pc = .done ∧ ⟨0, some ['a'], 1⟩ ∈ s.printed ∧ s.statusAt 0 = some (.exited 0)) =
        true := by
  decide +kernel

/-- `exitCodesRight_iff_of_run` for two commands that end in turn. -/
theorem exitCodesRight_in_turn :
    ∃ tr s, Run (step twoCommands) (init twoCommands) tr s ∧ s.pc = .done ∧
      s.printed.map Printed.code = [0, 1] ∧
      (ExitCodesRight twoCommands s ↔ EndInOrder twoCommands.cmdCount tr) := by
  obtain ⟨tr, s, h, -, hs⟩ := exists_run_of_any inTurn_executes
  obtain ⟨hdone, hprinted⟩ := of_decide_eq_true hs
  exact ⟨tr, s, h, hdone, hprinted, exitCodesRight_iff_of_run h hdone⟩

/-- The second command ends first, with 1, and `Command 0 ('a') exited with code 1` is printed. -/
theorem wrong_code_of_second_first :
    ∃ tr s, Run (step twoCommands) (init twoCommands) tr s ∧ s.pc = .done ∧
      ⟨0, some ['a'], 1⟩ ∈ s.printed ∧ s.statusAt 0 = some (.exited 0) ∧
      ¬ ExitCodesRight twoCommands s := by
  obtain ⟨tr, s, h, -, hs⟩ := exists_run_of_any outOfTurn_executes
  obtain ⟨hdone, hprinted, hstatus⟩ := of_decide_eq_true hs
  refine ⟨tr, s, h, hdone, hprinted, hstatus, fun hright => ?_⟩
  -- the line is that of the child that executed the command 0, which exited with another code
  obtain ⟨-, child, hmem, hcommand, hcode⟩ := hright.1 _ hprinted
  have hchild := (allReaped_of_run h hdone).command child hmem
  rw [hcommand] at hchild
  rw [State.statusAt, hchild, Option.bind_some, hcode] at hstatus
  simp at hstatus

end Shell
