import PosixTasks.Lib.Descriptors
import PosixTasks.Lib.Transition
import PosixTasks.Shell.Parser

/-!
# Running a pipeline

`RunCmd` goes through the commands of a line. In each round it opens a pipe and forks a child,
which puts the end of the pipe before at descriptor 0 and the end of this one at descriptor 1 and
then executes the command; the parent closes the ends it does not need for the next round. When
all commands are started it waits as often as there are commands, for whatever child ends.

An action lets the parent or one of the children take its next system call. The calls of a child
before `execvp` are the list `childCalls`. What a command does is not modelled, except that it ends
at some time with some status, as a child also does whose `execvp` fails. No call of `pipe` and
`fork` fails.
-/

namespace Shell

open CString Descriptors

/-- What a descriptor stands for. -/
inductive File where
  | stdin
  | stdout
  | stderr
  /-- the end for reading of the pipe opened in round `k` -/
  | readEnd (k : ℕ)
  | writeEnd (k : ℕ)
  deriving DecidableEq

/-- The end of a pipe. -/
def File.isPipe : File → Bool
  | .readEnd _ | .writeEnd _ => true
  | .stdin | .stdout | .stderr => false

/-- A system call on the table of a process. -/
inductive Call where
  | dup2 (old new : ℕ)
  | close (fd : ℕ)
  deriving DecidableEq

/-- What a call does. -/
def Call.apply (t : Table File) : Call → Table File
  | .dup2 old new => Descriptors.dup2 t old new
  | .close fd => Descriptors.close t fd

/-- The calls of a child before `execvp`. `last` says that it runs the last command. -/
def childCalls (prevPipeRead : Option ℕ) (pipeFd : ℕ × ℕ) (last : Bool) : List Call :=
  (match prevPipeRead with
    | some fd => [.dup2 fd 0, .close fd]
    | none => []) ++
  if last then [] else [.dup2 pipeFd.2 1, .close pipeFd.1, .close pipeFd.2]

/-- The calls of the parent behind a `fork`. -/
def parentCalls (prevPipeRead : Option ℕ) (pipeFd : ℕ × ℕ) (last : Bool) : List Call :=
  (match prevPipeRead with
    | some fd => [.close fd]
    | none => []) ++
  if last then [] else [.close pipeFd.2]

/-- How a process has ended. -/
inductive Status where
  /-- `WIFEXITED`, with `WEXITSTATUS` -/
  | exited (code : ℕ)
  | signalled
  deriving DecidableEq

/-! ## States -/

/-- Where a child is. -/
inductive ChildPc where
  /-- before these calls and `execvp` -/
  | starting (calls : List Call)
  | executing
  /-- ended, and not waited for -/
  | ended (status : Status)
  /-- waited for -/
  | reaped (status : Status)
  deriving DecidableEq

/-- A child of the shell. -/
structure Child where
  /-- Its copy of `i`: it executes the command `cline->cmds[i]`. -/
  command : ℕ
  table : Table File
  pc : ChildPc
  deriving DecidableEq

/-- Where the parent is. -/
inductive ParentPc where
  /-- before `pipe` -/
  | piping
  /-- before `fork` -/
  | forking
  /-- behind `fork`, before these calls -/
  | closing (calls : List Call)
  /-- before `waitpid` -/
  | reaping
  /-- behind both loops -/
  | done
  deriving DecidableEq

/-- A line `Command %zu ('%s') exited with code %d`. The name is `none` if `argv[0]` is `NULL`. -/
structure Printed where
  index : ℕ
  name : Option Text
  code : ℕ
  deriving DecidableEq

/-- The shell and its children. -/
structure State where
  pc : ParentPc
  /-- The loop variable of the loop the parent is in. -/
  i : ℕ
  table : Table File
  pipeFd : ℕ × ℕ
  /-- `prev_pipe_read`; `none` for -1. -/
  prevPipeRead : Option ℕ
  children : List Child
  printed : List Printed

/-- A loop over the commands goes on with round `i`, or is left. -/
def nextRound (n i : ℕ) (inLoop behind : ParentPc) : ParentPc :=
  if i < n then inLoop else behind

/-- The second loop starts, if there is a command. -/
def State.startReaping (n : ℕ) (s : State) : State :=
  { s with pc := nextRound n 0 .reaping .done, i := 0 }

/-- The first loop goes on, or the second one starts. -/
def State.nextCommand (n : ℕ) (s : State) : State :=
  if s.i + 1 < n then { s with pc := .piping, i := s.i + 1 } else s.startReaping n

/-- The shell before `RunCmd`, with only the three standard descriptors open. -/
def init (line : CommandLine) : State :=
  let s : State := {
    pc := .piping
    i := 0
    table := [some .stdin, some .stdout, some .stderr]
    pipeFd := (0, 0)
    prevPipeRead := none
    children := []
    printed := [] }
  if 0 < line.cmdCount then s else s.startReaping line.cmdCount

/-! ## Steps -/

/-- One step of a child. -/
inductive ChildAction where
  | call
  | exec
  | finish (status : Status)
  deriving DecidableEq

/-- One step of the shell or of one of its children. -/
inductive Action where
  | pipe
  | fork
  | call
  /-- `waitpid` returns for the child `j`. -/
  | reap (j : ℕ)
  | child (j : ℕ) (a : ChildAction)
  deriving DecidableEq

/-- The next state of a child; `none` if the action is not enabled. -/
def childStep (child : Child) : ChildAction → Option Child
  | .call =>
      match child.pc with
      | .starting (call :: calls) =>
          some { child with table := call.apply child.table, pc := .starting calls }
      | _ => none
  | .exec =>
      match child.pc with
      | .starting [] => some { child with pc := .executing }
      | _ => none
  | .finish status =>
      match child.pc with
      -- the kernel closes what the process has open
      | .executing => some { child with table := [], pc := .ended status }
      | _ => none

/-- `pipe(pipeFd)` -/
def State.pipe (s : State) : State :=
  let (readFd, table) := alloc s.table (.readEnd s.i)
  let (writeFd, table) := alloc table (.writeEnd s.i)
  { s with table := table, pipeFd := (readFd, writeFd), pc := .forking }

/-- `fork()`. The assignment to `prev_pipe_read` behind the parent's last `close` is made here. -/
def State.fork (n : ℕ) (s : State) : State :=
  let last : Bool := ¬ s.i < n - 1
  { s with
    children := s.children ++ [{
      command := s.i
      table := s.table
      pc := .starting (childCalls s.prevPipeRead s.pipeFd last) }]
    prevPipeRead := if last then s.prevPipeRead else some s.pipeFd.1
    pc := .closing (parentCalls s.prevPipeRead s.pipeFd last) }

/-- What `RunCmd` prints for a child that `waitpid` has returned in round `i`. -/
def printedFor (line : CommandLine) (i : ℕ) : Status → List Printed
  | .exited code => [{ index := i, name := line.cmds[i]?.bind Command.name, code := code }]
  | .signalled => []

/-- Change one child. -/
def State.setChild (s : State) (j : ℕ) (child : Child) : State :=
  { s with children := s.children.set j child }

/-- `waitpid` returns `child`, the child `j`, which has ended with `status`. -/
def State.reap (line : CommandLine) (s : State) (j : ℕ) (child : Child) (status : Status) :
    State :=
  { s.setChild j { child with pc := .reaped status } with
    printed := s.printed ++ printedFor line s.i status
    pc := nextRound line.cmdCount (s.i + 1) .reaping .done
    i := s.i + 1 }

/-- The next state; `none` if the action is not enabled. -/
def step (line : CommandLine) (s : State) : Action → Option State
  | .pipe => if s.pc = .piping then some s.pipe else none
  | .fork => if s.pc = .forking then some (s.fork line.cmdCount) else none
  | .call =>
      match s.pc with
      | .closing (call :: calls) =>
          some { s with table := call.apply s.table, pc := .closing calls }
      | .closing [] => some (s.nextCommand line.cmdCount)
      | _ => none
  | .reap j =>
      if s.pc = .reaping then
        match s.children[j]? with
        | some child =>
            match child.pc with
            | .ended status => some (s.reap line j child status)
            | _ => none
        | none => none
      else none
  | .child j a => s.children[j]?.bind fun child => (childStep child a).map (s.setChild j)

/-- What a step can do. -/
theorem step_cases {line : CommandLine} {s s' : State} {a : Action}
    (h : step line s a = some s') :
    (a = .pipe ∧ s.pc = .piping ∧ s' = s.pipe) ∨
    (a = .fork ∧ s.pc = .forking ∧ s' = s.fork line.cmdCount) ∨
    (∃ call calls, a = .call ∧ s.pc = .closing (call :: calls) ∧
      s' = { s with table := call.apply s.table, pc := .closing calls }) ∨
    (a = .call ∧ s.pc = .closing [] ∧ s' = s.nextCommand line.cmdCount) ∨
    (∃ j child status, a = .reap j ∧ s.pc = .reaping ∧ s.children[j]? = some child ∧
      child.pc = .ended status ∧ s' = s.reap line j child status) ∨
    ∃ j b child child', a = .child j b ∧ s.children[j]? = some child ∧
      childStep child b = some child' ∧ s' = s.setChild j child' := by
  cases a with
  | pipe =>
    obtain ⟨hpc, rfl⟩ : s.pc = .piping ∧ s.pipe = s' := by simpa [step] using h
    exact Or.inl ⟨rfl, hpc, rfl⟩
  | fork =>
    obtain ⟨hpc, rfl⟩ : s.pc = .forking ∧ s.fork line.cmdCount = s' := by simpa [step] using h
    exact Or.inr (Or.inl ⟨rfl, hpc, rfl⟩)
  | call =>
    simp only [step] at h
    split at h
    next call calls hpc =>
      exact Or.inr (Or.inr (Or.inl ⟨call, calls, rfl, hpc, (Option.some.inj h).symm⟩))
    next hpc =>
      exact Or.inr (Or.inr (Or.inr (Or.inl ⟨rfl, hpc, (Option.some.inj h).symm⟩)))
    next => simp at h
  | reap j =>
    simp only [step] at h
    split at h
    next hpc =>
      split at h
      next child hj =>
        split at h
        next status hended =>
          refine Or.inr (Or.inr (Or.inr (Or.inr (Or.inl ?_))))
          exact ⟨j, child, status, rfl, hpc, hj, hended, (Option.some.inj h).symm⟩
        next => simp at h
      next => simp at h
    next => simp at h
  | child j b =>
    -- a child acts by itself, whatever the shell does
    obtain ⟨child, hj, child', hb, rfl⟩ :
        ∃ child, s.children[j]? = some child ∧
          ∃ child', childStep child b = some child' ∧ s.setChild j child' = s' := by
      simpa [step, Option.bind_eq_some_iff] using h
    refine Or.inr (Or.inr (Or.inr (Or.inr (Or.inr ?_))))
    exact ⟨j, b, child, child', rfl, hj, hb, rfl⟩

/-- What a child can do. -/
theorem childStep_cases {child child' : Child} {b : ChildAction}
    (h : childStep child b = some child') :
    (∃ call calls, b = .call ∧ child.pc = .starting (call :: calls) ∧
      child' = { child with table := call.apply child.table, pc := .starting calls }) ∨
    (b = .exec ∧ child.pc = .starting [] ∧ child' = { child with pc := .executing }) ∨
    ∃ status, b = .finish status ∧ child.pc = .executing ∧
      child' = { child with table := [], pc := .ended status } := by
  cases b with
  | call =>
    simp only [childStep] at h
    split at h
    next call calls hpc => exact Or.inl ⟨call, calls, rfl, hpc, (Option.some.inj h).symm⟩
    next => simp at h
  | exec =>
    simp only [childStep] at h
    split at h
    next hpc => exact Or.inr (Or.inl ⟨rfl, hpc, (Option.some.inj h).symm⟩)
    next => simp at h
  | finish status =>
    simp only [childStep] at h
    split at h
    next hpc => exact Or.inr (Or.inr ⟨status, rfl, hpc, (Option.some.inj h).symm⟩)
    next => simp at h

end Shell
