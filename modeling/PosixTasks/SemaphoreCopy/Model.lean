import PosixTasks.Lib.Transition

/-!
# Copying a file with shared memory and two semaphores

The parent of `shm_main.c` reads `input.txt` into a shared buffer and the child writes the buffer
to `output.txt`. The parent waits for semaphore 0 and signals semaphore 1, the child does the
opposite. The parent leaves its loop at the end of the file and removes the semaphores; unlike the
parents of `fifo_main.c` and `mq_main.c` it does not wait for its child.

The model starts at the `fork` of `main`. An action lets one of the two processes take its next
step; the actions for `read` and `write` carry the number of bytes the call returns. No call on a
file fails, the calls on the semaphores fail once the set has been removed. `shmctl(IPC_RMID)` is
left out: the segment stays until the child has detached it.
-/

namespace SemaphoreCopy

/-- One byte of a file. -/
abbrev Byte := UInt8

/-- `SHM_SIZE`. -/
def shmSize : ℕ := 4096 * 1024

/-- `SharedData`. -/
structure SharedData where
  /-- `buf_size` -/
  bufSize : ℕ
  buffer : List Byte
  eof : Bool

/-! ## Semaphores -/

/-- The semaphores of the set `semid`. -/
inductive SemNum where
  /-- number 0, for which the producer waits -/
  | producer
  /-- number 1, for which the consumer waits -/
  | consumer

/-- What `semop` does. -/
inductive SemResult where
  | blocks
  | fails
  /-- the new values of the two semaphores -/
  | succeeds (sems : ℕ × ℕ)

/-- `sem_wait`. The set is `none` once it has been removed. -/
def semWait : SemNum → Option (ℕ × ℕ) → SemResult
  | _, none => .fails
  | .producer, some (v + 1, w) => .succeeds (v, w)
  | .consumer, some (v, w + 1) => .succeeds (v, w)
  | _, some _ => .blocks

/-- `sem_signal`. -/
def semSignal : SemNum → Option (ℕ × ℕ) → SemResult
  | _, none => .fails
  | .producer, some (v, w) => .succeeds (v + 1, w)
  | .consumer, some (v, w) => .succeeds (v, w + 1)

/-! ## States -/

/-- Where the producer is. -/
inductive ParentPc where
  /-- before `sem_wait(semid, 0)` -/
  | waiting
  /-- before `read` -/
  | reading
  /-- `read` has returned `n`; before the first of the two assignments to `shd` -/
  | storing (n : ℕ)
  /-- before the second of them -/
  | halfStored (n : ℕ)
  /-- before `sem_signal(semid, 1)`, on the branch for the end of the file or the one for data -/
  | signalling (last : Bool)
  /-- behind the loop, left on the end of the file or because a call on a semaphore failed -/
  | left (onEof : Bool)
  /-- behind `semctl(IPC_RMID)` -/
  | removed (onEof : Bool)
  deriving DecidableEq

/-- Where the consumer is. -/
inductive ChildPc where
  /-- before `open` -/
  | opening
  /-- before `sem_wait(semid, 1)` -/
  | waiting
  /-- before the test of `eof` -/
  | checking
  /-- before `buf_size` is read -/
  | sizing
  /-- in the loop around `write` -/
  | writing (bytesToWrite written : ℕ)
  /-- before `sem_signal(semid, 0)`, on the branch for the end of the file or the one for data -/
  | signalling (last : Bool)
  /-- behind the loop, or ended with `exit(1)` -/
  | ended
  deriving DecidableEq

/-- The two processes, the semaphores and the files. -/
structure State where
  /-- The offset of `fd_in`. -/
  offset : ℕ
  shd : SharedData
  /-- The values of the semaphores 0 and 1; `none` once the set has been removed. -/
  sems : Option (ℕ × ℕ)
  parent : ParentPc
  child : ChildPc
  /-- `output.txt`; `none` if there is no such file. -/
  output : Option (List Byte)

/-- The state after `fork`. The segment and `output.txt` may be left from an earlier run. -/
def init (output : Option (List Byte)) (shd : SharedData) : State where
  offset := 0
  shd := shd
  sems := some (1, 0)
  parent := .waiting
  child := .opening
  output := output

/-! ## Steps -/

/-- `read(fd_in, shd->buffer, SHM_SIZE)` may return `n`: zero at the end of the file only. -/
def ReadReturns (input : List Byte) (offset n : ℕ) : Prop :=
  n ≤ shmSize ∧ n ≤ input.length - offset ∧ (n = 0 → input.length ≤ offset)

instance (input : List Byte) (offset n : ℕ) : Decidable (ReadReturns input offset n) :=
  inferInstanceAs (Decidable (_ ∧ _ ∧ _))

/-- The loop around `write` goes on until everything is written. -/
def writeLoop (bytesToWrite written : ℕ) : ChildPc :=
  if written < bytesToWrite then .writing bytesToWrite written else .signalling false

/-- One step of one of the two processes. -/
inductive Action where
  | parentWait
  | parentRead (n : ℕ)
  | parentStore
  | parentSignal
  | parentRemove
  | childOpen
  | childWait
  | childCheck
  | childSize
  | childWrite (n : ℕ)
  | childSignal

/-- The next state; `none` if the action is not enabled. -/
def step (input : List Byte) (s : State) : Action → Option State
  | .parentWait =>
      match s.parent, semWait .producer s.sems with
      | .waiting, .succeeds sems => some { s with sems := some sems, parent := .reading }
      | .waiting, .fails => some { s with parent := .left false }
      | _, _ => none
  | .parentRead n =>
      if s.parent = .reading ∧ ReadReturns input s.offset n then
        some { s with
          offset := s.offset + n
          shd := { s.shd with
            buffer := (input.drop s.offset).take n ++ s.shd.buffer.drop n }
          parent := .storing n }
      else none
  | .parentStore =>
      match s.parent with
      | .storing n =>
          if 0 < n then
            some { s with shd := { s.shd with bufSize := n }, parent := .halfStored n }
          else
            some { s with shd := { s.shd with eof := true }, parent := .halfStored n }
      | .halfStored n =>
          if 0 < n then
            some { s with shd := { s.shd with eof := false }, parent := .signalling false }
          else
            some { s with shd := { s.shd with bufSize := 0 }, parent := .signalling true }
      | _ => none
  | .parentSignal =>
      match s.parent, semSignal .consumer s.sems with
      | .signalling last, .succeeds sems =>
          some { s with sems := some sems, parent := if last then .left true else .waiting }
      -- both branches break out of the loop if `sem_signal` fails
      | .signalling last, .fails => some { s with parent := .left last }
      | _, _ => none
  | .parentRemove =>
      match s.parent with
      | .left onEof => some { s with sems := none, parent := .removed onEof }
      | _ => none
  | .childOpen =>
      -- `O_CREAT | O_TRUNC`
      if s.child = .opening then some { s with child := .waiting, output := some [] } else none
  | .childWait =>
      match s.child, semWait .consumer s.sems with
      | .waiting, .succeeds sems => some { s with sems := some sems, child := .checking }
      | .waiting, .fails => some { s with child := .ended }
      | _, _ => none
  | .childCheck =>
      if s.child = .checking then
        some { s with child := if s.shd.eof then .signalling true else .sizing }
      else none
  | .childSize =>
      if s.child = .sizing then some { s with child := writeLoop s.shd.bufSize 0 } else none
  | .childWrite n =>
      match s.child with
      | .writing total w =>
          if 0 < n ∧ n ≤ total - w then
            some { s with
              output := s.output.map (· ++ (s.shd.buffer.drop w).take n)
              child := writeLoop total (w + n) }
          else none
      | _ => none
  | .childSignal =>
      match s.child, semSignal .producer s.sems with
      | .signalling last, .succeeds sems =>
          some { s with sems := some sems, child := if last then .ended else .waiting }
      -- ignored on the branch for the end of the file, `exit(1)` on the other one
      | .signalling _, .fails => some { s with child := .ended }
      | _, _ => none

/-! ## What the copy promises -/

/-- The producer is between its `sem_wait` and the matching `sem_signal`. -/
def ParentPc.Inside : ParentPc → Prop
  | .reading | .storing _ | .halfStored _ | .signalling _ => True
  | .waiting | .left _ | .removed _ => False

/-- The consumer is between its `sem_wait` and the matching `sem_signal`. -/
def ChildPc.Inside : ChildPc → Prop
  | .checking | .sizing | .writing _ _ | .signalling _ => True
  | .opening | .waiting | .ended => False

/-- The producer has left its loop on the end of the file. -/
def ParentPc.LeftOnEof : ParentPc → Prop
  | .left onEof | .removed onEof => onEof = true
  | _ => False

/-- The copy is exclusive and, as far as the state can tell, complete. -/
structure CopyOk (input : List Byte) (s : State) : Prop where
  /-- The two processes do not use the buffer at the same time. -/
  exclusive : ¬ (s.parent.Inside ∧ s.child.Inside)
  /-- `output.txt` is a part of `input.txt`. -/
  isPart : ∀ out ∈ s.output, out <+: input
  /-- Everything has been written when the producer has left its loop. -/
  complete : s.parent.LeftOnEof → s.output = some input

end SemaphoreCopy
