import PosixTasks.Lib.Pieces
import PosixTasks.Lib.Transition

/-!
# Copying a file through a FIFO

The parent of `fifo_main.c` reads `input.txt` in blocks and writes them to `fifo_pipe`, the child
reads the FIFO and writes `output.txt`. Both have a loop around `write` inside the loop around
`read`, and every call may transfer fewer bytes than it was asked for. The child takes a `read`
that returns zero for the end of the file: that is what `read` returns once the FIFO is empty and
no process has it open for writing.

The model starts at the `fork` of `main`. An action lets one of the two processes take its next
step; the actions for `read` and `write` carry the number of bytes the call returns. No call
fails. `open` on the FIFO is two steps, one that enters the call and one that returns from it, as
it blocks until the other side has entered it too. The two calls of `unlink` are left out: they
take the name of the FIFO away and leave the FIFO itself to those who have it open.
-/

namespace FifoCopy

/-- One byte of a file. -/
abbrev Byte := UInt8

/-- `BUF_SIZE`. -/
def bufSize : ℕ := 4096

/-! ## States -/

/-- Where the writer is. -/
inductive ParentPc where
  /-- before `open(FIFO_NAME, O_WRONLY)` -/
  | opening
  /-- in `open`, until there is a reader -/
  | inOpen
  /-- before `read` -/
  | reading
  /-- in the loop around `write` -/
  | writing (toWrite written : ℕ)
  /-- behind the loop around `read`, before `close(fd_fifo)` -/
  | closing
  /-- before `wait` returns -/
  | waiting
  /-- behind `wait` -/
  | waited
  deriving DecidableEq

/-- Where the reader is. -/
inductive ChildPc where
  /-- before `open("output.txt")` -/
  | openingOutput
  /-- before `open(FIFO_NAME, O_RDONLY)` -/
  | opening
  /-- in `open`, until there is a writer -/
  | inOpen
  /-- before `read` -/
  | reading
  /-- in the loop around `write` -/
  | writing (toWrite written : ℕ)
  /-- behind the loop around `read` -/
  | closing
  /-- behind `exit` -/
  | exited
  deriving DecidableEq

/-- The writer has the FIFO open, or is about to. -/
def ParentPc.holdsFifo : ParentPc → Bool
  | .inOpen | .reading | .writing _ _ | .closing => true
  | .opening | .waiting | .waited => false

/-- The reader has the FIFO open, or is about to. -/
def ChildPc.holdsFifo : ChildPc → Bool
  | .inOpen | .reading | .writing _ _ | .closing => true
  | .openingOutput | .opening | .exited => false

/-- The two processes, the FIFO and the files. -/
structure State where
  /-- The offset of `fd_in`. -/
  offset : ℕ
  parent : ParentPc
  /-- `buffer` in the parent. -/
  parentBuffer : List Byte
  /-- What has been written to the FIFO and not been read. -/
  fifo : List Byte
  child : ChildPc
  /-- `buffer` in the child, a copy of the parent's from the `fork` on. -/
  childBuffer : List Byte
  /-- `output.txt`; `none` if there is no such file. -/
  output : Option (List Byte)

/-- The state after `fork`. There may be an `output.txt` from an earlier run. -/
def init (output : Option (List Byte)) : State where
  offset := 0
  parent := .opening
  parentBuffer := List.replicate bufSize 0
  fifo := []
  child := .openingOutput
  childBuffer := List.replicate bufSize 0
  output := output

/-! ## Steps -/

/-- One step of one of the two processes. -/
inductive Action where
  | parentOpen
  | parentOpened
  | parentRead (n : ℕ)
  | parentWrite (n : ℕ)
  | parentClose
  | parentWait
  | childOpenOutput
  | childOpen
  | childOpened
  | childRead (n : ℕ)
  | childWrite (n : ℕ)
  | childExit

/-- The loop around `write` in the parent goes on until everything is written. -/
def parentWriteLoop (toWrite written : ℕ) : ParentPc :=
  if written < toWrite then .writing toWrite written else .reading

/-- The loop around `write` in the child goes on until everything is written. -/
def childWriteLoop (toWrite written : ℕ) : ChildPc :=
  if written < toWrite then .writing toWrite written else .reading

/-- `read(fd_in, buffer, BUF_SIZE)` may return `n`: zero at the end of the file only. -/
def ReadReturns (input : List Byte) (offset n : ℕ) : Prop :=
  n ≤ bufSize ∧ n ≤ input.length - offset ∧ (n = 0 → input.length ≤ offset)

instance (input : List Byte) (offset n : ℕ) : Decidable (ReadReturns input offset n) :=
  inferInstanceAs (Decidable (_ ∧ _ ∧ _))

/-- `read(fd_fifo, buffer, BUF_SIZE)` may return `n`: zero if the FIFO is empty and no writer
has it open. With a writer it blocks on an empty FIFO. -/
def FifoReadReturns (s : State) (n : ℕ) : Prop :=
  n ≤ bufSize ∧ n ≤ s.fifo.length ∧ (n = 0 → s.fifo = [] ∧ s.parent.holdsFifo = false)

instance (s : State) (n : ℕ) : Decidable (FifoReadReturns s n) :=
  inferInstanceAs (Decidable (_ ∧ _ ∧ (_ → _ ∧ _)))

/-- The next state; `none` if the action is not enabled. The FIFO holds `capacity` bytes. -/
def step (input : List Byte) (capacity : ℕ) (s : State) : Action → Option State
  | .parentOpen =>
      if s.parent = .opening then some { s with parent := .inOpen } else none
  | .parentOpened =>
      if s.parent = .inOpen ∧ s.child.holdsFifo then some { s with parent := .reading } else none
  | .parentRead n =>
      if s.parent = .reading ∧ ReadReturns input s.offset n then
        some { s with
          offset := s.offset + n
          parentBuffer := (input.drop s.offset).take n ++ s.parentBuffer.drop n
          parent := if 0 < n then parentWriteLoop n 0 else .closing }
      else none
  | .parentWrite n =>
      match s.parent with
      | .writing toWrite written =>
          if 0 < n ∧ n ≤ toWrite - written ∧ s.fifo.length + n ≤ capacity then
            some { s with
              fifo := s.fifo ++ (s.parentBuffer.drop written).take n
              parent := parentWriteLoop toWrite (written + n) }
          else none
      | _ => none
  | .parentClose =>
      if s.parent = .closing then some { s with parent := .waiting } else none
  | .parentWait =>
      if s.parent = .waiting ∧ s.child = .exited then some { s with parent := .waited } else none
  | .childOpenOutput =>
      -- `O_CREAT | O_TRUNC`
      if s.child = .openingOutput then some { s with child := .opening, output := some [] }
      else none
  | .childOpen =>
      if s.child = .opening then some { s with child := .inOpen } else none
  | .childOpened =>
      if s.child = .inOpen ∧ s.parent.holdsFifo then some { s with child := .reading } else none
  | .childRead n =>
      if s.child = .reading ∧ FifoReadReturns s n then
        some { s with
          fifo := s.fifo.drop n
          childBuffer := s.fifo.take n ++ s.childBuffer.drop n
          child := if 0 < n then childWriteLoop n 0 else .closing }
      else none
  | .childWrite n =>
      match s.child with
      | .writing toWrite written =>
          if 0 < n ∧ n ≤ toWrite - written then
            some { s with
              output := s.output.map (· ++ (s.childBuffer.drop written).take n)
              child := childWriteLoop toWrite (written + n) }
          else none
      | _ => none
  | .childExit =>
      if s.child = .closing then some { s with child := .exited } else none

/-! ## What is under way -/

/-- The bytes the parent has read and not yet written. -/
def ParentPc.pending (buffer : List Byte) : ParentPc → List Byte
  | .writing toWrite written => Pieces.rest buffer toWrite written
  | _ => []

/-- The bytes the child has read and not yet written. -/
def ChildPc.pending (buffer : List Byte) : ChildPc → List Byte
  | .writing toWrite written => Pieces.rest buffer toWrite written
  | _ => []

/-- The bytes between `output.txt` and the unread part of `input.txt`. -/
def State.inFlight (s : State) : List Byte :=
  s.child.pending s.childBuffer ++ s.fifo ++ s.parent.pending s.parentBuffer

/-- All bytes of the copy, from those in `output.txt` to those not read yet. -/
def State.stream (input : List Byte) (s : State) : List Byte :=
  s.output.getD [] ++ s.inFlight ++ input.drop s.offset

end FifoCopy
