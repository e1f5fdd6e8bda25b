import PosixTasks.Lib.Descriptors
import PosixTasks.Lib.Transition

/-!
# Copying a file through a duplex pipe

`CreateDuplexPipe` opens two pipes, one for each direction between a parent and its child. The
parent of `Run` reads `parent.txt` in blocks, sends a block, receives it back and writes it to
`child.txt`; the child sends back what it receives. Each of them first closes the two ends it is
not going to use.

Both use the same operations `rcv` and `snd`, and these name the ends of the child. What a
descriptor number stands for is decided by the table of the process that uses it, so the model
has the tables, and a call on a descriptor acts on what the table says at that moment.

The model starts at the `fork` of `Run`, whatever else the process has open. An action lets one of
the two processes take its next system call; the actions for `read` and `write` carry the number
of bytes that are transferred. A call fails if the descriptor is not open for it, and for no
other reason; `SIGPIPE` is left out, as nobody writes to a pipe that has no reader.
-/

namespace DuplexCopy

open Descriptors

/-- One byte of a file. -/
abbrev Byte := UInt8

/-- `MAX_BUF_SIZE`. -/
def maxBufSize : ℕ := 65536

/-- What a descriptor stands for. -/
inductive File where
  | directRead
  | directWrite
  | backRead
  | backWrite
  | parentTxt
  | childTxt
  /-- something that was open before -/
  | other (id : ℕ)
  deriving DecidableEq

/-- The descriptors of a `DuplexPipe`. What it holds besides these the two processes have each for
themselves. -/
structure DuplexPipe where
  /-- `fd_direct`: the ends for reading and for writing -/
  fdDirect : ℕ × ℕ
  /-- `fd_back` -/
  fdBack : ℕ × ℕ

/-- `CreateDuplexPipe`: two calls of `pipe`, each of which opens the end for reading first. -/
def createDuplexPipe (t : Table File) : DuplexPipe × Table File :=
  let direct₀ := alloc t .directRead
  let direct₁ := alloc direct₀.2 .directWrite
  let back₀ := alloc direct₁.2 .backRead
  let back₁ := alloc back₀.2 .backWrite
  (⟨(direct₀.1, direct₁.1), (back₀.1, back₁.1)⟩, back₁.2)

/-! ## States -/

/-- Where the parent is. The lists are the descriptors that it is still to close. -/
inductive ParentPc where
  /-- in `close_parent` -/
  | closing (fds : List ℕ)
  | openingIn
  | openingOut
  /-- before `read(in, …)` -/
  | reading
  /-- before `snd` -/
  | sending
  /-- before `rcv` -/
  | receiving
  /-- before `write(out, …)` -/
  | writing
  /-- behind the loop, in `close_all` and the two calls of `close` -/
  | finishing (fds : List ℕ)
  | waiting
  | waited
  deriving DecidableEq

/-- Where the child is. -/
inductive ChildPc where
  /-- in `close_child` -/
  | closing (fds : List ℕ)
  /-- before `rcv` -/
  | receiving
  /-- before `snd` -/
  | sending
  /-- behind the loop, in `close_all` -/
  | finishing (fds : List ℕ)
  | exited
  deriving DecidableEq

/-- The two processes, the pipes and the files. -/
structure State where
  parent : ParentPc
  parentTable : Table File
  /-- `self->data` in the parent. -/
  parentData : List Byte
  /-- `self->len` and `len` in the parent. -/
  parentLen : ℕ
  /-- `in` and `out`, once they are set. -/
  inFd : ℕ
  outFd : ℕ
  child : ChildPc
  childTable : Table File
  /-- `self->data` in the child. -/
  childData : List Byte
  /-- `self->len` in the child. -/
  childLen : ℕ
  /-- What is in the pipe from the parent to the child, and in the one back. -/
  direct : List Byte
  back : List Byte
  /-- The offset in `parent.txt`. -/
  offset : ℕ
  /-- `child.txt`; `none` if there is no such file. -/
  childTxt : Option (List Byte)

/-- The state after the `fork` of a process whose table is `t`. -/
def init (self : DuplexPipe) (t : Table File) (childTxt : Option (List Byte)) : State where
  parent := .closing [self.fdDirect.1, self.fdBack.2]
  parentTable := t
  parentData := List.replicate maxBufSize 0
  parentLen := 0
  inFd := 0
  outFd := 0
  child := .closing [self.fdDirect.2, self.fdBack.1]
  childTable := t
  childData := List.replicate maxBufSize 0
  childLen := 0
  direct := []
  back := []
  offset := 0
  childTxt := childTxt

/-! ## System calls -/

/-- Some process has the file open. -/
def State.IsOpen (s : State) (f : File) : Prop :=
  Holds s.parentTable f ∨ Holds s.childTable f

instance (s : State) (f : File) : Decidable (s.IsOpen f) :=
  inferInstanceAs (Decidable (_ ∨ _))

/-- `read` from a pipe returns `n`: zero if it is empty and nobody has its other end open. With
a writer it blocks on an empty pipe. -/
def PipeReadReturns (s : State) (pipe : List Byte) (writeEnd : File) (n : ℕ) : Prop :=
  n ≤ maxBufSize ∧ n ≤ pipe.length ∧ (n = 0 → pipe = [] ∧ ¬ s.IsOpen writeEnd)

instance (s : State) (pipe : List Byte) (writeEnd : File) (n : ℕ) :
    Decidable (PipeReadReturns s pipe writeEnd n) :=
  inferInstanceAs (Decidable (_ ∧ _ ∧ (_ → _ ∧ _)))

/-- `read` from `parent.txt` returns `n`: zero at its end only. -/
def FileReadReturns (input : List Byte) (offset n : ℕ) : Prop :=
  n ≤ maxBufSize ∧ n ≤ input.length - offset ∧ (n = 0 → input.length ≤ offset)

instance (input : List Byte) (offset n : ℕ) : Decidable (FileReadReturns input offset n) :=
  inferInstanceAs (Decidable (_ ∧ _ ∧ _))

/-- `write` of `total` bytes takes `n` of them. -/
def WriteReturns (total n : ℕ) : Prop :=
  n ≤ total ∧ (n = 0 → total = 0)

instance (total n : ℕ) : Decidable (WriteReturns total n) :=
  inferInstanceAs (Decidable (_ ∧ _))

/-- `read(fd, data, MAX_BUF_SIZE)` that transfers `n` bytes: the bytes, or `none` if the call
fails, and the new state; nothing at all if the call cannot return so. -/
def readFd (input : List Byte) (s : State) (t : Table File) (fd n : ℕ) :
    Option (Option (List Byte) × State) :=
  match get t fd with
  | some .parentTxt =>
      if FileReadReturns input s.offset n then
        some (some ((input.drop s.offset).take n), { s with offset := s.offset + n })
      else none
  | some .directRead =>
      if PipeReadReturns s s.direct .directWrite n then
        some (some (s.direct.take n), { s with direct := s.direct.drop n })
      else none
  | some .backRead =>
      if PipeReadReturns s s.back .backWrite n then
        some (some (s.back.take n), { s with back := s.back.drop n })
      else none
  | _ => some (none, s)

/-- `write(fd, data, len)` that transfers `n` of the bytes: how many it took, or `none` if the
call fails, and the new state. A pipe holds `capacity` bytes. -/
def writeFd (capacity : ℕ) (s : State) (t : Table File) (fd : ℕ) (bytes : List Byte) (n : ℕ) :
    Option (Option ℕ × State) :=
  match get t fd with
  | some .childTxt =>
      if WriteReturns bytes.length n then
        some (some n, { s with childTxt := s.childTxt.map (· ++ bytes.take n) })
      else none
  | some .directWrite =>
      if WriteReturns bytes.length n ∧ s.direct.length + n ≤ capacity then
        some (some n, { s with direct := s.direct ++ bytes.take n })
      else none
  | some .backWrite =>
      if WriteReturns bytes.length n ∧ s.back.length + n ≤ capacity then
        some (some n, { s with back := s.back ++ bytes.take n })
      else none
  | _ => some (none, s)

/-- `ReadDuplex` -/
def readDuplex (self : DuplexPipe) (input : List Byte) (s : State) (t : Table File) (n : ℕ) :
    Option (Option (List Byte) × State) :=
  readFd input s t self.fdDirect.1 n

/-- `WriteDuplex` -/
def writeDuplex (self : DuplexPipe) (capacity : ℕ) (s : State) (t : Table File)
    (data : List Byte) (len n : ℕ) : Option (Option ℕ × State) :=
  writeFd capacity s t self.fdBack.2 (data.take len) n

/-! ## Steps -/

/-- One step of one of the two processes. -/
inductive Action where
  | parentClose
  | parentOpenIn
  | parentOpenOut
  | parentRead (n : ℕ)
  | parentSend (n : ℕ)
  | parentReceive (n : ℕ)
  | parentWrite (n : ℕ)
  | parentWait
  | childClose
  | childExit
  | childReceive (n : ℕ)
  | childSend (n : ℕ)
  deriving DecidableEq

/-- The descriptors of `close_all`. -/
def DuplexPipe.all (self : DuplexPipe) : List ℕ :=
  [self.fdDirect.1, self.fdDirect.2, self.fdBack.1, self.fdBack.2]

/-- The parent leaves its loop: `close_all`, then `close(in)` and `close(out)`. -/
def State.leaveLoop (self : DuplexPipe) (s : State) : State :=
  { s with parent := .finishing (self.all ++ [s.inFd, s.outFd]) }

/-- The next state; `none` if the action is not enabled. -/
def step (self : DuplexPipe) (input : List Byte) (capacity : ℕ) (s : State) :
    Action → Option State
  | .parentClose =>
      match s.parent with
      | .closing (fd :: fds) =>
          some { s with
            parentTable := close s.parentTable fd
            parent := if fds = [] then .openingIn else .closing fds }
      | .finishing (fd :: fds) =>
          some { s with
            parentTable := close s.parentTable fd
            parent := if fds = [] then .waiting else .finishing fds }
      | _ => none
  | .parentOpenIn =>
      if s.parent = .openingIn then
        let (fd, table) := alloc s.parentTable .parentTxt
        some { s with parentTable := table, inFd := fd, parent := .openingOut }
      else none
  | .parentOpenOut =>
      if s.parent = .openingOut then
        -- `O_CREAT | O_TRUNC`
        let (fd, table) := alloc s.parentTable .childTxt
        some { s with
          parentTable := table
          outFd := fd
          childTxt := some []
          parent := .reading }
      else none
  | .parentRead n =>
      if s.parent = .reading then
        match readFd input s s.parentTable s.inFd n with
        | some (some bytes, s') =>
            if 0 < bytes.length then
              some { s' with
                parentData := bytes ++ s.parentData.drop bytes.length
                parentLen := bytes.length
                parent := .sending }
            else some (s'.leaveLoop self)
        | some (none, s') => some (s'.leaveLoop self)
        | none => none
      else none
  | .parentSend n =>
      if s.parent = .sending then
        match writeDuplex self capacity s s.parentTable s.parentData s.parentLen n with
        | some (written, s') =>
            if written = some s.parentLen then some { s' with parent := .receiving }
            else some (s'.leaveLoop self)
        | none => none
      else none
  | .parentReceive n =>
      if s.parent = .receiving then
        match readDuplex self input s s.parentTable n with
        | some (some bytes, s') =>
            if bytes.length = s.parentLen then
              some { s' with
                parentData := bytes ++ s.parentData.drop bytes.length
                parent := .writing }
            else
              some ({ s' with parentData := bytes ++ s.parentData.drop bytes.length }.leaveLoop
                self)
        | some (none, s') => some (s'.leaveLoop self)
        | none => none
      else none
  | .parentWrite n =>
      if s.parent = .writing then
        -- the result of `write` is not looked at
        match writeFd capacity s s.parentTable s.outFd (s.parentData.take s.parentLen) n with
        | some (_, s') => some { s' with parent := .reading }
        | none => none
      else none
  | .parentWait =>
      if s.parent = .waiting ∧ s.child = .exited then some { s with parent := .waited } else none
  | .childClose =>
      match s.child with
      | .closing (fd :: fds) =>
          some { s with
            childTable := close s.childTable fd
            child := if fds = [] then .receiving else .closing fds }
      | .finishing (fd :: fds) =>
          some { s with childTable := close s.childTable fd, child := .finishing fds }
      | _ => none
  | .childExit =>
      -- `exit` closes whatever else is open
      if s.child = .finishing [] then some { s with childTable := [], child := .exited } else none
  | .childReceive n =>
      if s.child = .receiving then
        match readDuplex self input s s.childTable n with
        | some (some bytes, s') =>
            if 0 < bytes.length then
              some { s' with
                childData := bytes ++ s.childData.drop bytes.length
                childLen := bytes.length
                child := .sending }
            else some { s' with child := .finishing self.all }
        | some (none, s') => some { s' with child := .finishing self.all }
        | none => none
      else none
  | .childSend n =>
      if s.child = .sending then
        match writeDuplex self capacity s s.childTable s.childData s.childLen n with
        | some (_, s') => some { s' with child := .receiving }
        | none => none
      else none

/-! ## What the echo promises -/

/-- The parent is behind its loop. -/
def ParentPc.LeftLoop : ParentPc → Prop
  | .finishing _ | .waiting | .waited => True
  | _ => False

instance : DecidablePred ParentPc.LeftLoop
  | .finishing _ | .waiting | .waited => isTrue trivial
  | .closing _ | .openingIn | .openingOut | .reading | .sending | .receiving | .writing =>
    isFalse id

/-- The bytes a step of the parent puts into the pipe `fd_direct`. -/
def intoDirect (self : DuplexPipe) (s : State) : Action → List Byte
  | .parentSend n =>
      if get s.parentTable self.fdBack.2 = some .directWrite then
        (s.parentData.take s.parentLen).take n
      else []
  | .parentWrite n =>
      if get s.parentTable s.outFd = some .directWrite then
        (s.parentData.take s.parentLen).take n
      else []
  | _ => []

/-- The bytes a step of the parent takes from the pipe `fd_back`. -/
def fromBack (self : DuplexPipe) (s : State) : Action → List Byte
  | .parentReceive n =>
      if get s.parentTable self.fdDirect.1 = some .backRead then s.back.take n else []
  | .parentRead n =>
      if get s.parentTable s.inFd = some .backRead then s.back.take n else []
  | _ => []

/-- A step that uses a descriptor of `self` finds there the end of a pipe that `CreateDuplexPipe`
has put there, and has not closed it. -/
def UsesOpenEnds (self : DuplexPipe) (s : State) : Action → Prop
  | .parentSend _ => get s.parentTable self.fdBack.2 = some .backWrite
  | .parentReceive _ => get s.parentTable self.fdDirect.1 = some .directRead
  | .childSend _ => get s.childTable self.fdBack.2 = some .backWrite
  | .childReceive _ => get s.childTable self.fdDirect.1 = some .directRead
  | _ => True

/-- The file has been copied, through the child, and over open descriptors. -/
structure Echoed (pipe : DuplexPipe) (input : List Byte) (tr : List (State × Action))
    (s : State) : Prop where
  copied : s.childTxt = some input
  sent : tr.flatMap (fun x => intoDirect pipe x.1 x.2) = input
  receivedBack : tr.flatMap (fun x => fromBack pipe x.1 x.2) = input
  openEnds : Transition.StepsMeet (UsesOpenEnds pipe) tr

end DuplexCopy
