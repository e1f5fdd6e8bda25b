import PosixTasks.Lib.Pieces
import PosixTasks.Lib.Transition

/-!
# Copying a file through a message queue

The parent of `mq_main.c` reads `input.txt` in blocks and sends each block as a message; behind
the last one it sets `eof_flag`, which it shares with its child, and sends the message `EOF`. The
child writes the text of every message to `output.txt` until it finds `eof_flag` set and `EOF` in
front of its buffer.

The model starts at the `fork` of `main`, with an empty queue. An action lets one of the two
processes take its next step; the actions for `read` and `write` carry the number of bytes the
call returns. No call fails. What the parent does with the shared memory and the queue after
`wait` is left out, and so is the type of the messages, which is 1 in all of them.
-/

namespace MessageQueueCopy

/-- One byte of a file. -/
abbrev Byte := UInt8

/-- `MQ_SIZE`. -/
def mqSize : ℕ := 4096

/-- `EOF_MSG` without its NUL. -/
def eofMsg : List Byte := [69, 79, 70]

/-! ## States -/

/-- Where the producer is. -/
inductive ParentPc where
  /-- before `read` -/
  | reading
  /-- before `msgsnd` with the `n` bytes that `read` has returned -/
  | sending (n : ℕ)
  /-- behind the loop, before `*eof_flag = 1` -/
  | settingFlag
  /-- before `msgsnd` with the end message -/
  | sendingEof
  /-- before `wait` returns -/
  | waiting
  /-- behind `wait` -/
  | waited
  deriving DecidableEq

/-- Where the consumer is. -/
inductive ChildPc where
  /-- before `open` -/
  | opening
  /-- before `msgrcv` -/
  | receiving
  /-- `msgrcv` has returned `n`; before `eof_flag` and the buffer are tested -/
  | testing (n : ℕ)
  /-- in the loop around `write` -/
  | writing (n written : ℕ)
  /-- behind `exit` -/
  | exited
  deriving DecidableEq

/-- The two processes, the shared flag, the queue and the files. -/
structure State where
  /-- The offset of `fd_in`. -/
  offset : ℕ
  parent : ParentPc
  /-- `msg.mtext` in the parent. -/
  parentText : List Byte
  eofFlag : Bool
  /-- The texts of the messages, the oldest first. -/
  queue : List (List Byte)
  child : ChildPc
  /-- `msg.mtext` in the child. -/
  childText : List Byte
  /-- `output.txt`; `none` if there is no such file. -/
  output : Option (List Byte)

/-- The state after `fork`. There may be an `output.txt` from an earlier run. -/
def init (output : Option (List Byte)) : State where
  offset := 0
  parent := .reading
  parentText := List.replicate mqSize 0
  eofFlag := false
  queue := []
  child := .opening
  childText := List.replicate mqSize 0
  output := output

/-! ## Steps -/

/-- One step of one of the two processes. -/
inductive Action where
  | parentRead (n : ℕ)
  | parentSend
  | parentSetFlag
  | parentSendEof
  | parentWait
  | childOpen
  | childReceive
  | childTest
  | childWrite (n : ℕ)

/-- `read(fd_in, msg.mtext, MQ_SIZE)` may return `n`: zero at the end of the file only. -/
def ReadReturns (input : List Byte) (offset n : ℕ) : Prop :=
  n ≤ mqSize ∧ n ≤ input.length - offset ∧ (n = 0 → input.length ≤ offset)

instance (input : List Byte) (offset n : ℕ) : Decidable (ReadReturns input offset n) :=
  inferInstanceAs (Decidable (_ ∧ _ ∧ _))

/-- `msgsnd` of `n` bytes does not block: a queue holds at most `qbytes` bytes and `qbytes`
messages. -/
def HasRoom (qbytes : ℕ) (queue : List (List Byte)) (n : ℕ) : Prop :=
  queue.flatten.length + n ≤ qbytes ∧ queue.length + 1 ≤ qbytes

instance (qbytes : ℕ) (queue : List (List Byte)) (n : ℕ) : Decidable (HasRoom qbytes queue n) :=
  inferInstanceAs (Decidable (_ ∧ _))

/-- `*eof_flag && memcmp(msg.mtext, EOF_MSG, sizeof(EOF_MSG) - 1) == 0` -/
def isEnd (eofFlag : Bool) (text : List Byte) : Bool :=
  eofFlag && text.take eofMsg.length == eofMsg

/-- The loop around `write` goes on until everything is written. -/
def writeLoop (n written : ℕ) : ChildPc :=
  if written < n then .writing n written else .receiving

/-- The next state; `none` if the action is not enabled. -/
def step (input : List Byte) (qbytes : ℕ) (s : State) : Action → Option State
  | .parentRead n =>
      if s.parent = .reading ∧ ReadReturns input s.offset n then
        some { s with
          offset := s.offset + n
          parentText := (input.drop s.offset).take n ++ s.parentText.drop n
          parent := if 0 < n then .sending n else .settingFlag }
      else none
  | .parentSend =>
      match s.parent with
      | .sending n =>
          if HasRoom qbytes s.queue n then
            some { s with queue := s.queue ++ [s.parentText.take n], parent := .reading }
          else none
      | _ => none
  | .parentSetFlag =>
      if s.parent = .settingFlag then some { s with eofFlag := true, parent := .sendingEof }
      else none
  | .parentSendEof =>
      -- `memcpy` and `msgsnd`
      if s.parent = .sendingEof ∧ HasRoom qbytes s.queue eofMsg.length then
        some { s with
          parentText := eofMsg ++ s.parentText.drop eofMsg.length
          queue := s.queue ++ [eofMsg]
          parent := .waiting }
      else none
  | .parentWait =>
      if s.parent = .waiting ∧ s.child = .exited then some { s with parent := .waited } else none
  | .childOpen =>
      -- `O_CREAT | O_TRUNC`
      if s.child = .opening then some { s with child := .receiving, output := some [] } else none
  | .childReceive =>
      match s.child, s.queue with
      | .receiving, text :: queue =>
          -- the rest of the buffer keeps what earlier messages have left there
          some { s with
            queue := queue
            childText := text ++ s.childText.drop text.length
            child := .testing text.length }
      | _, _ => none
  | .childTest =>
      match s.child with
      | .testing n =>
          some { s with child := if isEnd s.eofFlag s.childText then .exited else writeLoop n 0 }
      | _ => none
  | .childWrite k =>
      match s.child with
      | .writing n written =>
          if 0 < k ∧ k ≤ n - written then
            some { s with
              output := s.output.map (· ++ (s.childText.drop written).take k)
              child := writeLoop n (written + k) }
          else none
      | _ => none

/-! ## When the copy is complete -/

/-- The producer has sent the end message. -/
def ParentPc.EofSent : ParentPc → Prop
  | .waiting | .waited => True
  | _ => False

instance : DecidablePred ParentPc.EofSent
  | .waiting | .waited => isTrue trivial
  | .reading | .sending _ | .settingFlag | .sendingEof => isFalse id

/-- A message that is found with `eof_flag` set and `EOF` in front of the buffer is the end
message: that one has been sent, and there is no message behind the one received. -/
def EndsOnEof (s : State) : Action → Prop
  | .childTest => isEnd s.eofFlag s.childText = true → s.parent.EofSent ∧ s.queue = []
  | _ => True

instance (s : State) : DecidablePred (EndsOnEof s)
  | .childTest => inferInstanceAs (Decidable (_ → _ ∧ _))
  | .parentRead _ | .parentSend | .parentSetFlag | .parentSendEof | .parentWait | .childOpen
  | .childReceive | .childWrite _ => isTrue trivial

end MessageQueueCopy
