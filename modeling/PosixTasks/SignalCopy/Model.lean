import PosixTasks.Lib.Transition

/-!
# Copying a file with shared memory and real-time signals

The parent reads `input.txt` into one of eight shared chunks and queues `SIG_CONSUMER` with
the number of the chunk; the child writes the chunk to `output.txt` and queues `SIG_PRODUCER`
with the number of the chunk it has emptied. All the copying is done in the two signal
handlers `producer_handler` (in the parent) and `consumer_handler` (in the child); the two
main programs only wait for `producer_ended` to be set.

The model starts at the `fork` of `main`. An action lets one of the two main programs or one
of the two handlers take its next step, or delivers a pending signal; an action for a system
call carries the outcome of the call. A main program takes no step while a handler runs in
its process.

`run.sh` removes `output.txt` before each run, so `output` starts empty. The child stores
`fd_out` before it queues the first signal and only its handler reads it, so the model writes
to the open file directly. The pending lists hold the signals of one number in the order they
were queued.
-/

namespace SignalCopy

/-- One byte of a file. -/
abbrev Byte := UInt8

/-- `CHUNKS`. -/
abbrev chunks : ℕ := 8

/-- `SHM_SIZE`. -/
def shmSize : ℕ := 4096 * 1024

/-- `CHUNK_SIZE`. -/
def chunkBytes : ℕ := shmSize / chunks

/-- `MAX_ATTEMPTS`. -/
def maxAttempts : ℕ := 100

/-- The number of a chunk, after the handlers' range check. -/
abbrev ChunkNum := Fin chunks

/-- `enum EndCode`. -/
inductive EndCode where
  | notEnded
  | prodEndSucc
  | prodEndFail
  | consEndSucc
  | consEndFail
  deriving DecidableEq, Repr

/-- `SharedData`, the shared segment. `producer_chunks[i]` and `consumer_chunks[i].chunk` are
the same address, so one `buffer` stands for both. -/
structure SharedData where
  /-- The bytes that reads have put into each chunk. -/
  buffer : ChunkNum → List Byte
  /-- `consumer_chunks[i].chunk_size`. -/
  chunkSize : ChunkNum → ℕ
  /-- Whether `pid` holds the child's pid; in the fresh segment it is zero. -/
  pidStored : Bool
  /-- Whether `ppid` holds the parent's pid. -/
  ppidParent : Bool
  /-- `producer_ended`. -/
  producerEnded : EndCode
  /-- `consumer_ended`. -/
  consumerEnded : EndCode
  /-- `file_size`, the size `stat` gave for `input.txt`. -/
  fileSize : ℕ
  /-- `bytes_read`. -/
  bytesRead : ℕ
  /-- `attempts`. -/
  attempts : ℕ

/-- Where the parent's main program is, from `fork` on. -/
inductive ParentPc where
  /-- before `sh_data->pid = pid` -/
  | storePid
  /-- before the test of `producer_ended` -/
  | testProducer
  /-- before the test of `consumer_ended` -/
  | testConsumer
  /-- both flags were read as `NOT_ENDED`, `pause()` is not entered yet -/
  | callPause
  /-- blocked in `pause()` -/
  | paused
  /-- before `waitpid` -/
  | callWaitpid
  /-- blocked in `waitpid` -/
  | waiting
  /-- before `close(fd_in)` -/
  | closeIn
  /-- before `shmdt` -/
  | detach
  /-- the segment is detached, `main` has not returned yet -/
  | leaving
  | exited
  /-- killed by `SIGSEGV`: a handler ran after `shmdt` -/
  | crashed
  deriving DecidableEq, Repr

/-- Where the child's main program is. -/
inductive ChildPc where
  /-- before `open("output.txt", ...)` -/
  | openOut
  /-- before `sh_data->ppid = getppid()` -/
  | storePpid
  /-- before `sigqueue(ppid, SIG_PRODUCER, i)`, or at the end of that loop when `i = CHUNKS` -/
  | sendToken (i : ℕ)
  /-- before the test of `producer_ended` -/
  | testProducer
  /-- the flag was read as `NOT_ENDED`, `pause()` is not entered yet -/
  | callPause
  /-- blocked in `pause()` -/
  | paused
  /-- the loop is left, before the test of `consumer_ended` -/
  | testConsumer
  /-- before `close(fd_out)` -/
  | closeOut (exitCode : ℕ)
  /-- before `shmdt` -/
  | detach (exitCode : ℕ)
  /-- the segment is detached, `exit` is not called yet -/
  | leaving (exitCode : ℕ)
  /-- exited after the pause loop -/
  | exited (exitCode : ℕ)
  /-- `exit(1)` before the pause loop -/
  | aborted
  /-- killed by `SIGSEGV`: a handler ran after `shmdt` -/
  | crashed
  deriving DecidableEq, Repr

/-- Where `producer_handler` is. -/
inductive ProducerPc where
  /-- entered with `info->si_value.sival_int`, before the range check -/
  | entry (chunkNum : ℤ)
  /-- before `read` in the do loop -/
  | reading (chunk : ChunkNum)
  /-- `read` returned `currSize > 0` -/
  | gotBlock (chunk : ChunkNum) (currSize : ℕ)
  /-- before `sigqueue(pid, SIG_CONSUMER, chunk)` -/
  | sendBlock (chunk : ChunkNum)
  /-- before `producer_ended = PROD_END_FAIL; return` -/
  | storeFail
  /-- `read` returned `currSize <= 0` -/
  | atEnd
  /-- before `set_sigaction(SIG_PRODUCER, SIG_IGN)` -/
  | ignore
  deriving DecidableEq, Repr

/-- Where `consumer_handler` is. -/
inductive ConsumerPc where
  /-- entered with `info->si_value.sival_int`, before the range check -/
  | entry (chunkNum : ℤ)
  /-- before `bytes_to_write` is read -/
  | readSize (chunk : ChunkNum)
  /-- at the test of the write loop -/
  | writing (chunk : ChunkNum) (bytesToWrite written : ℕ)
  /-- a write failed, before `consumer_ended = CONS_END_FAIL` -/
  | failWrite
  /-- before `set_sigaction(SIG_CONSUMER, SIG_IGN)` -/
  | ignore
  /-- before `sigqueue(ppid, SIG_PRODUCER, chunk)` -/
  | sendToken (chunk : ChunkNum)
  /-- before `consumer_ended = CONS_END_FAIL; return` -/
  | storeFail
  deriving DecidableEq, Repr

/-- The two processes, their pending signals, their files and the shared segment. -/
structure State where
  /-- The bytes of `input.txt` after the offset of `fd_in`. -/
  unread : List Byte
  /-- Whether `fd_in` is open in the parent. -/
  inOpen : Bool
  /-- The content of `output.txt`. -/
  output : List Byte
  /-- Whether the descriptor of `output.txt` is open in the child. -/
  outOpen : Bool
  /-- The `SIG_PRODUCER` values pending for the parent. -/
  producerQueue : List ℤ
  /-- Whether the parent ignores `SIG_PRODUCER`. -/
  producerIgnored : Bool
  /-- The `SIG_CONSUMER` values pending for the child. -/
  consumerQueue : List ℤ
  /-- Whether the child ignores `SIG_CONSUMER`. -/
  consumerIgnored : Bool
  /-- The shared segment. -/
  sh : SharedData
  /-- The parent's main program. -/
  parent : ParentPc
  /-- `producer_handler`, when it is running. -/
  producer : Option ProducerPc
  /-- The child's main program. -/
  child : ChildPc
  /-- `consumer_handler`, when it is running. -/
  consumer : Option ConsumerPc
  /-- History: the blocks read so far, each with whether `SIG_CONSUMER` was queued for it. -/
  reads : List (List Byte × Bool)
  /-- History: whether the last block queued from the chunk is still to be written out. -/
  unfinished : ChunkNum → Bool

/-- The state after `fork`, for an `input.txt` with content `file`. -/
def init (file : List Byte) : State where
  unread := file
  inOpen := true
  output := []
  outOpen := false
  producerQueue := []
  producerIgnored := false
  consumerQueue := []
  consumerIgnored := false
  sh :=
    { buffer := fun _ => []
      chunkSize := fun _ => 0
      pidStored := false
      ppidParent := true
      producerEnded := .notEnded
      consumerEnded := .notEnded
      fileSize := file.length
      bytesRead := 0
      attempts := 0 }
  parent := .storePid
  producer := none
  child := .openOut
  consumer := none
  reads := []
  unfinished := fun _ => false

/-- The parent is still running. -/
def State.parentRunning (s : State) : Bool :=
  s.parent ≠ .exited ∧ s.parent ≠ .crashed

/-- The child is still running. -/
def State.childRunning (s : State) : Bool :=
  match s.child with
  | .exited _ | .aborted | .crashed => false
  | _ => true

/-- The blocks for which `producer_handler` successfully queued `SIG_CONSUMER`, in the order
they were read. -/
def State.handedOver (s : State) : List (List Byte) :=
  (s.reads.filter (·.2)).map (·.1)

/-- Record that `SIG_CONSUMER` was queued for the last block read. -/
def markQueued (reads : List (List Byte × Bool)) : List (List Byte × Bool) :=
  reads.dropLast ++ reads.getLast?.toList.map (fun r => (r.1, true))

/-- A successful `sigqueue(sh_data->ppid, SIG_PRODUCER, v)`. A process that ignores the signal,
or that has ended and is not reaped yet, accepts it and drops it. -/
def State.sigqueueProducer (s : State) (v : ℤ) : State :=
  if s.sh.ppidParent ∧ s.parentRunning ∧ ¬ s.producerIgnored then
    { s with producerQueue := s.producerQueue ++ [v] }
  else s

/-- A successful `sigqueue(sh_data->pid, SIG_CONSUMER, v)`. -/
def State.sigqueueConsumer (s : State) (v : ℤ) : State :=
  if s.childRunning ∧ ¬ s.consumerIgnored then
    { s with consumerQueue := s.consumerQueue ++ [v] }
  else s

/-- The actions of the two processes and of the kernel. -/
inductive Action where
  /-- the parent's main program takes its next step -/
  | parent
  /-- the child's main program takes its next step -/
  | child
  /-- the child's `open("output.txt", ...)` returns -/
  | openOut (ok : Bool)
  /-- the `sigqueue` of the child's main program returns -/
  | childSigqueue (ok : Bool)
  /-- the first pending `SIG_PRODUCER` is delivered to the parent -/
  | deliverProducer
  /-- the first pending `SIG_CONSUMER` is delivered to the child -/
  | deliverConsumer
  /-- `producer_handler` takes its next step on memory or on the signal disposition -/
  | producer
  /-- the `read` of `producer_handler` returns, with `none` for `-1` -/
  | read (result : Option ℕ)
  /-- the `sigqueue` of `producer_handler` returns -/
  | producerSigqueue (ok : Bool)
  /-- `consumer_handler` takes its next step on memory or on the signal disposition -/
  | consumer
  /-- the `write` of `consumer_handler` returns, with `none` for `-1` -/
  | write (result : Option ℕ)
  /-- the `sigqueue` of `consumer_handler` returns -/
  | consumerSigqueue (ok : Bool)
  deriving DecidableEq, Repr

/-- The next step of the parent's main program. -/
def parentStep (s : State) : Option State :=
  match s.parent with
  | .storePid => some { s with sh := { s.sh with pidStored := true }, parent := .testProducer }
  | .testProducer =>
      some { s with parent :=
        if s.sh.producerEnded = .notEnded then .testConsumer else .callWaitpid }
  | .testConsumer =>
      some { s with parent :=
        if s.sh.consumerEnded = .notEnded then .callPause else .callWaitpid }
  | .callPause => some { s with parent := .paused }
  | .callWaitpid => some { s with parent := .waiting }
  | .waiting => if s.childRunning then none else some { s with parent := .closeIn }
  | .closeIn => some { s with inOpen := false, parent := .detach }
  | .detach => some { s with parent := .leaving }
  | .leaving => some { s with parent := .exited }
  | .paused | .exited | .crashed => none

/-- The next step of the child's main program, other than `open` and `sigqueue`. -/
def childStep (s : State) : Option State :=
  match s.child with
  | .storePpid =>
      some { s with sh := { s.sh with ppidParent := s.parentRunning }, child := .sendToken 0 }
  -- below `CHUNKS` the next step is the `sigqueue`
  | .sendToken i => if i < chunks then none else some { s with child := .testProducer }
  | .testProducer =>
      some { s with child :=
        if s.sh.producerEnded = .notEnded then .callPause else .testConsumer }
  | .callPause => some { s with child := .paused }
  | .testConsumer =>
      some { s with child := .closeOut (if s.sh.consumerEnded = .consEndSucc then 0 else 1) }
  | .closeOut code => some { s with outOpen := false, child := .detach code }
  | .detach code => some { s with child := .leaving code }
  | .leaving code => some { s with child := .exited code }
  | .openOut | .paused | .exited _ | .aborted | .crashed => none

/-- `open("output.txt", O_WRONLY | O_CREAT | O_TRUNC, 0644)` in the child. -/
def openOutStep (s : State) (ok : Bool) : Option State :=
  match s.child with
  | .openOut =>
      -- `O_TRUNC`
      if ok then some { s with output := [], outOpen := true, child := .storePpid }
      else some { s with child := .aborted }
  | _ => none

/-- `sigqueue(sh_data->ppid, SIG_PRODUCER, i)` in the child's main program. -/
def childSigqueueStep (s : State) (ok : Bool) : Option State :=
  match s.child with
  | .sendToken i =>
      if i < chunks then
        if ok then some { s.sigqueueProducer i with child := .sendToken (i + 1) }
        else some { s with outOpen := false, child := .aborted }
      else none
  | _ => none

/-- Where the parent's main program continues when a handler has interrupted it: `pause()` and
`waitpid` return with `EINTR`. -/
def ParentPc.interrupted : ParentPc → ParentPc
  | .paused => .testProducer
  | .waiting => .closeIn
  | pc => pc

/-- Where the child's main program continues when a handler has interrupted it. -/
def ChildPc.interrupted : ChildPc → ChildPc
  | .paused => .testProducer
  | pc => pc

/-- Delivery of the first pending `SIG_PRODUCER` to the parent. The handler dereferences
`sh_data`, which is unmapped once `main` has called `shmdt`. -/
def deliverProducerStep (s : State) : Option State :=
  match s.producer, s.producerQueue with
  | none, v :: rest =>
      if s.parentRunning ∧ ¬ s.producerIgnored then
        if s.parent = .leaving then some { s with producerQueue := rest, parent := .crashed }
        else some { s with producerQueue := rest, producer := some (.entry v),
                           parent := s.parent.interrupted }
      else none
  | _, _ => none

/-- Delivery of the first pending `SIG_CONSUMER` to the child. -/
def deliverConsumerStep (s : State) : Option State :=
  match s.consumer, s.consumerQueue with
  | none, v :: rest =>
      if s.childRunning ∧ ¬ s.consumerIgnored then
        match s.child with
        | .leaving _ => some { s with consumerQueue := rest, child := .crashed }
        | _ => some { s with consumerQueue := rest, consumer := some (.entry v),
                             child := s.child.interrupted }
      else none
  | _, _ => none

/-- The steps of `producer_handler` other than its system calls. -/
def producerStep (s : State) : Option State :=
  match s.producer with
  | some (.entry chunkNum) =>
      if h : 0 ≤ chunkNum ∧ chunkNum < chunks then
        some { s with producer := some (.reading ⟨chunkNum.toNat, by omega⟩) }
      else some { s with producer := some .storeFail }
  | some (.gotBlock chunk currSize) =>
      some { s with
        sh := { s.sh with chunkSize := Function.update s.sh.chunkSize chunk currSize,
                          bytesRead := s.sh.bytesRead + currSize }
        producer := some (.sendBlock chunk) }
  | some .storeFail =>
      some { s with sh := { s.sh with producerEnded := .prodEndFail }, producer := none }
  | some .atEnd =>
      some { s with
        sh := { s.sh with producerEnded :=
          if s.sh.bytesRead = s.sh.fileSize then .prodEndSucc else .prodEndFail }
        producer := some .ignore }
  | some .ignore =>
      -- setting `SIG_IGN` drops the signals that are pending
      some { s with producerQueue := [], producerIgnored := true, producer := none }
  | some (.reading _) | some (.sendBlock _) | none => none

/-- `read(fd_in, producer_chunks[chunk], CHUNK_SIZE)` and the test of the do loop. -/
def readStep (s : State) (result : Option ℕ) : Option State :=
  match s.producer with
  | some (.reading chunk) =>
      let attempts := s.sh.attempts + 1
      match result with
      | none => some { s with sh := { s.sh with attempts }, producer := some .atEnd }
      | some 0 =>
          if s.inOpen then
            some { s with
              sh := { s.sh with attempts }
              producer :=
                -- `eof` before the size of the file: another round, as long as there are attempts
                if s.sh.bytesRead < s.sh.fileSize ∧ attempts < maxAttempts - 1 then
                  some (.reading chunk)
                else some .atEnd }
          else none
      | some (n + 1) =>
          if s.inOpen ∧ n + 1 ≤ chunkBytes ∧ n + 1 ≤ s.unread.length then
            -- a short read leaves what was in the rest of the chunk
            let block := s.unread.take (n + 1)
            some { s with
              unread := s.unread.drop (n + 1)
              sh := { s.sh with
                attempts
                buffer := Function.update s.sh.buffer chunk
                  (block ++ (s.sh.buffer chunk).drop (n + 1)) }
              producer := some (.gotBlock chunk (n + 1))
              reads := s.reads ++ [(block, false)] }
          else none
  | _ => none

/-- `sigqueue(sh_data->pid, SIG_CONSUMER, chunk)`; with the pid still zero it can only fail. -/
def producerSigqueueStep (s : State) (ok : Bool) : Option State :=
  match s.producer with
  | some (.sendBlock chunk) =>
      if ok then
        if s.sh.pidStored then
          some { s.sigqueueConsumer chunk with
            producer := none
            reads := markQueued s.reads
            unfinished := Function.update s.unfinished chunk true }
        else none
      else some { s with producer := some .storeFail }
  | _ => none

/-- The steps of `consumer_handler` other than its system calls. -/
def consumerStep (s : State) : Option State :=
  match s.consumer with
  | some (.entry chunkNum) =>
      if h : 0 ≤ chunkNum ∧ chunkNum < chunks then
        some { s with consumer := some (.readSize ⟨chunkNum.toNat, by omega⟩) }
      else some { s with consumer := some .storeFail }
  | some (.readSize chunk) =>
      some { s with consumer := some (.writing chunk (s.sh.chunkSize chunk) 0) }
  -- with bytes left the next step is the `write`
  | some (.writing chunk bytesToWrite written) =>
      if written < bytesToWrite then none
      else
        some { s with
          consumer := some (.sendToken chunk)
          unfinished := Function.update s.unfinished chunk false }
  | some .failWrite =>
      some { s with sh := { s.sh with consumerEnded := .consEndFail }
                    consumer := some .ignore }
  | some .ignore =>
      -- setting `SIG_IGN` drops the signals that are pending
      some { s with consumerQueue := [], consumerIgnored := true, consumer := none }
  | some .storeFail =>
      some { s with sh := { s.sh with consumerEnded := .consEndFail }, consumer := none }
  | some (.sendToken _) | none => none

/-- `write(fd_out, buf_ptr + written, bytes_to_write - written)`. -/
def writeStep (s : State) (result : Option ℕ) : Option State :=
  match s.consumer with
  | some (.writing chunk bytesToWrite written) =>
      if written < bytesToWrite then
        match result with
        | none => some { s with consumer := some .failWrite }
        | some n =>
            if s.outOpen ∧ n ≤ bytesToWrite - written then
              some { s with
                output := s.output ++ ((s.sh.buffer chunk).drop written).take n
                consumer := some (.writing chunk bytesToWrite (written + n)) }
            else none
      else none
  | _ => none

/-- `sigqueue(sh_data->ppid, SIG_PRODUCER, chunk)` in `consumer_handler`. -/
def consumerSigqueueStep (s : State) (ok : Bool) : Option State :=
  match s.consumer with
  | some (.sendToken chunk) =>
      if ok then some { s.sigqueueProducer chunk with consumer := none }
      else some { s with consumer := some .storeFail }
  | _ => none

/-- One step of the two processes. -/
def step (s : State) : Action → Option State
  | .parent => if s.producer = none then parentStep s else none
  | .child => if s.consumer = none then childStep s else none
  | .openOut ok => if s.consumer = none then openOutStep s ok else none
  | .childSigqueue ok => if s.consumer = none then childSigqueueStep s ok else none
  | .deliverProducer => deliverProducerStep s
  | .deliverConsumer => deliverConsumerStep s
  | .producer => producerStep s
  | .read result => readStep s result
  | .producerSigqueue ok => producerSigqueueStep s ok
  | .consumer => consumerStep s
  | .write result => writeStep s result
  | .consumerSigqueue ok => consumerSigqueueStep s ok

end SignalCopy
