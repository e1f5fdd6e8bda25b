import PosixTasks.Lib.Descriptors
import PosixTasks.Lib.Heap
import PosixTasks.Lib.Transition
import PosixTasks.MonteCarlo.Socket

/-!
# The task server with its threads

`start_tcp_task_server` accepts connections in a loop. It stores each descriptor in a cell of its
own and starts a detached thread with the address of the cell; the thread, `handle_client`, copies
the descriptor, frees the cell, reads once, writes once and closes the descriptor. All threads
share the heap and the descriptor table of the process.

An action lets the loop, one thread or one client take its next step, and carries the outcome of a
system call. What a client writes before its connection is accepted is written right after. The
points that the thread with the number `k` draws are given by `integrate k`. Connections that the
peer resets are left out.
-/

namespace MonteCarlo

namespace TaskServer

open CString

/-- What a descriptor of the process names. -/
inductive OpenFile where
  /-- a file that neither the loop nor its threads use -/
  | other
  | listener
  | connection (c : ℕ)
  deriving DecidableEq

/-- A connection that was accepted. -/
structure Connection where
  /-- The bytes that the client has written. -/
  sent : Text
  /-- How many of them the server has read. -/
  taken : ℕ
  /-- The client writes nothing any more. -/
  shut : Bool
  /-- The bytes that the server has written. -/
  reply : Text

/-- Where the accept loop is. The address is that of the cell. -/
inductive LoopPc where
  /-- before `calloc` -/
  | calloc
  /-- before `accept` -/
  | accept (connfd : ℕ)
  /-- before `pthread_create` -/
  | create (connfd : ℕ)
  deriving DecidableEq

/-- Where a thread is in `handle_client`. -/
inductive HandlerPc where
  /-- before `*((int*)arg)` -/
  | entry (arg : ℕ)
  /-- before `free(arg)` -/
  | copied (arg : ℕ) (connfd : ℤ)
  /-- before `read` -/
  | reading (connfd : ℤ)
  /-- before `write` of the bytes -/
  | writing (connfd : ℤ) (bytes : Text)
  /-- before `close` -/
  | closing (connfd : ℤ)
  | returned
  deriving DecidableEq

/-- What the server must not do. -/
inductive Misuse where
  /-- a cell is used that is not allocated any more -/
  | freedCell
  /-- a descriptor is used that names no connection -/
  | notConnection
  /-- `pthread_detach` of a `tid` that was never set -/
  | unsetThread
  deriving DecidableEq

/-- The process of the server and what has passed over its connections. -/
structure State where
  /-- The cells for descriptors. -/
  heap : Heap ℤ
  files : Descriptors.Table OpenFile
  /-- The connections in the order in which they were accepted. -/
  conns : List Connection
  loop : LoopPc
  /-- The threads in the order in which they were created. -/
  threads : List HandlerPc
  misuse : Option Misuse

/-- The server when the loop begins, with the files it has open. -/
def init (files : Descriptors.Table OpenFile) : State where
  heap := ⟨[]⟩
  files := files
  conns := []
  loop := .calloc
  threads := []
  misuse := none

/-- What a number names; a negative one names nothing. -/
def fileAt (files : Descriptors.Table OpenFile) (fd : ℤ) : Option OpenFile :=
  if fd < 0 then none else Descriptors.get files fd.toNat

/-- Thread `k` goes on to `pc`. -/
def State.goto (s : State) (k : ℕ) (pc : HandlerPc) : State :=
  { s with threads := s.threads.set k pc }

/-- Something has passed over connection `c`. -/
def State.setConn (s : State) (c : ℕ) (conn : Connection) : State :=
  { s with conns := s.conns.set c conn }

/-- The server does what it must not do. -/
def State.misused (s : State) (m : Misuse) : State :=
  { s with misuse := some m }

/-- The connection that a descriptor names, with its number. -/
def State.connectionAt (s : State) (fd : ℤ) : Option (ℕ × Connection) :=
  match fileAt s.files fd with
  | some (.connection c) => s.conns[c]?.map (c, ·)
  | _ => none

/-- The steps of the server and of its clients. -/
inductive Action where
  | calloc (ok : Bool)
  | accept (ok : Bool)
  | create (ok : Bool)
  /-- client `c` writes bytes -/
  | send (c : ℕ) (bytes : Text)
  /-- client `c` writes nothing any more -/
  | shut (c : ℕ)
  /-- thread `k` uses its cell, or closes its descriptor -/
  | handler (k : ℕ)
  /-- the `read` of thread `k` returns, with `none` for `-1` -/
  | read (k : ℕ) (result : Option ℕ)
  /-- the `write` of thread `k` returns, with `none` for `-1` -/
  | write (k : ℕ) (result : Option ℕ)
  deriving DecidableEq

/-- `calloc`; without a cell the loop begins again. -/
def callocStep (s : State) (ok : Bool) : Option State :=
  match s.loop with
  | .calloc =>
      if ok then
        let (connfd, heap) := s.heap.alloc 0
        some { s with heap, loop := .accept connfd }
      else some s
  | _ => none

/-- `*connfd = accept(...)` and the test of `*connfd`. -/
def acceptStep (s : State) (ok : Bool) : Option State :=
  match s.loop with
  | .accept connfd =>
      if ok then
        let (fd, files) := Descriptors.alloc s.files (.connection s.conns.length)
        match s.heap.store connfd fd with
        | some heap =>
            some { s with
              heap, files
              conns := s.conns ++ [{ sent := [], taken := 0, shut := false, reply := [] }]
              loop := .create connfd }
        | none => some (s.misused .freedCell)
      else
        -- the cell holds -1 and is freed
        match (s.heap.store connfd (-1)).bind (·.free connfd) with
        | some heap => some { s with heap, loop := .calloc }
        | none => some (s.misused .freedCell)
  | _ => none

/-- `pthread_create`, whose result is not looked at, and `pthread_detach`. -/
def createStep (s : State) (ok : Bool) : Option State :=
  match s.loop with
  | .create connfd =>
      if ok then some { s with threads := s.threads ++ [.entry connfd], loop := .calloc }
      -- `pthread_detach` follows all the same
      else some (s.misused .unsetThread)
  | _ => none

/-- Client `c` writes. -/
def sendStep (s : State) (c : ℕ) (bytes : Text) : Option State :=
  match s.conns[c]? with
  | some conn =>
      if conn.shut then none else some (s.setConn c { conn with sent := conn.sent ++ bytes })
  | none => none

/-- Client `c` shuts its end. -/
def shutStep (s : State) (c : ℕ) : Option State :=
  (s.conns[c]?).map fun conn => s.setConn c { conn with shut := true }

/-- The steps of `handle_client` other than `read` and `write`. -/
def handlerStep (s : State) (k : ℕ) : Option State :=
  match s.threads[k]? with
  | some (.entry arg) =>
      match s.heap.block arg with
      | some connfd => some (s.goto k (.copied arg connfd))
      | none => some (s.misused .freedCell)
  | some (.copied arg connfd) =>
      match s.heap.free arg with
      | some heap => some { s.goto k (.reading connfd) with heap }
      | none => some (s.misused .freedCell)
  | some (.closing connfd) =>
      match s.connectionAt connfd with
      | some _ =>
          some { s.goto k .returned with files := Descriptors.close s.files connfd.toNat }
      | none => some (s.misused .notConnection)
  | _ => none

/-- `write(connfd, result_buffer, result_len + 1)`. -/
def writeStep (s : State) (k : ℕ) (result : Option ℕ) : Option State :=
  match s.threads[k]? with
  | some (.writing connfd bytes) =>
      match s.connectionAt connfd with
      | some (c, conn) =>
          match result with
          | none => some (s.goto k (.closing connfd))
          | some n =>
              if 0 < n ∧ n ≤ bytes.length then
                some ((s.setConn c { conn with reply := conn.reply ++ bytes.take n }).goto k
                  (.closing connfd))
              else none
      | none => some (s.misused .notConnection)
  | _ => none

section Handler

variable (nearest : ℚ≥0 → ℚ≥0) (integrate : ℕ → Task → Double × UInt64)

/-- `read(connfd, buffer, sizeof(buffer) - 1)`, and what is computed from the buffer. -/
def readStep (s : State) (k : ℕ) (result : Option ℕ) : Option State :=
  match s.threads[k]? with
  | some (.reading connfd) =>
      match s.connectionAt connfd with
      | some (c, conn) =>
          match result with
          | none => some (s.goto k (.closing connfd))
          | some n =>
              let unread := conn.sent.drop conn.taken
              -- 0 only at the end of what the client writes
              if n ≤ bufferSize - 1 ∧ n ≤ unread.length ∧ (0 < n ∨ unread = [] ∧ conn.shut) then
                let bytes := (handleClient nearest (integrate k) (received unread n)).2
                -- without a decoded task nothing is written
                let pc := if bytes = [] then .closing connfd else .writing connfd bytes
                some ((s.setConn c { conn with taken := conn.taken + n }).goto k pc)
              else none
      | none => some (s.misused .notConnection)
  | _ => none

/-- One step of the server or of a client. -/
def step (s : State) (a : Action) : Option State :=
  if s.misuse ≠ none then none
  else
    match a with
    | .calloc ok => callocStep s ok
    | .accept ok => acceptStep s ok
    | .create ok => createStep s ok
    | .send c bytes => sendStep s c bytes
    | .shut c => shutStep s c
    | .handler k => handlerStep s k
    | .read k result => readStep nearest integrate s k result
    | .write k result => writeStep s k result

end Handler

end TaskServer

end MonteCarlo
