import PosixTasks.FileServer.Registration

/-!
# The commands of one client

A registered client occupies a slot of `clients`. The server reads its rx FIFO in three places:
once in `register_new_client`, in the event loop of `main`, and in the periodic check of `main`.
Each splits the bytes it has read into commands on its own, and treats an unterminated tail as a
command too.

The state is that of the slot from the moment `register_new_client` has sent the `ACK` until the
slot is closed. The server is one thread, so a reader is not interrupted by another one; the
client can act between any two reads. What `GET` starts in its own thread is not part of the
state. Reads of an open FIFO do not fail.
-/

namespace FileServer

open CString Lines

/-- `MAX_CLIENTS`. -/
abbrev maxClients : ℕ := 64

instance : NeZero maxClients := ⟨by decide⟩

/-- `sizeof(cmd_copy) - 1`. -/
def commandBytes : ℕ := 511

/-- `CMD_DISCONNECT`. -/
def cmdDisconnect : Text := ['D', 'I', 'S', 'C', 'O', 'N', 'N', 'E', 'C', 'T']

/-- `CMD_GET`. -/
def cmdGet : Text := ['G', 'E', 'T']

/-- What a command asks for. -/
inductive Request where
  | disconnect
  | get (filename : Text)
  /-- `GET` without a file name -/
  | invalidGet
  | unknown
  deriving DecidableEq, Repr

/-- The branches of `process_client_command` on `cmd_copy`. -/
def requestOf (cmdCopy : Text) : Request :=
  if cmdDisconnect <+: cmdCopy then .disconnect
  else if cmdGet <+: cmdCopy then
    match scanWord (some pathBytes) (cmdCopy.drop (cmdGet.length + 1)) with
    | some (filename, _) => .get filename
    | none => .invalidGet
  else .unknown

/-- The client's end of its rx FIFO. -/
inductive Writer where
  | notOpened
  | opened
  | closed
  deriving DecidableEq, Repr

/-- A command as a client writes it, without its newline: the line is at most 511 bytes long. -/
structure CommandLine where
  text : Text
  noNewline : '\n' ∉ text
  noNul : '\x00' ∉ text
  fits : text.length + 1 ≤ 511

/-- The slot of a client and its rx FIFO. -/
structure Connection where
  /-- The bytes in the FIFO. -/
  fifo : Text
  /-- The client's end of the FIFO. -/
  writer : Writer
  /-- `is_active`: the slot is still the client's, and `rx_fd` is open. -/
  active : Bool
  /-- `register_new_client` has not made its read yet. -/
  registering : Bool
  /-- The bytes in `buffer` while the event loop reads this FIFO. -/
  pass : Option Text
  /-- The commands `process_client_command` has carried out, in order. -/
  carried : List Text
  /-- History: the lines the client has written. -/
  written : List CommandLine

/-- The slot when `register_new_client` has sent the `ACK`. -/
def Connection.init : Connection :=
  { fifo := [], writer := .notOpened, active := true, registering := true, pass := none,
    carried := [], written := [] }

/-- `cmd_copy`: the start of the command, up to a newline. -/
def commandCopy (command : Text) : Text :=
  (command.take commandBytes).takeWhile (· ≠ '\n')

/-- `process_client_command` as far as the slot is concerned. A command for a slot that is no
longer active is ignored. -/
def processClientCommand (c : Connection) (command : Text) : Connection :=
  if c.active then
    let cmdCopy := commandCopy command
    match requestOf cmdCopy with
    | .disconnect => { c with carried := c.carried ++ [cmdCopy], active := false }
    | .get _ | .invalidGet | .unknown => { c with carried := c.carried ++ [cmdCopy] }
  else c

/-- The loop over the lines of a buffer: empty lines are skipped, and the tail is a command of
its own. -/
def processBuffer (c : Connection) (buffer : Text) : Connection :=
  let lines := split '\n' (ofBuffer buffer)
  let c := lines.1.foldl (fun c line => if line ≠ [] then processClientCommand c line else c) c
  if lines.2 ≠ [] then processClientCommand c lines.2 else c

/-- The actions of the client and of the readers of the server. -/
inductive ConnectionAction where
  /-- the client opens its rx FIFO for writing -/
  | openWriter
  /-- the client writes a line -/
  | write (l : CommandLine)
  /-- the client closes its rx FIFO -/
  | closeWriter
  /-- `register_new_client` reads once -/
  | registrationRead
  /-- `epoll_wait` has returned an event for the slot -/
  | event
  /-- the event loop tests `total_read`, and reads once or handles the buffer -/
  | eventRead
  /-- the periodic check reads once -/
  | periodicRead

/-- The next read of the event loop, into `buffer`. A FIFO without a writer is at end of file,
which closes the slot before the bytes read so far are handled; an empty FIFO with a writer
returns `EAGAIN`. -/
def eventReadStep (c : Connection) : Option Connection :=
  match c.pass with
  | none => none
  | some buffer =>
      if buffer.length < bufferBytes then
        if c.fifo ≠ [] then
          some { c with
            pass := some (buffer ++ c.fifo.take (bufferBytes - buffer.length))
            fifo := c.fifo.drop (bufferBytes - buffer.length) }
        else if c.writer = .opened then some (processBuffer { c with pass := none } buffer)
        else some (processBuffer { c with pass := none, active := false } buffer)
      else some (processBuffer { c with pass := none } buffer)

/-- One step of the connection in the given slot. The event loop takes an event with data 0 for
one of the server FIFO. The client's `open` returns only while the server has the FIFO open, and
its writes fail once the server has closed it. -/
def connectionStep (slot : Fin maxClients) (c : Connection) :
    ConnectionAction → Option Connection
  | .openWriter =>
      if c.writer = .notOpened ∧ c.active then some { c with writer := .opened } else none
  | .write l =>
      if c.writer = .opened ∧ c.active then
        some { c with fifo := c.fifo ++ l.text ++ ['\n'], written := c.written ++ [l] }
      else none
  | .closeWriter => if c.writer = .opened then some { c with writer := .closed } else none
  | .registrationRead =>
      if c.registering then
        some (processBuffer { c with registering := false, fifo := c.fifo.drop bufferBytes }
          (c.fifo.take bufferBytes))
      else none
  | .event =>
      if slot ≠ 0 ∧ c.registering = false ∧ c.pass = none ∧ c.active ∧
          (c.fifo ≠ [] ∨ c.writer = .closed) then
        some { c with pass := some [] }
      else none
  | .eventRead => eventReadStep c
  | .periodicRead =>
      if c.registering = false ∧ c.pass = none ∧ c.active then
        if c.fifo ≠ [] then
          some (processBuffer { c with fifo := c.fifo.drop bufferBytes }
            (c.fifo.take bufferBytes))
        else if c.writer = .opened then some c
        else some { c with active := false }
      else none

end FileServer
