import PosixTasks.FileServer.Commands
import PosixTasks.FileServer.Table
import PosixTasks.FileServer.Transfer

/-!
# Whether a `GET` is answered

The client sends a `GET` and waits in `receive_file`, which reads its tx FIFO without a timeout.
The server reads the line, and `process_client_command` starts a thread for it or returns with an
entry in its log only.

One client and the server are followed from where the client has opened both FIFOs. A read of the
server finds all the bytes there are, up to `BUFFER_SIZE - 1`; a write to the tx FIFO waits until
it fits. While the server has the tx FIFO open, a read of the empty FIFO blocks; once it is
closed, the read returns 0.

## Main results

* `answered_of_run`: the client never waits for a reply that nobody sends, and each of its calls
  of `receive_file` succeeds, as long as each of its lines starts one thread and no thread gives
  up;
* `blocked_of_unanswered`: a line that starts no thread and does not close the slot leaves the
  client blocked.
-/

namespace FileServer

open CString Lines Transition

/-- The client and the server. -/
structure Exchange where
  /-- The names still to be requested. -/
  names : List Text
  /-- The bytes in the rx FIFO. -/
  rx : Text
  server : Server
  /-- The bytes in the tx FIFO. -/
  tx : Text
  receiver : Receiver
  /-- The bytes that the current call of `receive_file` has read. -/
  consumed : Text
  /-- The calls of `receive_file` that have returned. -/
  replies : List Reply
  /-- History: how many lines the client has sent. -/
  sent : ℕ

/-- The client is registered and has opened both FIFOs. -/
def Exchange.init (server : Server) (names : List Text) : Exchange :=
  { names, rx := [], server, tx := [], receiver := .idle, consumed := [], replies := [], sent := 0 }

/-- The line that `send_get_command` writes: `"%s %s\n"`. -/
def getCommand (filename : Text) : Text :=
  cmdGet ++ [' '] ++ filename ++ ['\n']

/-- `sizeof(command)` in `send_get_command`. -/
def getBytes : ℕ := 512

/-- The steps of the client, of the server and of its threads. -/
inductive ExchangeAction where
  /-- `send_get_command` for the next name, and the call of `receive_file` -/
  | get
  /-- a reader of the server handles what is in the rx FIFO; `starts` tells which `GET` gets a
  thread -/
  | serve (starts : ℕ → Text → Bool)
  /-- an error of a read makes the server close the slot -/
  | drop
  /-- a call of thread `k` -/
  | thread (k : ℕ) (a : SenderAction) (fileFd : ℕ)
  /-- a read of `receive_file` returns `n` bytes -/
  | read (n : ℕ)
  /-- `main` of the client goes on to the next name -/
  | next

/-- A size is a `long`. -/
def SenderAction.possible : SenderAction → Bool
  | .openFile size => size < 2 ^ 63
  | _ => true

/-- `receive_file` after a read that returns 0. -/
def endOfReply : Receiver → Option Receiver
  | .header _ => some (.returned (-1) none)
  | .body size _ => some (.returned (-1) (some size))
  | _ => none

/-- One step. The tx FIFO has room for `capacity` bytes. -/
def exchangeStep (slot : Fin maxClients) (capacity : ℕ) (x : Exchange) :
    ExchangeAction → Option Exchange
  | .get =>
      match x.receiver, x.names with
      | .idle, filename :: names =>
          if (getCommand filename).length < getBytes ∧ (x.server.clients slot).isActive then
            some { x with
              names := names
              rx := x.rx ++ getCommand filename
              receiver := .header []
              consumed := []
              sent := x.sent + 1 }
          else some { x with names := names }
      | _, _ => none
  | .serve starts =>
      if x.rx ≠ [] ∧ (x.server.clients slot).isActive then
        some { x with
          rx := x.rx.drop bufferBytes
          server := x.server.processBuffer starts slot (x.rx.take bufferBytes) }
      else none
  | .drop => some { x with server := x.server.closeClientConnection slot }
  | .thread k a fileFd =>
      if a.possible then
        match x.server.stepThread k a fileFd with
        | none => none
        | some (server, bytes) =>
            if x.tx.length + bytes.length ≤ capacity then
              some { x with server := server, tx := x.tx ++ bytes }
            else none
      else none
  | .read n =>
      match x.receiver, x.tx with
      | .header got, c :: tx =>
          if n = 1 then
            some { x with
              tx := tx, receiver := receiveHeader got c, consumed := x.consumed ++ [c] }
          else none
      | .body size received, c :: tx =>
          if 0 < n ∧ n ≤ (c :: tx).length ∧ n ≤ min chunkBytes (size - received) then
            some { x with
              tx := (c :: tx).drop n
              receiver := receiveBody size (received + n)
              consumed := x.consumed ++ (c :: tx).take n }
          else none
      | receiver, [] =>
          -- the read blocks while the FIFO has a writer
          if n = 0 ∧ (x.server.clients slot).isActive = false then
            (endOfReply receiver).map fun r => { x with receiver := r }
          else none
      | _, _ => none
  | .next =>
      match x.receiver with
      | .returned code size =>
          some { x with
            receiver := .idle
            replies := x.replies ++ [{ code, size, consumed := x.consumed }] }
      | _ => none

/-- `receive_file` is in a read. -/
def InRead : Receiver → Prop
  | .header _ | .body _ _ => True
  | .idle | .returned _ _ => False

/-- The client waits for a reply that nobody sends. -/
structure Blocked (slot : Fin maxClients) (x : Exchange) : Prop where
  waiting : InRead x.receiver
  empty : x.tx = []
  hasWriter : (x.server.clients slot).isActive
  consumed : x.rx = []
  threads : ∀ t ∈ x.server.threads, t.pos = .ended

/-! ## What has to happen -/

/-- The command is a `GET` that gets a thread, where `n` threads have been started before. -/
def StartsThread (starts : ℕ → Text → Bool) (n : ℕ) (command : Text) : Prop :=
  ∃ filename, requestOf (commandCopy command) = .get filename ∧ starts n filename

/-- One of the commands starts a thread, and the others start none. -/
def StartsOne (starts : ℕ → Text → Bool) (n : ℕ) (commands : List Text) : Prop :=
  ∃ pre command post, commands = pre ++ command :: post ∧ StartsThread starts n command ∧
    (∀ d ∈ pre, ¬ StartsThread starts n d) ∧ ∀ d ∈ post, ¬ StartsThread starts (n + 1) d

/-- One of the commands is a `DISCONNECT`, which a file name with a newline can hide. -/
def Disconnects (commands : List Text) : Prop :=
  ∃ d ∈ commands, requestOf (commandCopy d) = .disconnect

/-- What the calls of a thread return where the file can be opened and keeps its size, every write
succeeds, and an exit signal comes no earlier than behind the last chunk. -/
def steady : SenderPos → SenderAction → Bool
  | .sending size sent, .sendChunk data written =>
      data.length = min chunkBytes (size - sent) ∧ written
  | .sending size sent, .stop => size ≤ sent
  | _, .sendChunk _ _ => false
  | _, .openFailed | _, .stop => false
  | _, .writeHeader written => written
  | _, .openFile _ | _, .finish => true

/-- The server answers: the commands it reads start one thread, or close the slot, and a thread
does not give up. -/
def Answers (x : Exchange) : ExchangeAction → Prop
  | .serve starts =>
      StartsOne starts x.server.threads.length (commandsOf (x.rx.take bufferBytes)) ∨
        Disconnects (commandsOf (x.rx.take bufferBytes))
  | .thread k a _ => ∀ t ∈ x.server.threads[k]?, steady t.pos a
  | _ => True

/-! ## What a line leads to -/

theorem Server.processBuffer_eq_foldl (s : Server) (starts : ℕ → Text → Bool) (i : Fin maxClients)
    (buffer : Text) : s.processBuffer starts i buffer
      = (commandsOf buffer).foldl (fun s command => s.processClientCommand starts i command) s :=
  foldl_commandsOf (fun (s : Server) (command : Text) => s.processClientCommand starts i command)
    buffer s

section Commands

variable {s : Server} {starts : ℕ → Text → Bool} {i : Fin maxClients} {command : Text}

theorem Server.processClientCommand_inactive (h : (s.clients i).isActive = false) :
    s.processClientCommand starts i command = s := by
  simp [Server.processClientCommand, h]

theorem closeClientConnection_isActive (s : Server) (i : Fin maxClients) :
    ((s.closeClientConnection i).clients i).isActive = false := by
  cases h : (s.clients i).isActive with
  | false => rw [closeClientConnection_of_inactive h, h]
  | true =>
    simp [Server.closeClientConnection, h, Server.setClient, ClientInfo.blank, ClientInfo.zero]

/-- A `DISCONNECT` closes the slot. -/
theorem processClientCommand_disconnect (h : requestOf (commandCopy command) = .disconnect) :
    ((s.processClientCommand starts i command).clients i).isActive = false := by
  cases hactive : (s.clients i).isActive with
  | false => rw [Server.processClientCommand_inactive hactive, hactive]
  | true =>
    simp only [Server.processClientCommand, hactive, if_true, h]
    exact closeClientConnection_isActive s i

/-- A `GET` that gets a thread. -/
theorem processClientCommand_starts (hactive : (s.clients i).isActive)
    (h : StartsThread starts s.threads.length command) :
    ∃ t : Thread, t.pos = .opening ∧
      s.processClientCommand starts i command = { s with threads := s.threads ++ [t] } := by
  obtain ⟨filename, hget, hstarts⟩ := h
  refine ⟨s.newThread i filename, rfl, ?_⟩
  simp only [Server.processClientCommand, hactive, if_true, hget, hstarts]

/-- Any other command does nothing. -/
theorem processClientCommand_other (hdis : requestOf (commandCopy command) ≠ .disconnect)
    (h : ¬ StartsThread starts s.threads.length command) :
    s.processClientCommand starts i command = s := by
  unfold Server.processClientCommand
  split
  next =>
    split
    next hreq => exact absurd hreq hdis
    next filename hreq =>
      split
      next hstarts => exact absurd ⟨filename, hreq, hstarts⟩ h
      next => rfl
    all_goals rfl
  next => rfl

/-- Once the slot is closed, nothing happens. -/
theorem Server.foldl_inactive (h : (s.clients i).isActive = false) (commands : List Text) :
    commands.foldl (fun s command => s.processClientCommand starts i command) s = s := by
  induction commands with
  | nil => rfl
  | cons command commands ih =>
    rw [List.foldl_cons, Server.processClientCommand_inactive h, ih]

/-- Commands with a `DISCONNECT` among them close the slot. -/
theorem foldl_disconnects (s : Server) {commands : List Text} (h : Disconnects commands) :
    ((commands.foldl (fun s command => s.processClientCommand starts i command) s).clients
      i).isActive = false := by
  obtain ⟨d, hd, hdis⟩ := h
  obtain ⟨pre, post, rfl⟩ := List.append_of_mem hd
  rw [List.foldl_append, List.foldl_cons]
  have hclosed : ∀ t : Server, ((t.processClientCommand starts i d).clients i).isActive = false :=
    fun t => processClientCommand_disconnect hdis
  rw [Server.foldl_inactive (hclosed _), hclosed]

/-- Commands that neither close the slot nor start a thread do nothing. -/
theorem foldl_others {commands : List Text} (hdis : ¬ Disconnects commands)
    (h : ∀ d ∈ commands, ¬ StartsThread starts s.threads.length d) :
    commands.foldl (fun s command => s.processClientCommand starts i command) s = s := by
  induction commands with
  | nil => rfl
  | cons command commands ih =>
    have hother : requestOf (commandCopy command) ≠ .disconnect :=
      fun heq => hdis ⟨command, List.mem_cons_self, heq⟩
    rw [List.foldl_cons, processClientCommand_other hother (h command List.mem_cons_self)]
    apply ih
    · rintro ⟨d, hd, heq⟩
      exact hdis ⟨d, List.mem_cons_of_mem _ hd, heq⟩
    · exact fun d hd => h d (List.mem_cons_of_mem _ hd)

/-- Commands of which one starts a thread, and that do not close the slot. -/
theorem foldl_startsOne (hactive : (s.clients i).isActive) {commands : List Text}
    (hdis : ¬ Disconnects commands) (h : StartsOne starts s.threads.length commands) :
    ∃ t : Thread, t.pos = .opening ∧
      commands.foldl (fun s command => s.processClientCommand starts i command) s
        = { s with threads := s.threads ++ [t] } := by
  obtain ⟨pre, command, post, rfl, hstarts, hpre, hpost⟩ := h
  have hsub : ∀ {xs : List Text}, (∀ d ∈ xs, d ∈ pre ++ command :: post) → ¬ Disconnects xs :=
    fun hxs ⟨d, hd, heq⟩ => hdis ⟨d, hxs d hd, heq⟩
  obtain ⟨t, ht, heq⟩ := processClientCommand_starts hactive hstarts
  refine ⟨t, ht, ?_⟩
  rw [List.foldl_append, foldl_others (hsub fun d hd => by simp [hd]) hpre, List.foldl_cons, heq]
  apply foldl_others
  · exact hsub fun d hd => by simp [hd]
  · simpa using hpost

end Commands

/-! ## What a thread does -/

/-- A call of a thread changes its position, and sends the bytes of `senderStep`. -/
theorem stepThread_cases {s s' : Server} {k fileFd : ℕ} {a : SenderAction} {bytes : Text}
    (h : s.stepThread k a fileFd = some (s', bytes)) :
    ∃ t t' : Thread, s.threads[k]? = some t ∧ senderStep t.pos a = some (t'.pos, bytes) ∧
      s'.threads = s.threads.set k t' ∧ s'.clients = s.clients := by
  have hmove : ∀ t pos, ∃ t' : Thread, t'.pos = pos ∧
      (s.moveThread k t pos).threads = s.threads.set k t' ∧
      (s.moveThread k t pos).clients = s.clients := by
    intro t pos
    unfold Server.moveThread
    split
    · exact ⟨_, rfl, rfl, rfl⟩
    · exact ⟨_, rfl, rfl, rfl⟩
  unfold Server.stepThread at h
  split at h
  next => simp at h
  next t ht =>
    split at h
    next => simp at h
    next pos bytes' hsend =>
      have hmoved : ∀ b, b = bytes' → (s.moveThread k t pos, b) = (s', bytes) →
          ∃ t t' : Thread, s.threads[k]? = some t ∧ senderStep t.pos a = some (t'.pos, bytes) ∧
            s'.threads = s.threads.set k t' ∧ s'.clients = s.clients := by
        rintro b rfl heq
        rw [Prod.mk.injEq] at heq
        obtain ⟨rfl, rfl⟩ := heq
        obtain ⟨t', rfl, hthreads, hclients⟩ := hmove t pos
        exact ⟨t, t', ht, hsend, hthreads, hclients⟩
      split at h
      next size =>
        split at h
        next =>
          rw [Option.some.injEq, Prod.mk.injEq] at h
          obtain ⟨rfl, rfl⟩ := h
          refine ⟨t, _, ht, ?_, rfl, rfl⟩
          -- `fopen` is the first call, and writes nothing
          cases hpos : t.pos <;> simp [hpos, senderStep] at hsend ⊢
          exact hsend.1
        next => simp at h
      next =>
        split at h
        next hnil =>
          rw [Option.some.injEq] at h
          exact hmoved [] hnil.symm h
        next =>
          split at h
          next =>
            rw [Option.some.injEq] at h
            exact hmoved bytes' rfl h
          next => simp at h

/-- Nothing of a reply has been read before its thread has opened the file. -/
theorem ReceiverAt.of_nil {f : ServedFile} {receiver : Receiver} (h : ReceiverAt f receiver [])
    (g : ServedFile) : ReceiverAt g receiver [] := by
  cases receiver with
  | idle => exact h
  | header got => exact ⟨h.1, Nat.zero_le _⟩
  | body size received =>
    obtain ⟨-, -, hlen⟩ := h
    simp only [sizeHeader, List.length_append, List.length_nil, List.length_singleton] at hlen
    omega
  | returned code size =>
    obtain ⟨-, -, hreply⟩ := h
    simp [replyBytes, sizeHeader] at hreply

/-- While the reply is incomplete, `receive_file` has learnt no more than its size. -/
theorem ReceiverAt.of_length {f g : ServedFile} {receiver : Receiver} {consumed : Text}
    (h : ReceiverAt f receiver consumed) (hlen : g.content.length = f.content.length)
    (hpart : consumed.length < (replyBytes f).length) : ReceiverAt g receiver consumed := by
  cases receiver with
  | idle => exact h
  | header got => exact ⟨h.1, by rw [headerLine, hlen]; exact h.2⟩
  | body size received =>
    obtain ⟨hsize, hlt, hread⟩ := h
    exact ⟨hsize.trans hlen.symm, by rwa [hlen], by rwa [hlen]⟩
  | returned code size =>
    obtain ⟨-, -, rfl⟩ := h
    exact absurd hpart (lt_irrefl _)

/-- What is sent next by a thread that does not give up is sent by an undisturbed call for some
file, of whose reply the bytes so far are a part too. -/
theorem exists_undisturbed {f : ServedFile} {pos pos' : SenderPos} {a : SenderAction}
    {bytes consumed tx : Text} {receiver : Receiver} (hsender : SenderAt f pos (consumed ++ tx))
    (hreceiver : ReceiverAt f receiver consumed) (hsteady : steady pos a) (ha : a.possible)
    (hstep : senderStep pos a = some (pos', bytes)) :
    ∃ g b, undisturbed g pos b ∧ senderStep pos b = some (pos', bytes) ∧
      SenderAt g pos (consumed ++ tx) ∧ ReceiverAt g receiver consumed := by
  cases pos with
  | opening =>
    cases a with
    | openFile size =>
      -- the size is known from here on, the content is not
      have hwritten : consumed ++ tx = [] := hsender
      obtain ⟨rfl, rfl⟩ := List.append_eq_nil_iff.mp hwritten
      have hsize : size < 2 ^ 63 := by simpa [SenderAction.possible] using ha
      refine ⟨⟨List.replicate size 'x', by simpa using hsize⟩, _, by simp [undisturbed], hstep, rfl,
        hreceiver.of_nil _⟩
    | openFailed => simp [steady] at hsteady
    | _ => simp [senderStep] at hstep
  | header size =>
    cases a with
    | writeHeader written => exact ⟨f, .writeHeader written, hsteady, hstep, hsender, hreceiver⟩
    | _ => simp [senderStep] at hstep
  | sending size sent =>
    cases a with
    | sendChunk data written =>
      obtain ⟨hlen, hwritten⟩ : data.length = min chunkBytes (size - sent) ∧ written = true := by
        simpa [steady] using hsteady
      obtain ⟨rfl, hle, hsofar⟩ := hsender
      have hlt : sent < f.content.length := by
        by_contra hge
        simp [senderStep, hge] at hstep
      -- the file as far as it has been sent, and then this chunk
      have hroom : sent + data.length ≤ f.content.length := by omega
      have hcontent : (f.content.take sent ++ data ++ f.content.drop (sent + data.length)).length
          = f.content.length := by
        simp only [List.length_append, List.length_take, List.length_drop]
        omega
      have hsent : (f.content.take sent).length = sent := List.length_take_of_le hle
      refine ⟨⟨f.content.take sent ++ data ++ f.content.drop (sent + data.length),
        hcontent ▸ f.fits⟩, _, ?_, hstep, ?_, hreceiver.of_length hcontent ?_⟩
      · have hdrop : (f.content.take sent ++ data ++ f.content.drop (sent + data.length)).drop sent
            = data ++ f.content.drop (sent + data.length) := by
          rw [List.append_assoc, List.drop_left' hsent]
        have htake : data
            = (data ++ f.content.drop (sent + data.length)).take chunkBytes := by
          by_cases hfull : data.length = chunkBytes
          · rw [← hfull, List.take_left]
          · have hlast : f.content.drop (sent + data.length) = [] :=
              List.drop_eq_nil_of_le (by omega)
            rw [hlast, List.append_nil, List.take_of_length_le (by omega)]
        simp only [undisturbed, hdrop, ← htake, hwritten]
        simp
      · refine ⟨hcontent.symm, hcontent.symm ▸ hle, ?_⟩
        show consumed ++ tx = sizeHeader
              (f.content.take sent ++ data ++ f.content.drop (sent + data.length)).length
            ++ (f.content.take sent ++ data ++ f.content.drop (sent + data.length)).take sent
        rw [hcontent, List.append_assoc, List.take_left' hsent, hsofar]
      · have hless := congrArg List.length hsofar
        rw [List.length_append, List.length_append, hsent] at hless
        rw [replyBytes, List.length_append]
        omega
    | finish => exact ⟨f, .finish, rfl, hstep, hsender, hreceiver⟩
    | stop =>
      -- everything has been sent, so that the loop would have ended here anyway
      have hall : size ≤ sent := by simpa [steady] using hsteady
      refine ⟨f, .finish, rfl, ?_, hsender, hreceiver⟩
      simpa [senderStep, hall] using hstep
    | _ => simp [senderStep] at hstep
  | ended => simp at hstep

/-! ## Each step -/

/-- No thread has anything to send. -/
def AllSent (threads : List Thread) : Prop :=
  ∀ t ∈ threads, Done t.pos

/-- How far the server is with the line that the client has sent last. -/
inductive Answering (x : Exchange) : Prop where
  /-- `receive_file` is not being called -/
  | idle : x.receiver = .idle → x.rx = [] → x.tx = [] → AllSent x.server.threads →
      x.server.threads.length = x.sent → Answering x
  /-- the line has not been read -/
  | asked : x.receiver = .header [] → x.consumed = [] → x.rx ≠ [] → x.rx.length ≤ bufferBytes →
      x.tx = [] → AllSent x.server.threads → x.server.threads.length + 1 = x.sent → Answering x
  /-- its thread has been started, and both ends are inside the reply for some file -/
  | serving (f : ServedFile) (old : List Thread) (t : Thread) : x.rx = [] →
      x.server.threads = old ++ [t] → AllSent old → SenderAt f t.pos (x.consumed ++ x.tx) →
      ReceiverAt f x.receiver x.consumed → x.server.threads.length = x.sent → Answering x

/-- While the slot is active, the server is answering, and every reply so far was complete. -/
def Answered (slot : Fin maxClients) (x : Exchange) : Prop :=
  (x.server.clients slot).isActive → Answering x ∧ ∀ r ∈ x.replies, r.code = 0

theorem Answered.init {slot : Fin maxClients} {server : Server} (h : server.threads = [])
    (names : List Text) : Answered slot (.init server names) := by
  intro _
  have hsent : AllSent server.threads := by simp [AllSent, h]
  exact ⟨.idle rfl rfl rfl hsent (by simp [Exchange.init, h]), by simp [Exchange.init]⟩

theorem AllSent.snoc {threads : List Thread} (h : AllSent threads) {t : Thread}
    (ht : Done t.pos) : AllSent (threads ++ [t]) := by
  intro u hu
  rcases List.mem_append.mp hu with hu | hu
  · exact h u hu
  · rw [List.mem_singleton] at hu
    rw [hu]
    exact ht

theorem AllSent.set {threads : List Thread} (h : AllSent threads) {k : ℕ} {t : Thread}
    (ht : Done t.pos) : AllSent (threads.set k t) := by
  intro u hu
  rcases List.mem_or_eq_of_mem_set hu with hu | rfl
  · exact h u hu
  · exact ht

section Step

variable {slot : Fin maxClients} {capacity : ℕ} {x y : Exchange}

/-- The client sends a line, or goes on to the next name. -/
theorem Answered.get (h : Answered slot x)
    (hstep : exchangeStep slot capacity x .get = some y) : Answered slot y := by
  simp only [exchangeStep] at hstep
  split at hstep
  next filename names hreceiver hnames =>
    split at hstep <;> rw [Option.some.injEq] at hstep <;> subst hstep
    next hsend =>
      intro hactive
      obtain ⟨hanswering, hcodes⟩ := h hactive
      refine ⟨?_, hcodes⟩
      cases hanswering with
      | idle _ hrx htx hdone hlen =>
        refine .asked rfl rfl ?_ ?_ htx hdone (by rw [hlen])
        · simp [getCommand]
        -- one line fits into one read
        · have hline : (getCommand filename).length < getBytes := hsend.1
          show (x.rx ++ getCommand filename).length ≤ bufferBytes
          rw [hrx, List.nil_append]
          simp only [getBytes, bufferBytes] at hline ⊢
          omega
      | asked hheader => simp [hreceiver] at hheader
      | serving f old t _ _ _ _ hbusy =>
        rw [hreceiver] at hbusy
        exact hbusy.elim
    next =>
      intro hactive
      obtain ⟨hanswering, hcodes⟩ := h hactive
      refine ⟨?_, hcodes⟩
      cases hanswering with
      | idle h₁ h₂ h₃ h₄ h₅ => exact .idle h₁ h₂ h₃ h₄ h₅
      | asked h₁ h₂ h₃ h₄ h₅ h₆ h₇ => exact .asked h₁ h₂ h₃ h₄ h₅ h₆ h₇
      | serving f old t h₁ h₂ h₃ h₄ h₅ h₆ => exact .serving f old t h₁ h₂ h₃ h₄ h₅ h₆
  next => simp at hstep

/-- The server reads the line, and starts its thread. -/
theorem Answered.serve (h : Answered slot x) {starts : ℕ → Text → Bool}
    (hguard : Answers x (.serve starts))
    (hstep : exchangeStep slot capacity x (.serve starts) = some y) : Answered slot y := by
  simp only [exchangeStep] at hstep
  split at hstep
  next hserve =>
    rw [Option.some.injEq] at hstep
    subst hstep
    obtain ⟨hrx, hactive⟩ := hserve
    obtain ⟨hanswering, hcodes⟩ := h hactive
    intro hstill
    refine ⟨?_, hcodes⟩
    cases hanswering with
    | idle _ hempty => exact absurd hempty hrx
    | serving f old t hempty => exact absurd hempty hrx
    | asked hreceiver hconsumed _ hlen htx hdone hcount =>
      rw [Server.processBuffer_eq_foldl] at hstill
      -- the slot is still active, so that the line was not a `DISCONNECT`
      have hdis : ¬ Disconnects (commandsOf (x.rx.take bufferBytes)) := by
        intro hdis
        rw [foldl_disconnects x.server hdis] at hstill
        exact Bool.noConfusion hstill
      obtain ⟨t, ht, heq⟩ := foldl_startsOne hactive hdis (hguard.resolve_right hdis)
      have hthreads : (x.server.processBuffer starts slot (x.rx.take bufferBytes)).threads
          = x.server.threads ++ [t] := by
        rw [Server.processBuffer_eq_foldl, heq]
      refine .serving ⟨[], by decide⟩ x.server.threads t (List.drop_eq_nil_of_le hlen) hthreads
        hdone ?_ ?_ ?_
      · show SenderAt _ t.pos (x.consumed ++ x.tx)
        rw [ht, hconsumed, htx]
        exact List.append_nil _
      · show ReceiverAt _ x.receiver x.consumed
        rw [hreceiver, hconsumed]
        exact ⟨rfl, Nat.zero_le _⟩
      · show (x.server.processBuffer starts slot (x.rx.take bufferBytes)).threads.length = x.sent
        rw [hthreads, ← hcount, List.length_append, List.length_singleton]
  next => simp at hstep

/-- A thread makes its next call. -/
theorem Answered.thread (h : Answered slot x) {k fileFd : ℕ} {a : SenderAction}
    (hguard : Answers x (.thread k a fileFd))
    (hstep : exchangeStep slot capacity x (.thread k a fileFd) = some y) : Answered slot y := by
  simp only [exchangeStep] at hstep
  split at hstep
  next hpossible =>
    split at hstep
    next => simp at hstep
    next server bytes hserver =>
      split at hstep
      next =>
        rw [Option.some.injEq] at hstep
        subst hstep
        obtain ⟨t, t', hk, hsend, hthreads, hclients⟩ := stepThread_cases hserver
        have hmem : t ∈ x.server.threads := List.mem_of_getElem? hk
        intro hactive
        obtain ⟨hanswering, hcodes⟩ := h (by rwa [← hclients])
        refine ⟨?_, hcodes⟩
        -- no thread is added or removed
        have hlen : server.threads.length = x.server.threads.length := by
          rw [hthreads, List.length_set]
        cases hanswering with
        | idle hreceiver hrx htx hdone hcount =>
          obtain ⟨hdone', rfl⟩ := (hdone t hmem).step hsend
          exact .idle hreceiver hrx (by simpa using htx) (hthreads ▸ hdone.set hdone')
            (hlen.trans hcount)
        | asked hreceiver hconsumed hrx hfits htx hdone hcount =>
          obtain ⟨hdone', rfl⟩ := (hdone t hmem).step hsend
          exact .asked hreceiver hconsumed hrx hfits (by simpa using htx)
            (hthreads ▸ hdone.set hdone') (by rw [hlen]; exact hcount)
        | serving f old u hrx hsplit hold hsender hbusy hcount =>
          rw [hsplit] at hk hthreads
          by_cases hlt : k < old.length
          · -- a thread of an earlier line
            rw [List.getElem?_append_left hlt] at hk
            obtain ⟨hdone', rfl⟩ := (hold t (List.mem_of_getElem? hk)).step hsend
            refine .serving f (old.set k t') u hrx ?_ (hold.set hdone') ?_ hbusy (hlen.trans hcount)
            · rw [hthreads, List.set_append_left _ _ hlt]
            · simpa using hsender
          · obtain ⟨hklt, hget⟩ := List.getElem?_eq_some_iff.mp hk
            -- the thread of the last line, which has not ended
            have hlast : k = old.length := by
              rw [List.length_append, List.length_singleton] at hklt
              omega
            subst hlast
            obtain rfl : u = t := by simpa using hk
            have hsteady : steady u.pos a := hguard u (by rw [hsplit]; simp)
            obtain ⟨g, b, hg, hsent, hsender', hbusy'⟩ :=
              exists_undisturbed hsender hbusy hsteady hpossible hsend
            refine .serving g old t' hrx ?_ hold ?_ hbusy' (hlen.trans hcount)
            · rw [hthreads, List.set_append_right _ _ le_rfl, Nat.sub_self]
              rfl
            · show SenderAt g t'.pos (x.consumed ++ (x.tx ++ bytes))
              rw [← List.append_assoc]
              exact hsender'.step hg hsent
      next => simp at hstep
  next => simp at hstep

/-- `receive_file` reads on inside the reply. -/
theorem Answered.read (h : Answered slot x) {n : ℕ}
    (hstep : exchangeStep slot capacity x (.read n) = some y) : Answered slot y := by
  simp only [exchangeStep] at hstep
  split at hstep
  next got c tx hreceiver htx =>
    split at hstep
    next =>
      rw [Option.some.injEq] at hstep
      subst hstep
      intro hactive
      obtain ⟨hanswering, hcodes⟩ := h hactive
      refine ⟨?_, hcodes⟩
      cases hanswering with
      | idle hidle => simp [hreceiver] at hidle
      | asked _ _ _ _ hempty => simp [htx] at hempty
      | serving f old t hrx hsplit hold hsender hbusy hcount =>
        rw [htx] at hsender
        rw [hreceiver] at hbusy
        refine .serving f old t hrx hsplit hold ?_ (hbusy.readHeader hsender.isPart) hcount
        show SenderAt f t.pos (x.consumed ++ [c] ++ tx)
        rwa [List.append_assoc, List.singleton_append]
    next => simp at hstep
  next size received c tx hreceiver htx =>
    split at hstep
    next hn =>
      rw [Option.some.injEq] at hstep
      subst hstep
      intro hactive
      obtain ⟨hanswering, hcodes⟩ := h hactive
      refine ⟨?_, hcodes⟩
      cases hanswering with
      | idle hidle => simp [hreceiver] at hidle
      | asked hheader => simp [hreceiver] at hheader
      | serving f old t hrx hsplit hold hsender hbusy hcount =>
        rw [htx] at hsender
        rw [hreceiver] at hbusy
        refine .serving f old t hrx hsplit hold ?_
          (hbusy.readBody hsender.isPart hn.2.1 (by omega)) hcount
        show SenderAt f t.pos (x.consumed ++ (c :: tx).take n ++ (c :: tx).drop n)
        rwa [List.append_assoc, List.take_append_drop]
    next => simp at hstep
  next =>
    split at hstep
    next hclosed =>
      -- the read returns 0, and the slot is closed
      obtain ⟨receiver, -, rfl⟩ := Option.map_eq_some_iff.mp hstep
      intro hactive
      have hfalse : (x.server.clients slot).isActive = true := hactive
      simp [hclosed.2] at hfalse
    next => simp at hstep
  next => simp at hstep

/-- The call of `receive_file` that has returned had the whole reply. -/
theorem Answered.next (h : Answered slot x)
    (hstep : exchangeStep slot capacity x .next = some y) : Answered slot y := by
  simp only [exchangeStep] at hstep
  split at hstep
  next code size hreceiver =>
    rw [Option.some.injEq] at hstep
    subst hstep
    intro hactive
    obtain ⟨hanswering, hcodes⟩ := h hactive
    cases hanswering with
    | idle hidle => simp [hreceiver] at hidle
    | asked hheader => simp [hreceiver] at hheader
    | serving f old t hrx hsplit hold hsender hbusy hcount =>
      rw [hreceiver] at hbusy
      obtain ⟨rfl, -, hconsumed⟩ := hbusy
      -- the client has read all that the thread has written
      have htx : x.tx = [] := hsender.eq_nil_of_complete hconsumed
      refine ⟨.idle rfl hrx htx ?_ hcount, ?_⟩
      · rw [hconsumed, htx, List.append_nil] at hsender
        show AllSent x.server.threads
        rw [hsplit]
        exact hold.snoc hsender.done
      · intro r hr
        rcases List.mem_append.mp hr with hr | hr
        · exact hcodes r hr
        · rw [List.mem_singleton] at hr
          rw [hr]
  next => simp at hstep

theorem Answered.step (h : Answered slot x) {a : ExchangeAction} (hguard : Answers x a)
    (hstep : exchangeStep slot capacity x a = some y) : Answered slot y := by
  cases a with
  | get => exact h.get hstep
  | serve starts => exact h.serve hguard hstep
  | drop =>
    simp only [exchangeStep, Option.some.injEq] at hstep
    subst hstep
    intro hactive
    have hclosed := closeClientConnection_isActive x.server slot
    exact absurd hactive (by simp [hclosed])
  | thread k a fileFd => exact h.thread hguard hstep
  | read n => exact h.read hstep
  | next => exact h.next hstep

end Step

/-! ## Runs -/

/-- Where the server is answering, the client is not blocked. -/
theorem Answering.not_blocked {slot : Fin maxClients} {x : Exchange} (h : Answering x) :
    ¬ Blocked slot x := by
  intro hblocked
  have hwaiting := hblocked.waiting
  cases h with
  | idle hidle =>
    rw [hidle] at hwaiting
    exact hwaiting
  | asked _ _ hrx => exact hrx hblocked.consumed
  | serving f old t _ hsplit _ hsender hbusy =>
    -- the thread has ended behind the whole reply, so that `receive_file` has it
    have hended : t.pos = .ended := hblocked.threads t (by simp [hsplit])
    rw [hended, hblocked.empty, List.append_nil] at hsender
    have hconsumed : x.consumed = replyBytes f := hsender
    have hlen : x.consumed.length = (headerLine f).length + 1 + f.content.length := by
      rw [hconsumed, replyBytes, sizeHeader_eq, List.length_append, List.length_append,
        List.length_singleton]
    cases hreceiver : x.receiver with
    | idle | returned _ _ =>
      rw [hreceiver] at hwaiting
      exact hwaiting
    | header got =>
      rw [hreceiver] at hbusy
      have := hbusy.2
      omega
    | body size received =>
      rw [hreceiver] at hbusy
      obtain ⟨-, hlt, hread⟩ := hbusy
      rw [sizeHeader_eq, List.length_append, List.length_singleton] at hread
      omega

/-- In every run in which the server answers, the client never waits for a reply that nobody
sends. While the slot is active, every line that has been read has started its own thread, and
every call of `receive_file` that has returned has received a whole reply. -/
theorem answered_of_run {slot : Fin maxClients} {capacity : ℕ} {server : Server}
    (hserver : server.threads = []) (names : List Text) {tr : List (Exchange × ExchangeAction)}
    {x : Exchange} (hrun : Run (exchangeStep slot capacity) (.init server names) tr x)
    (hmeet : StepsMeet Answers tr) :
    ¬ Blocked slot x ∧
      ((x.server.clients slot).isActive →
        (x.rx = [] → x.server.threads.length = x.sent) ∧ ∀ r ∈ x.replies, r.code = 0) := by
  have hanswered : Answered slot x :=
    hrun.invariant (I := Answered slot) (Answered.init hserver names)
      (fun _ _ _ ht hguard hstep => ht.step hguard hstep) hmeet
  refine ⟨fun hblocked => (hanswered hblocked.hasWriter).1.not_blocked hblocked, ?_⟩
  intro hactive
  obtain ⟨hanswering, hcodes⟩ := hanswered hactive
  refine ⟨fun hrx => ?_, hcodes⟩
  cases hanswering with
  | idle _ _ _ _ hcount => exact hcount
  | asked _ _ hline => exact absurd hrx hline
  | serving _ _ _ _ _ _ _ _ hcount => exact hcount

/-! ## A `GET` without an answer -/

/-- Once the client is blocked, nothing happens until the server closes the slot. -/
theorem Blocked.stuck {slot : Fin maxClients} {capacity : ℕ} {x y : Exchange} {a : ExchangeAction}
    (h : Blocked slot x) (hstep : exchangeStep slot capacity x a = some y) : a = .drop := by
  have hwaiting := h.waiting
  cases a with
  | drop => rfl
  | get | next => cases hreceiver : x.receiver <;> simp_all [exchangeStep, InRead]
  | serve starts => simp [exchangeStep, h.consumed] at hstep
  | thread k a fileFd =>
    simp only [exchangeStep] at hstep
    split at hstep
    next =>
      split at hstep
      next => simp at hstep
      next server bytes hserver =>
        -- all threads have ended
        obtain ⟨t, t', hk, hsend, -⟩ := stepThread_cases hserver
        rw [h.threads t (List.mem_of_getElem? hk)] at hsend
        simp at hsend
    next => simp at hstep
  | read n =>
    have hactive := h.hasWriter
    cases hreceiver : x.receiver <;> simp [exchangeStep, hreceiver, h.empty, hactive] at hstep

/-- In a run in which the server has answered so far, a line that starts no thread and does not
close the slot leaves the client blocked. -/
theorem blocked_of_unanswered {slot : Fin maxClients} {capacity : ℕ} {server : Server}
    (hserver : server.threads = []) (names : List Text) {tr : List (Exchange × ExchangeAction)}
    {x y : Exchange} (hrun : Run (exchangeStep slot capacity) (.init server names) tr x)
    (hmeet : StepsMeet Answers tr) {starts : ℕ → Text → Bool}
    (hended : ∀ t ∈ x.server.threads, t.pos = .ended)
    (hdis : ¬ Disconnects (commandsOf (x.rx.take bufferBytes)))
    (hno : ∀ d ∈ commandsOf (x.rx.take bufferBytes),
      ¬ StartsThread starts x.server.threads.length d)
    (hstep : exchangeStep slot capacity x (.serve starts) = some y) : Blocked slot y := by
  have hanswered : Answered slot x :=
    hrun.invariant (I := Answered slot) (Answered.init hserver names)
      (fun _ _ _ ht hguard hstep => ht.step hguard hstep) hmeet
  simp only [exchangeStep] at hstep
  split at hstep
  next hserve =>
    rw [Option.some.injEq] at hstep
    subst hstep
    -- none of the commands changes the server
    have hsame : x.server.processBuffer starts slot (x.rx.take bufferBytes) = x.server := by
      rw [Server.processBuffer_eq_foldl, foldl_others hdis hno]
    simp only [hsame]
    cases (hanswered hserve.2).1 with
    | idle _ hempty => exact absurd hempty hserve.1
    | serving _ _ _ hempty => exact absurd hempty hserve.1
    | asked hreceiver _ _ hfits htx =>
      exact {
        waiting := by
          show InRead x.receiver
          rw [hreceiver]
          trivial
        empty := htx
        hasWriter := hserve.2
        consumed := List.drop_eq_nil_of_le hfits
        threads := hended }
  next => simp at hstep

/-- Each line is a `GET` of its own that gets its thread, and no thread gives up. -/
private def onlyGets (x : Exchange) : ExchangeAction → Bool
  | .serve starts =>
      match commandsOf (x.rx.take bufferBytes) with
      | [command] =>
          match requestOf (commandCopy command) with
          | .get filename => starts x.server.threads.length filename
          | _ => false
      | _ => false
  | .thread k a _ => (x.server.threads[k]?).all fun t => steady t.pos a
  | _ => true

private theorem answers_of_onlyGets {x : Exchange} {a : ExchangeAction} (h : onlyGets x a) :
    Answers x a := by
  cases a with
  | serve starts =>
    simp only [onlyGets] at h
    split at h
    next command hcommands =>
      split at h
      next filename hget =>
        refine Or.inl ⟨[], command, [], hcommands, ⟨filename, hget, h⟩, ?_, ?_⟩ <;> simp
      next => simp at h
    next => simp at h
  | thread k a fileFd =>
    intro t ht
    have hthread : x.server.threads[k]? = some t := ht
    simpa [onlyGets, hthread] using h
  | _ => trivial

private theorem one_file_executes :
    (execute (exchangeStep 0 65536) onlyGets (.init oneClient [['f']])
      ([ExchangeAction.get, .serve fun _ _ => true, .thread 0 (.openFile 1) 8,
        .thread 0 (.writeHeader true) 0] ++ List.replicate 7 (ExchangeAction.read 1) ++
        [ExchangeAction.thread 0 (.sendChunk ['x'] true) 0, .thread 0 .finish 0, .read 1,
          .next])).isSome = true := by
  decide +kernel

/-- `answered_of_run` for a file of one byte. -/
theorem answered_one_file :
    ∃ tr x, Run (exchangeStep 0 65536) (.init oneClient [['f']]) tr x ∧ ¬ Blocked 0 x ∧
      x.replies.length = 1 ∧ ∀ r ∈ x.replies, r.code = 0 := by
  obtain ⟨tr, h, hmeet⟩ := exists_run_of_isSome one_file_executes
  have hanswers : StepsMeet Answers tr := hmeet.mono fun x a h => answers_of_onlyGets h
  obtain ⟨hblocked, hactive⟩ := answered_of_run (by decide +kernel) [['f']] h hanswers
  exact ⟨tr, _, h, hblocked, by decide +kernel, (hactive (by decide +kernel)).2⟩

private theorem missing_file_executes :
    (execute (exchangeStep 0 65536) (fun _ _ => true) (.init oneClient [['f']])
      [.get, .serve fun _ _ => false]).isSome = true := by
  decide +kernel

/-- A client that asks for a file that does not exist waits for a reply that nobody sends. -/
theorem blocked_missing_file :
    ∃ tr x, Run (exchangeStep 0 65536) (.init oneClient [['f']]) tr x ∧ Blocked 0 x := by
  obtain ⟨tr, h, -⟩ := exists_run_of_isSome missing_file_executes
  refine ⟨tr, _, h, ?_⟩
  have hreceiver : ((execute (exchangeStep 0 65536) (fun _ _ => true) (.init oneClient [['f']])
      [.get, .serve fun _ _ => false]).get missing_file_executes).receiver = .header [] := by
    decide +kernel
  exact {
    waiting := by
      rw [hreceiver]
      trivial
    empty := by decide +kernel
    hasWriter := by decide +kernel
    consumed := by decide +kernel
    threads := by decide +kernel }

end FileServer
