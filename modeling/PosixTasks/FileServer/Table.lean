import PosixTasks.FileServer.Sender

/-!
# The table of clients

`clients` has `MAX_CLIENTS` slots. A client that registers takes the first free slot, two
descriptors of the process and an entry in the epoll set; closing its connection gives all
three back. The descriptor table is shared with the threads that send files.

The kernel drops a closed descriptor from the epoll set by itself; the model does not, so that
the set is what the calls of `epoll_ctl` make it.

## Main results

* `registerNewClient_failed`: a registration that returns -1 leaves no trace;
* `Consistent.of_reachable`: slots, descriptors and epoll set agree in every reachable state.
-/

namespace FileServer

open CString Lines Transition

/-- What an open descriptor refers to. FIFOs are told apart by their inodes. -/
inductive Handle where
  /-- the server FIFO, the epoll instance, the log and the standard streams -/
  | own
  | tx (inode : ℕ)
  | rx (inode : ℕ)
  /-- the file that the thread with this number reads -/
  | file (thread : ℕ)
  deriving DecidableEq, Repr

/-- `ClientInfo`. -/
structure ClientInfo where
  clientId : ℤ
  txFd : ℤ
  rxFd : ℤ
  txPath : Text
  rxPath : Text
  isActive : Bool
  deriving DecidableEq, Repr

/-- A `ClientInfo` of zero bytes. -/
def ClientInfo.zero : ClientInfo :=
  { clientId := 0, txFd := 0, rxFd := 0, txPath := [], rxPath := [], isActive := false }

/-- A free slot, as `main` and `close_client_connection` leave it. -/
def ClientInfo.blank : ClientInfo :=
  { ClientInfo.zero with clientId := -1, txFd := -1, rxFd := -1 }

/-- A thread in `send_file_to_client`. -/
structure Thread where
  /-- `task->client_fd` -/
  clientFd : ℤ
  /-- `task->filename` -/
  filename : Text
  /-- The descriptor of `file`, while it is open. -/
  file : Option ℤ
  pos : SenderPos
  /-- History: what `client_fd` referred to when the thread was started. -/
  owner : Option Handle
  deriving DecidableEq, Repr

/-- The server between two calls. -/
structure Server where
  clients : Fin maxClients → ClientInfo
  /-- The open descriptors of the process. -/
  descriptors : ℤ → Option Handle
  /-- The epoll set: `data.u32` of each descriptor in it. -/
  epoll : ℤ → Option UInt32
  /-- The threads started so far. -/
  threads : List Thread

namespace Server

variable (s : Server)

/-- `close(fd)`. -/
def close (fd : ℤ) : Server :=
  { s with descriptors := Function.update s.descriptors fd none }

/-- A successful `open` that returns `fd`. -/
def opened (fd : ℤ) (h : Handle) : Server :=
  { s with descriptors := Function.update s.descriptors fd (some h) }

/-- `epoll_ctl(epoll_fd, EPOLL_CTL_ADD, fd, &ev)`. -/
def epollAdd (fd : ℤ) (data : UInt32) : Server :=
  { s with epoll := Function.update s.epoll fd (some data) }

/-- `epoll_ctl(epoll_fd, EPOLL_CTL_DEL, fd, NULL)`; it fails without effect if `fd` is not in the
set. -/
def epollDel (fd : ℤ) : Server :=
  { s with epoll := Function.update s.epoll fd none }

/-- A write to `clients[i]`. -/
def setClient (i : Fin maxClients) (c : ClientInfo) : Server :=
  { s with clients := Function.update s.clients i c }

/-- `find_free_client_slot`. -/
def findFreeClientSlot : Option (Fin maxClients) :=
  (List.finRange maxClients).find? fun i => ! (s.clients i).isActive

/-- `close_client_connection`. -/
def closeClientConnection (i : Fin maxClients) : Server :=
  let c := s.clients i
  if c.isActive then
    let s := if c.rxFd ≠ -1 then s.epollDel c.rxFd else s
    let s := if c.txFd ≠ -1 then s.close c.txFd else s
    let s := if c.rxFd ≠ -1 then s.close c.rxFd else s
    s.setClient i ClientInfo.blank
  else s

/-- The thread that a `GET` of the client in slot `i` starts. -/
def newThread (i : Fin maxClients) (filename : Text) : Thread where
  clientFd := (s.clients i).txFd
  filename := filename
  file := none
  pos := .opening
  owner := s.descriptors (s.clients i).txFd

/-- `process_client_command`. `starts` tells whether a `GET` gets its thread, where that many
threads have been started before: the file exists, and `malloc` and `pthread_create` succeed. -/
def processClientCommand (starts : ℕ → Text → Bool) (i : Fin maxClients) (command : Text) :
    Server :=
  if (s.clients i).isActive then
    match requestOf (commandCopy command) with
    | .disconnect => s.closeClientConnection i
    | .get filename =>
        if starts s.threads.length filename then
          { s with threads := s.threads ++ [s.newThread i filename] }
        else s
    | .invalidGet | .unknown => s
  else s

/-- The loop over the lines of a buffer with data from the client in slot `i`. -/
def processBuffer (starts : ℕ → Text → Bool) (i : Fin maxClients) (buffer : Text) : Server :=
  let lines := split '\n' (ofBuffer buffer)
  let s := lines.1.foldl
    (fun s line => if line ≠ [] then s.processClientCommand starts i line else s) s
  if lines.2 ≠ [] then s.processClientCommand starts i lines.2 else s

end Server

/-- What the calls in `register_new_client` return. -/
structure RegisterOutcome where
  /-- The descriptor of the tx FIFO and its inode, unless `open` fails. -/
  txOpen : Option (ℕ × ℕ)
  /-- The same for the rx FIFO. -/
  rxOpen : Option (ℕ × ℕ)
  /-- `epoll_ctl` succeeds. -/
  added : Bool
  /-- The `ACK` is written. -/
  acked : Bool
  /-- What the read at the end finds; nothing for `EAGAIN`, end of file and errors. -/
  pending : Text
  starts : ℕ → Text → Bool

namespace Server

variable (s : Server)

/-- The slot of a client that registers. -/
def registered (i : Fin maxClients) (tx rx : ℕ) (txPath rxPath : Text) : ClientInfo where
  clientId := i
  txFd := tx
  rxFd := rx
  txPath := txPath.take pathBytes
  rxPath := rxPath.take pathBytes
  isActive := true

/-- `register_new_client` from the point where both FIFOs are open. -/
def activate (i : Fin maxClients) (txPath rxPath : Text) (tx rx : ℕ) (o : RegisterOutcome) :
    ℤ × Server :=
  let s := s.setClient i (registered i tx rx txPath rxPath)
  if o.added then
    let s := s.epollAdd rx (UInt32.ofNat i)
    if o.acked then (0, s.processBuffer o.starts i o.pending)
    else (-1, s.closeClientConnection i)
  else (-1, s.closeClientConnection i)

/-- `register_new_client`, with its result. -/
def registerNewClient (txPath rxPath : Text) (o : RegisterOutcome) : ℤ × Server :=
  match s.findFreeClientSlot with
  | none => (-1, s)
  | some i =>
    match o.txOpen with
    | none => (-1, s)
    | some (tx, txInode) =>
      let s := s.opened tx (.tx txInode)
      match o.rxOpen with
      | none => (-1, s.close tx)
      | some (rx, rxInode) =>
          (s.opened rx (.rx rxInode)).activate i txPath rxPath tx rx o

/-- The descriptors that the two `open`s return are not in use. -/
def Fresh (o : RegisterOutcome) : Prop :=
  (∀ x ∈ o.txOpen, s.descriptors x.1 = none) ∧
    (∀ x ∈ o.rxOpen, s.descriptors x.1 = none) ∧
    ∀ x ∈ o.txOpen, ∀ y ∈ o.rxOpen, x.1 ≠ y.1

instance (o : RegisterOutcome) : Decidable (s.Fresh o) :=
  inferInstanceAs (Decidable (_ ∧ _ ∧ _))

/-- The server after the initialisation in `main`: the descriptors in `own` and the server FIFO
are open, and the server FIFO is in the epoll set with data 0. -/
def init (own : List ℕ) (serverFifo : ℕ) : Server where
  clients _ := { ClientInfo.zero with clientId := -1, txFd := -1, rxFd := -1, isActive := false }
  descriptors fd := if fd = serverFifo ∨ ∃ n ∈ own, fd = (n : ℤ) then some .own else none
  epoll fd := if fd = serverFifo then some 0 else none
  threads := []

/-- The data of a thread when it takes a step; `pos` is its next position. -/
def moveThread (k : ℕ) (t : Thread) (pos : SenderPos) : Server :=
  match pos, t.file with
  | .ended, some fd =>
      { s.close fd with threads := s.threads.set k { t with file := none, pos := pos } }
  | _, _ => { s with threads := s.threads.set k { t with pos := pos } }

/-- A step of thread `k`, with the bytes it writes. `fopen` returns `fileFd`, and a write
succeeds only if the descriptor is that of a FIFO for writing. -/
def stepThread (k : ℕ) (a : SenderAction) (fileFd : ℕ) : Option (Server × Text) :=
  match s.threads[k]? with
  | none => none
  | some t =>
    match senderStep t.pos a with
    | none => none
    | some (pos, bytes) =>
      match a with
      | .openFile _ =>
          if s.descriptors fileFd = none then
            some ({ s.opened fileFd (.file k) with
              threads := s.threads.set k { t with file := some fileFd, pos := pos } }, [])
          else none
      | _ =>
          if bytes = [] then some (s.moveThread k t pos, [])
          else
            match s.descriptors t.clientFd with
            | some (.tx _) => some (s.moveThread k t pos, bytes)
            | _ => none

end Server

/-- The calls that change the server. -/
inductive ServerAction where
  | register (txPath rxPath : Text) (o : RegisterOutcome)
  | command (i : Fin maxClients) (command : Text) (starts : ℕ → Text → Bool)
  /-- a read in the event loop is at end of file or fails -/
  | endOfFile (i : Fin maxClients)
  /-- the read of the periodic check is at end of file -/
  | periodicClose (i : Fin maxClients)
  /-- a step of a sending thread -/
  | thread (k : ℕ) (a : SenderAction) (fileFd : ℕ)

/-- One call. -/
def serverStep (s : Server) : ServerAction → Option Server
  | .register txPath rxPath o =>
      if s.Fresh o then some (s.registerNewClient txPath rxPath o).2 else none
  | .command i command starts => some (s.processClientCommand starts i command)
  | .endOfFile i => if (s.clients i).isActive then some (s.closeClientConnection i) else none
  | .periodicClose i => if (s.clients i).isActive then some (s.closeClientConnection i) else none
  | .thread k a fileFd => (s.stepThread k a fileFd).map Prod.fst

/-! ## Slots, descriptors and epoll set agree -/

/-- Slots, descriptors and epoll set agree, and the files that threads read are open. -/
structure Consistent (serverFifo : ℕ) (s : Server) : Prop where
  blank : ∀ i, (s.clients i).isActive = false → s.clients i = ClientInfo.blank
  clientId : ∀ i, (s.clients i).isActive → (s.clients i).clientId = i
  txOpen : ∀ i, (s.clients i).isActive →
    ∃ inode, s.descriptors (s.clients i).txFd = some (.tx inode)
  rxOpen : ∀ i, (s.clients i).isActive →
    ∃ inode, s.descriptors (s.clients i).rxFd = some (.rx inode)
  watched : ∀ i, (s.clients i).isActive →
    s.epoll (s.clients i).rxFd = some (UInt32.ofNat i)
  apart : ∀ i j, (s.clients i).isActive → (s.clients j).isActive → i ≠ j →
    (s.clients i).txFd ≠ (s.clients j).txFd ∧ (s.clients i).rxFd ≠ (s.clients j).rxFd
  origin : ∀ fd data, s.epoll fd = some data → (fd = serverFifo ∧ data = 0) ∨
    ∃ i, (s.clients i).isActive ∧ fd = (s.clients i).rxFd ∧ data = UInt32.ofNat i
  serverOpen : s.descriptors serverFifo = some .own
  negative : s.descriptors (-1) = none
  files : ∀ (k : ℕ) t, s.threads[k]? = some t → ∀ fd ∈ t.file, s.descriptors fd = some (.file k)

namespace Consistent

variable {serverFifo : ℕ} {s : Server} {i : Fin maxClients}

/-- Whatever is in the epoll set is open. -/
theorem open_of_epoll (h : Consistent serverFifo s) {fd : ℤ} (hfd : (s.epoll fd).isSome) :
    (s.descriptors fd).isSome := by
  obtain ⟨data, hdata⟩ := Option.isSome_iff_exists.mp hfd
  rcases h.origin fd data hdata with ⟨rfl, -⟩ | ⟨i, hi, rfl, -⟩
  · rw [h.serverOpen, Option.isSome_some]
  · obtain ⟨inode, hrx⟩ := h.rxOpen i hi
    rw [hrx, Option.isSome_some]

/-- A descriptor that is not in use is not in the epoll set. -/
theorem epoll_of_unused (h : Consistent serverFifo s) {fd : ℤ} (hfd : s.descriptors fd = none) :
    s.epoll fd = none := by
  by_contra hne
  have := h.open_of_epoll (Option.isSome_iff_ne_none.mpr hne)
  rw [hfd] at this
  exact Bool.noConfusion this

theorem txFd_ne (h : Consistent serverFifo s) (hi : (s.clients i).isActive) :
    (s.clients i).txFd ≠ -1 := by
  intro heq
  obtain ⟨inode, htx⟩ := h.txOpen i hi
  rw [heq, h.negative] at htx
  simp at htx

theorem rxFd_ne (h : Consistent serverFifo s) (hi : (s.clients i).isActive) :
    (s.clients i).rxFd ≠ -1 := by
  intro heq
  obtain ⟨inode, hrx⟩ := h.rxOpen i hi
  rw [heq, h.negative] at hrx
  simp at hrx

end Consistent

/-- What `close_client_connection` does to an active slot with two descriptors. -/
theorem closeClientConnection_eq {s : Server} {i : Fin maxClients} (hi : (s.clients i).isActive)
    (htx : (s.clients i).txFd ≠ -1) (hrx : (s.clients i).rxFd ≠ -1) :
    s.closeClientConnection i =
      { s with
        clients := Function.update s.clients i ClientInfo.blank
        descriptors := Function.update (Function.update s.descriptors (s.clients i).txFd none)
          (s.clients i).rxFd none
        epoll := Function.update s.epoll (s.clients i).rxFd none } := by
  simp only [Server.closeClientConnection, hi, if_true, ne_eq, htx, hrx, not_false_eq_true]
  rfl

theorem closeClientConnection_of_inactive {s : Server} {i : Fin maxClients}
    (hi : (s.clients i).isActive = false) : s.closeClientConnection i = s := by
  simp [Server.closeClientConnection, hi]

/-- What every command keeps is kept by a buffer of commands. -/
theorem processBuffer_keeps {I : Server → Prop} {starts : ℕ → Text → Bool} {i : Fin maxClients}
    (hcommand : ∀ s command, I s → I (s.processClientCommand starts i command)) {s : Server}
    (h : I s) (buffer : Text) : I (s.processBuffer starts i buffer) := by
  have hfold : ∀ (lines : List Text) (s : Server), I s → I (lines.foldl
      (fun s line => if line ≠ [] then s.processClientCommand starts i line else s) s) := by
    intro lines
    induction lines with
    | nil => exact fun s hs => hs
    | cons line lines ih =>
      intro s hs
      rw [List.foldl_cons]
      apply ih
      split
      · exact hcommand s line hs
      · exact hs
  simp only [Server.processBuffer]
  split
  · exact hcommand _ _ (hfold _ s h)
  · exact hfold _ s h

/-- A descriptor that neither the server itself, nor a slot, nor a thread with a file counts on. -/
structure Unclaimed (serverFifo : ℕ) (s : Server) (fd : ℤ) : Prop where
  server : fd ≠ serverFifo
  slots : ∀ i, (s.clients i).isActive → fd ≠ (s.clients i).txFd ∧ fd ≠ (s.clients i).rxFd
  files : ∀ (k : ℕ) t, s.threads[k]? = some t → fd ∉ t.file

/-- The server without the client in slot `i`, before its descriptors are closed. -/
def Server.dropSlot (s : Server) (i : Fin maxClients) : Server :=
  { s with
    clients := Function.update s.clients i ClientInfo.blank
    epoll := Function.update s.epoll (s.clients i).rxFd none }

theorem Server.dropSlot_self {s : Server} {i : Fin maxClients} :
    (s.dropSlot i).clients i = ClientInfo.blank :=
  Function.update_self i _ s.clients

theorem Server.dropSlot_of_ne {s : Server} {i j : Fin maxClients} (h : j ≠ i) :
    (s.dropSlot i).clients j = s.clients j :=
  Function.update_of_ne h _ s.clients

/-- The server with a new client in slot `i`, before its `ACK` is written. -/
def Server.takeSlot (s : Server) (i : Fin maxClients) (txPath rxPath : Text) (tx rx : ℕ) : Server :=
  (s.setClient i (Server.registered i tx rx txPath rxPath)).epollAdd rx (UInt32.ofNat i)

namespace Consistent

variable {serverFifo : ℕ} {s : Server} {i : Fin maxClients}

theorem unclaimed_of_unused (h : Consistent serverFifo s) {fd : ℤ}
    (hfd : s.descriptors fd = none) : Unclaimed serverFifo s fd where
  server := by
    rintro rfl
    rw [h.serverOpen] at hfd
    simp at hfd
  slots j hj := by
    obtain ⟨_, htx⟩ := h.txOpen j hj
    obtain ⟨_, hrx⟩ := h.rxOpen j hj
    constructor
    · rintro rfl
      rw [htx] at hfd
      simp at hfd
    · rintro rfl
      rw [hrx] at hfd
      simp at hfd
  files k t ht hmem := by
    rw [h.files k t ht fd hmem] at hfd
    simp at hfd

/-- Only the descriptors that somebody counts on matter. -/
theorem setDescriptors (h : Consistent serverFifo s) {d : ℤ → Option Handle}
    (hkeep : ∀ fd, ¬ Unclaimed serverFifo s fd → d fd = s.descriptors fd) (hneg : d (-1) = none) :
    Consistent serverFifo { s with descriptors := d } where
  blank := h.blank
  clientId := h.clientId
  txOpen j hj := by
    obtain ⟨inode, htx⟩ := h.txOpen j hj
    exact ⟨inode, (hkeep _ fun hu => (hu.slots j hj).1 rfl).trans htx⟩
  rxOpen j hj := by
    obtain ⟨inode, hrx⟩ := h.rxOpen j hj
    exact ⟨inode, (hkeep _ fun hu => (hu.slots j hj).2 rfl).trans hrx⟩
  watched := h.watched
  apart := h.apart
  origin := h.origin
  serverOpen := (hkeep _ fun hu => hu.server rfl).trans h.serverOpen
  negative := hneg
  files k t ht fd hfd := (hkeep _ fun hu => hu.files k t ht hfd).trans (h.files k t ht fd hfd)

/-- `open` takes a descriptor that is not in use. -/
theorem opened (h : Consistent serverFifo s) {fd : ℕ} (hfd : s.descriptors fd = none) (x : Handle) :
    Consistent serverFifo (s.opened fd x) := by
  apply h.setDescriptors
  · intro fd' hclaimed
    refine Function.update_of_ne ?_ _ _
    rintro rfl
    exact hclaimed (h.unclaimed_of_unused hfd)
  · rw [Function.update_of_ne (by omega)]
    exact h.negative

/-- A descriptor nobody counts on can be closed. -/
theorem close (h : Consistent serverFifo s) {fd : ℤ} (hfd : Unclaimed serverFifo s fd) :
    Consistent serverFifo (s.close fd) := by
  apply h.setDescriptors
  · intro fd' hclaimed
    refine Function.update_of_ne ?_ _ _
    rintro rfl
    exact hclaimed hfd
  · rw [Function.update_apply, h.negative, ite_self]

/-- A slot can be given up with its entry in the epoll set. -/
theorem dropSlot (h : Consistent serverFifo s) (hi : (s.clients i).isActive) :
    Consistent serverFifo (s.dropSlot i) := by
  -- a slot that is still active is another one
  have hother : ∀ j, ((s.dropSlot i).clients j).isActive →
      j ≠ i ∧ (s.clients j).isActive ∧ (s.dropSlot i).clients j = s.clients j := by
    intro j hj
    rcases eq_or_ne j i with rfl | hji
    · rw [Server.dropSlot_self] at hj
      exact Bool.noConfusion hj
    · rw [Server.dropSlot_of_ne hji] at hj ⊢
      exact ⟨hji, hj, rfl⟩
  exact {
    blank := by
      intro j hj
      rcases eq_or_ne j i with rfl | hji
      · exact Server.dropSlot_self
      · rw [Server.dropSlot_of_ne hji] at hj ⊢
        exact h.blank j hj
    clientId := by
      intro j hj
      obtain ⟨-, hact, heq⟩ := hother j hj
      rw [heq]
      exact h.clientId j hact
    txOpen := by
      intro j hj
      obtain ⟨-, hact, heq⟩ := hother j hj
      rw [heq]
      exact h.txOpen j hact
    rxOpen := by
      intro j hj
      obtain ⟨-, hact, heq⟩ := hother j hj
      rw [heq]
      exact h.rxOpen j hact
    watched := by
      intro j hj
      obtain ⟨hji, hact, heq⟩ := hother j hj
      rw [heq]
      exact (Function.update_of_ne (h.apart j i hact hi hji).2 _ s.epoll).trans (h.watched j hact)
    apart := by
      intro j k hj hk hjk
      obtain ⟨-, hactj, heqj⟩ := hother j hj
      obtain ⟨-, hactk, heqk⟩ := hother k hk
      rw [heqj, heqk]
      exact h.apart j k hactj hactk hjk
    origin := by
      intro fd data hfd
      simp only [Server.dropSlot, Function.update_apply] at hfd
      split at hfd
      next => simp at hfd
      next hne =>
        rcases h.origin fd data hfd with hserver | ⟨j, hact, rfl, hdata⟩
        · exact Or.inl hserver
        · have hji : j ≠ i := by
            rintro rfl
            exact hne rfl
          refine Or.inr ⟨j, ?_⟩
          rw [Server.dropSlot_of_ne hji]
          exact ⟨hact, rfl, hdata⟩
    serverOpen := h.serverOpen
    negative := h.negative
    files := h.files }

/-- Nobody counts on the descriptors of a slot that is given up: a descriptor is of one kind, and
no two slots share one. -/
theorem unclaimed_dropSlot (h : Consistent serverFifo s) (hi : (s.clients i).isActive) :
    Unclaimed serverFifo (s.dropSlot i) (s.clients i).txFd ∧
      Unclaimed serverFifo (s.dropSlot i) (s.clients i).rxFd := by
  obtain ⟨txInode, htx⟩ := h.txOpen i hi
  obtain ⟨rxInode, hrx⟩ := h.rxOpen i hi
  have hslot : ∀ j, ((s.dropSlot i).clients j).isActive →
      ((s.clients i).txFd ≠ ((s.dropSlot i).clients j).txFd ∧
        (s.clients i).txFd ≠ ((s.dropSlot i).clients j).rxFd) ∧
      (s.clients i).rxFd ≠ ((s.dropSlot i).clients j).txFd ∧
        (s.clients i).rxFd ≠ ((s.dropSlot i).clients j).rxFd := by
    intro j hj
    rcases eq_or_ne j i with rfl | hji
    · rw [Server.dropSlot_self] at hj
      exact Bool.noConfusion hj
    · rw [Server.dropSlot_of_ne hji] at hj ⊢
      obtain ⟨_, htx'⟩ := h.txOpen j hj
      obtain ⟨_, hrx'⟩ := h.rxOpen j hj
      -- one is a tx and the other an rx FIFO, or the two slots would share one
      have hapart := h.apart j i hj hi hji
      refine ⟨⟨hapart.1.symm, fun heq => ?_⟩, fun heq => ?_, hapart.2.symm⟩
      · simp [heq, hrx'] at htx
      · simp [heq, htx'] at hrx
  exact ⟨{
    server := fun heq => by simp [heq, h.serverOpen] at htx
    slots := fun j hj => (hslot j hj).1
    files := fun k t ht hmem => by simp [h.files k t ht _ hmem] at htx }, {
    server := fun heq => by simp [heq, h.serverOpen] at hrx
    slots := fun j hj => (hslot j hj).2
    files := fun k t ht hmem => by simp [h.files k t ht _ hmem] at hrx }⟩

/-- Closing a connection frees the slot, its descriptors and its entry in the epoll set. -/
theorem closeClientConnection (h : Consistent serverFifo s) (i : Fin maxClients) :
    Consistent serverFifo (s.closeClientConnection i) := by
  by_cases hi : (s.clients i).isActive
  -- a slot that is not active is left alone
  swap
  · rwa [closeClientConnection_of_inactive (by simpa using hi)]
  rw [closeClientConnection_eq hi (h.txFd_ne hi) (h.rxFd_ne hi)]
  obtain ⟨htx, hrx⟩ := h.unclaimed_dropSlot hi
  apply (h.dropSlot hi).setDescriptors
  · intro fd hclaimed
    -- a descriptor that somebody counts on is none of the two that are closed
    have hnetx : fd ≠ (s.clients i).txFd := fun heq => hclaimed (heq ▸ htx)
    have hnerx : fd ≠ (s.clients i).rxFd := fun heq => hclaimed (heq ▸ hrx)
    rw [Function.update_of_ne hnerx, Function.update_of_ne hnetx]
    rfl
  · rw [Function.update_of_ne (h.rxFd_ne hi).symm, Function.update_of_ne (h.txFd_ne hi).symm]
    exact h.negative

/-- A free slot can take a client with two descriptors that nobody else counts on. -/
theorem takeSlot (h : Consistent serverFifo s) (hi : (s.clients i).isActive = false) {tx rx : ℕ}
    {txInode rxInode : ℕ} (htx : s.descriptors tx = some (.tx txInode))
    (hrx : s.descriptors rx = some (.rx rxInode)) (hutx : Unclaimed serverFifo s tx)
    (hurx : Unclaimed serverFifo s rx) (txPath rxPath : Text) :
    Consistent serverFifo (s.takeSlot i txPath rxPath tx rx) := by
  have hself : (s.takeSlot i txPath rxPath tx rx).clients i
      = Server.registered i tx rx txPath rxPath :=
    Function.update_self i _ s.clients
  -- an active slot is the one taken, or it was active before
  have hslot : ∀ j, ((s.takeSlot i txPath rxPath tx rx).clients j).isActive →
      j = i ∨ j ≠ i ∧ (s.clients j).isActive ∧
        (s.takeSlot i txPath rxPath tx rx).clients j = s.clients j := by
    intro j hj
    refine or_iff_not_imp_left.mpr fun hji => ?_
    have heq : (s.takeSlot i txPath rxPath tx rx).clients j = s.clients j :=
      Function.update_of_ne hji _ s.clients
    rw [heq] at hj
    exact ⟨hji, hj, heq⟩
  have hepoll : ∀ fd : ℤ, fd ≠ rx → (s.takeSlot i txPath rxPath tx rx).epoll fd = s.epoll fd :=
    fun fd hfd => Function.update_of_ne hfd _ s.epoll
  exact {
    blank := by
      intro j hj
      have hji : j ≠ i := by
        rintro rfl
        rw [hself] at hj
        exact Bool.noConfusion hj
      have heq : (s.takeSlot i txPath rxPath tx rx).clients j = s.clients j :=
        Function.update_of_ne hji _ s.clients
      rw [heq] at hj ⊢
      exact h.blank j hj
    clientId := by
      intro j hj
      rcases hslot j hj with rfl | ⟨-, hact, heq⟩
      · rw [hself]
        rfl
      · rw [heq]
        exact h.clientId j hact
    txOpen := by
      intro j hj
      rcases hslot j hj with rfl | ⟨-, hact, heq⟩
      · rw [hself]
        exact ⟨txInode, htx⟩
      · rw [heq]
        exact h.txOpen j hact
    rxOpen := by
      intro j hj
      rcases hslot j hj with rfl | ⟨-, hact, heq⟩
      · rw [hself]
        exact ⟨rxInode, hrx⟩
      · rw [heq]
        exact h.rxOpen j hact
    watched := by
      intro j hj
      rcases hslot j hj with rfl | ⟨-, hact, heq⟩
      · rw [hself]
        exact Function.update_self _ _ s.epoll
      · rw [heq, hepoll _ (hurx.slots j hact).2.symm]
        exact h.watched j hact
    apart := by
      intro j k hj hk hjk
      rcases hslot j hj with rfl | ⟨-, hactj, heqj⟩
      · rcases hslot k hk with rfl | ⟨-, hactk, heqk⟩
        · exact absurd rfl hjk
        · rw [hself, heqk]
          exact ⟨(hutx.slots k hactk).1, (hurx.slots k hactk).2⟩
      · rcases hslot k hk with rfl | ⟨-, hactk, heqk⟩
        · rw [hself, heqj]
          exact ⟨(hutx.slots j hactj).1.symm, (hurx.slots j hactj).2.symm⟩
        · rw [heqj, heqk]
          exact h.apart j k hactj hactk hjk
    origin := by
      intro fd data hfd
      by_cases hfdrx : fd = rx
      · subst hfdrx
        refine Or.inr ⟨i, ?_⟩
        rw [hself]
        have hdata : Function.update s.epoll rx (some (UInt32.ofNat i)) (rx : ℤ) = some data := hfd
        rw [Function.update_self, Option.some.injEq] at hdata
        exact ⟨rfl, rfl, hdata.symm⟩
      · rw [hepoll fd hfdrx] at hfd
        rcases h.origin fd data hfd with hserver | ⟨j, hj, rfl, hdata⟩
        · exact Or.inl hserver
        · -- the slot taken was not active, so its old entry is none of them
          have hji : j ≠ i := by
            rintro rfl
            rw [hi] at hj
            exact Bool.noConfusion hj
          have heq : (s.takeSlot i txPath rxPath tx rx).clients j = s.clients j :=
            Function.update_of_ne hji _ s.clients
          refine Or.inr ⟨j, ?_⟩
          rw [heq]
          exact ⟨hj, rfl, hdata⟩
    serverOpen := h.serverOpen
    negative := h.negative
    files := h.files }

/-- Only the list of threads changes, by one without a file. -/
theorem newThread (h : Consistent serverFifo s) {t : Thread} (ht : t.file = none) :
    Consistent serverFifo { s with threads := s.threads ++ [t] } where
  blank := h.blank
  clientId := h.clientId
  txOpen := h.txOpen
  rxOpen := h.rxOpen
  watched := h.watched
  apart := h.apart
  origin := h.origin
  serverOpen := h.serverOpen
  negative := h.negative
  files k t' ht' fd hfd := by
    rw [List.getElem?_append] at ht'
    split at ht'
    · exact h.files k t' ht' fd hfd
    · -- the new thread has no file yet
      obtain rfl : t' = t := by
        have := List.mem_of_getElem? ht'
        simpa using this
      rw [ht] at hfd
      simp at hfd

theorem processClientCommand (h : Consistent serverFifo s) (starts : ℕ → Text → Bool)
    (i : Fin maxClients) (command : Text) :
    Consistent serverFifo (s.processClientCommand starts i command) := by
  unfold Server.processClientCommand
  split
  · split
    · exact h.closeClientConnection i
    · split
      · exact h.newThread rfl
      · exact h
    · exact h
    · exact h
  · exact h

theorem processBuffer (h : Consistent serverFifo s) (starts : ℕ → Text → Bool)
    (i : Fin maxClients) (buffer : Text) :
    Consistent serverFifo (s.processBuffer starts i buffer) :=
  processBuffer_keeps (fun _ command hs => hs.processClientCommand starts i command) h buffer

end Consistent

/-! ## A slot is left alone by the calls for the others -/

theorem closeClientConnection_clients_ne {s : Server} {i j : Fin maxClients} (hij : j ≠ i) :
    (s.closeClientConnection i).clients j = s.clients j := by
  simp only [Server.closeClientConnection]
  split
  · show Function.update _ i _ j = _
    rw [Function.update_of_ne hij]
    -- neither `epoll_ctl` nor `close` touches the table
    split <;> split <;> rfl
  · rfl

theorem processClientCommand_clients_ne {s : Server} {i j : Fin maxClients} (hij : j ≠ i)
    (starts : ℕ → Text → Bool) (command : Text) :
    (s.processClientCommand starts i command).clients j = s.clients j := by
  unfold Server.processClientCommand
  split
  · split
    · exact closeClientConnection_clients_ne hij
    · split <;> rfl
    · rfl
    · rfl
  · rfl

theorem processBuffer_clients_ne {s : Server} {i j : Fin maxClients} (hij : j ≠ i)
    (starts : ℕ → Text → Bool) (buffer : Text) :
    (s.processBuffer starts i buffer).clients j = s.clients j :=
  processBuffer_keeps (I := fun t => t.clients j = s.clients j)
    (fun _ command ht => (processClientCommand_clients_ne hij starts command).trans ht) rfl buffer

/-! ## Registration -/

/-- Closing a connection right after it was made leaves only its tx descriptor to be given
back. -/
theorem closeClientConnection_new {s t : Server} {i : Fin maxClients} {tx rx : ℕ} {c : ClientInfo}
    {y : Handle} (hblank : s.clients i = ClientInfo.blank) (hne : tx ≠ rx)
    (hrx : s.descriptors rx = none) (hepoll : s.epoll rx = none)
    (hc : c.isActive ∧ c.txFd = tx ∧ c.rxFd = rx)
    (hclients : t.clients = Function.update s.clients i c)
    (hdescriptors : t.descriptors = Function.update s.descriptors rx (some y))
    (hset : ∀ fd : ℤ, fd ≠ rx → t.epoll fd = s.epoll fd) (hthreads : t.threads = s.threads) :
    t.closeClientConnection i = s.close tx := by
  have hself : t.clients i = c := by rw [hclients, Function.update_self]
  obtain ⟨hact, hctx, hcrx⟩ := hc
  rw [closeClientConnection_eq (by rw [hself, hact]) (by rw [hself, hctx]; omega)
    (by rw [hself, hcrx]; omega)]
  rw [hself, hctx, hcrx]
  simp only [Server.close, Server.mk.injEq]
  refine ⟨?_, ?_, ?_, hthreads⟩
  · rw [hclients, Function.update_idem, ← hblank, Function.update_eq_self]
  · rw [hdescriptors]
    ext1 fd
    -- the rx descriptor is closed again, and the tx descriptor is what is left
    by_cases hfdrx : fd = rx
    · subst hfdrx
      rw [Function.update_self, Function.update_of_ne (by exact_mod_cast hne.symm), hrx]
    · rw [Function.update_of_ne hfdrx]
      by_cases hfdtx : fd = tx
      · subst hfdtx
        rw [Function.update_self, Function.update_self]
      · rw [Function.update_of_ne hfdtx, Function.update_of_ne hfdrx, Function.update_of_ne hfdtx]
  · ext1 fd
    by_cases hfdrx : fd = rx
    · subst hfdrx
      rw [Function.update_self]
      exact hepoll.symm
    · rw [Function.update_of_ne hfdrx]
      exact hset fd hfdrx

/-- With both FIFOs open `register_new_client` either closes both and returns -1, or the client
is in the slot and it returns 0. -/
theorem activate_cases {serverFifo : ℕ} {s : Server} (h : Consistent serverFifo s)
    {i : Fin maxClients} (hi : (s.clients i).isActive = false) {tx rx txInode : ℕ}
    (htx : s.descriptors tx = some (.tx txInode)) (hutx : Unclaimed serverFifo s tx)
    (hrx : s.descriptors rx = none) (rxInode : ℕ) (txPath rxPath : Text) (o : RegisterOutcome) :
    (s.opened rx (.rx rxInode)).activate i txPath rxPath tx rx o = (-1, s.close tx) ∨
      Consistent serverFifo ((s.opened rx (.rx rxInode)).takeSlot i txPath rxPath tx rx) ∧
        (s.opened rx (.rx rxInode)).activate i txPath rxPath tx rx o =
          (0, ((s.opened rx (.rx rxInode)).takeSlot i txPath rxPath tx rx).processBuffer
            o.starts i o.pending) := by
  have hne : tx ≠ rx := by
    rintro rfl
    rw [htx] at hrx
    simp at hrx
  have hblank := h.blank i hi
  have hepoll := h.epoll_of_unused hrx
  have hurx := h.unclaimed_of_unused hrx
  -- `epoll_ctl` succeeds or not, and then the `write` of the `ACK`
  simp only [Server.activate]
  split
  · split
    · refine Or.inr ⟨?_, rfl⟩
      apply (h.opened hrx (.rx rxInode)).takeSlot hi
      · show Function.update s.descriptors _ _ (tx : ℤ) = _
        rw [Function.update_of_ne (by exact_mod_cast hne), htx]
      · exact Function.update_self _ _ s.descriptors
      · exact ⟨hutx.server, hutx.slots, hutx.files⟩
      · exact ⟨hurx.server, hurx.slots, hurx.files⟩
    · -- the `ACK` cannot be written
      refine Or.inl (Prod.ext rfl ?_)
      exact closeClientConnection_new hblank hne hrx hepoll ⟨rfl, rfl, rfl⟩ rfl rfl
        (fun fd hfd => Function.update_of_ne hfd _ _) rfl
  · -- the rx FIFO is not in the epoll set yet
    refine Or.inl (Prod.ext rfl ?_)
    exact closeClientConnection_new hblank hne hrx hepoll ⟨rfl, rfl, rfl⟩ rfl rfl
      (fun fd hfd => rfl) rfl

theorem findFreeClientSlot_free {s : Server} {i : Fin maxClients}
    (h : s.findFreeClientSlot = some i) : (s.clients i).isActive = false := by
  have := List.find?_some h
  simpa using this

theorem close_opened {s : Server} {fd : ℤ} (hfd : s.descriptors fd = none) (x : Handle) :
    (s.opened fd x).close fd = s := by
  obtain ⟨clients, descriptors, epoll, threads⟩ := s
  simp only [Server.close, Server.opened, Function.update_idem, Server.mk.injEq, true_and,
    and_true]
  rw [Function.update_eq_iff]
  exact ⟨hfd.symm, fun _ _ => rfl⟩

/-- `register_new_client` returns -1 and has changed nothing, or it returns 0 and the client is
in a slot that was free. -/
theorem registerNewClient_cases {serverFifo : ℕ} {s : Server} (h : Consistent serverFifo s)
    {o : RegisterOutcome} (hfresh : s.Fresh o) (txPath rxPath : Text) :
    s.registerNewClient txPath rxPath o = (-1, s) ∨
      ∃ i t, s.findFreeClientSlot = some i ∧ Consistent serverFifo t ∧
        (∀ j, j ≠ i → t.clients j = s.clients j) ∧
        s.registerNewClient txPath rxPath o = (0, t.processBuffer o.starts i o.pending) := by
  obtain ⟨hfreshTx, hfreshRx, hdistinct⟩ := hfresh
  unfold Server.registerNewClient
  split
  · exact Or.inl rfl
  next i hslot =>
  split
  · exact Or.inl rfl
  next tx txInode htxOpen =>
  have htx : s.descriptors tx = none := hfreshTx (tx, txInode) htxOpen
  simp only []
  split
  · -- the rx FIFO cannot be opened: the tx FIFO is closed again
    exact Or.inl (Prod.ext rfl (close_opened htx _))
  next rx rxInode hrxOpen =>
  have hrx : s.descriptors rx = none := hfreshRx (rx, rxInode) hrxOpen
  have hne : rx ≠ tx := (hdistinct (tx, txInode) htxOpen (rx, rxInode) hrxOpen).symm
  have hutx := h.unclaimed_of_unused htx
  -- the second `open` returns another number than the first
  have hopened : (s.opened tx (.tx txInode)).descriptors rx = none := by
    show Function.update s.descriptors _ _ (rx : ℤ) = none
    rw [Function.update_of_ne (by exact_mod_cast hne), hrx]
  rcases activate_cases (h.opened htx (.tx txInode)) (i := i) (findFreeClientSlot_free hslot)
    (Function.update_self _ _ s.descriptors) ⟨hutx.server, hutx.slots, hutx.files⟩ hopened rxInode
    txPath rxPath o with hfailed | ⟨hconsistent, hjoined⟩
  · left
    rw [hfailed, close_opened htx]
  · exact Or.inr ⟨i, _, hslot, hconsistent, fun j hj => Function.update_of_ne hj _ _, hjoined⟩

/-- A registration that returns -1 leaves the table, the open descriptors and the epoll set as
they were. -/
theorem registerNewClient_failed {serverFifo : ℕ} {s : Server} (h : Consistent serverFifo s)
    {o : RegisterOutcome} (hfresh : s.Fresh o) {txPath rxPath : Text}
    (hfailed : (s.registerNewClient txPath rxPath o).1 = -1) :
    (s.registerNewClient txPath rxPath o).2 = s := by
  rcases registerNewClient_cases h hfresh txPath rxPath with heq | ⟨_, _, -, -, -, heq⟩
  · rw [heq]
  · rw [heq] at hfailed
    have : (0 : ℤ) = -1 := hfailed
    omega

namespace Consistent

variable {serverFifo : ℕ} {s : Server}

theorem registerNewClient (h : Consistent serverFifo s) {o : RegisterOutcome} (hfresh : s.Fresh o)
    (txPath rxPath : Text) : Consistent serverFifo (s.registerNewClient txPath rxPath o).2 := by
  rcases registerNewClient_cases h hfresh txPath rxPath with heq | ⟨_, _, -, hjoined, -, heq⟩
  · rw [heq]
    exact h
  · rw [heq]
    exact hjoined.processBuffer _ _ _

/-! ## The threads -/

/-- A thread may have another position, and a file that is open in its name. -/
theorem setThread (h : Consistent serverFifo s) {k : ℕ} {t : Thread}
    (hfile : ∀ fd ∈ t.file, s.descriptors fd = some (.file k)) :
    Consistent serverFifo { s with threads := s.threads.set k t } where
  blank := h.blank
  clientId := h.clientId
  txOpen := h.txOpen
  rxOpen := h.rxOpen
  watched := h.watched
  apart := h.apart
  origin := h.origin
  serverOpen := h.serverOpen
  negative := h.negative
  files l u hu fd hfd := by
    rw [List.getElem?_set] at hu
    by_cases hl : k = l
    · subst hl
      rw [if_pos rfl] at hu
      split at hu
      · obtain rfl : t = u := by simpa using hu
        exact hfile fd hfd
      · simp at hu
    · rw [if_neg hl] at hu
      exact h.files l u hu fd hfd

/-- What a thread has opened for its file is claimed by that thread alone. -/
theorem unclaimed_of_file (h : Consistent serverFifo s) {k : ℕ} {fd : ℤ}
    (hfd : s.descriptors fd = some (.file k)) (hown : ∀ t, s.threads[k]? = some t → fd ∉ t.file) :
    Unclaimed serverFifo s fd where
  server := by
    rintro rfl
    rw [h.serverOpen] at hfd
    simp at hfd
  slots j hj := by
    obtain ⟨_, htx⟩ := h.txOpen j hj
    obtain ⟨_, hrx⟩ := h.rxOpen j hj
    constructor
    · rintro rfl
      rw [htx] at hfd
      simp at hfd
    · rintro rfl
      rw [hrx] at hfd
      simp at hfd
  -- a file of another thread is named as such in the table
  files l t ht hmem := by
    have hl := h.files l t ht fd hmem
    rw [hfd, Option.some.injEq, Handle.file.injEq] at hl
    subst hl
    exact hown t ht hmem

/-- A thread that ends closes its file. -/
theorem moveThread (h : Consistent serverFifo s) {k : ℕ} {t : Thread}
    (ht : s.threads[k]? = some t) (pos : SenderPos) :
    Consistent serverFifo (s.moveThread k t pos) := by
  unfold Server.moveThread
  split
  next fd hfd =>
    have hset := h.setThread (k := k) (t := { t with file := none, pos := .ended }) (by simp)
    apply hset.close
    apply hset.unclaimed_of_file (k := k) (h.files k t ht fd hfd)
    intro u hu
    rw [List.getElem?_set_self (List.getElem?_eq_some_iff.mp ht).1, Option.some.injEq] at hu
    rw [← hu]
    simp
  · exact h.setThread (h.files k t ht)

/-- `fopen` takes a descriptor that is not in use. -/
theorem openFile (h : Consistent serverFifo s) {k fileFd : ℕ} (t : Thread) (pos : SenderPos)
    (hunused : s.descriptors fileFd = none) :
    Consistent serverFifo { s.opened fileFd (.file k) with
      threads := s.threads.set k { t with file := some fileFd, pos := pos } } := by
  apply (h.opened hunused (.file k)).setThread
  intro fd hfd
  obtain rfl : (fileFd : ℤ) = fd := by simpa using hfd
  exact Function.update_self _ _ s.descriptors

theorem stepThread (h : Consistent serverFifo s) {k fileFd : ℕ} {a : SenderAction} {s' : Server}
    {bytes : Text} (hstep : s.stepThread k a fileFd = some (s', bytes)) :
    Consistent serverFifo s' := by
  unfold Server.stepThread at hstep
  split at hstep
  · simp at hstep
  next t ht =>
  split at hstep
  · simp at hstep
  next pos bytes' hpos =>
  split at hstep
  · split at hstep
    next hunused =>
      simp only [Option.some.injEq, Prod.mk.injEq] at hstep
      rw [← hstep.1]
      exact h.openFile t pos hunused
    next => simp at hstep
  · split at hstep
    · simp only [Option.some.injEq, Prod.mk.injEq] at hstep
      rw [← hstep.1]
      exact h.moveThread ht pos
    · split at hstep
      · simp only [Option.some.injEq, Prod.mk.injEq] at hstep
        rw [← hstep.1]
        exact h.moveThread ht pos
      · simp at hstep

/-! ## Runs -/

theorem init (own : List ℕ) (serverFifo : ℕ) :
    Consistent serverFifo (Server.init own serverFifo) where
  blank _ _ := rfl
  clientId _ hi := Bool.noConfusion hi
  txOpen _ hi := Bool.noConfusion hi
  rxOpen _ hi := Bool.noConfusion hi
  watched _ hi := Bool.noConfusion hi
  apart _ _ hi := Bool.noConfusion hi
  origin fd data hfd := by
    simp only [Server.init] at hfd
    split at hfd
    next heq => exact Or.inl ⟨heq, by simpa using hfd.symm⟩
    next => simp at hfd
  serverOpen := by simp [Server.init]
  negative := by
    have hne : ∀ n : ℕ, (-1 : ℤ) ≠ n := fun n => by omega
    simp [Server.init, hne]
  files k t ht := by simp [Server.init] at ht

theorem step (h : Consistent serverFifo s) {a : ServerAction} {s' : Server}
    (hstep : serverStep s a = some s') : Consistent serverFifo s' := by
  cases a with
  | register txPath rxPath o =>
    simp only [serverStep] at hstep
    split at hstep
    next hfresh =>
      rw [Option.some.injEq] at hstep
      rw [← hstep]
      exact h.registerNewClient hfresh txPath rxPath
    next => simp at hstep
  | command i command starts =>
    simp only [serverStep, Option.some.injEq] at hstep
    rw [← hstep]
    exact h.processClientCommand starts i command
  | endOfFile i | periodicClose i =>
    simp only [serverStep] at hstep
    split at hstep
    · rw [Option.some.injEq] at hstep
      rw [← hstep]
      exact h.closeClientConnection i
    · simp at hstep
  | thread k a fileFd =>
    simp only [serverStep, Option.map_eq_some_iff] at hstep
    obtain ⟨⟨s'', bytes⟩, hthread, rfl⟩ := hstep
    exact h.stepThread hthread

theorem of_reachable {own : List ℕ}
    (hreach : Reachable serverStep (Server.init own serverFifo) s) : Consistent serverFifo s := by
  obtain ⟨tr, hrun⟩ := hreach
  apply hrun.invariant_all
  · exact Consistent.init own serverFifo
  · exact fun t a u ht hstep => ht.step hstep

end Consistent

/-- What the table, the descriptors and the epoll set say of each other. -/
structure Agrees (s : Server) : Prop where
  inactive : ∀ i, (s.clients i).isActive = false →
    (s.clients i).clientId = -1 ∧ (s.clients i).txFd = -1 ∧ (s.clients i).rxFd = -1 ∧
      (s.clients i).txPath = [] ∧ (s.clients i).rxPath = []
  active : ∀ i, (s.clients i).isActive →
    (s.clients i).clientId = i ∧ (s.clients i).txFd ≠ (s.clients i).rxFd ∧
      (s.descriptors (s.clients i).txFd).isSome ∧ (s.descriptors (s.clients i).rxFd).isSome ∧
      s.epoll (s.clients i).rxFd = some (UInt32.ofNat i)
  unshared : ∀ i j, (s.clients i).isActive → (s.clients j).isActive → i ≠ j →
    ∀ fd, fd = (s.clients i).txFd ∨ fd = (s.clients i).rxFd →
      fd ≠ (s.clients j).txFd ∧ fd ≠ (s.clients j).rxFd
  watchedOpen : ∀ fd, (s.epoll fd).isSome → (s.descriptors fd).isSome

/-- A descriptor for writing is none for reading. -/
theorem Consistent.txFd_ne_rxFd {serverFifo : ℕ} {s : Server} (h : Consistent serverFifo s)
    {i j : Fin maxClients} (hi : (s.clients i).isActive) (hj : (s.clients j).isActive) :
    (s.clients i).txFd ≠ (s.clients j).rxFd := by
  intro heq
  obtain ⟨txInode, htx⟩ := h.txOpen i hi
  obtain ⟨rxInode, hrx⟩ := h.rxOpen j hj
  rw [heq, hrx, Option.some.injEq] at htx
  exact Handle.noConfusion htx

theorem Consistent.agrees {serverFifo : ℕ} {s : Server} (h : Consistent serverFifo s) :
    Agrees s where
  inactive i hi := by
    rw [h.blank i hi]
    exact ⟨rfl, rfl, rfl, rfl, rfl⟩
  active i hi := by
    obtain ⟨txInode, htx⟩ := h.txOpen i hi
    obtain ⟨rxInode, hrx⟩ := h.rxOpen i hi
    refine ⟨h.clientId i hi, h.txFd_ne_rxFd hi hi, ?_, ?_, h.watched i hi⟩
    · rw [htx, Option.isSome_some]
    · rw [hrx, Option.isSome_some]
  unshared i j hi hj hij fd hfd := by
    obtain ⟨htx, hrx⟩ := h.apart i j hi hj hij
    rcases hfd with rfl | rfl
    · exact ⟨htx, h.txFd_ne_rxFd hi hj⟩
    · exact ⟨(h.txFd_ne_rxFd hj hi).symm, hrx⟩
  watchedOpen _ := h.open_of_epoll

/-- In every reachable state the table, the descriptors and the epoll set agree, and a call of
`register_new_client` that returns -1 leaves all three as they were. -/
theorem agrees_of_reachable (own : List ℕ) (serverFifo : ℕ) {s : Server}
    (h : Reachable serverStep (Server.init own serverFifo) s) :
    Agrees s ∧ ∀ txPath rxPath o, s.Fresh o → (s.registerNewClient txPath rxPath o).1 = -1 →
      (s.registerNewClient txPath rxPath o).2 = s :=
  ⟨(Consistent.of_reachable h).agrees, fun _ _ _ hfresh hfailed =>
    registerNewClient_failed (Consistent.of_reachable h) hfresh hfailed⟩

/-- A registration that gets the descriptors 6 and 7. -/
def firstOutcome : RegisterOutcome where
  txOpen := some (6, 100)
  rxOpen := some (7, 101)
  added := true
  acked := true
  pending := []
  starts _ _ := true

/-- A registration whose `ACK` cannot be written. -/
def refusedOutcome : RegisterOutcome :=
  { firstOutcome with txOpen := some (8, 102), rxOpen := some (9, 103), acked := false }

/-- The server after one client has registered. -/
def oneClient : Server :=
  ((Server.init [0, 1, 2, 3, 5] 4).registerNewClient ['t'] ['r'] firstOutcome).2

theorem reachable_oneClient : Reachable serverStep (Server.init [0, 1, 2, 3, 5] 4) oneClient := by
  have hfresh : (Server.init [0, 1, 2, 3, 5] 4).Fresh firstOutcome := by decide
  refine ⟨_, Run.single (a := .register ['t'] ['r'] firstOutcome) ?_⟩
  simp only [serverStep, hfresh, if_true, oneClient]

/-- `agrees_of_reachable` with one client in slot 0, and a second one that is refused. -/
theorem agrees_one_client :
    Agrees oneClient ∧ (oneClient.registerNewClient ['t'] ['r'] refusedOutcome).2 = oneClient := by
  have h := agrees_of_reachable [0, 1, 2, 3, 5] 4 reachable_oneClient
  exact ⟨h.1, h.2 ['t'] ['r'] refusedOutcome (by decide) (by decide +kernel)⟩

end FileServer
