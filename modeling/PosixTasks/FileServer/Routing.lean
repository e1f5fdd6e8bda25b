import PosixTasks.FileServer.Table

/-!
# Where the bytes of a file go

A sending thread keeps the number of its client's tx descriptor. `close_client_connection` closes
that descriptor while the thread may still be running, and the next `open` can return the same
number for something else.

The main thread and the sending threads act in turns, call by call; the main thread can be
between the two `open`s of `register_new_client`. `close_client_connection` is one step. What a
thread does between its two `close`s it can do after them as well, but for the number that it gets
when it opens its file: that is the lowest one with the rx FIFO still open. So a file that a thread
opens gets any number that is not in use.

## Main results

* `reachesClient_of_run`: every byte goes to the client that asked, as long as no tx FIFO is
  opened on a descriptor that a thread of another client still writes to; and where one is, the
  thread can send its next bytes to the wrong client.
-/

namespace FileServer

open CString Transition

/-- What `register_new_client` has when its first `open` has returned. -/
structure Opening where
  slot : Fin maxClients
  txPath : Text
  rxPath : Text
  tx : ℕ
  inode : ℕ

/-- Bytes that a thread has written. -/
structure Sent where
  /-- The tx FIFO of the client whose `GET` started the thread. -/
  client : Option ℕ
  /-- The FIFO that the bytes went into. -/
  inode : ℕ
  bytes : Text

/-- The server with its threads, and what each thread was started for. -/
structure Serving where
  server : Server
  /-- The registration that is between its two `open`s. -/
  opening : Option Opening
  /-- History: the tx FIFO that the last client of each slot registered with. -/
  fifo : Fin maxClients → ℕ
  /-- History: for each thread the tx FIFO of the client whose `GET` started it. -/
  asked : List ℕ
  /-- History: what the threads have written. -/
  sent : List Sent

/-- The server after the initialisation in `main`. -/
def Serving.init (own : List ℕ) (serverFifo : ℕ) : Serving where
  server := Server.init own serverFifo
  opening := none
  fifo _ := 0
  asked := []
  sent := []

/-- The steps of the main thread and of the sending threads. -/
inductive ServingAction where
  /-- `register_new_client` finds a slot and opens the tx FIFO -/
  | openTx (txPath rxPath : Text) (fd inode : ℕ)
  /-- it opens the rx FIFO, and goes on up to the read of pending commands -/
  | openRx (o : RegisterOutcome)
  | command (i : Fin maxClients) (command : Text) (starts : ℕ → Text → Bool)
  /-- a read is at end of file, in the event loop or in the periodic check -/
  | endOfFile (i : Fin maxClients)
  | thread (k : ℕ) (a : SenderAction) (fileFd : ℕ)

/-- The lowest descriptor that is not in use: what `open` returns. -/
def IsLowest (descriptors : ℤ → Option Handle) (fd : ℕ) : Prop :=
  descriptors fd = none ∧ ∀ n < fd, descriptors n ≠ none

instance (descriptors : ℤ → Option Handle) (fd : ℕ) : Decidable (IsLowest descriptors fd) :=
  inferInstanceAs (Decidable (_ ∧ _))

/-- The second half of a registration. -/
def Serving.openRx (x : Serving) (r : Opening) (o : RegisterOutcome) : Option Serving :=
  match o.rxOpen with
  | none => some { x with server := x.server.close r.tx, opening := none }
  | some (rx, rxInode) =>
      if IsLowest x.server.descriptors rx then
        let result := (x.server.opened rx (.rx rxInode)).activate r.slot r.txPath r.rxPath r.tx rx
          { o with pending := [] }
        some { x with
          server := result.2
          opening := none
          fifo := if result.1 = 0 then Function.update x.fifo r.slot r.inode else x.fifo }
      else none

/-- A command, and for whom the thread was started if it started one. -/
def Serving.command (x : Serving) (i : Fin maxClients) (command : Text)
    (starts : ℕ → Text → Bool) : Serving :=
  let server := x.server.processClientCommand starts i command
  { x with
    server := server
    asked := if server.threads.length = x.server.threads.length then x.asked
      else x.asked ++ [x.fifo i] }

/-- A step of a thread, and where its bytes went. -/
def Serving.thread (x : Serving) (k : ℕ) (a : SenderAction) (fileFd : ℕ) : Option Serving :=
  match x.server.threads[k]?, x.server.stepThread k a fileFd with
  | some t, some (server, bytes) =>
      match bytes, x.server.descriptors t.clientFd with
      | b :: bytes, some (.tx inode) =>
          some { x with server := server, sent := x.sent ++ [⟨x.asked[k]?, inode, b :: bytes⟩] }
      | _, _ => some { x with server := server }
  | _, _ => none

/-- One step. While a registration is between its `open`s only the threads act. -/
def servingStep (x : Serving) : ServingAction → Option Serving
  | .openTx txPath rxPath fd inode =>
      match x.opening, x.server.findFreeClientSlot with
      | none, some i =>
          if IsLowest x.server.descriptors fd then
            some { x with
              server := x.server.opened fd (.tx inode)
              opening := some { slot := i, txPath, rxPath, tx := fd, inode } }
          else none
      | _, _ => none
  | .openRx o =>
      match x.opening with
      | some r => x.openRx r o
      | none => none
  | .command i command starts =>
      match x.opening with
      | none => some (x.command i command starts)
      | some _ => none
  | .endOfFile i =>
      match x.opening with
      | none =>
          if (x.server.clients i).isActive then
            some { x with server := x.server.closeClientConnection i }
          else none
      | some _ => none
  | .thread k a fileFd => x.thread k a fileFd

/-- Every byte went into the tx FIFO of the client that asked for it. -/
def ReachesClient (x : Serving) : Prop :=
  ∀ y ∈ x.sent, y.client = some y.inode

/-- The thread still has something to write. -/
def MayWrite : SenderPos → Prop
  | .opening => True
  | .header size => (sizeHeader size).length < headerBytes
  | .sending size sent => sent < size
  | .ended => False

/-- A registration does not get, for its tx FIFO, a descriptor that a thread started for another
client still writes to. -/
def NotReused (x : Serving) : ServingAction → Prop
  | .openTx _ _ fd inode => ∀ (k : ℕ) t, x.server.threads[k]? = some t → MayWrite t.pos →
      t.clientFd = fd → x.asked[k]? = some inode
  | _ => True

/-- A step of a sending thread, where a file that is opened gets the lowest number. -/
def IsThread (x : Serving) : ServingAction → Prop
  | .thread _ (.openFile _) fileFd => IsLowest x.server.descriptors fileFd
  | .thread _ _ _ => True
  | _ => False

/-! ## What the threads write to -/

/-- Descriptors, slots and threads refer to the FIFOs that the histories say. -/
structure Routed (serverFifo : ℕ) (x : Serving) : Prop where
  consistent : Consistent serverFifo x.server
  opening : ∀ r ∈ x.opening, (x.server.clients r.slot).isActive = false ∧
    x.server.descriptors r.tx = some (.tx r.inode) ∧ Unclaimed serverFifo x.server r.tx
  slots : ∀ i, (x.server.clients i).isActive →
    x.server.descriptors (x.server.clients i).txFd = some (.tx (x.fifo i))
  asked : x.asked.length = x.server.threads.length
  threads : ∀ (k : ℕ) t, x.server.threads[k]? = some t → MayWrite t.pos → ∀ inode,
    x.server.descriptors t.clientFd = some (.tx inode) → x.asked[k]? = some inode
  sent : ReachesClient x
  bounded : {fd : ℤ | x.server.descriptors fd ≠ none}.Finite

/-- A thread that can write later, or writes now, was about to write. -/
theorem mayWrite_of_step {pos pos' : SenderPos} {a : SenderAction} {bytes : Text}
    (h : senderStep pos a = some (pos', bytes)) (hmay : MayWrite pos' ∨ bytes ≠ []) :
    MayWrite pos := by
  rcases senderStep_cases h with ⟨size, rfl, -, -, -⟩ | ⟨size, rfl, -, hfits, -, -⟩ |
    ⟨size, sent, rfl, -, hlt, -, -, -⟩ | ⟨rfl, rfl⟩
  · trivial
  · exact hfits
  · exact hlt
  · exact hmay.elim False.elim fun hne => absurd rfl hne

/-! ## One step -/

section Step

variable {serverFifo : ℕ} {x : Serving}

/-- The server may lose descriptors, and get others that are not for writing, if the slots keep
theirs. -/
theorem Routed.setServer (h : Routed serverFifo x) {server : Server}
    (hconsistent : Consistent serverFifo server) (hthreads : server.threads = x.server.threads)
    (hwrite : ∀ fd inode, server.descriptors fd = some (.tx inode) →
      x.server.descriptors fd = some (.tx inode))
    (hslots : ∀ i, (server.clients i).isActive →
      server.descriptors (server.clients i).txFd = some (.tx (x.fifo i)))
    (hbounded : {fd : ℤ | server.descriptors fd ≠ none}.Finite) :
    Routed serverFifo { x with server := server, opening := none } where
  consistent := hconsistent
  opening r hr := by simp at hr
  slots := hslots
  asked := by
    show x.asked.length = server.threads.length
    rw [hthreads, h.asked]
  threads k t ht hmay inode hfd := by
    have ht' : server.threads[k]? = some t := ht
    rw [hthreads] at ht'
    exact h.threads k t ht' hmay inode (hwrite _ _ hfd)
  sent := h.sent
  bounded := hbounded

/-- `close` only takes away. -/
theorem close_write {s : Server} {fd fd' : ℤ} {x : Handle}
    (h : (s.close fd).descriptors fd' = some x) : fd' ≠ fd ∧ s.descriptors fd' = some x := by
  have h' : Function.update s.descriptors fd none fd' = some x := h
  rw [Function.update_apply] at h'
  split at h'
  · simp at h'
  next hne => exact ⟨hne, h'⟩

theorem bounded_close {s : Server} (h : {fd : ℤ | s.descriptors fd ≠ none}.Finite) (fd : ℤ) :
    {fd' : ℤ | (s.close fd).descriptors fd' ≠ none}.Finite := by
  apply h.subset
  intro fd' hfd'
  obtain ⟨y, hy⟩ := Option.ne_none_iff_exists'.mp hfd'
  show s.descriptors fd' ≠ none
  rw [(close_write hy).2]
  simp

theorem bounded_opened {s : Server} (h : {fd : ℤ | s.descriptors fd ≠ none}.Finite) (fd : ℤ)
    (y : Handle) : {fd' : ℤ | (s.opened fd y).descriptors fd' ≠ none}.Finite := by
  apply (h.insert fd).subset
  intro fd' hfd'
  by_cases heq : fd' = fd
  · exact Or.inl heq
  · right
    have h' : Function.update s.descriptors fd (some y) fd' ≠ none := hfd'
    rwa [Function.update_of_ne heq] at h'

/-- Closing a connection keeps the descriptors of the other slots, and adds none. -/
theorem closeClientConnection_descriptors {s : Server} (h : Consistent serverFifo s)
    (i : Fin maxClients) (fd : ℤ) :
    (s.closeClientConnection i).descriptors fd = s.descriptors fd ∨
      (s.clients i).isActive ∧ (s.closeClientConnection i).descriptors fd = none ∧
        (fd = (s.clients i).txFd ∨ fd = (s.clients i).rxFd) := by
  by_cases hi : (s.clients i).isActive
  · rw [closeClientConnection_eq hi (h.txFd_ne hi) (h.rxFd_ne hi)]
    simp only [Function.update_apply]
    by_cases hrx : fd = (s.clients i).rxFd
    · exact Or.inr ⟨hi, if_pos hrx, Or.inr hrx⟩
    · rw [if_neg hrx]
      by_cases htx : fd = (s.clients i).txFd
      · exact Or.inr ⟨hi, if_pos htx, Or.inl htx⟩
      · exact Or.inl (if_neg htx)
  · rw [closeClientConnection_of_inactive (by simpa using hi)]
    exact Or.inl rfl

theorem closeClientConnection_threads (s : Server) (i : Fin maxClients) :
    (s.closeClientConnection i).threads = s.threads := by
  simp only [Server.closeClientConnection]
  split
  · split <;> split <;> rfl
  · rfl

/-- What is active after a connection has been closed is another slot, as it was. -/
theorem active_of_closed {s : Server} (h : Consistent serverFifo s) {i j : Fin maxClients}
    (hj : ((s.closeClientConnection i).clients j).isActive) :
    (s.clients j).isActive ∧ (s.closeClientConnection i).clients j = s.clients j ∧
      (j = i → (s.clients i).isActive = false) := by
  by_cases hji : j = i
  · subst hji
    by_cases hact : (s.clients j).isActive
    · rw [closeClientConnection_eq hact (h.txFd_ne hact) (h.rxFd_ne hact)] at hj
      simp only [Function.update_self] at hj
      exact Bool.noConfusion hj
    · rw [closeClientConnection_of_inactive (by simpa using hact)] at hj ⊢
      exact ⟨hj, rfl, fun _ => by simpa using hact⟩
  · rw [closeClientConnection_clients_ne hji] at hj ⊢
    exact ⟨hj, rfl, fun heq => absurd heq hji⟩

theorem Routed.close (h : Routed serverFifo x) (i : Fin maxClients) :
    Routed serverFifo { x with server := x.server.closeClientConnection i, opening := none } := by
  have hs := h.consistent
  apply h.setServer (hs.closeClientConnection i) (closeClientConnection_threads _ i)
  -- a write end that stays open leads where it did
  · intro fd inode hfd
    rcases closeClientConnection_descriptors hs i fd with heq | ⟨-, hnone, -⟩
    · rw [← heq, hfd]
    · rw [hnone] at hfd
      simp at hfd
  · intro j hj
    obtain ⟨hact, heq, hother⟩ := active_of_closed hs hj
    rw [heq]
    rcases closeClientConnection_descriptors hs i (x.server.clients j).txFd with
      hkeep | ⟨hi, -, hfd⟩
    · rw [hkeep, h.slots j hact]
    · -- the closed descriptors are those of slot `i`
      exfalso
      have hji : j ≠ i := by
        intro hji
        rw [hother hji] at hi
        exact Bool.noConfusion hi
      rcases hfd with hfd | hfd
      · exact (hs.apart j i hact hi hji).1 hfd
      · exact hs.txFd_ne_rxFd hact hi hfd
  · apply h.bounded.subset
    intro fd hfd
    rcases closeClientConnection_descriptors hs i fd with heq | ⟨-, hnone, -⟩
    · show x.server.descriptors fd ≠ none
      rwa [← heq]
    · exact absurd hnone hfd

/-- A new thread writes to the tx FIFO of the client that asked for it. -/
theorem Routed.newThread (h : Routed serverFifo x) {i : Fin maxClients}
    (hi : (x.server.clients i).isActive) (filename : Text) :
    Routed serverFifo { x with
      server := { x.server with
        threads := x.server.threads ++ [x.server.newThread i filename] }
      asked := x.asked ++ [x.fifo i] } where
  consistent := h.consistent.newThread rfl
  opening r hr := by
    obtain ⟨hfree, htx, hu⟩ := h.opening r hr
    refine ⟨hfree, htx, hu.server, hu.slots, ?_⟩
    intro k t ht
    have ht' : (x.server.threads ++ [x.server.newThread i filename])[k]? = some t := ht
    rw [List.getElem?_append] at ht'
    split at ht'
    · exact hu.files k t ht'
    · obtain rfl : t = x.server.newThread i filename := by
        simpa using List.mem_of_getElem? ht'
      simp [Server.newThread]
  slots := h.slots
  asked := by simp [h.asked]
  threads k t ht hmay inode hfd := by
    have ht' : (x.server.threads ++ [x.server.newThread i filename])[k]? = some t := ht
    show (x.asked ++ [x.fifo i])[k]? = some inode
    rw [List.getElem?_append] at ht' ⊢
    rw [h.asked]
    split at ht'
    next hk =>
      rw [if_pos hk]
      exact h.threads k t ht' hmay inode hfd
    next hk =>
      rw [if_neg hk]
      obtain rfl : t = x.server.newThread i filename := by
        simpa using List.mem_of_getElem? ht'
      obtain hzero : k - x.server.threads.length = 0 := by
        have := (List.getElem?_eq_some_iff.mp ht').1
        simpa using this
      -- the last thread is the new one, and its descriptor is that of the slot
      have hown : x.server.descriptors (x.server.clients i).txFd = some (.tx inode) := hfd
      rw [h.slots i hi, Option.some.injEq, Handle.tx.injEq] at hown
      rw [hzero, ← hown]
      rfl
  sent := h.sent
  bounded := h.bounded

theorem Routed.command (h : Routed serverFifo x) (hopening : x.opening = none) (i : Fin maxClients)
    (command : Text) (starts : ℕ → Text → Bool) :
    Routed serverFifo (x.command i command starts) := by
  have hsame : x = { x with opening := none } := by rw [← hopening]
  unfold Serving.command Server.processClientCommand
  split
  next hi =>
    split
    · simp only [closeClientConnection_threads, if_true]
      rw [hsame]
      exact h.close i
    next filename _ =>
      split
      -- the list of threads has grown, which is what the history looks at
      · have hlength : (x.server.threads ++ [x.server.newThread i filename]).length ≠
            x.server.threads.length := by simp
        simp only [if_neg hlength]
        exact h.newThread hi filename
      · simpa using h
    · simpa using h
    · simpa using h
  · simpa using h

/-- Opening the tx FIFO of a new client is where a thread may get another client's FIFO. -/
theorem Routed.openTx (h : Routed serverFifo x) {i : Fin maxClients}
    (hslot : x.server.findFreeClientSlot = some i) {txPath rxPath : Text} {fd inode : ℕ}
    (hfd : x.server.descriptors fd = none)
    (hgood : NotReused x (.openTx txPath rxPath fd inode)) :
    Routed serverFifo { x with
      server := x.server.opened fd (.tx inode)
      opening := some { slot := i, txPath, rxPath, tx := fd, inode } } where
  consistent := h.consistent.opened hfd _
  opening r hr := by
    obtain rfl : { slot := i, txPath, rxPath, tx := fd, inode } = r := by simpa using hr
    have hu := h.consistent.unclaimed_of_unused hfd
    exact ⟨findFreeClientSlot_free hslot, Function.update_self _ _ x.server.descriptors,
      hu.server, hu.slots, hu.files⟩
  slots j hj := by
    have hu := h.consistent.unclaimed_of_unused hfd
    show Function.update x.server.descriptors _ _ (x.server.clients j).txFd = _
    rw [Function.update_of_ne (hu.slots j hj).1.symm]
    exact h.slots j hj
  asked := h.asked
  threads k t ht hmay inode' hfd' := by
    have hfd' : Function.update x.server.descriptors fd (some (.tx inode)) t.clientFd
        = some (.tx inode') := hfd'
    rw [Function.update_apply] at hfd'
    split at hfd'
    next heq =>
      rw [Option.some.injEq, Handle.tx.injEq] at hfd'
      subst hfd'
      -- only here a thread could get the FIFO of another client
      exact hgood k t ht hmay heq
    next => exact h.threads k t ht hmay inode' hfd'
  sent := h.sent
  bounded := bounded_opened h.bounded _ _

/-- A registration that fails gives its tx descriptor back. -/
theorem Routed.failed (h : Routed serverFifo x) {r : Opening} (hr : x.opening = some r) :
    Routed serverFifo { x with server := x.server.close r.tx, opening := none } := by
  obtain ⟨-, -, hu⟩ := h.opening r hr
  apply h.setServer (h.consistent.close hu) rfl
  · exact fun fd inode hfd => (close_write hfd).2
  · intro j hj
    show Function.update x.server.descriptors _ _ (x.server.clients j).txFd = _
    rw [Function.update_of_ne (hu.slots j hj).1.symm]
    exact h.slots j hj
  · exact bounded_close h.bounded _

theorem processBuffer_nil (s : Server) (starts : ℕ → Text → Bool) (i : Fin maxClients) :
    s.processBuffer starts i [] = s := by
  simp [Server.processBuffer, ofBuffer]

/-- A registration that succeeds gives the slot the FIFO that it opened. -/
theorem Routed.joined (h : Routed serverFifo x) {r : Opening} (hr : x.opening = some r)
    {rx rxInode : ℕ} (hrx : x.server.descriptors rx = none)
    (hconsistent : Consistent serverFifo
      ((x.server.opened rx (.rx rxInode)).takeSlot r.slot r.txPath r.rxPath r.tx rx)) :
    Routed serverFifo { x with
      server := (x.server.opened rx (.rx rxInode)).takeSlot r.slot r.txPath r.rxPath r.tx rx
      opening := none
      fifo := Function.update x.fifo r.slot r.inode } := by
  obtain ⟨hfree, htx, hutx⟩ := h.opening r hr
  have hurx := h.consistent.unclaimed_of_unused hrx
  -- the rx FIFO gets a descriptor that was free, so that the others stay as they are
  have hkeep : ∀ fd y, x.server.descriptors fd = some y →
      Function.update x.server.descriptors rx (some (.rx rxInode)) fd = some y := by
    intro fd y hfd
    have hne : fd ≠ rx := by
      rintro rfl
      rw [hrx] at hfd
      simp at hfd
    rw [Function.update_of_ne hne, hfd]
  exact {
    consistent := hconsistent
    opening := by simp
    slots := by
      intro j hj
      have hj' : (Function.update x.server.clients r.slot
        (Server.registered r.slot r.tx rx r.txPath r.rxPath) j).isActive := hj
      show Function.update x.server.descriptors (rx : ℤ) (some (.rx rxInode))
        (Function.update x.server.clients r.slot
          (Server.registered r.slot r.tx rx r.txPath r.rxPath) j).txFd
        = some (.tx (Function.update x.fifo r.slot r.inode j))
      -- the slot of the new client, and the others
      by_cases hji : j = r.slot
      · subst hji
        rw [Function.update_self, Function.update_self]
        exact hkeep _ _ htx
      · rw [Function.update_of_ne hji] at hj' ⊢
        rw [Function.update_of_ne hji]
        exact hkeep _ _ (h.slots j hj')
    asked := h.asked
    threads := by
      intro k t ht hmay inode hfd
      have hfd' : Function.update x.server.descriptors (rx : ℤ) (some (.rx rxInode)) t.clientFd
          = some (.tx inode) := hfd
      rw [Function.update_apply] at hfd'
      split at hfd'
      · simp at hfd'
      · exact h.threads k t ht hmay inode hfd'
    sent := h.sent
    bounded := bounded_opened h.bounded _ _ }

theorem Routed.openRx (h : Routed serverFifo x) {r : Opening} (hr : x.opening = some r)
    {o : RegisterOutcome} {x' : Serving} (hstep : x.openRx r o = some x') :
    Routed serverFifo x' := by
  obtain ⟨hfree, htx, hutx⟩ := h.opening r hr
  unfold Serving.openRx at hstep
  split at hstep
  · rw [Option.some.injEq] at hstep
    rw [← hstep]
    exact h.failed hr
  next rx rxInode _ =>
    split at hstep
    next hlowest =>
      rw [Option.some.injEq] at hstep
      rw [← hstep]
      -- `epoll_ctl` or the `ACK` can still fail; then both descriptors are closed
      rcases activate_cases h.consistent hfree htx hutx hlowest.1 rxInode r.txPath r.rxPath
        { o with pending := [] } with hfailed | ⟨hconsistent, hjoined⟩
      · rw [hfailed]
        exact h.failed hr
      · rw [hjoined, processBuffer_nil]
        exact h.joined hr hlowest.1 hconsistent
    next => simp at hstep

/-! ## A step of a thread -/

/-- What a step of thread `k` does to the server: the thread moves on, and descriptors for
writing stay as they are. -/
structure ThreadMoved (s s' : Server) (k : ℕ) (t : Thread) (pos : SenderPos) : Prop where
  clients : s'.clients = s.clients
  thread : ∃ file, s'.threads = s.threads.set k { t with file := file, pos := pos }
  write : ∀ fd inode, s'.descriptors fd = some (.tx inode) ↔ s.descriptors fd = some (.tx inode)
  bounded : {fd : ℤ | s.descriptors fd ≠ none}.Finite → {fd : ℤ | s'.descriptors fd ≠ none}.Finite

theorem moveThread_moved {s : Server} (h : Consistent serverFifo s) {k : ℕ} {t : Thread}
    (ht : s.threads[k]? = some t) (pos : SenderPos) :
    ThreadMoved s (s.moveThread k t pos) k t pos := by
  unfold Server.moveThread
  split
  next fd hfd =>
    -- what the thread closes is its own file
    have hfile := h.files k t ht fd hfd
    exact {
      clients := rfl
      thread := ⟨none, rfl⟩
      write := by
        intro fd' inode
        constructor
        · exact fun hfd' => (close_write hfd').2
        · intro hfd'
          show Function.update s.descriptors fd none fd' = _
          have hne : fd' ≠ fd := by
            rintro rfl
            rw [hfile] at hfd'
            simp at hfd'
          rw [Function.update_of_ne hne, hfd']
      bounded := fun hfinite => bounded_close hfinite fd }
  · exact {
      clients := rfl
      thread := ⟨t.file, rfl⟩
      write := fun _ _ => Iff.rfl
      bounded := fun hfinite => hfinite }

theorem stepThread_moved {s s' : Server} (h : Consistent serverFifo s) {k fileFd : ℕ}
    {a : SenderAction} {bytes : Text} {t : Thread} (ht : s.threads[k]? = some t)
    (hstep : s.stepThread k a fileFd = some (s', bytes)) :
    ∃ pos, senderStep t.pos a = some (pos, bytes) ∧ ThreadMoved s s' k t pos ∧
      (bytes ≠ [] → ∃ inode, s.descriptors t.clientFd = some (.tx inode)) := by
  simp only [Server.stepThread, ht] at hstep
  split at hstep
  · simp at hstep
  next pos bytes' hpos =>
  split at hstep
  next size =>
    -- `fopen` writes nothing, and its descriptor is not one for writing
    obtain ⟨-, rfl⟩ : pos = .header size ∧ bytes' = [] := by
      rcases senderStep_cases hpos with ⟨_, -, ha, rfl, rfl⟩ | ⟨_, -, ha, -⟩ | ⟨_, _, -, ha, -⟩ |
        ⟨hend, rfl⟩
      · exact ⟨by rw [SenderAction.openFile.inj ha], rfl⟩
      · exact SenderAction.noConfusion ha
      · exact SenderAction.noConfusion ha
      · exfalso
        subst hend
        cases hp : t.pos <;> simp [hp, senderStep] at hpos
    split at hstep
    next hunused =>
      simp only [Option.some.injEq, Prod.mk.injEq] at hstep
      obtain ⟨rfl, rfl⟩ := hstep
      refine ⟨pos, hpos, ?_, fun hne => absurd rfl hne⟩
      exact {
        clients := rfl
        thread := ⟨some fileFd, rfl⟩
        write := by
          intro fd inode
          show Function.update s.descriptors (fileFd : ℤ) (some (.file k)) fd = _ ↔ _
          by_cases heq : fd = fileFd
          · subst heq
            rw [Function.update_self, hunused]
            simp
          · rw [Function.update_of_ne heq]
        bounded := fun hfinite => bounded_opened hfinite _ _ }
    next => simp at hstep
  next =>
    split at hstep
    next hnil =>
      simp only [Option.some.injEq, Prod.mk.injEq] at hstep
      obtain ⟨rfl, rfl⟩ := hstep
      subst hnil
      exact ⟨pos, hpos, moveThread_moved h ht pos, fun hne => absurd rfl hne⟩
    next =>
      split at hstep
      next inode hfd =>
        simp only [Option.some.injEq, Prod.mk.injEq] at hstep
        obtain ⟨rfl, rfl⟩ := hstep
        exact ⟨pos, hpos, moveThread_moved h ht pos, fun _ => ⟨inode, hfd⟩⟩
      next => simp at hstep

theorem Routed.moved (h : Routed serverFifo x) {server : Server} {k : ℕ} {t : Thread}
    {pos : SenderPos} (ht : x.server.threads[k]? = some t)
    (hconsistent : Consistent serverFifo server) (hmoved : ThreadMoved x.server server k t pos)
    (hmay : MayWrite pos → MayWrite t.pos) : Routed serverFifo { x with server := server } := by
  obtain ⟨file, hthreads⟩ := hmoved.thread
  exact {
    consistent := hconsistent
    opening := by
      intro r hr
      obtain ⟨hfree, htx, hu⟩ := h.opening r hr
      have htx' := (hmoved.write _ _).mpr htx
      refine ⟨?_, htx', hu.server, ?_, ?_⟩
      · show (server.clients r.slot).isActive = false
        rw [hmoved.clients, hfree]
      · intro i hi
        show (r.tx : ℤ) ≠ (server.clients i).txFd ∧ (r.tx : ℤ) ≠ (server.clients i).rxFd
        rw [hmoved.clients] at hi ⊢
        exact hu.slots i hi
      · intro l u hl hmem
        -- no thread reads its file from a descriptor for writing
        have hfile := hconsistent.files l u hl _ hmem
        rw [htx'] at hfile
        simp at hfile
    slots := by
      intro i hi
      show server.descriptors (server.clients i).txFd = some (.tx (x.fifo i))
      have hi' : (server.clients i).isActive := hi
      rw [hmoved.clients] at hi' ⊢
      exact (hmoved.write _ _).mpr (h.slots i hi')
    asked := by
      show x.asked.length = server.threads.length
      rw [hthreads, List.length_set, h.asked]
    threads := by
      intro l u hu hmayu inode hfd
      have hu' : server.threads[l]? = some u := hu
      have hfd' := (hmoved.write _ _).mp hfd
      rw [hthreads, List.getElem?_set] at hu'
      by_cases hl : k = l
      · subst hl
        rw [if_pos rfl] at hu'
        split at hu'
        · obtain rfl : { t with file := file, pos := pos } = u := by simpa using hu'
          exact h.threads k t ht (hmay hmayu) inode hfd'
        · simp at hu'
      · rw [if_neg hl] at hu'
        exact h.threads l u hu' hmayu inode hfd'
    sent := h.sent
    bounded := hmoved.bounded h.bounded }

theorem Routed.thread (h : Routed serverFifo x) {k fileFd : ℕ} {a : SenderAction} {x' : Serving}
    (hstep : x.thread k a fileFd = some x') : Routed serverFifo x' := by
  unfold Serving.thread at hstep
  split at hstep
  swap
  · simp at hstep
  next t server bytes ht hthread =>
  have hconsistent := h.consistent.stepThread hthread
  obtain ⟨pos, hpos, hmoved, -⟩ := stepThread_moved h.consistent ht hthread
  have hrouted := h.moved ht hconsistent hmoved fun hmay => mayWrite_of_step hpos (Or.inl hmay)
  split at hstep
  next b bytes inode hfd =>
    rw [Option.some.injEq] at hstep
    rw [← hstep]
    -- a thread writes only while it may still write, and then its descriptor is its client's
    have hwrites := mayWrite_of_step hpos (Or.inr (List.cons_ne_nil _ _))
    have hasked := h.threads k t ht hwrites inode hfd
    exact { hrouted with
      sent := by
        intro y hy
        rcases List.mem_append.mp hy with hy | hy
        · exact h.sent y hy
        · rw [List.mem_singleton] at hy
          rw [hy]
          exact hasked }
  next =>
    rw [Option.some.injEq] at hstep
    rw [← hstep]
    exact hrouted

/-- A step that reuses no descriptor leaves every thread with its own client. -/
theorem Routed.step (h : Routed serverFifo x) {a : ServingAction} {x' : Serving}
    (hgood : NotReused x a) (hstep : servingStep x a = some x') : Routed serverFifo x' := by
  cases a with
  | openTx txPath rxPath fd inode =>
    simp only [servingStep] at hstep
    split at hstep
    next i _ hslot =>
      split at hstep
      next hlowest =>
        rw [Option.some.injEq] at hstep
        rw [← hstep]
        exact h.openTx hslot hlowest.1 hgood
      next => simp at hstep
    next => simp at hstep
  | openRx o =>
    simp only [servingStep] at hstep
    split at hstep
    next r hr => exact h.openRx hr hstep
    next => simp at hstep
  | command i command starts =>
    simp only [servingStep] at hstep
    split at hstep
    next hopening =>
      rw [Option.some.injEq] at hstep
      rw [← hstep]
      exact h.command hopening i command starts
    next => simp at hstep
  -- only between two commands, when no registration is under way
  | endOfFile i =>
    simp only [servingStep] at hstep
    split at hstep
    next hopening =>
      split at hstep
      next =>
        rw [Option.some.injEq] at hstep
        rw [← hstep, hopening]
        exact h.close i
      next => simp at hstep
    next => simp at hstep
  | thread k a fileFd => exact h.thread hstep

end Step

theorem Routed.init (own : List ℕ) (serverFifo : ℕ) :
    Routed serverFifo (Serving.init own serverFifo) where
  consistent := Consistent.init own serverFifo
  opening r hr := by simp [Serving.init] at hr
  slots _ hi := Bool.noConfusion hi
  asked := rfl
  threads k t ht := by simp [Serving.init, Server.init] at ht
  sent y hy := by simp [Serving.init] at hy
  bounded := by
    -- only the descriptors of `main` are open
    apply ((serverFifo :: own).map (fun n : ℕ => (n : ℤ))).finite_toSet.subset
    intro fd hfd
    by_contra hmem
    apply hfd
    simp only [List.map_cons, List.mem_cons, List.mem_map, not_or, not_exists, not_and,
      Set.mem_ofPred_eq] at hmem
    refine if_neg ?_
    rintro (heq | ⟨n, hn, heq⟩)
    · exact hmem.1 heq
    · exact hmem.2 n hn heq.symm

/-! ## A descriptor that is reused -/

/-- Some descriptor is free. -/
theorem exists_lowest {descriptors : ℤ → Option Handle}
    (h : {fd : ℤ | descriptors fd ≠ none}.Finite) : ∃ n, IsLowest descriptors n := by
  have hfree : ∃ n : ℕ, descriptors n = none := by
    -- finitely many descriptors are open
    by_contra hnone
    simp only [not_exists] at hnone
    apply Set.infinite_univ (α := ℕ)
    exact (h.preimage (f := fun n : ℕ => (n : ℤ)) Nat.cast_injective.injOn).subset
      fun n _ => hnone n
  classical
  exact ⟨Nat.find hfree, Nat.find_spec hfree, fun n hn => Nat.find_min hfree hn⟩

/-- A thread that is about to write bytes to a FIFO writes them. -/
theorem exists_write {x : Serving} {k : ℕ} {t : Thread} {inode : ℕ}
    (ht : x.server.threads[k]? = some t)
    (hfd : x.server.descriptors t.clientFd = some (.tx inode))
    (hpos : t.pos ≠ .opening) (hmay : MayWrite t.pos) :
    ∃ a y bytes, IsThread x (.thread k a 0) ∧ servingStep x (.thread k a 0) = some y ∧
      ⟨x.asked[k]?, inode, bytes⟩ ∈ y.sent := by
  -- the call of `write` itself; what is written depends on where the thread is
  have hwrite : ∀ (a : SenderAction) (pos : SenderPos) (b : Char) (bytes : Text),
      (∀ size, a ≠ .openFile size) → senderStep t.pos a = some (pos, b :: bytes) →
      ∃ y, servingStep x (.thread k a 0) = some y ∧ ⟨x.asked[k]?, inode, b :: bytes⟩ ∈ y.sent := by
    intro a pos b bytes ha hpos
    have hthread : x.server.stepThread k a 0 = some (x.server.moveThread k t pos, b :: bytes) := by
      simp only [Server.stepThread, ht, hpos, hfd, reduceCtorEq, if_false]
    have hserving : servingStep x (.thread k a 0) = some { x with
        server := x.server.moveThread k t pos
        sent := x.sent ++ [⟨x.asked[k]?, inode, b :: bytes⟩] } := by
      simp only [servingStep, Serving.thread, ht, hthread, hfd]
    refine ⟨_, hserving, ?_⟩
    exact List.mem_append_right _ (List.mem_singleton.mpr rfl)
  cases hp : t.pos with
  | opening => exact absurd hp hpos
  | ended =>
    rw [hp] at hmay
    exact hmay.elim
  | header size =>
    rw [hp] at hmay
    obtain ⟨y, hy, hmem⟩ := hwrite (.writeHeader true) (.sending size 0) 'S'
      (['I', 'Z', 'E', ':'] ++ decimal size ++ ['\n']) (by simp) (by
        rw [hp]
        exact if_pos ⟨hmay, rfl⟩)
    exact ⟨.writeHeader true, y, _, trivial, hy, hmem⟩
  | sending size sent =>
    rw [hp] at hmay
    obtain ⟨y, hy, hmem⟩ := hwrite (.sendChunk ['x'] true) (.sending size (sent + 1)) 'x' []
      (by simp) (by
        rw [hp]
        simp only [senderStep, if_pos (show sent < size ∧ ['x'].length ≤ chunkBytes from
          ⟨hmay, by decide⟩)]
        rfl)
    exact ⟨.sendChunk ['x'] true, y, _, trivial, hy, hmem⟩

/-- A thread that has not ended gets to write, by its own steps, to what its descriptor refers
to. -/
theorem exists_misdirected {x : Serving}
    (hbounded : {fd : ℤ | x.server.descriptors fd ≠ none}.Finite) {k : ℕ} {t : Thread} {inode : ℕ}
    (ht : x.server.threads[k]? = some t) (hmay : MayWrite t.pos)
    (hfd : x.server.descriptors t.clientFd = some (.tx inode)) :
    ∃ tr y bytes, Run servingStep x tr y ∧ StepsMeet IsThread tr ∧
      ⟨x.asked[k]?, inode, bytes⟩ ∈ y.sent := by
  by_cases hp : t.pos = .opening
  swap
  · obtain ⟨a, y, bytes, hthread, hstep, hmem⟩ := exists_write ht hfd hp hmay
    refine ⟨_, y, bytes, Run.single hstep, ?_, hmem⟩
    rw [stepsMeet_cons]
    exact ⟨hthread, stepsMeet_nil _⟩
  · -- first the thread opens its file, on the lowest free descriptor
    obtain ⟨n, hlowest⟩ := exists_lowest hbounded
    have hnext : senderStep t.pos (.openFile 0) = some (.header 0, []) := by
      rw [hp]
      rfl
    have hlt : k < x.server.threads.length := (List.getElem?_eq_some_iff.mp ht).1
    -- the number of the connection is in use, so that the file gets another
    have hne : t.clientFd ≠ n := by
      intro heq
      rw [heq, hlowest.1] at hfd
      simp at hfd
    have hopened : servingStep x (.thread k (.openFile 0) n) = some { x with
        server := { x.server.opened n (.file k) with
          threads := x.server.threads.set k { t with file := some n, pos := .header 0 } } } := by
      simp only [servingStep, Serving.thread, Server.stepThread, ht, hnext, if_pos hlowest.1]
    obtain ⟨a, y, bytes, hthread, hstep, hmem⟩ := exists_write
      (x := { x with
        server := { x.server.opened n (.file k) with
          threads := x.server.threads.set k { t with file := some n, pos := .header 0 } } })
      (k := k) (t := { t with file := some n, pos := .header 0 })
      (by
        show (x.server.threads.set k _)[k]? = _
        rw [List.getElem?_set_self hlt])
      (by
        show Function.update x.server.descriptors _ _ t.clientFd = _
        rw [Function.update_of_ne hne, hfd])
      (by simp)
      (by
        show (sizeHeader 0).length < headerBytes
        decide)
    refine ⟨_, y, bytes, (Run.single hstep).cons hopened, ?_, hmem⟩
    simp only [stepsMeet_cons, stepsMeet_nil, and_true]
    exact ⟨hlowest, hthread⟩

theorem Routed.of_run {own : List ℕ} {serverFifo : ℕ} {tr : List (Serving × ServingAction)}
    {x : Serving} (h : Run servingStep (Serving.init own serverFifo) tr x)
    (hmeet : StepsMeet NotReused tr) : Routed serverFifo x :=
  h.invariant (Routed.init own serverFifo) (fun _ _ _ ht hgood hstep => ht.step hgood hstep) hmeet

/-- In every run in which no registration gets, for its tx FIFO, a descriptor that a thread
started for another client still writes to, every byte goes into the FIFO of the client that
asked for it. A step that breaks the condition is one after which the threads alone can send
bytes to a wrong client. -/
theorem reachesClient_of_run (own : List ℕ) (serverFifo : ℕ)
    {tr : List (Serving × ServingAction)} {x : Serving}
    (h : Run servingStep (Serving.init own serverFifo) tr x) (hmeet : StepsMeet NotReused tr) :
    ReachesClient x ∧ ∀ a x', servingStep x a = some x' →
      (NotReused x a ↔ ∀ tr' y, Run servingStep x' tr' y →
        StepsMeet IsThread tr' → ReachesClient y) := by
  have hx := Routed.of_run h hmeet
  refine ⟨hx.sent, fun a x' hstep => ⟨fun hgood tr' y hrun hthreads => ?_, fun hall => ?_⟩⟩
  · have hy : Routed serverFifo y := by
      apply hrun.invariant (hx.step hgood hstep)
        (fun t b u ht (hb : IsThread t b) hlast => ?_) hthreads
      cases b with
      | thread k c fileFd => exact ht.step (a := .thread k c fileFd) trivial hlast
      | openTx _ _ _ _ | openRx _ | command _ _ _ | endOfFile _ => exact hb.elim
    exact hy.sent
  · cases a with
    | openRx _ | command _ _ _ | endOfFile _ | thread _ _ _ => trivial
    | openTx txPath rxPath fd inode =>
      intro k t ht hmay hclient
      simp only [servingStep] at hstep
      split at hstep
      swap
      · simp at hstep
      next i _ hslot =>
      split at hstep
      swap
      · simp at hstep
      next hlowest =>
      rw [Option.some.injEq] at hstep
      subst hstep
      -- what the thread writes next goes into the FIFO that was just opened
      obtain ⟨tr', y, bytes, hrun, hthreads, hmem⟩ := exists_misdirected
        (x := { x with
          server := x.server.opened fd (.tx inode)
          opening := some { slot := i, txPath, rxPath, tx := fd, inode } })
        (bounded_opened hx.bounded _ _) ht hmay
        (by
          show Function.update x.server.descriptors _ _ t.clientFd = _
          rw [hclient, Function.update_self])
      exact hall tr' y hrun hthreads _ hmem

/-! ## Two clients -/

/-- A registration that succeeds and gets `rx` for its rx FIFO. -/
def joinOn (rx inode : ℕ) : RegisterOutcome where
  txOpen := none
  rxOpen := some (rx, inode)
  added := true
  acked := true
  pending := []
  starts _ _ := true

/-- The first client registers and asks for a file, whose thread opens it. -/
def firstRequest : List ServingAction :=
  [.openTx ['t'] ['r'] 6 100, .openRx (joinOn 7 101),
    .command 0 ['G', 'E', 'T', ' ', 'f'] fun _ _ => true, .thread 0 (.openFile 1) 8]

/-- No thread has been started before a registration. -/
def noThreads (x : Serving) : ServingAction → Bool
  | .openTx _ _ _ _ => x.server.threads.isEmpty
  | _ => true

private theorem served_executes :
    (execute servingStep noThreads (Serving.init [0, 1, 2, 3, 5] 4)
      (firstRequest ++ [.thread 0 (.writeHeader true) 0])).isSome = true := by
  decide +kernel

/-- `reachesClient_of_run` where the client stays until its header is written. -/
theorem reachesClient_one_client :
    ∃ tr x, Run servingStep (Serving.init [0, 1, 2, 3, 5] 4) tr x ∧ x.sent.length = 1 ∧
      ReachesClient x := by
  obtain ⟨tr, hrun, hmeet⟩ := exists_run_of_isSome served_executes
  refine ⟨tr, _, hrun, by decide +kernel,
    (reachesClient_of_run [0, 1, 2, 3, 5] 4 hrun (hmeet.mono ?_)).1⟩
  intro x a ha
  cases a with
  | openRx _ | command _ _ _ | endOfFile _ | thread _ _ _ => trivial
  | openTx txPath rxPath fd inode =>
    intro k t ht
    have hempty : x.server.threads = [] := by simpa [noThreads] using ha
    rw [hempty] at ht
    simp at ht

/-- The first client goes away before its header is written, and a second one registers. -/
def secondClient : List ServingAction :=
  firstRequest ++ [.endOfFile 0, .openTx ['u'] ['s'] 6 200, .openRx (joinOn 7 201),
    .thread 0 (.writeHeader true) 0]

private theorem misdirected_executes :
    (execute servingStep (fun _ _ => true) (Serving.init [0, 1, 2, 3, 5] 4) secondClient).isSome
      = true := by
  decide +kernel

/-- The header of the file that the first client asked for goes to the second one. -/
theorem misdirected_second_client :
    ∃ tr x, Run servingStep (Serving.init [0, 1, 2, 3, 5] 4) tr x ∧ ¬ ReachesClient x := by
  obtain ⟨tr, hrun, -⟩ := exists_run_of_isSome misdirected_executes
  refine ⟨tr, _, hrun, fun hreaches => ?_⟩
  have hsent : ((execute servingStep (fun _ _ => true) (Serving.init [0, 1, 2, 3, 5] 4)
      secondClient).get misdirected_executes).sent.map (fun y => (y.client, y.inode))
      = [(some 100, 200)] := by
    decide +kernel
  obtain ⟨y, hy, heq⟩ := List.mem_map.mp (hsent ▸ List.mem_singleton.mpr rfl)
  have := hreaches y hy
  rw [Prod.mk.injEq] at heq
  rw [heq.1, heq.2, Option.some.injEq] at this
  omega

end FileServer
