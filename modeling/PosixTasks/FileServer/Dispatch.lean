import PosixTasks.FileServer.Table

/-!
# Dispatch in the event loop

`epoll_wait` returns, for each ready descriptor, only the `data.u32` it was added with. `main`
adds the server FIFO with 0, and `register_new_client` adds an rx FIFO with its slot number; the
event loop takes 0 for the server FIFO and everything else for a slot number.

## Main results

* `servedRight_iff_of_reachable`: every event of a batch is served on the descriptor that raised
  it exactly if the rx FIFO of slot 0 is not among them.
-/

namespace FileServer

open CString Lines Transition

/-- An entry of `events`, with the descriptor that raised it. -/
structure Event where
  fd : ℤ
  data : UInt32

/-- What the calls made for an event return. -/
structure Handling where
  /-- What the reads of the server FIFO return until it is empty. -/
  fifoReads : List Text
  /-- The outcomes of the registrations these lead to, in order. -/
  outcomes : List RegisterOutcome
  /-- What is in `buffer` when the reads of an rx FIFO end. -/
  buffer : Text
  /-- They end with end of file, `ECONNRESET` or `EPIPE`. -/
  closed : Bool
  starts : ℕ → Text → Bool

/-- What the event loop does for an event. -/
inductive Served where
  /-- it calls `process_registration_commands` -/
  | registration
  /-- it reads `fd`, the `rx_fd` of slot `i` -/
  | client (i : Fin maxClients) (fd : ℤ)
  /-- it logs an invalid `client_id` -/
  | ignored
  deriving DecidableEq, Repr

namespace Server

/-- A call of `register_new_client` with the next outcome. An `open` that cannot return its
descriptor fails. -/
def registerNext (x : Server × List RegisterOutcome) (txPath rxPath : Text) :
    Server × List RegisterOutcome :=
  match x.2 with
  | [] => x
  | o :: outcomes =>
      (if x.1.Fresh o then (x.1.registerNewClient txPath rxPath o).2 else x.1, outcomes)

/-- `process_registration_commands`. -/
def processRegistrationCommands (s : Server) (fifoReads : List Text)
    (outcomes : List RegisterOutcome) : Server :=
  (fifoReads.foldl (processRegistrationBuffer registerNext) (s, outcomes)).1

/-- `client_id`, if it is the number of a slot. -/
def slotOf (data : UInt32) : Option (Fin maxClients) :=
  if h : data.toNat < maxClients then some ⟨data.toNat, h⟩ else none

/-- The body of the event loop for one event. -/
def serveEvent (s : Server) (ev : Event) (h : Handling) : Served × Server :=
  if ev.data = 0 then (.registration, s.processRegistrationCommands h.fifoReads h.outcomes)
  else
    match slotOf ev.data with
    | none => (.ignored, s)
    | some i =>
        if (s.clients i).isActive then
          -- an end of file closes the slot before the bytes in `buffer` are handled
          let closed := if h.closed then s.closeClientConnection i else s
          (.client i (s.clients i).rxFd, closed.processBuffer h.starts i h.buffer)
        else (.ignored, s)

/-- The event loop over the events that one `epoll_wait` has returned: each event with what was
done for it. -/
def serveEvents (s : Server) : List (Event × Handling) → List (Event × Served)
  | [] => []
  | (ev, h) :: rest => (ev, (s.serveEvent ev h).1) :: (s.serveEvent ev h).2.serveEvents rest

/-- The events for the ready descriptors, as `epoll_wait` finds them in the epoll set. -/
def epollWait (s : Server) (ready : List (ℤ × Handling)) : List (Event × Handling) :=
  ready.filterMap fun x => (s.epoll x.1).map fun data => (⟨x.1, data⟩, x.2)

end Server

/-- The registrations are processed exactly for events of the server FIFO, and the rx FIFO of
slot `i` is read exactly for events of the rx FIFO of the client that is in slot `i`. -/
def ServedRight (serverFifo : ℕ) (s : Server) (ready : List (ℤ × Handling)) : Prop :=
  ∀ x ∈ s.serveEvents (s.epollWait ready),
    (x.2 = .registration ↔ x.1.fd = serverFifo) ∧
      ∀ i, (∃ fd, x.2 = .client i fd) ↔ (s.clients i).isActive ∧ x.1.fd = (s.clients i).rxFd

/-- The rx FIFO of the client in slot 0 is not ready. -/
def SlotZeroQuiet (s : Server) (ready : List (ℤ × Handling)) : Prop :=
  (s.clients 0).isActive → (s.clients 0).rxFd ∉ ready.map Prod.fst

/-! ## A slot is left alone by the events of the others -/

/-- A registration takes a free slot. -/
theorem registerNewClient_clients {serverFifo : ℕ} {s : Server} (h : Consistent serverFifo s)
    {o : RegisterOutcome} (hfresh : s.Fresh o) (txPath rxPath : Text) {j : Fin maxClients}
    (hj : (s.clients j).isActive) :
    (s.registerNewClient txPath rxPath o).2.clients j = s.clients j := by
  rcases registerNewClient_cases h hfresh txPath rxPath with heq | ⟨i, t, hslot, -, hothers, heq⟩
  · rw [heq]
  · have hij : j ≠ i := by
      rintro rfl
      rw [findFreeClientSlot_free hslot] at hj
      exact Bool.noConfusion hj
    rw [heq]
    show (t.processBuffer o.starts i o.pending).clients j = s.clients j
    rw [processBuffer_clients_ne hij, hothers j hij]

/-- What every registration keeps is kept by `process_registration_commands`. -/
theorem processRegistrationCommands_keeps {I : Server → Prop}
    (hregister : ∀ s txPath rxPath o, I s → s.Fresh o → I (s.registerNewClient txPath rxPath o).2)
    {s : Server} (h : I s) (fifoReads : List Text) (outcomes : List RegisterOutcome) :
    I (s.processRegistrationCommands fifoReads outcomes) := by
  -- one line, then the lines of one read, then all reads
  have hnext : ∀ (x : Server × List RegisterOutcome) (txPath rxPath : Text),
      I x.1 → I (Server.registerNext x txPath rxPath).1 := by
    intro x txPath rxPath hx
    unfold Server.registerNext
    split
    · exact hx
    · split
      next hfresh => exact hregister _ _ _ _ hx hfresh
      next => exact hx
  have hbuffer : ∀ (buffer : Text) (x : Server × List RegisterOutcome), I x.1 →
      I (processRegistrationBuffer Server.registerNext x buffer).1 := by
    intro buffer
    unfold processRegistrationBuffer
    induction (split '\n' (ofBuffer buffer)).1 with
    | nil => exact fun x hx => hx
    | cons line lines ih =>
      intro x hx
      rw [List.foldl_cons]
      apply ih
      split
      · exact hnext x _ _ hx
      · exact hx
  have hreads : ∀ (reads : List Text) (x : Server × List RegisterOutcome), I x.1 →
      I (reads.foldl (processRegistrationBuffer Server.registerNext) x).1 := by
    intro reads
    induction reads with
    | nil => exact fun x hx => hx
    | cons buffer reads ih =>
      intro x hx
      rw [List.foldl_cons]
      apply ih
      exact hbuffer buffer x hx
  exact hreads fifoReads (s, outcomes) h

theorem processRegistrationCommands_clients {serverFifo : ℕ} {s : Server}
    (h : Consistent serverFifo s) (fifoReads : List Text) (outcomes : List RegisterOutcome)
    {j : Fin maxClients} (hj : (s.clients j).isActive) :
    (s.processRegistrationCommands fifoReads outcomes).clients j = s.clients j := by
  have hkeeps := processRegistrationCommands_keeps
    (I := fun t => Consistent serverFifo t ∧ t.clients j = s.clients j)
    (fun t txPath rxPath o ht hfresh => ⟨ht.1.registerNewClient hfresh txPath rxPath,
      (registerNewClient_clients ht.1 hfresh txPath rxPath (ht.2 ▸ hj)).trans ht.2⟩)
    ⟨h, rfl⟩ fifoReads outcomes
  exact hkeeps.2

theorem Consistent.serveEvent {serverFifo : ℕ} {s : Server} (hs : Consistent serverFifo s)
    (ev : Event) (h : Handling) : Consistent serverFifo (s.serveEvent ev h).2 := by
  unfold Server.serveEvent
  split
  · exact processRegistrationCommands_keeps
      (fun _ txPath rxPath _ ht hfresh => ht.registerNewClient hfresh txPath rxPath) hs _ _
  · split
    · exact hs
    · split
      · simp only []
        apply Consistent.processBuffer
        split
        · exact hs.closeClientConnection _
        · exact hs
      · exact hs

/-! ## The number of a slot as data -/

theorem slotOf_ofNat (i : Fin maxClients) : Server.slotOf (UInt32.ofNat i) = some i := by
  have htoNat : (UInt32.ofNat i).toNat = i :=
    UInt32.toNat_ofNat_of_lt' (lt_trans i.isLt (by decide))
  simp [Server.slotOf, htoNat]

theorem ofNat_eq_zero_iff (i : Fin maxClients) : UInt32.ofNat i = 0 ↔ i = 0 := by
  constructor
  · intro h
    have := slotOf_ofNat i
    rw [h] at this
    simpa [Server.slotOf, eq_comm] using this
  · rintro rfl
    rfl

/-- An event that does not carry the number of an active slot leaves the slot alone. -/
theorem serveEvent_clients {serverFifo : ℕ} {s : Server} (hs : Consistent serverFifo s) (ev : Event)
    (h : Handling) {j : Fin maxClients} (hj : (s.clients j).isActive)
    (hne : ev.data = 0 ∨ Server.slotOf ev.data ≠ some j) :
    (s.serveEvent ev h).2.clients j = s.clients j := by
  unfold Server.serveEvent
  split
  · exact processRegistrationCommands_clients hs _ _ hj
  next hdata =>
    -- the event is that of another client
    have hslot := hne.resolve_left hdata
    split
    · rfl
    next i hi =>
      have hij : j ≠ i := by
        rintro rfl
        exact hslot hi
      split
      · simp only []
        rw [processBuffer_clients_ne hij]
        split
        · exact closeClientConnection_clients_ne hij
        · rfl
      · rfl

/-! ## The events of a batch -/

/-- An event still to be served was raised by the server FIFO, or by the client of a slot other
than 0 that nothing has happened to since `epoll_wait`. -/
def Waits (serverFifo : ℕ) (s₀ s : Server) (ev : Event) : Prop :=
  (ev.fd = serverFifo ∧ ev.data = 0) ∨
    ∃ i, i ≠ 0 ∧ (s₀.clients i).isActive ∧ ev.fd = (s₀.clients i).rxFd ∧
      ev.data = UInt32.ofNat i ∧ s.clients i = s₀.clients i

/-- What `ServedRight` asks for one event. -/
def Right (serverFifo : ℕ) (s : Server) (x : Event × Served) : Prop :=
  (x.2 = .registration ↔ x.1.fd = serverFifo) ∧
    ∀ i, (∃ fd, x.2 = .client i fd) ↔ (s.clients i).isActive ∧ x.1.fd = (s.clients i).rxFd

/-- The server FIFO is the rx FIFO of no slot. -/
theorem serverFifo_ne_rxFd {serverFifo : ℕ} {s : Server} (h : Consistent serverFifo s)
    {i : Fin maxClients} (hi : (s.clients i).isActive) : (serverFifo : ℤ) ≠ (s.clients i).rxFd := by
  intro heq
  obtain ⟨inode, hrx⟩ := h.rxOpen i hi
  rw [← heq, h.serverOpen, Option.some.injEq] at hrx
  exact Handle.noConfusion hrx

theorem right_of_waits {serverFifo : ℕ} {s₀ s : Server} (h₀ : Consistent serverFifo s₀) {ev : Event}
    (hwaits : Waits serverFifo s₀ s ev) (h : Handling) :
    Right serverFifo s₀ (ev, (s.serveEvent ev h).1) := by
  rcases hwaits with ⟨hfd, hdata⟩ | ⟨i, hi0, hact, hfd, hdata, hsame⟩
  · have hserved : (s.serveEvent ev h).1 = .registration := by
      simp [Server.serveEvent, hdata]
    refine ⟨?_, fun j => ?_⟩
    · simp [hserved, hfd]
    · simp only [hserved, hfd]
      constructor
      · rintro ⟨fd, hclient⟩
        exact Served.noConfusion hclient
      · rintro ⟨hj, heq⟩
        exact absurd heq (serverFifo_ne_rxFd h₀ hj)
  · have hne : ev.data ≠ 0 := by
      rw [hdata]
      exact fun heq => hi0 ((ofNat_eq_zero_iff i).mp heq)
    have hserved : (s.serveEvent ev h).1 = .client i (s₀.clients i).rxFd := by
      rw [Server.serveEvent, if_neg hne]
      simp only [hdata, slotOf_ofNat, hsame, hact, if_true]
    refine ⟨?_, fun j => ?_⟩
    · rw [hserved]
      refine iff_of_false (by simp) ?_
      rw [hfd]
      exact (serverFifo_ne_rxFd h₀ hact).symm
    · simp only [hserved, hfd]
      constructor
      · rintro ⟨fd, hclient⟩
        obtain ⟨rfl, -⟩ := Served.client.inj hclient
        exact ⟨hact, rfl⟩
      · rintro ⟨hj, heq⟩
        -- the descriptor belongs to one slot only
        have hij : i = j := by
          by_contra hij
          exact (h₀.apart i j hact hj hij).2 heq
        subst hij
        exact ⟨_, rfl⟩

/-- Events that wait on different descriptors do not disturb each other. -/
theorem right_of_serveEvents {serverFifo : ℕ} {s₀ s : Server} (h₀ : Consistent serverFifo s₀)
    (hs : Consistent serverFifo s) {events : List (Event × Handling)}
    (hnodup : (events.map fun x => x.1.fd).Nodup)
    (hwaits : ∀ x ∈ events, Waits serverFifo s₀ s x.1) :
    ∀ x ∈ s.serveEvents events, Right serverFifo s₀ x := by
  induction events generalizing s with
  | nil => simp [Server.serveEvents]
  | cons x events ih =>
    obtain ⟨ev, h⟩ := x
    rw [List.map_cons, List.nodup_cons] at hnodup
    rw [List.forall_mem_cons] at hwaits
    simp only [Server.serveEvents, List.forall_mem_cons]
    refine ⟨right_of_waits h₀ hwaits.1 h, ih (hs.serveEvent ev h) hnodup.2 fun y hy => ?_⟩
    rcases hwaits.2 y hy with hserver | ⟨j, hj0, hact, hfd, hdata, hsame⟩
    · exact Or.inl hserver
    · refine Or.inr ⟨j, hj0, hact, hfd, hdata, ?_⟩
      rw [serveEvent_clients hs ev h (by rw [hsame, hact]), hsame]
      -- the event that was served is that of another slot
      rcases hwaits.1 with ⟨-, hzero⟩ | ⟨i, -, hacti, hfdi, hdatai, -⟩
      · exact Or.inl hzero
      · refine Or.inr ?_
        rw [hdatai, slotOf_ofNat]
        intro hij
        rw [Option.some.injEq] at hij
        subst hij
        refine hnodup.1 (List.mem_map.mpr ⟨y, hy, ?_⟩)
        rw [hfd, hfdi]

/-! ## Batches -/

theorem fds_epollWait (s : Server) (ready : List (ℤ × Handling)) :
    ((s.epollWait ready).map fun x => x.1.fd).Sublist (ready.map Prod.fst) := by
  induction ready with
  | nil => exact List.Sublist.refl _
  | cons x ready ih =>
    cases hx : s.epoll x.1 with
    | none =>
      rw [Server.epollWait, List.filterMap_cons_none (by simp [hx]), List.map_cons]
      exact List.Sublist.cons _ ih
    | some data =>
      rw [Server.epollWait, List.filterMap_cons_some (b := (⟨x.1, data⟩, x.2)) (by simp [hx]),
        List.map_cons, List.map_cons]
      exact List.Sublist.cons_cons _ ih

/-- An event comes from a ready descriptor and carries its data. -/
theorem mem_epollWait {s : Server} {ready : List (ℤ × Handling)} {x : Event × Handling}
    (h : x ∈ s.epollWait ready) :
    x.1.fd ∈ ready.map Prod.fst ∧ s.epoll x.1.fd = some x.1.data := by
  obtain ⟨y, hy, hxy⟩ := List.mem_filterMap.mp h
  obtain ⟨data, hdata, rfl⟩ := Option.map_eq_some_iff.mp hxy
  exact ⟨List.mem_map_of_mem hy, hdata⟩

/-- Each event is served once. -/
theorem map_serveEvents (s : Server) (events : List (Event × Handling)) :
    (s.serveEvents events).map Prod.fst = events.map Prod.fst := by
  induction events generalizing s with
  | nil => rfl
  | cons x events ih =>
    simp only [Server.serveEvents, List.map_cons, ih]

/-- An event with data 0 is taken for one of the server FIFO, whatever came before it. -/
theorem served_of_data_zero {s : Server} {events : List (Event × Handling)} {x : Event × Served}
    (h : x ∈ s.serveEvents events) (hzero : x.1.data = 0) : x.2 = .registration := by
  induction events generalizing s with
  | nil => simp [Server.serveEvents] at h
  | cons y events ih =>
    obtain ⟨ev, handling⟩ := y
    rcases List.mem_cons.mp h with rfl | h
    · simp [Server.serveEvent, show ev.data = 0 from hzero]
    · exact ih h

/-- In every reachable state and for every set of ready descriptors, every event is served on the
descriptor that raised it exactly if the rx FIFO of the client in slot 0 is not ready. -/
theorem servedRight_iff_of_reachable (own : List ℕ) (serverFifo : ℕ) {s : Server}
    (hreach : Reachable serverStep (Server.init own serverFifo) s) {ready : List (ℤ × Handling)}
    (hset : (ready.map Prod.fst).Nodup) :
    ServedRight serverFifo s ready ↔ SlotZeroQuiet s ready := by
  have hs := Consistent.of_reachable hreach
  constructor
  · intro hright hact hmem
    -- the event of slot 0 has the data of the server FIFO
    obtain ⟨y, hy, hfd⟩ := List.mem_map.mp hmem
    have hevent : ((⟨y.1, 0⟩, y.2) : Event × Handling) ∈ s.epollWait ready := by
      refine List.mem_filterMap.mpr ⟨y, hy, ?_⟩
      rw [hfd, hs.watched 0 hact]
      rfl
    have hfst : (⟨y.1, 0⟩ : Event) ∈ (s.serveEvents (s.epollWait ready)).map Prod.fst := by
      rw [map_serveEvents]
      exact List.mem_map_of_mem hevent
    obtain ⟨x, hx, hx1⟩ := List.mem_map.mp hfst
    have hserved := served_of_data_zero hx (by rw [hx1])
    have hfifo := (hright x hx).1.mp hserved
    rw [hx1] at hfifo
    exact serverFifo_ne_rxFd hs hact (hfifo.symm.trans hfd)
  · intro hquiet
    apply right_of_serveEvents hs hs
    · exact (fds_epollWait s ready).nodup hset
    · intro x hx
      obtain ⟨hmem, hdata⟩ := mem_epollWait hx
      rcases hs.origin _ _ hdata with hserver | ⟨i, hact, hfd, hdatai⟩
      · exact Or.inl hserver
      · refine Or.inr ⟨i, ?_, hact, hfd, hdatai, rfl⟩
        rintro rfl
        exact hquiet hact (hfd ▸ hmem)

/-- Nothing comes of an event. -/
def Handling.idle : Handling where
  fifoReads := []
  outcomes := []
  buffer := []
  closed := false
  starts _ _ := true

/-- `servedRight_iff_of_reachable` with a client in slot 0 and an event of the server FIFO. -/
theorem servedRight_serverFifo : ServedRight 4 oneClient [(4, Handling.idle)] := by
  refine (servedRight_iff_of_reachable [0, 1, 2, 3, 5] 4 reachable_oneClient (by simp)).mpr ?_
  have hrx : (oneClient.clients 0).rxFd = 7 := by decide +kernel
  intro _
  rw [hrx]
  simp

/-- The first client sends a command: the event of its rx FIFO is taken for a registration. -/
theorem servedWrong_slot_zero :
    ∃ s ready, Reachable serverStep (Server.init [0, 1, 2, 3, 5] 4) s ∧
      (ready.map Prod.fst).Nodup ∧ ¬ ServedRight 4 s ready := by
  refine ⟨oneClient, [(7, Handling.idle)], reachable_oneClient, by simp, fun hright => ?_⟩
  have hepoll : oneClient.epoll 7 = some 0 := by decide +kernel
  have hmem : ((⟨7, 0⟩, .registration) : Event × Served) ∈
      oneClient.serveEvents (oneClient.epollWait [(7, Handling.idle)]) := by
    simp [Server.epollWait, hepoll, Server.serveEvents, Server.serveEvent]
  have hfifo : (7 : ℤ) = (4 : ℕ) := (hright _ hmem).1.mp rfl
  omega

end FileServer
