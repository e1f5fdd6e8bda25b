import PosixTasks.Lib.Network
import PosixTasks.Lib.Transition
import PosixTasks.MonteCarlo.Discovery

/-!
# Discovery over a network

`discover_servers_udp` broadcasts `DISCOVERY_REQUEST` to the port `UDP_DISCOVERY_PORT` of all hosts;
`start_udp_discovery_server` answers each request with `DISCOVERY_RESPONSE`. The network may lose
datagrams, deliver them twice and in any order, and others may send datagrams too. Whatever comes,
the client notes the address of the sender with the port `TCP_TASK_PORT`; the port that a server was
started with is not sent.

An action lets the client or a server take its next step, or something happen on the network.

## Main results

* `known_step`: only hosts that have answered are on the way into the list;
* `underWay_step`: on a network that loses nothing each host is asked, answering, or noted;
* `discovered_of_run`: which servers are found.
-/

namespace MonteCarlo

namespace Broadcast

open CString Distinct Network Transition

/-- `DISCOVERY_REQUEST` -/
def discoveryRequest : Text :=
  ['M', 'O', 'N', 'T', 'E', '_', 'C', 'A', 'R', 'L', 'O', '_', 'D', 'I', 'S', 'C', 'O', 'V', 'E',
    'R', 'Y']

/-- A host on which the server runs. -/
structure Host where
  addr : UInt32
  /-- `cfg->tcp_port` -/
  tcpPort : UInt16

/-- Who has sent a datagram to a server. -/
inductive Peer where
  /-- `discover_servers_udp` -/
  | client
  | stranger
  deriving DecidableEq

/-- A datagram under way. -/
inductive Packet where
  /-- to the discovery port of a host -/
  | toServer (peer : Peer) (host : UInt32) (payload : Text)
  /-- to the socket of the client -/
  | toClient (sender : UInt32) (payload : Text)
  deriving DecidableEq

/-- Where `discover_servers_udp` is. -/
inductive ClientPc where
  /-- before `sendto` -/
  | setup
  /-- at the test of the loop -/
  | receiving
  | returned (code : ℤ)
  deriving DecidableEq

/-- The client and what is under way. -/
structure State where
  packets : List Packet
  client : ClientPc
  /-- `*server_list` -/
  list : ServerList
  /-- History: what `recvfrom` has returned to the client. -/
  arrived : List Datagram
  /-- History: the hosts that have answered a request. -/
  answered : List UInt32

/-- The state before the broadcast. -/
def init : State where
  packets := []
  client := .setup
  list := .empty
  arrived := []
  answered := []

/-- The steps of the client, of the servers and of the network. -/
inductive Action where
  /-- `sendto` of the request returns -/
  | broadcast (ok : Bool)
  /-- `recvfrom` of the client returns the datagram -/
  | receive (i : ℕ)
  /-- `recvfrom` of the client fails -/
  | timeout
  /-- the loop of the client ends because the list is full -/
  | full
  /-- a server receives the datagram; `ok` tells whether its `sendto` succeeds -/
  | serve (i : ℕ) (ok : Bool)
  | disturb (i : ℕ) (d : Disturbance)
  /-- someone else sends a datagram -/
  | stray (p : Packet)

/-- The `strcmp` of the buffer with `DISCOVERY_REQUEST`. -/
def isRequest (payload : Text) : Bool :=
  ofBuffer (payload.take discoveryBytes) = discoveryRequest

/-- What a server sends to who has asked. The answer to a stranger is of no interest here. -/
def answerTo (peer : Peer) (host : UInt32) : List Packet :=
  if peer = .client then [.toClient host discoveryResponse] else []

variable (hosts : List Host)

/-- The broadcast is sent to each host. -/
def broadcastStep (s : State) (ok : Bool) : Option State :=
  match s.client with
  | .setup =>
      if ok then
        some { s with
          packets := s.packets ++
            hosts.map fun host => .toServer .client host.addr discoveryRequest
          client := .receiving }
      else some { s with client := .returned (-1) }
  | _ => none

/-- One round of the receive loop. -/
def receiveStep (s : State) (i : ℕ) : Option State :=
  match s.client, take s.packets i with
  | .receiving, some (.toClient sender payload, packets) =>
      if h : s.list.count < maxServers then
        some { s with
          packets
          list := if isResponse payload then addServer s.list h sender else s.list
          arrived := s.arrived ++ [{ sender, payload }] }
      else none
  | _, _ => none

/-- One round of the loop of `start_udp_discovery_server`. -/
def serveStep (s : State) (i : ℕ) (ok : Bool) : Option State :=
  match take s.packets i with
  | some (.toServer peer host payload, packets) =>
      if host ∈ hosts.map Host.addr then
        if isRequest payload ∧ ok then
          some { s with
            packets := packets ++ answerTo peer host
            answered := s.answered ++ [host] }
        else some { s with packets }
      else none
  | _ => none

/-- One step of the client, of a server or of the network. -/
def step (s : State) : Action → Option State
  | .broadcast ok => broadcastStep hosts s ok
  | .receive i => receiveStep s i
  | .timeout =>
      if s.client = .receiving ∧ s.list.count < maxServers then
        some { s with client := .returned s.list.count }
      else none
  | .full =>
      if s.client = .receiving ∧ ¬ s.list.count < maxServers then
        some { s with client := .returned s.list.count }
      else none
  | .serve i ok => serveStep hosts s i ok
  | .disturb i d => (disturb s.packets i d).map fun packets => { s with packets }
  | .stray p =>
      match p with
      | .toServer .client _ _ => none
      | .toServer .stranger _ _ | .toClient _ _ => some { s with packets := s.packets ++ [p] }

section Proofs

variable {hosts : List Host} {s s' : State}

/-! ## One step -/

@[simp]
theorem isRequest_discoveryRequest : isRequest discoveryRequest = true := by
  decide

@[simp]
theorem isResponse_discoveryResponse : isResponse discoveryResponse = true := by
  decide

/-- The loop goes on with one datagram more. -/
theorem discoverLoop_concat (list : ServerList) (datagrams : List Datagram) (d : Datagram)
    (h : (discoverLoop list datagrams).count < maxServers) :
    discoverLoop list (datagrams ++ [d]) = if isResponse d.payload
      then addServer (discoverLoop list datagrams) h d.sender else discoverLoop list datagrams := by
  induction datagrams generalizing list with
  | nil =>
    have hroom : list.count < maxServers := h
    simp only [List.nil_append, discoverLoop, dif_pos hroom]
  | cons first datagrams ih =>
    rw [List.cons_append]
    simp only [discoverLoop] at h ⊢
    split
    next hroom =>
      simp only [dif_pos hroom] at h
      split
      next hresponse =>
        simp only [if_pos hresponse] at h
        exact ih _ h
      next hresponse =>
        simp only [if_neg hresponse] at h
        exact ih _ h
    next hroom =>
      simp only [dif_neg hroom] at h
      exact absurd h hroom

theorem broadcastStep_cases {ok : Bool} (h : broadcastStep hosts s ok = some s') :
    s.client = .setup ∧ ((ok = true ∧ s' = { s with
        packets := s.packets ++ hosts.map fun host => .toServer .client host.addr discoveryRequest
        client := .receiving }) ∨
      (ok = false ∧ s' = { s with client := .returned (-1) })) := by
  unfold broadcastStep at h
  split at h
  next hpc =>
    refine ⟨hpc, ?_⟩
    cases ok with
    | true => exact Or.inl ⟨rfl, (Option.some.inj h).symm⟩
    | false => exact Or.inr ⟨rfl, (Option.some.inj h).symm⟩
  next => cases h

theorem receiveStep_cases {i : ℕ} (h : receiveStep s i = some s') :
    ∃ (sender : UInt32) (payload : Text) (packets : List Packet)
      (hroom : s.list.count < maxServers),
      s.client = .receiving ∧ take s.packets i = some (.toClient sender payload, packets) ∧
      s' = { s with
        packets := packets
        list := if isResponse payload then addServer s.list hroom sender else s.list
        arrived := s.arrived ++ [{ sender, payload }] } := by
  unfold receiveStep at h
  split at h
  next sender payload packets hpc htake =>
    split at h
    next hroom => exact ⟨sender, payload, packets, hroom, hpc, htake, (Option.some.inj h).symm⟩
    next => cases h
  next => cases h

theorem serveStep_cases {i : ℕ} {ok : Bool} (h : serveStep hosts s i ok = some s') :
    ∃ (peer : Peer) (host : UInt32) (payload : Text) (packets : List Packet),
      take s.packets i = some (.toServer peer host payload, packets) ∧ host ∈ hosts.map Host.addr ∧
      ((isRequest payload = true ∧ ok = true ∧ s' = { s with
          packets := packets ++ answerTo peer host
          answered := s.answered ++ [host] }) ∨
        (¬ (isRequest payload = true ∧ ok = true) ∧ s' = { s with packets := packets })) := by
  unfold serveStep at h
  split at h
  next peer host payload packets htake =>
    split_ifs at h with hhost hrequest
    · exact ⟨peer, host, payload, packets, htake, hhost,
        Or.inl ⟨hrequest.1, hrequest.2, (Option.some.inj h).symm⟩⟩
    · exact ⟨peer, host, payload, packets, htake, hhost,
        Or.inr ⟨hrequest, (Option.some.inj h).symm⟩⟩
  next => cases h

theorem stray_packets {p : Packet} (h : step hosts s (.stray p) = some s') :
    s' = { s with packets := s.packets ++ [p] } := by
  simp only [step] at h
  split at h
  next => cases h
  next => exact (Option.some.inj h).symm
  next => exact (Option.some.inj h).symm

/-! ## What is noted -/

/-- No stranger sends what begins with `DISCOVERY_RESPONSE` to the client. -/
def Honest (_ : State) (a : Action) : Prop :=
  ∀ sender payload, a = .stray (.toClient sender payload) → isResponse payload = false

/-- Who is noted, or on the way to it, has answered. -/
structure Known (hosts : List Host) (s : State) : Prop where
  list : s.list = discoverLoop .empty s.arrived
  packets : ∀ sender payload, .toClient sender payload ∈ s.packets → isResponse payload = true →
    sender ∈ s.answered
  arrived : ∀ d ∈ s.arrived, isResponse d.payload = true → d.sender ∈ s.answered
  answered : ∀ host ∈ s.answered, host ∈ hosts.map Host.addr
  setup : s.client = .setup → s.arrived = []
  returned : ∀ code, s.client = .returned code → code = s.list.count ∨ (code = -1 ∧ s.arrived = [])

theorem known_init (hosts : List Host) : Known hosts init where
  list := rfl
  packets sender payload h := by simp [init] at h
  arrived d h := by simp [init] at h
  answered host h := by simp [init] at h
  setup _ := rfl
  returned code h := by simp [init] at h

theorem known_broadcast (hs : Known hosts s) {ok : Bool}
    (h : broadcastStep hosts s ok = some s') : Known hosts s' := by
  obtain ⟨hpc, ⟨-, rfl⟩ | ⟨-, rfl⟩⟩ := broadcastStep_cases h
  · refine ⟨hs.list, fun sender payload hmem hresponse => ?_, hs.arrived, hs.answered,
      fun _ => hs.setup hpc, fun code hcode => by cases hcode⟩
    rcases List.mem_append.mp hmem with hmem | hmem
    · exact hs.packets sender payload hmem hresponse
    · simp at hmem
  · -- the client gives up before it has received anything
    refine ⟨hs.list, hs.packets, hs.arrived, hs.answered, fun _ => hs.setup hpc,
      fun code hcode => Or.inr ⟨?_, hs.setup hpc⟩⟩
    exact (ClientPc.returned.inj hcode).symm

theorem known_receive (hs : Known hosts s) {i : ℕ} (h : receiveStep s i = some s') :
    Known hosts s' := by
  obtain ⟨sender, payload, packets, hroom, hpc, htake, rfl⟩ := receiveStep_cases h
  refine ⟨?_, fun other text hmem => hs.packets other text (mem_of_mem_rest htake hmem), ?_,
    hs.answered, fun hsetup => ?_, fun code hcode => ?_⟩
  · have hroom' : (discoverLoop .empty s.arrived).count < maxServers := hs.list ▸ hroom
    rw [discoverLoop_concat _ _ _ hroom']
    simp only [hs.list]
  · intro d hd hresponse
    rcases List.mem_append.mp hd with hd | hd
    · exact hs.arrived d hd hresponse
    · obtain rfl := List.mem_singleton.mp hd
      exact hs.packets sender payload (mem_of_take htake) hresponse
  · simp [hpc] at hsetup
  · simp [hpc] at hcode

theorem known_serve (hs : Known hosts s) {i : ℕ} {ok : Bool}
    (h : serveStep hosts s i ok = some s') : Known hosts s' := by
  obtain ⟨peer, host, payload, packets, htake, hhost, ⟨-, -, rfl⟩ | ⟨-, rfl⟩⟩ := serveStep_cases h
  · have hgrow : ∀ a ∈ s.answered, a ∈ s.answered ++ [host] := fun a =>
      List.mem_append_left [host]
    refine ⟨hs.list, fun sender text hmem hresponse => ?_,
      fun d hd hresponse => hgrow _ (hs.arrived d hd hresponse), fun a ha => ?_, hs.setup,
      hs.returned⟩
    · -- a response under way is an old one, or the one that is sent now
      rcases List.mem_append.mp hmem with hmem | hmem
      · exact hgrow _ (hs.packets sender text (mem_of_mem_rest htake hmem) hresponse)
      · rw [answerTo] at hmem
        split at hmem
        · obtain ⟨rfl, -⟩ := Packet.toClient.inj (List.mem_singleton.mp hmem)
          exact List.mem_append_right _ List.mem_cons_self
        · cases hmem
    · rcases List.mem_append.mp ha with ha | ha
      · exact hs.answered a ha
      · exact List.mem_singleton.mp ha ▸ hhost
  · exact ⟨hs.list, fun sender text hmem => hs.packets sender text (mem_of_mem_rest htake hmem),
      hs.arrived, hs.answered, hs.setup, hs.returned⟩

theorem known_step (hs : Known hosts s) {a : Action} (ha : Honest s a)
    (h : step hosts s a = some s') : Known hosts s' := by
  cases a with
  | broadcast ok => exact known_broadcast hs h
  | receive i => exact known_receive hs h
  | timeout | full =>
    simp only [step] at h
    split_ifs at h
    obtain rfl := Option.some.inj h
    exact ⟨hs.list, hs.packets, hs.arrived, hs.answered, fun hsetup => (by cases hsetup),
      fun code hcode => Or.inl (ClientPc.returned.inj hcode).symm⟩
  | serve i ok => exact known_serve hs h
  | disturb i d =>
    obtain ⟨packets, hpackets, rfl⟩ := Option.map_eq_some_iff.mp h
    exact ⟨hs.list, fun sender payload hmem => hs.packets sender payload
      (mem_of_mem_disturb hpackets hmem), hs.arrived, hs.answered, hs.setup, hs.returned⟩
  | stray p =>
    obtain rfl := stray_packets h
    -- what strangers send is no response
    refine ⟨hs.list, fun sender payload hmem hresponse => ?_, hs.arrived, hs.answered, hs.setup,
      hs.returned⟩
    rcases List.mem_append.mp hmem with hmem | hmem
    · exact hs.packets sender payload hmem hresponse
    · rw [ha sender payload (by rw [List.mem_singleton.mp hmem])] at hresponse
      cases hresponse

/-! ## What is on its way -/

/-- The broadcast succeeds, each server can answer, and no datagram is lost. -/
def Reliable (_ : State) (a : Action) : Prop :=
  a ≠ .broadcast false ∧ (∀ i, a ≠ .serve i false) ∧ ∀ i, a ≠ .disturb i .lose

/-- A host has still to be asked, its answer is under way, or it has arrived. -/
def UnderWay (s : State) (host : UInt32) : Prop :=
  .toServer .client host discoveryRequest ∈ s.packets ∨
    .toClient host discoveryResponse ∈ s.packets ∨
    ∃ d ∈ s.arrived, d.sender = host ∧ isResponse d.payload = true

theorem UnderWay.mono {host : UInt32} (h : UnderWay s host)
    (hpackets : ∀ p ∈ s.packets, p ∈ s'.packets) (harrived : ∀ d ∈ s.arrived, d ∈ s'.arrived) :
    UnderWay s' host := by
  rcases h with h | h | ⟨d, hd, hsender⟩
  · exact Or.inl (hpackets _ h)
  · exact Or.inr (Or.inl (hpackets _ h))
  · exact Or.inr (Or.inr ⟨d, harrived d hd, hsender⟩)

/-- Once the broadcast is sent, no host is forgotten. -/
def AllUnderWay (hosts : List Host) (s : State) : Prop :=
  s.client ≠ .setup → ∀ host ∈ hosts.map Host.addr, UnderWay s host

theorem allUnderWay_receive (hs : AllUnderWay hosts s) {i : ℕ} (h : receiveStep s i = some s') :
    AllUnderWay hosts s' := by
  obtain ⟨sender, payload, packets, hroom, hpc, htake, rfl⟩ := receiveStep_cases h
  intro _ host hhost
  rcases hs (by simp [hpc]) host hhost with hask | hanswer | ⟨d, hd, hsender⟩
  · rcases eq_or_mem_rest htake hask with heq | hrest
    · cases heq
    · exact Or.inl hrest
  · rcases eq_or_mem_rest htake hanswer with heq | hrest
    · -- the answer of the host arrives
      obtain ⟨rfl, rfl⟩ := Packet.toClient.inj heq
      exact Or.inr (Or.inr ⟨⟨host, discoveryResponse⟩, by simp, rfl, isResponse_discoveryResponse⟩)
    · exact Or.inr (Or.inl hrest)
  · exact Or.inr (Or.inr ⟨d, List.mem_append_left _ hd, hsender⟩)

theorem allUnderWay_serve (hs : AllUnderWay hosts s) {i : ℕ}
    (h : serveStep hosts s i true = some s') : AllUnderWay hosts s' := by
  obtain ⟨peer, asked, payload, packets, htake, -, ⟨-, -, rfl⟩ | ⟨hno, rfl⟩⟩ := serveStep_cases h
  · intro hpc host hhost
    rcases hs hpc host hhost with hask | hanswer | harrived
    · rcases eq_or_mem_rest htake hask with heq | hrest
      · -- the host answers
        obtain ⟨rfl, rfl, -⟩ := Packet.toServer.inj heq
        exact Or.inr (Or.inl (List.mem_append_right _ (by simp [answerTo])))
      · exact Or.inl (List.mem_append_left _ hrest)
    · rcases eq_or_mem_rest htake hanswer with heq | hrest
      · cases heq
      · exact Or.inr (Or.inl (List.mem_append_left _ hrest))
    · exact Or.inr (Or.inr harrived)
  · intro hpc host hhost
    rcases hs hpc host hhost with hask | hanswer | harrived
    · rcases eq_or_mem_rest htake hask with heq | hrest
      · -- a request that a server takes is not left without an answer
        obtain ⟨-, -, rfl⟩ := Packet.toServer.inj heq
        exact absurd ⟨isRequest_discoveryRequest, rfl⟩ hno
      · exact Or.inl hrest
    · rcases eq_or_mem_rest htake hanswer with heq | hrest
      · cases heq
      · exact Or.inr (Or.inl hrest)
    · exact Or.inr (Or.inr harrived)

theorem allUnderWay_step (hs : AllUnderWay hosts s) {a : Action} (ha : Reliable s a)
    (h : step hosts s a = some s') : AllUnderWay hosts s' := by
  -- the broadcast is sent, no server fails and no datagram is lost
  obtain ⟨hbroadcast, hserve, hlose⟩ := ha
  cases a with
  | broadcast ok =>
    obtain ⟨hpc, ⟨-, rfl⟩ | ⟨rfl, -⟩⟩ := broadcastStep_cases h
    · intro _ host hhost
      obtain ⟨server, hserver, rfl⟩ := List.mem_map.mp hhost
      exact Or.inl (List.mem_append_right _ (List.mem_map.mpr ⟨server, hserver, rfl⟩))
    · exact absurd rfl hbroadcast
  | receive i => exact allUnderWay_receive hs h
  | timeout | full =>
    simp only [step] at h
    split_ifs at h with hpc
    obtain rfl := Option.some.inj h
    exact fun _ host hhost => hs (by simp [hpc.1]) host hhost
  | serve i ok =>
    cases ok with
    | true => exact allUnderWay_serve hs h
    | false => exact absurd rfl (hserve i)
  | disturb i d =>
    obtain ⟨packets, hpackets, rfl⟩ := Option.map_eq_some_iff.mp h
    cases d with
    | lose => exact absurd rfl (hlose i)
    | duplicate =>
      exact fun hpc host hhost => (hs hpc host hhost).mono (fun p => mem_duplicate hpackets)
        fun _ hd => hd
  | stray p =>
    obtain rfl := stray_packets h
    exact fun hpc host hhost => (hs hpc host hhost).mono
      (fun _ hp => List.mem_append_left _ hp) fun _ hd => hd

/-! ## Along a run -/

theorem known_of_run {tr : List (State × Action)} (hrun : Run (step hosts) init tr s)
    (hhonest : StepsMeet Honest tr) : Known hosts s :=
  hrun.invariant (known_init hosts) (fun _ _ _ ht ha hstep => known_step ht ha hstep) hhonest

theorem allUnderWay_of_run {tr : List (State × Action)} (hrun : Run (step hosts) init tr s)
    (hreliable : StepsMeet Reliable tr) : AllUnderWay hosts s :=
  hrun.invariant (fun hne => absurd rfl hne)
    (fun _ _ _ ht ha hstep => allUnderWay_step ht ha hstep) hreliable

theorem Known.collected (hs : Known hosts s) : Collected s.arrived s.list :=
  hs.list ▸ collected_discoverLoop s.arrived

/-- Who has responded has answered a request. -/
theorem Known.mem_answered (hs : Known hosts s) {addr : UInt32}
    (h : addr ∈ responders s.arrived) : addr ∈ s.answered := by
  obtain ⟨d, hd, rfl⟩ := List.mem_map.mp h
  rw [List.mem_filter, decide_eq_true_eq] at hd
  exact hs.arrived d hd.1 ((isResponse_iff d.payload).mpr hd.2)

theorem Known.subset_answered (hs : Known hosts s) {addr : UInt32}
    (h : addr ∈ s.list.addresses) : addr ∈ s.answered := by
  rw [hs.collected.first] at h
  exact hs.mem_answered (List.mem_eraseDups.mp (List.mem_of_mem_take h))

/-- If the hosts fit into the list, all responders are noted. -/
theorem Known.mem_addresses_iff (hs : Known hosts s) (hfit : hosts.length ≤ maxServers)
    (addr : UInt32) : addr ∈ s.list.addresses ↔ addr ∈ responders s.arrived := by
  have hsub : (responders s.arrived).eraseDups ⊆ hosts.map Host.addr := fun a ha =>
    hs.answered a (hs.mem_answered (List.mem_eraseDups.mp ha))
  have hlen : (responders s.arrived).eraseDups.length ≤ maxServers := by
    refine ((nodup_eraseDups _).subperm hsub).length_le.trans ?_
    rwa [List.length_map]
  rw [hs.collected.first, List.take_of_length_le hlen]
  exact List.mem_eraseDups

/-- What is still to come is not there any more. -/
theorem AllUnderWay.mem_responders (hs : AllUnderWay hosts s) (hpc : s.client ≠ .setup)
    (hquiet : s.packets = []) {addr : UInt32} (h : addr ∈ hosts.map Host.addr) :
    addr ∈ responders s.arrived := by
  rcases hs hpc addr h with hask | hanswer | ⟨d, hd, rfl, hresponse⟩
  · rw [hquiet] at hask
    cases hask
  · rw [hquiet] at hanswer
    cases hanswer
  · refine List.mem_map_of_mem (List.mem_filter.mpr ⟨hd, ?_⟩)
    exact decide_eq_true ((isResponse_iff d.payload).mp hresponse)

end Proofs

/-- A server can be connected to at the port that is noted for it. -/
def Connectable (hosts : List Host) (server : ServerInfo) : Prop :=
  ∃ host ∈ hosts, host.addr = server.addr ∧ host.tcpPort = server.port

/-- Whatever the network does and others send, as long as no one else sends a response: the list
has hosts that have answered, each once. On a network that loses nothing, with no more than
`MAX_SERVERS` hosts, the client has all of them when nothing is under way any more; and each can be
connected to exactly if all of them use the port `TCP_TASK_PORT`. -/
theorem discovered_of_run {hosts : List Host} {tr : List (State × Action)} {s : State}
    (hrun : Run (step hosts) init tr s) (hhonest : StepsMeet Honest tr) :
    (s.list.addresses.Nodup ∧
        (∀ addr ∈ s.list.addresses, addr ∈ s.answered ∧ addr ∈ hosts.map Host.addr) ∧
        ∀ code, s.client = .returned code →
          code = s.list.count ∨ (code = -1 ∧ s.list = .empty)) ∧
      (hosts.length ≤ maxServers → (hosts.map Host.addr).Nodup → StepsMeet Reliable tr →
        (∃ code, s.client = .returned code) → s.packets = [] →
        s.list.addresses.Perm (hosts.map Host.addr) ∧
          ((∀ server ∈ s.list.servers, Connectable hosts server) ↔
            ∀ host ∈ hosts, host.tcpPort = tcpTaskPort)) := by
  have hs := known_of_run hrun hhonest
  refine ⟨⟨hs.collected.distinct, fun addr haddr => ?_, fun code hcode => ?_⟩,
    fun hfit hnodup hreliable ⟨code, hcode⟩ hquiet => ?_⟩
  · exact ⟨hs.subset_answered haddr, hs.answered addr (hs.subset_answered haddr)⟩
  · refine (hs.returned code hcode).imp_right fun ⟨hcode, hnothing⟩ => ⟨hcode, ?_⟩
    rw [hs.list, hnothing]
    rfl
  · have hway := allUnderWay_of_run hrun hreliable
    have hpc : s.client ≠ .setup := by simp [hcode]
    -- where nothing is lost every host has answered, and its answer was received
    have hmem : ∀ addr, addr ∈ s.list.addresses ↔ addr ∈ hosts.map Host.addr := by
      intro addr
      refine ⟨fun h => hs.answered addr (hs.subset_answered h), fun h => ?_⟩
      exact (hs.mem_addresses_iff hfit addr).mpr (hway.mem_responders hpc hquiet h)
    refine ⟨(List.perm_ext_iff_of_nodup hs.collected.distinct hnodup).mpr hmem, ?_, ?_⟩
    · intro hall host hhost
      have hlisted := (hmem host.addr).mpr (List.mem_map_of_mem hhost)
      obtain ⟨server, hserver, haddr⟩ := List.mem_map.mp hlisted
      obtain ⟨other, hother, hsame, hport⟩ := hall server hserver
      -- two hosts with one address are the same host
      have heq : other = host :=
        List.inj_on_of_nodup_map hnodup hother hhost (hsame.trans haddr)
      rw [← heq, hport, hs.collected.ports server hserver]
    · intro hall server hserver
      obtain ⟨host, hhost, haddr⟩ := List.mem_map.mp ((hmem server.addr).mp
        (List.mem_map_of_mem hserver))
      exact ⟨host, hhost, haddr, (hall host hhost).trans (hs.collected.ports server hserver).symm⟩

/-- Two hosts, the second with a port of its own. -/
def twoHosts : List Host :=
  [{ addr := 1, tcpPort := 8125 }, { addr := 2, tcpPort := 9000 }]

/-- Both hosts answer, the second twice, and the first one last. -/
def twoAnswers : List Action :=
  [.broadcast true, .stray (.toClient 7 []), .serve 1 true, .disturb 2 .duplicate, .serve 0 true,
    .receive 1, .receive 0, .receive 0, .receive 0, .timeout]

/-- The step is honest and reliable. -/
def isFine : Action → Bool
  | .broadcast ok | .serve _ ok => ok
  | .disturb _ d => d = .duplicate
  | .stray (.toClient _ payload) => !isResponse payload
  | .stray (.toServer _ _ _) | .receive _ | .timeout | .full => true

theorem honest_of_isFine {s : State} {a : Action} (h : isFine a = true) : Honest s a := by
  rintro sender payload rfl
  simpa [isFine] using h

theorem reliable_of_isFine {s : State} {a : Action} (h : isFine a = true) : Reliable s a := by
  refine ⟨?_, fun i => ?_, fun i => ?_⟩ <;> rintro rfl <;> simp [isFine] at h

/-- The client has returned, and nothing is under way. -/
def isOver (s : State) : Bool :=
  s.client = .returned 2 ∧ s.packets = []

theorem twoAnswers_executes :
    (execute (step twoHosts) (fun _ a => isFine a) init twoAnswers).any isOver = true := by
  decide +kernel

/-- The second host is found, but its server listens at another port. -/
theorem discovered_two_hosts : ∃ tr s, Run (step twoHosts) init tr s ∧
    s.list.addresses.Perm [1, 2] ∧ ¬ ∀ server ∈ s.list.servers, Connectable twoHosts server := by
  obtain ⟨tr, s, hrun, hfine, hover⟩ := exists_run_of_any twoAnswers_executes
  obtain ⟨hreturned, hquiet⟩ : s.client = .returned 2 ∧ s.packets = [] := of_decide_eq_true hover
  obtain ⟨hfound, hports⟩ := (discovered_of_run hrun
    (hfine.mono fun _ _ => honest_of_isFine)).2 (by decide) (by decide)
    (hfine.mono fun _ _ => reliable_of_isFine) ⟨2, hreturned⟩ hquiet
  refine ⟨tr, s, hrun, hfound, fun hall => ?_⟩
  have hport := hports.mp hall { addr := 2, tcpPort := 9000 } (by simp [twoHosts])
  exact absurd hport (by decide)

end Broadcast

end MonteCarlo
