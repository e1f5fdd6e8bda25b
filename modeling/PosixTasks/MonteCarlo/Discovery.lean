import PosixTasks.Lib.CString
import PosixTasks.Lib.Distinct

/-!
# The discovery of servers

`discover_servers_udp` sends a broadcast and then collects the senders of the answers, until a
receive fails or the list is full. A sender is searched in the list that has been built so far.

## Main results

* `addresses_discoverLoop`: the list has the first senders of an answer, as many as fit;
* `discovery_collects`: what the list is after any datagrams, and that their order and repetitions
  do not matter where all responders fit.
-/

namespace MonteCarlo

open CString Distinct

/-- `MAX_SERVERS` -/
def maxServers : ℕ := 64

/-- `TCP_TASK_PORT` -/
def tcpTaskPort : UInt16 := 8125

/-- `DISCOVERY_RESPONSE` -/
def discoveryResponse : Text :=
  ['M', 'O', 'N', 'T', 'E', '_', 'C', 'A', 'R', 'L', 'O', '_', 'R', 'E', 'A', 'D', 'Y']

/-- `struct ServerInfo` -/
structure ServerInfo where
  /-- `addr.s_addr` -/
  addr : UInt32
  port : UInt16
  deriving DecidableEq

/-- `struct ServerList`: the first `count` elements of its array. -/
structure ServerList where
  servers : List ServerInfo
  fits : servers.length ≤ maxServers

/-- `count` -/
def ServerList.count (list : ServerList) : ℕ :=
  list.servers.length

/-- The addresses in the list. -/
def ServerList.addresses (list : ServerList) : List UInt32 :=
  list.servers.map ServerInfo.addr

/-- The list with a server at `count`. -/
def ServerList.push (list : ServerList) (h : list.count < maxServers) (server : ServerInfo) :
    ServerList where
  servers := list.servers ++ [server]
  fits := by
    rw [List.length_append]
    exact h

/-- A datagram that `recvfrom` returns. -/
structure Datagram where
  /-- `from_addr.sin_addr.s_addr` -/
  sender : UInt32
  payload : Text
  deriving DecidableEq

/-- Bytes of a datagram that `buffer` has room for, besides the NUL. -/
def discoveryBytes : ℕ := 255

/-- The `strncmp` of the buffer with `DISCOVERY_RESPONSE`. -/
def isResponse (payload : Text) : Bool :=
  discoveryResponse.isPrefixOf (ofBuffer (payload.take discoveryBytes))

/-- The search for the sender of a response, which is put at the end if it is not found. -/
def addServer (list : ServerList) (h : list.count < maxServers) (sender : UInt32) : ServerList :=
  let found := list.servers.any fun server => server.addr = sender
  if found then list else list.push h { addr := sender, port := tcpTaskPort }

/-- The receive loop. After the datagrams `recvfrom` fails. -/
def discoverLoop : ServerList → List Datagram → ServerList
  | list, [] => list
  | list, datagram :: datagrams =>
      if h : list.count < maxServers then
        if isResponse datagram.payload then
          discoverLoop (addServer list h datagram.sender) datagrams
        else discoverLoop list datagrams
      else list

/-- The list that is built from nothing. -/
def ServerList.empty : ServerList where
  servers := []
  fits := Nat.zero_le _

/-- `discover_servers_udp`: what it returns, and `*server_list`. `ready` tells whether the socket
was opened and set up and the broadcast sent. -/
def discoverServersUdp (ready : Bool) (datagrams : List Datagram) : ℤ × ServerList :=
  if ready then
    let list := discoverLoop .empty datagrams
    (list.count, list)
  else (-1, .empty)

/-- The senders whose payload begins with `DISCOVERY_RESPONSE`, as they come. -/
def responders (datagrams : List Datagram) : List UInt32 :=
  (datagrams.filter fun datagram => discoveryResponse <+: datagram.payload).map Datagram.sender

/-- The list that `discover_servers_udp` should build. -/
structure Collected (datagrams : List Datagram) (list : ServerList) : Prop where
  bounded : list.count ≤ maxServers
  distinct : list.addresses.Nodup
  /-- the first distinct responders, in the order of their first datagrams -/
  first : list.addresses = (responders datagrams).eraseDups.take maxServers
  ports : ∀ server ∈ list.servers, server.port = tcpTaskPort

/-! ## One datagram -/

/-- The comparison sees the start of the payload. -/
theorem isResponse_iff (payload : Text) :
    isResponse payload = true ↔ discoveryResponse <+: payload := by
  rw [isResponse, List.isPrefixOf_iff_prefix, ofBuffer]
  constructor
  · intro h
    exact h.trans ((List.takeWhile_prefix _).trans (List.take_prefix _ _))
  · rintro ⟨rest, rfl⟩
    -- the text that is compared fits into the buffer and has no NUL
    have hlength : discoveryResponse.length ≤ discoveryBytes := by
      simp [discoveryResponse, discoveryBytes]
    have hnul : ∀ c ∈ discoveryResponse, decide (c ≠ '\x00') = true := by
      simp [discoveryResponse]
    rw [List.take_append, List.take_of_length_le hlength, List.takeWhile_append_of_pos hnul]
    exact List.prefix_append _ _

/-- A responder is put at the end of the addresses, unless it is there already. -/
theorem addresses_addServer (list : ServerList) (h : list.count < maxServers) (sender : UInt32) :
    (addServer list h sender).addresses = insertNew list.addresses sender := by
  have hfound : (list.servers.any fun server => server.addr = sender) = true ↔
      sender ∈ list.addresses := by
    simp [ServerList.addresses]
  simp only [addServer, insertNew, hfound]
  split
  · rfl
  · simp [ServerList.addresses, ServerList.push]

theorem count_eq (list : ServerList) : list.count = list.addresses.length := by
  rw [ServerList.count, ServerList.addresses, List.length_map]

/-- Every server has the same port. -/
def ServerList.SamePort (list : ServerList) : Prop :=
  ∀ server ∈ list.servers, server.port = tcpTaskPort

theorem samePort_addServer {list : ServerList} (hport : list.SamePort)
    (h : list.count < maxServers) (sender : UInt32) : (addServer list h sender).SamePort := by
  simp only [addServer]
  split
  · exact hport
  · intro server hserver
    rcases List.mem_append.mp hserver with hserver | hserver
    · exact hport server hserver
    · rw [List.mem_singleton.mp hserver]

/-- With the same port, the addresses tell which servers there are. -/
theorem ServerList.SamePort.mem_iff {list : ServerList} (hport : list.SamePort)
    (server : ServerInfo) :
    server ∈ list.servers ↔ server.addr ∈ list.addresses ∧ server.port = tcpTaskPort := by
  constructor
  · intro hserver
    exact ⟨List.mem_map_of_mem hserver, hport server hserver⟩
  · rintro ⟨haddr, hserver⟩
    obtain ⟨other, hother, heq⟩ := List.mem_map.mp haddr
    have hsame : other = server := by
      cases other
      cases server
      have := hport _ hother
      simp_all
    exact hsame ▸ hother

/-! ## The loop -/

/-- The loop collects the responders until the list is full. -/
theorem addresses_discoverLoop (list : ServerList) (datagrams : List Datagram) :
    (discoverLoop list datagrams).addresses
      = collect maxServers list.addresses (responders datagrams) := by
  induction datagrams generalizing list with
  | nil => rfl
  | cons datagram datagrams ih =>
    rw [discoverLoop]
    split
    next h =>
      -- the loop goes on exactly while the collection has room
      have hroom : list.addresses.length < maxServers := count_eq list ▸ h
      by_cases hresponse : isResponse datagram.payload = true
      · have hresponders : responders (datagram :: datagrams)
            = datagram.sender :: responders datagrams := by
          simp [responders, (isResponse_iff datagram.payload).mp hresponse]
        rw [if_pos hresponse, ih, addresses_addServer, hresponders, collect, if_pos hroom]
      · have hresponders : responders (datagram :: datagrams) = responders datagrams := by
          simp [responders, mt (isResponse_iff datagram.payload).mpr hresponse]
        rw [if_neg hresponse, ih, hresponders]
    next hfull => rw [collect_full (count_eq list ▸ hfull)]

theorem samePort_discoverLoop {list : ServerList} (hport : list.SamePort)
    (datagrams : List Datagram) : (discoverLoop list datagrams).SamePort := by
  induction datagrams generalizing list with
  | nil => exact hport
  | cons datagram datagrams ih =>
    rw [discoverLoop]
    split
    next h =>
      split
      · exact ih (samePort_addServer hport h datagram.sender)
      · exact ih hport
    next => exact hport

/-- What is built from nothing. -/
theorem collected_discoverLoop (datagrams : List Datagram) :
    Collected datagrams (discoverLoop .empty datagrams) := by
  have haddresses : (discoverLoop .empty datagrams).addresses
      = (responders datagrams).eraseDups.take maxServers := by
    rw [addresses_discoverLoop, ← foldl_insertNew_nil]
    exact collect_eq (Nat.zero_le _) _
  refine ⟨(discoverLoop .empty datagrams).fits, ?_, haddresses, ?_⟩
  · rw [haddresses]
    exact (nodup_eraseDups _).sublist (List.take_sublist _ _)
  · exact samePort_discoverLoop (by simp [ServerList.SamePort, ServerList.empty]) datagrams

theorem mem_responders_congr {datagrams datagrams' : List Datagram}
    (h : ∀ datagram, datagram ∈ datagrams ↔ datagram ∈ datagrams') (sender : UInt32) :
    sender ∈ responders datagrams ↔ sender ∈ responders datagrams' := by
  simp only [responders, List.mem_map, List.mem_filter, h]

/-- After any datagrams and a timeout the list has the first distinct responders. If all responders
fit, the same datagrams in another order, and repeated in any way, make the same set of servers. -/
theorem discovery_collects :
    (∀ datagrams,
      (discoverServersUdp true datagrams).1 = (discoverServersUdp true datagrams).2.count ∧
      Collected datagrams (discoverServersUdp true datagrams).2) ∧
    ∀ datagrams datagrams' : List Datagram,
      (∀ datagram, datagram ∈ datagrams ↔ datagram ∈ datagrams') →
      (responders datagrams).eraseDups.length ≤ maxServers →
      ∀ server, server ∈ (discoverServersUdp true datagrams).2.servers ↔
        server ∈ (discoverServersUdp true datagrams').2.servers := by
  refine ⟨fun datagrams => ⟨rfl, collected_discoverLoop datagrams⟩, ?_⟩
  intro datagrams datagrams' hsame hfit server
  have hc := collected_discoverLoop datagrams
  have hc' := collected_discoverLoop datagrams'
  -- the same responders in another order, all of which fit
  have hperm := perm_eraseDups (mem_responders_congr hsame)
  have hall : (discoverLoop .empty datagrams).addresses = (responders datagrams).eraseDups := by
    rw [hc.first, List.take_of_length_le hfit]
  have hall' : (discoverLoop .empty datagrams').addresses = (responders datagrams').eraseDups := by
    rw [hc'.first, List.take_of_length_le (hperm.length_eq ▸ hfit)]
  show server ∈ (discoverLoop .empty datagrams).servers ↔
    server ∈ (discoverLoop .empty datagrams').servers
  rw [ServerList.SamePort.mem_iff hc.ports, ServerList.SamePort.mem_iff hc'.ports, hall, hall',
    hperm.mem_iff]

end MonteCarlo
