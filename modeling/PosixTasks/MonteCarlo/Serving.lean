import PosixTasks.MonteCarlo.TaskServer

/-!
# What each client of the task server gets

The cell with a descriptor passes from the loop to one thread, which frees it, and the descriptor
is closed by that thread alone. So no thread ever works on the connection of another one, and each
client gets the reply to its own bytes, whatever the other clients and threads do.

## Main results

* `inv_step`: every thread owns its cell until it frees it, and its descriptor until it closes it;
* `serves_of_run`: as long as threads can be created, nothing is misused, nothing is left behind,
  and each connection has had an exchange of its own;
* `exchange_of_run`: a client that has written its task gets what it would get as the only client.
-/

namespace MonteCarlo

namespace TaskServer

open CString Transition

/-- The thread that the loop is about to create is ready to begin. -/
def LoopPc.pending : LoopPc → List HandlerPc
  | .create connfd => [.entry connfd]
  | .calloc | .accept _ => []

/-- The threads, the one that is about to be created among them. -/
def State.handlers (s : State) : List HandlerPc :=
  s.threads ++ s.loop.pending

/-- The cell that a thread has still to free. -/
def HandlerPc.cell : HandlerPc → Option ℕ
  | .entry arg | .copied arg _ => some arg
  | .reading _ | .writing _ _ | .closing _ | .returned => none

/-- The descriptor of thread `k` names its connection, until the thread closes it. -/
def Owns (heap : Heap ℤ) (files : Descriptors.Table OpenFile) (k : ℕ) : HandlerPc → Prop
  | .entry arg =>
      ∃ fd, heap.block arg = some fd ∧ fileAt files fd = some (.connection k)
  | .copied arg connfd =>
      heap.block arg ≠ none ∧ fileAt files connfd = some (.connection k)
  | .reading connfd | .writing connfd _ | .closing connfd =>
      fileAt files connfd = some (.connection k)
  | .returned => ∀ fd, fileAt files fd ≠ some (.connection k)

section Exchange

variable (nearest : ℚ≥0 → ℚ≥0) (integrate : Task → Double × UInt64)

/-- What `handle_client` replies to the bytes that it has read. -/
def Connection.answer (conn : Connection) : Text :=
  (handleClient nearest integrate (received conn.sent conn.taken)).2

/-- What has passed over the connection of a thread. -/
def Exchanges (conn : Connection) : HandlerPc → Prop
  | .entry _ | .copied _ _ | .reading _ => conn.taken = 0 ∧ conn.reply = []
  | .writing _ bytes => conn.reply = [] ∧ bytes = conn.answer nearest integrate
  | .closing _ | .returned => conn.reply <+: conn.answer nearest integrate

end Exchange

section Inv

variable (nearest : ℚ≥0 → ℚ≥0) (integrate : ℕ → Task → Double × UInt64)
  (files : Descriptors.Table OpenFile)

/-- Each thread has a connection, a descriptor and a cell of its own. -/
structure Inv (s : State) : Prop where
  defined : s.misuse = none
  conns : s.handlers.length = s.conns.length
  owns : ∀ (k : ℕ) (pc : HandlerPc), s.handlers[k]? = some pc → Owns s.heap s.files k pc
  taken : ∀ (k : ℕ) (conn : Connection), s.conns[k]? = some conn → conn.taken ≤ conn.sent.length
  exchanges : ∀ (k : ℕ) (pc : HandlerPc) (conn : Connection), s.handlers[k]? = some pc →
    s.conns[k]? = some conn → Exchanges nearest (integrate k) conn pc
  cells : ∀ (k l : ℕ) (pc pc' : HandlerPc) (arg : ℕ), s.handlers[k]? = some pc →
    s.handlers[l]? = some pc' → pc.cell = some arg → pc'.cell = some arg → k = l
  accepting : ∀ p, s.loop = .accept p → s.heap.block p ≠ none ∧
    ∀ (k : ℕ) (pc : HandlerPc), s.handlers[k]? = some pc → pc.cell ≠ some p
  live : ∀ p, s.heap.block p ≠ none →
    (∃ (k : ℕ) (pc : HandlerPc), s.handlers[k]? = some pc ∧ pc.cell = some p) ∨
      s.loop = .accept p
  once : ∀ c fd fd', fileAt s.files fd = some (.connection c) →
    fileAt s.files fd' = some (.connection c) → fd = fd'
  numbered : ∀ c fd, fileAt s.files fd = some (.connection c) → c < s.conns.length
  reused : ∀ c fd, fileAt s.files fd = some (.connection c) → fileAt files fd = none
  others : ∀ fd, (∀ c, fileAt s.files fd ≠ some (.connection c)) →
    fileAt s.files fd = fileAt files fd

end Inv

/-! ## Descriptors -/

theorem fileAt_alloc (files : Descriptors.Table OpenFile) (o : OpenFile) (fd : ℤ) :
    fileAt (Descriptors.alloc files o).2 fd
      = if fd = (Descriptors.alloc files o).1 then some o else fileAt files fd := by
  by_cases hneg : fd < 0
  · rw [fileAt, fileAt, if_pos hneg, if_pos hneg, if_neg (by omega)]
  · have hiff : fd.toNat = (Descriptors.alloc files o).1 ↔ fd = (Descriptors.alloc files o).1 := by
      omega
    rw [fileAt, fileAt, if_neg hneg, if_neg hneg, Descriptors.get_alloc]
    simp only [hiff]

/-- The new number was free. -/
theorem fileAt_alloc_fst (files : Descriptors.Table OpenFile) (o : OpenFile) :
    fileAt files (Descriptors.alloc files o).1 = none := by
  rw [fileAt, if_neg (by omega), Int.toNat_natCast]
  exact Descriptors.get_lowest files

/-- The new number names the new connection, and the others name what they named. -/
theorem fileAt_alloc_connection (files : Descriptors.Table OpenFile) (n c : ℕ) (fd : ℤ) :
    fileAt (Descriptors.alloc files (.connection n)).2 fd = some (.connection c) ↔
      (fd = (Descriptors.alloc files (.connection n)).1 ∧ c = n) ∨
        fileAt files fd = some (.connection c) := by
  rw [fileAt_alloc]
  split
  next heq =>
    rw [heq, fileAt_alloc_fst]
    simp [eq_comm]
  next hne => simp [hne]

theorem fileAt_close {files : Descriptors.Table OpenFile} {connfd : ℤ} {o : OpenFile}
    (h : fileAt files connfd = some o) (fd : ℤ) :
    fileAt (Descriptors.close files connfd.toNat) fd
      = if fd = connfd then none else fileAt files fd := by
  have hpos : ¬ connfd < 0 := by
    intro hneg
    simp [fileAt, hneg] at h
  by_cases hneg : fd < 0
  · rw [fileAt, fileAt, if_pos hneg, if_pos hneg, ite_self]
  · have hiff : fd.toNat = connfd.toNat ↔ fd = connfd := by omega
    rw [fileAt, fileAt, if_neg hneg, if_neg hneg, Descriptors.get_close]
    simp only [hiff]

/-- The heap changes where the thread does not have its cell. -/
theorem Owns.congr_heap {heap heap' : Heap ℤ} {fs : Descriptors.Table OpenFile} {k : ℕ}
    {pc : HandlerPc} (h : Owns heap fs k pc)
    (hblock : ∀ p, pc.cell = some p → heap'.block p = heap.block p) : Owns heap' fs k pc := by
  cases pc with
  | entry arg =>
    obtain ⟨fd, hfd, hname⟩ := h
    exact ⟨fd, (hblock arg rfl).trans hfd, hname⟩
  | copied arg connfd => exact ⟨(hblock arg rfl).symm ▸ h.1, h.2⟩
  | reading connfd | writing connfd bytes | closing connfd | returned => exact h

/-- The descriptors change, but not those of the thread's connection. -/
theorem Owns.congr_files {heap : Heap ℤ} {fs fs' : Descriptors.Table OpenFile} {k : ℕ}
    {pc : HandlerPc} (h : Owns heap fs k pc)
    (hfile : ∀ fd, fileAt fs' fd = some (.connection k) ↔ fileAt fs fd = some (.connection k)) :
    Owns heap fs' k pc := by
  cases pc with
  | entry arg =>
    obtain ⟨fd, hfd, hname⟩ := h
    exact ⟨fd, hfd, (hfile fd).mpr hname⟩
  | copied arg connfd => exact ⟨h.1, (hfile connfd).mpr h.2⟩
  | reading connfd | writing connfd bytes | closing connfd => exact (hfile connfd).mpr h
  | returned => exact fun fd hfd => h fd ((hfile fd).mp hfd)

/-- An entry of a list with a new last entry. -/
theorem getElem?_concat_cases {α : Type*} {l : List α} {x y : α} {k : ℕ}
    (h : (l ++ [x])[k]? = some y) : l[k]? = some y ∨ k = l.length ∧ y = x := by
  rw [List.getElem?_append] at h
  split at h
  next => exact .inl h
  next hle =>
    rw [List.getElem?_singleton] at h
    split at h
    next => exact .inr ⟨by omega, (Option.some.inj h).symm⟩
    next => cases h

section Proofs

variable {nearest : ℚ≥0 → ℚ≥0} {integrate : ℕ → Task → Double × UInt64}
  {files : Descriptors.Table OpenFile} {s s' : State}

/-- A descriptor of a connection finds the connection. -/
theorem Inv.connectionAt (hs : Inv nearest integrate files s) {k : ℕ} {fd : ℤ}
    (h : fileAt s.files fd = some (.connection k)) :
    ∃ conn, s.conns[k]? = some conn ∧ s.connectionAt fd = some (k, conn) := by
  have hlt := hs.numbered k fd h
  refine ⟨s.conns[k], List.getElem?_eq_getElem hlt, ?_⟩
  rw [State.connectionAt, h]
  simp [List.getElem?_eq_getElem hlt]

theorem getElem?_handlers {k : ℕ} {pc : HandlerPc} (h : s.threads[k]? = some pc) :
    s.handlers[k]? = some pc := by
  have hlt := (List.getElem?_eq_some_iff.mp h).1
  rw [State.handlers, List.getElem?_append_left hlt, h]

/-- One thread goes on, the others are where they were. -/
theorem getElem?_handlers_goto {k : ℕ} {pc : HandlerPc} (h : s.threads[k]? = some pc)
    (pc' : HandlerPc) (l : ℕ) :
    (s.goto k pc').handlers[l]? = if l = k then some pc' else s.handlers[l]? := by
  have hlt := (List.getElem?_eq_some_iff.mp h).1
  have hset : (s.goto k pc').handlers = s.handlers.set k pc' := by
    simp only [State.handlers, State.goto]
    rw [List.set_append_left _ _ hlt]
  rw [hset, List.getElem?_set]
  by_cases hl : l = k
  · rw [if_pos hl.symm, if_pos hl, if_pos]
    rw [State.handlers, List.length_append]
    omega
  · rw [if_neg (Ne.symm hl), if_neg hl]

theorem getElem?_set_conns {k : ℕ} {conn : Connection} (h : s.conns[k]? = some conn)
    (conn' : Connection) (l : ℕ) :
    (s.conns.set k conn')[l]? = if l = k then some conn' else s.conns[l]? := by
  have hlt := (List.getElem?_eq_some_iff.mp h).1
  rw [List.getElem?_set]
  by_cases hl : l = k
  · rw [if_pos hl.symm, if_pos hlt, if_pos hl]
  · rw [if_neg (Ne.symm hl), if_neg hl]

/-- Nothing passes over a connection. -/
theorem setConn_self {k : ℕ} {conn : Connection} (h : s.conns[k]? = some conn) :
    s.setConn k conn = s := by
  obtain ⟨hlt, rfl⟩ := List.getElem?_eq_some_iff.mp h
  rw [State.setConn, List.set_getElem_self]

/-- A thread that has written nothing may close its connection. -/
theorem exchanges_closing {integrate : Task → Double × UInt64} {conn : Connection}
    (h : conn.reply = []) (connfd : ℤ) : Exchanges nearest integrate conn (.closing connfd) := by
  rw [Exchanges, h]
  exact List.nil_prefix

/-! ## The threads -/

/-- A thread goes on with the cell and the descriptor that it has, and something passes over its
connection. -/
theorem Inv.advance (hs : Inv nearest integrate files s) {k : ℕ} {pc pc' : HandlerPc}
    {conn conn' : Connection} (hk : s.threads[k]? = some pc) (hconn : s.conns[k]? = some conn)
    (hcell : pc'.cell = pc.cell) (howns : Owns s.heap s.files k pc')
    (htaken : conn'.taken ≤ conn'.sent.length)
    (hexchanges : Exchanges nearest (integrate k) conn' pc') :
    Inv nearest integrate files ((s.setConn k conn').goto k pc') := by
  have hold := getElem?_handlers hk
  have hthreads : ∀ l : ℕ, ((s.setConn k conn').goto k pc').handlers[l]?
      = if l = k then some pc' else s.handlers[l]? :=
    getElem?_handlers_goto (s := s.setConn k conn') hk pc'
  have hconns : ∀ l : ℕ, ((s.setConn k conn').goto k pc').conns[l]?
      = if l = k then some conn' else s.conns[l]? :=
    getElem?_set_conns hconn conn'
  -- the cells of the threads are the same as before
  have hcells : ∀ (l : ℕ) (q : HandlerPc), ((s.setConn k conn').goto k pc').handlers[l]? = some q →
      ∃ q', s.handlers[l]? = some q' ∧ q'.cell = q.cell := by
    intro l q hq
    rw [hthreads] at hq
    split at hq
    next hl =>
      obtain rfl := Option.some.inj hq
      exact ⟨pc, hl ▸ hold, hcell.symm⟩
    next => exact ⟨q, hq, rfl⟩
  exact {
    defined := hs.defined
    conns := by
      have := hs.conns
      simpa [State.handlers, State.goto, State.setConn] using this
    owns := by
      intro l q hq
      rw [hthreads] at hq
      split at hq
      next hl =>
        obtain rfl := Option.some.inj hq
        exact hl ▸ howns
      next => exact hs.owns l q hq
    taken := by
      intro l c hc
      rw [hconns] at hc
      split at hc
      next =>
        obtain rfl := Option.some.inj hc
        exact htaken
      next => exact hs.taken l c hc
    exchanges := by
      intro l q c hq hc
      rw [hthreads] at hq
      rw [hconns] at hc
      split at hq
      next hl =>
        rw [if_pos hl] at hc
        obtain rfl := Option.some.inj hq
        obtain rfl := Option.some.inj hc
        exact hl ▸ hexchanges
      next hl =>
        rw [if_neg hl] at hc
        exact hs.exchanges l q c hq hc
    cells := by
      intro l m q q' arg hq hq' hcq hcq'
      obtain ⟨r, hr, hrcell⟩ := hcells l q hq
      obtain ⟨r', hr', hrcell'⟩ := hcells m q' hq'
      exact hs.cells l m r r' arg hr hr' (hrcell.trans hcq) (hrcell'.trans hcq')
    accepting := by
      intro p hp
      obtain ⟨hlive, hfree⟩ := hs.accepting p hp
      refine ⟨hlive, fun l q hq hcq => ?_⟩
      obtain ⟨r, hr, hrcell⟩ := hcells l q hq
      exact hfree l r hr (hrcell.trans hcq)
    live := by
      intro p hp
      rcases hs.live p hp with ⟨l, q, hq, hcq⟩ | hloop
      · left
        by_cases hl : l = k
        · obtain rfl : q = pc := Option.some.inj (hq.symm.trans (hl ▸ hold))
          exact ⟨k, pc', by rw [hthreads, if_pos rfl], hcell.trans hcq⟩
        · exact ⟨l, q, by rw [hthreads, if_neg hl, hq], hcq⟩
      · exact Or.inr hloop
    once := hs.once
    numbered := by
      intro c fd hfd
      have := hs.numbered c fd hfd
      simpa [State.goto, State.setConn] using this
    reused := hs.reused
    others := hs.others }

/-- A thread frees its cell. -/
theorem Inv.freed (hs : Inv nearest integrate files s) {k arg : ℕ} {connfd : ℤ} {heap : Heap ℤ}
    (hk : s.threads[k]? = some (.copied arg connfd)) (hfree : s.heap.free arg = some heap) :
    Inv nearest integrate files { s.goto k (.reading connfd) with heap := heap } := by
  have hold := getElem?_handlers hk
  have hthreads : ∀ l : ℕ,
      (State.handlers { s.goto k (.reading connfd) with heap := heap })[l]?
        = if l = k then some (.reading connfd) else s.handlers[l]? :=
    getElem?_handlers_goto hk _
  have hblock := Heap.block_of_free hfree
  -- no other thread has the cell
  have hother : ∀ (l : ℕ) (q : HandlerPc), l ≠ k → s.handlers[l]? = some q →
      ∀ p, q.cell = some p → heap.block p = s.heap.block p := by
    intro l q hl hq p hp
    rw [hblock, if_neg]
    rintro rfl
    exact hl (hs.cells l k q _ p hq hold hp rfl)
  exact {
    defined := hs.defined
    conns := by
      have := hs.conns
      simpa [State.handlers, State.goto] using this
    owns := by
      intro l q hq
      rw [hthreads] at hq
      split at hq
      next hl =>
        obtain rfl := Option.some.inj hq
        exact hl ▸ (hs.owns k _ hold).2
      next hl =>
        exact (hs.owns l q hq).congr_heap (hother l q hl hq)
    taken := hs.taken
    exchanges := by
      intro l q c hq hc
      rw [hthreads] at hq
      split at hq
      next hl =>
        obtain rfl := Option.some.inj hq
        subst hl
        exact hs.exchanges l (.copied arg connfd) c hold hc
      next => exact hs.exchanges l q c hq hc
    cells := by
      intro l m q q' p hq hq' hcq hcq'
      rw [hthreads] at hq hq'
      split at hq
      next =>
        obtain rfl := Option.some.inj hq
        cases hcq
      next =>
        split at hq'
        next =>
          obtain rfl := Option.some.inj hq'
          cases hcq'
        next => exact hs.cells l m q q' p hq hq' hcq hcq'
    accepting := by
      intro p hp
      obtain ⟨hlive, hnone⟩ := hs.accepting p hp
      refine ⟨?_, fun l q hq hcq => ?_⟩
      · rw [hblock, if_neg]
        · exact hlive
        · rintro rfl
          exact hnone k _ hold rfl
      · rw [hthreads] at hq
        split at hq
        next =>
          obtain rfl := Option.some.inj hq
          cases hcq
        next => exact hnone l q hq hcq
    live := by
      intro p hp
      rw [hblock] at hp
      split at hp
      next => exact absurd rfl hp
      next hne =>
        rcases hs.live p hp with ⟨l, q, hq, hcq⟩ | hloop
        · left
          refine ⟨l, q, ?_, hcq⟩
          rw [hthreads, if_neg, hq]
          rintro rfl
          obtain rfl := Option.some.inj (hq.symm.trans hold)
          exact hne (Option.some.inj hcq).symm
        · exact Or.inr hloop
    once := hs.once
    numbered := hs.numbered
    reused := hs.reused
    others := hs.others }

/-- A thread closes its descriptor and returns. -/
theorem Inv.closed (hs : Inv nearest integrate files s) {k : ℕ} {connfd : ℤ}
    (hk : s.threads[k]? = some (.closing connfd)) :
    Inv nearest integrate files
      { s.goto k .returned with files := Descriptors.close s.files connfd.toNat } := by
  have hold := getElem?_handlers hk
  have hfile : fileAt s.files connfd = some (.connection k) := hs.owns k _ hold
  have hclose := fileAt_close hfile
  have hthreads : ∀ l : ℕ,
      (State.handlers { s.goto k .returned with
        files := Descriptors.close s.files connfd.toNat })[l]?
        = if l = k then some .returned else s.handlers[l]? :=
    getElem?_handlers_goto hk _
  have hcell : ∀ (l : ℕ) (q : HandlerPc) (p : ℕ),
      (if l = k then some .returned else s.handlers[l]?) = some q → q.cell = some p →
      s.handlers[l]? = some q := by
    intro l q p hq hcq
    split at hq
    next =>
      obtain rfl := Option.some.inj hq
      cases hcq
    next => exact hq
  -- what is still open was open
  have hopen : ∀ (fd : ℤ) (o : OpenFile),
      fileAt (Descriptors.close s.files connfd.toNat) fd = some o → fileAt s.files fd = some o := by
    intro fd o ho
    rw [hclose] at ho
    split at ho
    next => cases ho
    next => exact ho
  -- the other threads keep their descriptors
  have hkeep : ∀ (l : ℕ) (fd : ℤ), l ≠ k → fileAt s.files fd = some (.connection l) →
      fileAt (Descriptors.close s.files connfd.toNat) fd = some (.connection l) := by
    intro l fd hl hfd
    rw [hclose, if_neg, hfd]
    rintro rfl
    rw [hfile] at hfd
    cases hfd
    exact hl rfl
  exact {
    defined := hs.defined
    conns := by
      have := hs.conns
      simpa [State.handlers, State.goto] using this
    owns := by
      intro l q hq
      rw [hthreads] at hq
      split at hq
      next hl =>
        obtain rfl := Option.some.inj hq
        subst hl
        intro fd hfd
        have heq := hs.once l fd connfd (hopen fd _ hfd) hfile
        simp only [hclose, heq, if_true] at hfd
        cases hfd
      next hl =>
        exact (hs.owns l q hq).congr_files fun fd => ⟨hopen fd _, hkeep l fd hl⟩
    taken := hs.taken
    exchanges := by
      intro l q c hq hc
      rw [hthreads] at hq
      split at hq
      next hl =>
        obtain rfl := Option.some.inj hq
        subst hl
        exact hs.exchanges l (.closing connfd) c hold hc
      next => exact hs.exchanges l q c hq hc
    cells := by
      intro l m q q' p hq hq' hcq hcq'
      rw [hthreads] at hq hq'
      exact hs.cells l m q q' p (hcell l q p hq hcq) (hcell m q' p hq' hcq') hcq hcq'
    accepting := by
      intro p hp
      obtain ⟨hlive, hnone⟩ := hs.accepting p hp
      refine ⟨hlive, fun l q hq hcq => ?_⟩
      rw [hthreads] at hq
      exact hnone l q (hcell l q p hq hcq) hcq
    live := by
      intro p hp
      rcases hs.live p hp with ⟨l, q, hq, hcq⟩ | hloop
      · left
        refine ⟨l, q, ?_, hcq⟩
        rw [hthreads, if_neg, hq]
        rintro rfl
        obtain rfl := Option.some.inj (hq.symm.trans hold)
        cases hcq
      · exact Or.inr hloop
    once := by
      intro c fd fd' hfd hfd'
      exact hs.once c fd fd' (hopen fd _ hfd) (hopen fd' _ hfd')
    numbered := by
      intro c fd hfd
      exact hs.numbered c fd (hopen fd _ hfd)
    reused := by
      intro c fd hfd
      exact hs.reused c fd (hopen fd _ hfd)
    others := by
      intro fd hfd
      show fileAt (Descriptors.close s.files connfd.toNat) fd = _
      by_cases heq : fd = connfd
      · -- the number was free when the server began
        rw [hclose, if_pos heq, heq, hs.reused k connfd hfile]
      · rw [hclose, if_neg heq]
        refine hs.others fd fun c hc => hfd c ?_
        show fileAt (Descriptors.close s.files connfd.toNat) fd = _
        rw [hclose, if_neg heq, hc] }

theorem inv_handler (hs : Inv nearest integrate files s) {k : ℕ} (h : handlerStep s k = some s') :
    Inv nearest integrate files s' := by
  unfold handlerStep at h
  split at h
  next arg hk =>
    have hold := getElem?_handlers hk
    obtain ⟨fd, hcell, hname⟩ := hs.owns k _ hold
    obtain ⟨conn, hconn, -⟩ := hs.connectionAt hname
    rw [hcell] at h
    obtain rfl := Option.some.inj h
    have hexchanges := hs.exchanges k (.entry arg) conn hold hconn
    have hinv : Inv nearest integrate files ((s.setConn k conn).goto k (.copied arg fd)) :=
      hs.advance hk hconn rfl ⟨by simp [hcell], hname⟩ (hs.taken k conn hconn) hexchanges
    rwa [setConn_self hconn] at hinv
  next arg connfd hk =>
    -- each thread frees its own cell, once
    have hlive := (hs.owns k _ (getElem?_handlers hk)).1
    obtain ⟨fd, hcell⟩ := Option.ne_none_iff_exists'.mp hlive
    obtain ⟨heap, hfree, -⟩ := Heap.exists_free hcell
    rw [hfree] at h
    obtain rfl := Option.some.inj h
    exact hs.freed hk hfree
  next connfd hk =>
    obtain ⟨conn, -, hat⟩ := hs.connectionAt (hs.owns k _ (getElem?_handlers hk))
    rw [hat] at h
    obtain rfl := Option.some.inj h
    exact hs.closed hk
  next => cases h

theorem inv_read (hs : Inv nearest integrate files s) {k : ℕ} {result : Option ℕ}
    (h : readStep nearest integrate s k result = some s') : Inv nearest integrate files s' := by
  unfold readStep at h
  split at h
  next connfd hk =>
    have hold := getElem?_handlers hk
    have hname : fileAt s.files connfd = some (.connection k) := hs.owns k _ hold
    obtain ⟨conn, hconn, hat⟩ := hs.connectionAt hname
    -- it is the only read on this connection
    obtain ⟨htaken, hreply⟩ : conn.taken = 0 ∧ conn.reply = [] := hs.exchanges k _ conn hold hconn
    rw [hat] at h
    cases result with
    | none =>
      obtain rfl := Option.some.inj h
      have hinv : Inv nearest integrate files ((s.setConn k conn).goto k (.closing connfd)) :=
        hs.advance hk hconn rfl hname (hs.taken k conn hconn) (exchanges_closing hreply connfd)
      rwa [setConn_self hconn] at hinv
    | some n =>
      simp only at h
      split_ifs at h with hn hempty <;> obtain rfl := Option.some.inj h
      all_goals
        rw [htaken, List.drop_zero] at hn hempty
        refine hs.advance hk hconn rfl hname ?_ ?_
      · show conn.taken + n ≤ conn.sent.length
        omega
      · -- the reply is empty, and nothing is written
        have hempty : ({ conn with taken := conn.taken + n } : Connection).reply = [] := hreply
        exact exchanges_closing hempty connfd
      · show conn.taken + n ≤ conn.sent.length
        omega
      · refine ⟨hreply, ?_⟩
        rw [Connection.answer, htaken, List.drop_zero, Nat.zero_add]
  next => cases h

theorem inv_write (hs : Inv nearest integrate files s) {k : ℕ} {result : Option ℕ}
    (h : writeStep s k result = some s') : Inv nearest integrate files s' := by
  unfold writeStep at h
  split at h
  next connfd bytes hk =>
    have hold := getElem?_handlers hk
    have hname : fileAt s.files connfd = some (.connection k) := hs.owns k _ hold
    obtain ⟨conn, hconn, hat⟩ := hs.connectionAt hname
    -- it is the only write, and what it writes is the answer
    obtain ⟨hreply, rfl⟩ : conn.reply = [] ∧ bytes = conn.answer nearest (integrate k) :=
      hs.exchanges k _ conn hold hconn
    rw [hat] at h
    cases result with
    | none =>
      obtain rfl := Option.some.inj h
      have hinv : Inv nearest integrate files ((s.setConn k conn).goto k (.closing connfd)) :=
        hs.advance hk hconn rfl hname (hs.taken k conn hconn) (exchanges_closing hreply connfd)
      rwa [setConn_self hconn] at hinv
    | some n =>
      simp only at h
      split_ifs at h with hn
      obtain rfl := Option.some.inj h
      refine hs.advance hk hconn rfl hname (hs.taken k conn hconn) ?_
      show conn.reply ++ (conn.answer nearest (integrate k)).take n <+: _
      rw [hreply, List.nil_append]
      exact List.take_prefix _ _
  next => cases h

/-! ## The loop -/

/-- The cell of a thread is live. -/
theorem Inv.block_of_cell (hs : Inv nearest integrate files s) {k p : ℕ} {pc : HandlerPc}
    (hk : s.handlers[k]? = some pc) (hcell : pc.cell = some p) : s.heap.block p ≠ none := by
  have howns := hs.owns k pc hk
  cases pc with
  | entry arg =>
    obtain rfl := Option.some.inj hcell
    obtain ⟨fd, hfd, -⟩ := howns
    simp [hfd]
  | copied arg connfd =>
    obtain rfl := Option.some.inj hcell
    exact howns.1
  | reading connfd | writing connfd bytes | closing connfd | returned => cases hcell

/-- The loop has a new cell. -/
theorem Inv.allocated (hs : Inv nearest integrate files s) (hloop : s.loop = .calloc) :
    Inv nearest integrate files
      { s with heap := (s.heap.alloc 0).2, loop := .accept (s.heap.alloc 0).1 } := by
  have hlist : State.handlers { s with
      heap := (s.heap.alloc 0).2, loop := .accept (s.heap.alloc 0).1 } = s.handlers := by
    simp [State.handlers, hloop, LoopPc.pending]
  -- the new cell is not that of a thread
  have hfresh : ∀ (k : ℕ) (pc : HandlerPc), s.handlers[k]? = some pc →
      pc.cell ≠ some (s.heap.alloc 0).1 := fun k pc hk hcell =>
    hs.block_of_cell hk hcell (Heap.block_alloc_fst s.heap 0)
  exact {
    defined := hs.defined
    conns := hlist ▸ hs.conns
    owns := by
      intro k pc hk
      rw [hlist] at hk
      refine (hs.owns k pc hk).congr_heap fun p hcell => ?_
      rw [Heap.block_alloc, if_neg]
      rintro rfl
      exact hfresh k pc hk hcell
    taken := hs.taken
    exchanges := hlist ▸ hs.exchanges
    cells := hlist ▸ hs.cells
    accepting := by
      intro p hp
      obtain rfl : (s.heap.alloc 0).1 = p := LoopPc.accept.inj hp
      rw [hlist]
      exact ⟨by simp, hfresh⟩
    live := by
      intro p hp
      rw [Heap.block_alloc] at hp
      split at hp
      next heq => exact Or.inr (by rw [heq])
      next =>
        rw [hlist]
        refine Or.inl ((hs.live p hp).resolve_right ?_)
        simp [hloop]
    once := hs.once
    numbered := hs.numbered
    reused := hs.reused
    others := hs.others }

theorem inv_calloc (hs : Inv nearest integrate files s) {ok : Bool}
    (h : callocStep s ok = some s') : Inv nearest integrate files s' := by
  unfold callocStep at h
  split at h
  next hloop =>
    cases ok with
    | false => exact Option.some.inj h ▸ hs
    | true => exact Option.some.inj h ▸ hs.allocated hloop
  next => cases h

/-- A connection is accepted: its descriptor is stored in the cell of the loop. -/
theorem Inv.accepted (hs : Inv nearest integrate files s) {p : ℕ} {heap : Heap ℤ}
    (hloop : s.loop = .accept p)
    (hblock : ∀ q, heap.block q = if q = p
      then some ((Descriptors.alloc s.files (.connection s.conns.length)).1 : ℤ)
      else s.heap.block q) :
    Inv nearest integrate files
      { s with
        heap := heap
        files := (Descriptors.alloc s.files (.connection s.conns.length)).2
        conns := s.conns ++ [{ sent := [], taken := 0, shut := false, reply := [] }]
        loop := .create p } := by
  have hthreads : s.handlers = s.threads := by
    simp [State.handlers, hloop, LoopPc.pending]
  have hlen : s.threads.length = s.conns.length := hthreads ▸ hs.conns
  obtain ⟨hlive, hfree⟩ := hs.accepting p hloop
  have hfile := fileAt_alloc s.files (.connection s.conns.length)
  have hnone := fileAt_alloc_fst s.files (.connection s.conns.length)
  set fd := (Descriptors.alloc s.files (.connection s.conns.length)).1
  set opened := (Descriptors.alloc s.files (.connection s.conns.length)).2
  set fresh : Connection := { sent := [], taken := 0, shut := false, reply := [] }
  -- the threads are those of before and the one that is about to be created
  have hcases : ∀ (k : ℕ) (pc : HandlerPc), (s.threads ++ [.entry p])[k]? = some pc →
      (k < s.conns.length ∧ s.handlers[k]? = some pc) ∨ (k = s.conns.length ∧ pc = .entry p) := by
    intro k pc hk
    rcases getElem?_concat_cases hk with hk | ⟨heq, hpc⟩
    · exact .inl ⟨hlen ▸ (List.getElem?_eq_some_iff.mp hk).1, hthreads ▸ hk⟩
    · exact .inr ⟨heq.trans hlen, hpc⟩
  have hopen : ∀ (c : ℕ) (x : ℤ), fileAt opened x = some (.connection c) ↔
      (x = fd ∧ c = s.conns.length) ∨ fileAt s.files x = some (.connection c) :=
    fileAt_alloc_connection s.files s.conns.length
  have hkeep : ∀ (k : ℕ) (pc : HandlerPc), s.handlers[k]? = some pc → k < s.conns.length →
      Owns heap opened k pc := by
    intro k pc hk hlt
    have howns : Owns heap s.files k pc := by
      refine (hs.owns k pc hk).congr_heap fun q hcell => ?_
      rw [hblock, if_neg]
      rintro rfl
      exact hfree k pc hk hcell
    exact howns.congr_files fun x => by simp [hopen, hlt.ne]
  exact {
    defined := hs.defined
    conns := by
      simp [State.handlers, LoopPc.pending, hlen]
    owns := by
      intro k pc hk
      rcases hcases k pc hk with ⟨hlt, hk⟩ | ⟨rfl, rfl⟩
      · exact hkeep k pc hk hlt
      · exact ⟨fd, by rw [hblock, if_pos rfl], by rw [hfile, if_pos rfl]⟩
    taken := by
      intro k c hc
      rcases getElem?_concat_cases hc with hc | ⟨-, rfl⟩
      · exact hs.taken k c hc
      · exact le_rfl
    exchanges := by
      intro k pc c hk hc
      rcases hcases k pc hk with ⟨hlt, hk⟩ | ⟨rfl, rfl⟩
      · refine hs.exchanges k pc c hk ?_
        rwa [List.getElem?_append_left hlt] at hc
      · obtain rfl : fresh = c := by simpa using hc
        exact ⟨rfl, rfl⟩
    cells := by
      intro k l pc pc' arg hk hl hcell hcell'
      rcases hcases k pc hk with ⟨hlt, hk⟩ | ⟨rfl, rfl⟩ <;>
        rcases hcases l pc' hl with ⟨hlt', hl⟩ | ⟨rfl, rfl⟩
      · exact hs.cells k l pc pc' arg hk hl hcell hcell'
      · obtain rfl := Option.some.inj hcell'
        exact absurd hcell (hfree k pc hk)
      · obtain rfl := Option.some.inj hcell
        exact absurd hcell' (hfree l pc' hl)
      · rfl
    accepting := by
      intro q hq
      cases hq
    live := by
      intro q hq
      left
      rw [hblock] at hq
      split at hq
      next heq =>
        refine ⟨s.threads.length, .entry p, ?_, by rw [heq]; rfl⟩
        simp [State.handlers, LoopPc.pending]
      next hne =>
        have hother : s.loop ≠ .accept q := by simpa [hloop] using Ne.symm hne
        obtain ⟨k, pc, hk, hcell⟩ := (hs.live q hq).resolve_right hother
        refine ⟨k, pc, ?_, hcell⟩
        rw [hthreads] at hk
        simp only [State.handlers]
        rw [List.getElem?_append_left (List.getElem?_eq_some_iff.mp hk).1, hk]
    once := by
      intro c x y hx hy
      rcases (hopen c x).mp hx with ⟨rfl, rfl⟩ | hx <;>
        rcases (hopen _ y).mp hy with ⟨rfl, hc⟩ | hy
      · rfl
      · exact absurd (hs.numbered _ y hy) (lt_irrefl _)
      · exact absurd (hs.numbered c x hx) (by omega)
      · exact hs.once c x y hx hy
    numbered := by
      intro c x hx
      rw [List.length_append, List.length_singleton]
      rcases (hopen c x).mp hx with ⟨rfl, rfl⟩ | hx
      · omega
      · have := hs.numbered c x hx
        omega
    reused := by
      intro c x hx
      rcases (hopen c x).mp hx with ⟨rfl, rfl⟩ | hx
      · rw [← hs.others fd (by simp [hnone]), hnone]
      · exact hs.reused c x hx
    others := by
      intro x hx
      have hne : x ≠ fd := by
        rintro rfl
        exact hx s.conns.length (by rw [hfile, if_pos rfl])
      have hsame : fileAt opened x = fileAt s.files x := by
        rw [hfile, if_neg hne]
      rw [hsame]
      exact hs.others x fun c hc => hx c (hsame.trans hc) }

/-- No connection is accepted, and the cell is freed. -/
theorem Inv.rejected (hs : Inv nearest integrate files s) {p : ℕ} {heap : Heap ℤ}
    (hloop : s.loop = .accept p)
    (hblock : ∀ q, heap.block q = if q = p then none else s.heap.block q) :
    Inv nearest integrate files { s with heap := heap, loop := .calloc } := by
  obtain ⟨-, hfree⟩ := hs.accepting p hloop
  -- no thread was created for the cell
  have hlist : State.handlers { s with heap := heap, loop := .calloc } = s.handlers := by
    simp [State.handlers, hloop, LoopPc.pending]
  exact {
    defined := hs.defined
    conns := hlist ▸ hs.conns
    owns := by
      intro k pc hk
      rw [hlist] at hk
      refine (hs.owns k pc hk).congr_heap fun q hcell => ?_
      rw [hblock, if_neg]
      rintro rfl
      exact hfree k pc hk hcell
    taken := hs.taken
    exchanges := hlist ▸ hs.exchanges
    cells := hlist ▸ hs.cells
    accepting := by
      intro q hq
      cases hq
    live := by
      intro q hq
      rw [hblock] at hq
      split at hq
      next => exact absurd rfl hq
      next hne =>
        rw [hlist]
        refine Or.inl ((hs.live q hq).resolve_right ?_)
        simpa [hloop] using Ne.symm hne
    once := hs.once
    numbered := hs.numbered
    reused := hs.reused
    others := hs.others }

theorem inv_accept (hs : Inv nearest integrate files s) {ok : Bool}
    (h : acceptStep s ok = some s') : Inv nearest integrate files s' := by
  unfold acceptStep at h
  split at h
  next p hloop =>
    obtain ⟨v, hv⟩ := Option.ne_none_iff_exists'.mp (hs.accepting p hloop).1
    cases ok with
    | true =>
      obtain ⟨heap, hstore, hblock⟩ := Heap.exists_store hv
        ((Descriptors.alloc s.files (.connection s.conns.length)).1 : ℤ)
      simp only [if_true, hstore] at h
      exact Option.some.inj h ▸ hs.accepted hloop hblock
    -- -1 is stored, and the cell is freed
    | false =>
      obtain ⟨stored, hstore, hstored⟩ := Heap.exists_store hv (-1)
      obtain ⟨heap, hfreed, hblock⟩ := Heap.exists_free
        (show stored.block p = some (-1) by rw [hstored, if_pos rfl])
      simp only [Bool.false_eq_true, if_false, hstore, Option.bind_some, hfreed] at h
      refine Option.some.inj h ▸ hs.rejected hloop fun q => ?_
      rw [hblock, hstored]
      split <;> rfl
  next => cases h

theorem inv_create (hs : Inv nearest integrate files s) (h : createStep s true = some s') :
    Inv nearest integrate files s' := by
  unfold createStep at h
  split at h
  next p hloop =>
    obtain rfl := Option.some.inj h
    -- the thread was counted as soon as its connection was accepted
    have hlist : State.handlers { s with
        threads := s.threads ++ [.entry p], loop := .calloc } = s.handlers := by
      simp [State.handlers, hloop, LoopPc.pending]
    refine ⟨hs.defined, hlist ▸ hs.conns, hlist ▸ hs.owns, hs.taken, hlist ▸ hs.exchanges,
      hlist ▸ hs.cells, fun q hq => ?_, fun q hq => ?_, hs.once, hs.numbered, hs.reused, hs.others⟩
    · cases hq
    · rw [hlist]
      refine Or.inl ((hs.live q hq).resolve_right ?_)
      simp [hloop]
  next => cases h

/-! ## The clients -/

/-- What was written later does not matter for what was read. -/
theorem answer_congr {conn conn' : Connection} {more : Text}
    (htaken : conn.taken ≤ conn.sent.length) (hsent : conn'.sent = conn.sent ++ more)
    (hsame : conn'.taken = conn.taken) (integrate : Task → Double × UInt64) :
    conn'.answer nearest integrate = conn.answer nearest integrate := by
  have hread : received conn'.sent conn'.taken = received conn.sent conn.taken := by
    rw [received, received, hsent, hsame, List.take_append_of_le_length htaken]
  rw [Connection.answer, Connection.answer, hread]

/-- A client writes or shuts its end. -/
theorem Inv.client (hs : Inv nearest integrate files s) {c : ℕ} {conn conn' : Connection}
    {more : Text} (hconn : s.conns[c]? = some conn) (hsent : conn'.sent = conn.sent ++ more)
    (htaken : conn'.taken = conn.taken) (hreply : conn'.reply = conn.reply) :
    Inv nearest integrate files (s.setConn c conn') := by
  have hle := hs.taken c conn hconn
  have hconns : ∀ l : ℕ, (s.setConn c conn').conns[l]?
      = if l = c then some conn' else s.conns[l]? := getElem?_set_conns hconn conn'
  exact {
    defined := hs.defined
    conns := by
      have := hs.conns
      simpa [State.handlers, State.setConn] using this
    owns := hs.owns
    taken := by
      intro l d hd
      rw [hconns] at hd
      split at hd
      next =>
        obtain rfl := Option.some.inj hd
        rw [htaken, hsent, List.length_append]
        omega
      next => exact hs.taken l d hd
    exchanges := by
      intro l pc d hpc hd
      rw [hconns] at hd
      split at hd
      next hl =>
        obtain rfl := Option.some.inj hd
        subst hl
        -- the server has read a prefix, which more bytes do not change
        have hanswer : conn'.answer nearest (integrate l) = conn.answer nearest (integrate l) :=
          answer_congr hle hsent htaken (integrate l)
        have hold := hs.exchanges l pc conn hpc hconn
        cases pc <;> simpa only [Exchanges, hanswer, htaken, hreply] using hold
      next => exact hs.exchanges l pc d hpc hd
    cells := hs.cells
    accepting := hs.accepting
    live := hs.live
    once := hs.once
    numbered := by
      intro d fd hfd
      have := hs.numbered d fd hfd
      simpa [State.setConn] using this
    reused := hs.reused
    others := hs.others }

theorem inv_send (hs : Inv nearest integrate files s) {c : ℕ} {bytes : Text}
    (h : sendStep s c bytes = some s') : Inv nearest integrate files s' := by
  unfold sendStep at h
  split at h
  next conn hconn =>
    split_ifs at h
    exact Option.some.inj h ▸ hs.client hconn rfl rfl rfl
  next => cases h

theorem inv_shut (hs : Inv nearest integrate files s) {c : ℕ} (h : shutStep s c = some s') :
    Inv nearest integrate files s' := by
  obtain ⟨conn, hconn, rfl⟩ := Option.map_eq_some_iff.mp h
  have hsent : conn.sent = conn.sent ++ [] := (List.append_nil _).symm
  exact hs.client hconn hsent rfl rfl

/-! ## Along a run -/

/-- No `pthread_create` fails. -/
def ThreadsStart (_ : State) (a : Action) : Prop :=
  a ≠ .create false

theorem inv_init (hfiles : ∀ fd c, fileAt files fd ≠ some (.connection c)) :
    Inv nearest integrate files (init files) where
  defined := rfl
  conns := rfl
  owns k pc hk := by simp [State.handlers, init, LoopPc.pending] at hk
  taken k conn hk := by simp [init] at hk
  exchanges k pc conn hk := by simp [State.handlers, init, LoopPc.pending] at hk
  cells k l pc pc' arg hk := by simp [State.handlers, init, LoopPc.pending] at hk
  accepting p hp := by simp [init] at hp
  live p hp := by simp [init, Heap.block] at hp
  once c fd fd' hfd := absurd hfd (hfiles fd c)
  numbered c fd hfd := absurd hfd (hfiles fd c)
  reused c fd hfd := absurd hfd (hfiles fd c)
  others fd _ := rfl

theorem misuse_of_step {a : Action} (h : step nearest integrate s a = some s') :
    s.misuse = none := by
  unfold step at h
  split_ifs at h with hmisuse
  exact not_not.mp hmisuse

theorem inv_step (hs : Inv nearest integrate files s) {a : Action} (ha : ThreadsStart s a)
    (h : step nearest integrate s a = some s') : Inv nearest integrate files s' := by
  unfold step at h
  rw [if_neg (not_not.mpr hs.defined)] at h
  cases a with
  | calloc ok => exact inv_calloc hs h
  | accept ok => exact inv_accept hs h
  | create ok =>
    cases ok with
    | true => exact inv_create hs h
    | false => exact absurd rfl ha
  | send c bytes => exact inv_send hs h
  | shut c => exact inv_shut hs h
  | handler k => exact inv_handler hs h
  | read k result => exact inv_read hs h
  | write k result => exact inv_write hs h

/-- A thread that is not created leaves its number unset. -/
theorem misuse_of_create (h : step nearest integrate s (.create false) = some s') :
    s'.misuse ≠ none := by
  have hdefined := misuse_of_step h
  unfold step at h
  rw [if_neg (not_not.mpr hdefined)] at h
  simp only [createStep] at h
  split at h
  next => exact Option.some.inj h ▸ Option.some_ne_none _
  next => cases h

theorem threadsStart_of_run {tr : List (State × Action)}
    (hrun : Run (step nearest integrate) (init files) tr s) (hdefined : s.misuse = none) :
    StepsMeet ThreadsStart tr := by
  induction hrun with
  | nil => exact stepsMeet_nil _
  | snoc hrun hlast ih =>
    rw [stepsMeet_snoc]
    refine ⟨ih (misuse_of_step hlast), ?_⟩
    rintro rfl
    exact misuse_of_create hlast hdefined

theorem inv_of_run (hfiles : ∀ fd c, fileAt files fd ≠ some (.connection c))
    {tr : List (State × Action)} (hrun : Run (step nearest integrate) (init files) tr s)
    (hstart : StepsMeet ThreadsStart tr) : Inv nearest integrate files s :=
  hrun.invariant (inv_init hfiles) (fun _ _ _ ht ha hstep => inv_step ht ha hstep) hstart

section Serves

variable (nearest : ℚ≥0 → ℚ≥0) (integrate : ℕ → Task → Double × UInt64)
  (files : Descriptors.Table OpenFile)

/-- The connections do not disturb each other, and nothing of them is left behind. -/
structure Serves (s : State) : Prop where
  /-- every thread has its own cell, and then the descriptor of its own connection -/
  owns : ∀ (k : ℕ) (pc : HandlerPc), s.threads[k]? = some pc → Owns s.heap s.files k pc
  /-- what is written on a connection begins the reply to bytes that its own client has written -/
  replies : ∀ (k : ℕ) (conn : Connection), s.conns[k]? = some conn → ∃ n ≤ conn.sent.length,
    conn.reply <+: (handleClient nearest (integrate k) (received conn.sent n)).2
  /-- no two descriptors name one connection -/
  once : ∀ c fd fd', fileAt s.files fd = some (.connection c) →
    fileAt s.files fd' = some (.connection c) → fd = fd'
  /-- a thread that has returned has closed its connection -/
  closed : ∀ (k : ℕ), s.threads[k]? = some .returned →
    ∀ fd, fileAt s.files fd ≠ some (.connection k)
  /-- between two connections no memory is in use, and no more files are open than at the start -/
  idle : s.loop = .calloc → (∀ pc ∈ s.threads, pc = .returned) →
    (∀ p, s.heap.block p = none) ∧ ∀ fd, fileAt s.files fd = fileAt files fd

end Serves

/-- The reply of a connection answers what the server has read from it. -/
theorem Inv.reply_prefix (hs : Inv nearest integrate files s) {k : ℕ} {conn : Connection}
    (hconn : s.conns[k]? = some conn) : conn.reply <+: conn.answer nearest (integrate k) := by
  have hlt : k < s.handlers.length := hs.conns ▸ (List.getElem?_eq_some_iff.mp hconn).1
  have hexchanges := hs.exchanges k _ conn (List.getElem?_eq_getElem hlt) hconn
  cases hpc : s.handlers[k] with
  | entry arg | copied arg connfd | reading connfd | writing connfd bytes =>
    rw [hpc] at hexchanges
    have hnothing : conn.reply = [] := by
      first | exact hexchanges.2 | exact hexchanges.1
    rw [hnothing]
    exact List.nil_prefix
  | closing connfd | returned => rwa [hpc] at hexchanges

theorem Inv.serves (hs : Inv nearest integrate files s) : Serves nearest integrate files s where
  owns k pc hk := hs.owns k pc (getElem?_handlers hk)
  replies k conn hconn := ⟨conn.taken, hs.taken k conn hconn, hs.reply_prefix hconn⟩
  once := hs.once
  closed k hk := hs.owns k .returned (getElem?_handlers hk)
  idle hloop hreturned := by
    -- no thread is pending, and those created have returned
    have hall : ∀ (k : ℕ) (pc : HandlerPc), s.handlers[k]? = some pc → pc = .returned := by
      intro k pc hk
      have hmem : pc ∈ s.handlers := List.mem_of_getElem? hk
      rw [State.handlers, hloop, LoopPc.pending, List.append_nil] at hmem
      exact hreturned pc hmem
    refine ⟨fun p => ?_, fun fd => hs.others fd fun c hc => ?_⟩
    · by_contra hlive
      rcases hs.live p hlive with ⟨k, pc, hk, hcell⟩ | haccept
      · rw [hall k pc hk] at hcell
        cases hcell
      · rw [hloop] at haccept
        cases haccept
    · have hlt : c < s.handlers.length := hs.conns ▸ hs.numbered c fd hc
      have hk := List.getElem?_eq_getElem hlt
      have howns := hs.owns c _ hk
      rw [hall c _ hk] at howns
      exact howns fd hc

/-- The server uses no freed cell, no descriptor that names no connection and no unset thread
exactly as long as threads can be created. Then each thread works on the descriptor of its own
connection, each connection has an exchange of its own, and what it takes is given back. -/
theorem serves_of_run (hfiles : ∀ fd c, fileAt files fd ≠ some (.connection c))
    {tr : List (State × Action)} (hrun : Run (step nearest integrate) (init files) tr s) :
    (s.misuse = none ↔ StepsMeet ThreadsStart tr) ∧
      (s.misuse = none → Serves nearest integrate files s) := by
  refine ⟨⟨threadsStart_of_run hrun, fun hstart => ?_⟩, fun hdefined => ?_⟩
  · exact (inv_of_run hfiles hrun hstart).defined
  · exact (inv_of_run hfiles hrun (threadsStart_of_run hrun hdefined)).serves

/-- A client that has written its task, or the start of it, and reads from the reply is told what
`send_task_to_server` is told by a server without other clients. -/
theorem exchange_of_run (hfiles : ∀ fd c, fileAt files fd ≠ some (.connection c))
    {tr : List (State × Action)} (hrun : Run (step nearest integrate) (init files) tr s)
    (hstart : StepsMeet ThreadsStart tr) {task : Task} {text : Text}
    (htext : serializeTask task bufferSize = some text) {k : ℕ} {conn : Connection}
    (hconn : s.conns[k]? = some conn) (hsent : conn.sent <+: text ++ ['\x00']) {k₂ : ℕ}
    (hread : k₂ ≤ conn.reply.length) :
    ∃ k₁, (sendTaskToServer nearest (integrate k) task k₁ k₂).result
        = deserializeResult nearest (received conn.reply k₂) ∧
      ((sendTaskToServer nearest (integrate k) task k₁ k₂).code = 0 ↔
        (deserializeResult nearest (received conn.reply k₂)).isSome) := by
  have hs := inv_of_run hfiles hrun hstart
  refine ⟨conn.taken, ?_⟩
  -- the server has read the start of the task
  have htask : received (text ++ ['\x00']) conn.taken = received conn.sent conn.taken := by
    obtain ⟨rest, hrest⟩ := hsent
    rw [received, received, ← hrest, List.take_append_of_le_length (hs.taken k conn hconn)]
  -- and the client the start of its reply
  have hreply : received (conn.answer nearest (integrate k)) k₂ = received conn.reply k₂ := by
    obtain ⟨rest, hrest⟩ := hs.reply_prefix hconn
    rw [received, received, ← hrest, List.take_append_of_le_length hread]
  rw [Connection.answer] at hreply
  simp only [sendTaskToServer, htext, htask, hreply]
  cases deserializeResult nearest (received conn.reply k₂) with
  | none => simp
  | some result => simp

end Proofs

/-! ## Two connections at once -/

/-- The second client writes a task of ten points, the first one writes nothing. -/
def twoClients : List Action :=
  [.calloc true, .accept true, .create true, .calloc true, .accept true, .create true,
    .send 1 (taskText tenPoints ++ ['\x00']), .handler 1, .handler 0, .handler 1, .read 1 (some 80),
    .handler 0, .write 1 (some 30), .shut 0, .read 0 (some 0), .handler 1, .handler 0]

/-- Both threads have returned, and the second client has its reply. -/
def bothServed (s : State) : Bool :=
  s.misuse = none ∧ s.threads = [.returned, .returned] ∧
    s.conns[1]?.any fun conn => conn.sent = taskText tenPoints ++ ['\x00'] ∧ conn.reply.length = 30

theorem twoClients_executes :
    (execute (step id fun _ => half) (fun _ a => decide (a ≠ .create false)) (init [some .listener])
      twoClients).any bothServed = true := by
  decide +kernel

theorem exists_run_twoClients : ∃ tr s,
    Run (step id fun _ => half) (init [some .listener]) tr s ∧ StepsMeet ThreadsStart tr ∧
      bothServed s = true := by
  obtain ⟨tr, s, hrun, hstart, hserved⟩ := exists_run_of_any twoClients_executes
  exact ⟨tr, s, hrun, hstart.mono fun _ _ => of_decide_eq_true, hserved⟩

theorem fileAt_listener (fd : ℤ) (c : ℕ) : fileAt [some .listener] fd ≠ some (.connection c) := by
  unfold fileAt Descriptors.get
  split
  · simp
  · rcases fd.toNat with _ | n <;> simp

theorem serves_two_clients : ∃ tr s,
    Run (step id fun _ => half) (init [some .listener]) tr s ∧ StepsMeet ThreadsStart tr ∧
      Serves id (fun _ => half) [some .listener] s := by
  obtain ⟨tr, s, hrun, hstart, -⟩ := exists_run_twoClients
  have hserves := serves_of_run fileAt_listener hrun
  exact ⟨tr, s, hrun, hstart, hserves.2 (hserves.1.mpr hstart)⟩

/-- What the second client gets. -/
theorem exchange_ten_points : ∃ tr s conn,
    Run (step id fun _ => half) (init [some .listener]) tr s ∧ s.conns[1]? = some conn ∧
      ∃ k₁, (sendTaskToServer id half tenPoints k₁ 30).result
          = deserializeResult id (received conn.reply 30) ∧
        ((sendTaskToServer id half tenPoints k₁ 30).code = 0 ↔
          (deserializeResult id (received conn.reply 30)).isSome) := by
  obtain ⟨tr, s, hrun, hstart, hserved⟩ := exists_run_twoClients
  obtain ⟨-, -, hconn⟩ : s.misuse = none ∧ s.threads = [.returned, .returned] ∧ _ :=
    of_decide_eq_true hserved
  obtain ⟨conn, hconn, hsent⟩ := (Option.any_eq_true _ _).mp hconn
  obtain ⟨hsent, hlen⟩ := of_decide_eq_true hsent
  have htext : serializeTask tenPoints bufferSize = some (taskText tenPoints) := by decide +kernel
  exact ⟨tr, s, conn, hrun, hconn, exchange_of_run fileAt_listener hrun hstart htext hconn
    (hsent ▸ List.prefix_refl _) hlen.ge⟩

end TaskServer

end MonteCarlo
