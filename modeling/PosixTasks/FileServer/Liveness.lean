import PosixTasks.FileServer.Commands

/-!
# When the server closes a slot

A client registers, receives the `ACK` and only then opens its rx FIFO for writing. Until it has,
a read of that FIFO returns 0, as it does when the client has gone. Every fifth iteration of its
loop the server reads the FIFO of every active slot.

The loop is followed for one slot; what the other clients do shows in how often `epoll_wait`
returns. The state starts where `register_new_client` has sent the `ACK`, at any value of
`counter`. The server keeps running, and no read, write or `epoll_ctl` fails.

## Main results

* `justified_of_run`: the slot is closed only after a `DISCONNECT` of the client has been read or
  after the client has opened and closed its FIFO, if no periodic check reads the FIFO before the
  client has opened it and no piece from inside a line is taken for a `DISCONNECT`;
* `not_justified_of_check`: a periodic check before the client has opened its FIFO closes the
  slot of a live client.
-/

namespace FileServer

open CString Lines Transition

/-- Where the loop of `main` is. -/
inductive Phase where
  /-- in `epoll_wait` -/
  | waiting
  /-- in the loop over the events -/
  | events
  /-- in the periodic check, before the slot -/
  | checking
  deriving DecidableEq, Repr

/-- The loop of `main`, and one slot. -/
structure MainLoop where
  conn : Connection
  /-- `counter` -/
  counter : ℕ
  phase : Phase

/-- `register_new_client` has sent the `ACK`. -/
def MainLoop.init (counter : ℕ) : MainLoop :=
  { conn := .init, counter, phase := .events }

/-- The steps of the client and of the loop. -/
inductive LoopAction where
  /-- a step of the client, or a read of the slot's FIFO -/
  | conn (a : ConnectionAction)
  /-- the loop over the events ends: `++counter % 5 == 0` is tested -/
  | endEvents
  /-- the periodic check passes a slot that is not active -/
  | skip
  /-- `epoll_wait` returns -/
  | wake

/-- Where the loop makes this step; the client makes its own anywhere. -/
def phaseOf : ConnectionAction → Option Phase
  | .openWriter | .write _ | .closeWriter => none
  | .registrationRead | .event | .eventRead => some .events
  | .periodicRead => some .checking

/-- One step. -/
def loopStep (slot : Fin maxClients) (s : MainLoop) : LoopAction → Option MainLoop
  | .conn a =>
      match phaseOf a with
      | none => (connectionStep slot s.conn a).map fun c => { s with conn := c }
      | some phase =>
          if s.phase = phase then
            (connectionStep slot s.conn a).map fun c =>
              { s with
                conn := c
                phase := if phase = .checking then .waiting else s.phase }
          else none
  | .endEvents =>
      if s.phase = .events ∧ s.conn.registering = false ∧ s.conn.pass = none then
        some { s with
          counter := s.counter + 1
          phase := if (s.counter + 1) % 5 = 0 then .checking else .waiting }
      else none
  | .skip =>
      if s.phase = .checking ∧ s.conn.active = false then some { s with phase := .waiting }
      else none
  | .wake => if s.phase = .waiting then some { s with phase := .events } else none

/-- The first bytes of a line of the client that is a `DISCONNECT` have been read. -/
def DisconnectRead (c : Connection) : Prop :=
  ∃ pre l post, c.lines = pre ++ l :: post ∧ IsDisconnect l ∧
    c.unhandled.length + cmdDisconnect.length ≤ (render '\n' (l :: post)).length

/-- The slot may be closed. -/
def Justified (c : Connection) : Prop :=
  c.writer = .closed ∨ DisconnectRead c

/-- What is not handled yet begins with a line. -/
def AtLineStart (c : Connection) : Prop :=
  ∃ pre post, c.lines = pre ++ post ∧ c.unhandled = render '\n' post

/-- The buffer does not begin inside a line with what looks like a `DISCONNECT`. -/
def NotTorn (c : Connection) (buffer : Text) : Prop :=
  cmdDisconnect <+: buffer → AtLineStart c

/-- The next read of the event loop ends its pass, and the buffer is handled: it is full, or the
FIFO is empty and not at end of file. -/
def EndsPass (c : Connection) (buffer : Text) : Prop :=
  buffer.length < bufferBytes → c.fifo = [] ∧ c.writer = .opened

/-- The periodic check does not read the FIFO before the client has opened it, and no reader
takes a piece from inside a line for a `DISCONNECT`. -/
def KeepsSlot (c : Connection) : ConnectionAction → Prop
  | .registrationRead => NotTorn c (c.fifo.take bufferBytes)
  | .eventRead => ∀ buffer ∈ c.pass, EndsPass c buffer → NotTorn c buffer
  | .periodicRead => c.writer ≠ .notOpened ∧ NotTorn c (c.fifo.take bufferBytes)
  | _ => True

/-- A step of the loop keeps the slot. -/
def KeepsClient (s : MainLoop) : LoopAction → Prop
  | .conn a => KeepsSlot s.conn a
  | _ => True

/-! ## The commands of a buffer -/

/-- A command copy that is a `DISCONNECT` is one of the command. -/
theorem isDisconnect_of_commandCopy {command : Text} (h : IsDisconnect (commandCopy command)) :
    IsDisconnect command :=
  h.trans ((List.takeWhile_prefix _).trans (List.take_prefix _ _))

/-- A command changes what was carried out, and closes the slot only if it is a `DISCONNECT`. -/
theorem processClientCommand_changes (c : Connection) (command : Text) :
    ∃ carried active, processClientCommand c command = { c with carried, active } ∧
      (active = true → c.active = true) ∧
      (c.active = true → active = false → IsDisconnect command) := by
  unfold processClientCommand
  split
  next hc =>
    have hopen : ∀ carried, ∃ carried' active', ({ c with carried } : Connection)
        = { c with carried := carried', active := active' } ∧ (active' = true → c.active = true) ∧
          (c.active = true → active' = false → IsDisconnect command) := fun carried =>
      ⟨carried, c.active, rfl, id, fun htrue hfalse => by simp [htrue] at hfalse⟩
    simp only
    split
    next hreq =>
      refine ⟨_, false, rfl, fun _ => hc, fun _ _ => isDisconnect_of_commandCopy ?_⟩
      exact (requestOf_eq_disconnect_iff _).mp hreq
    all_goals exact hopen _
  next hc => exact ⟨c.carried, c.active, rfl, id, fun htrue => absurd htrue hc⟩

/-- A buffer changes what was carried out, and closes the slot only with a `DISCONNECT`. -/
theorem processBuffer_changes (c : Connection) (buffer : Text) :
    ∃ carried active, processBuffer c buffer = { c with carried, active } ∧
      (active = true → c.active = true) ∧
      (c.active = true → active = false → ∃ d ∈ commandsOf buffer, IsDisconnect d) := by
  rw [processBuffer_eq_foldl]
  generalize commandsOf buffer = commands
  induction commands generalizing c with
  | nil =>
    exact ⟨c.carried, c.active, rfl, id, fun htrue hfalse => by simp [htrue] at hfalse⟩
  | cons command commands ih =>
    obtain ⟨carried, active, heq, hactive, hclosed⟩ := processClientCommand_changes c command
    obtain ⟨carried', active', heq', hactive', hclosed'⟩ := ih (processClientCommand c command)
    rw [List.foldl_cons, heq']
    rw [heq] at hactive' hclosed' ⊢
    refine ⟨carried', active', rfl, fun h => hactive (hactive' h), fun htrue hfalse => ?_⟩
    by_cases hopen : active = true
    · obtain ⟨d, hd, hdis⟩ := hclosed' hopen hfalse
      exact ⟨d, List.mem_cons_of_mem _ hd, hdis⟩
    · exact ⟨command, List.mem_cons_self, hclosed htrue (by simpa using hopen)⟩

/-- A `DISCONNECT` among the commands of a buffer is the start of one of the lines that the
buffer is read from. -/
theorem disconnect_of_buffer {q : List Text} (hq : ∀ x ∈ q, IsLine x) {buffer rest d : Text}
    (hbuffer : buffer ++ rest = render '\n' q) (hd : d ∈ commandsOf buffer)
    (hdis : IsDisconnect d) :
    ∃ pre x post, q = pre ++ x :: post ∧ IsDisconnect x ∧
      rest.length + cmdDisconnect.length ≤ (render '\n' (x :: post)).length ∧
      (pre = [] → cmdDisconnect <+: buffer) := by
  have hlen := hdis.length_le
  rcases take_render '\n' q buffer.length with
    ⟨-, htake, hdrop⟩ | ⟨pre, l, post, k, rfl, hk, -, htake, hdrop⟩
  · -- the buffer has all the lines
    rw [← hbuffer, List.take_left, hbuffer] at htake
    rw [← hbuffer, List.drop_left] at hdrop
    obtain ⟨-, hcommands⟩ := commandsOf_render hq (l := []) ⟨by simp, by simp, by simp⟩ 0
    simp only [List.take_nil, List.append_nil, nonblank_blank, nonblank_nil] at hcommands
    rw [htake, hcommands] at hd
    obtain ⟨pre, post, rfl⟩ := List.append_of_mem (mem_nonblank.mp hd).1
    refine ⟨pre, d, post, rfl, hdis, ?_, ?_⟩
    · rw [hdrop, render_cons, List.length_append]
      simp only [List.length_nil]
      omega
    · rintro rfl
      rw [htake, List.nil_append, render_cons]
      exact hdis.trans (List.prefix_append _ _)
  · rw [← hbuffer, List.take_left] at htake
    rw [← hbuffer, List.drop_left] at hdrop
    have hpre : ∀ x ∈ pre, IsLine x := fun x hx => hq x (by simp [hx])
    have hl : IsLine l := hq l (by simp)
    obtain ⟨-, hcommands⟩ := commandsOf_render hpre hl k
    rw [htake, hcommands] at hd
    rcases List.mem_append.mp hd with hd | hd
    · -- a whole line before the cut
      obtain ⟨a, b, rfl⟩ := List.append_of_mem (mem_nonblank.mp hd).1
      refine ⟨a, d, b ++ l :: post, by simp, hdis, ?_, ?_⟩
      · rw [hdrop]
        simp only [render_cons, render_append, List.length_append, List.length_cons,
          List.length_drop]
        omega
      · rintro rfl
        rw [htake, List.nil_append, render_cons, List.append_assoc]
        exact hdis.trans (List.prefix_append _ _)
    · -- the line that is cut
      obtain rfl : d = l.take k := by simpa using (mem_nonblank.mp hd).1
      rw [List.length_take] at hlen
      refine ⟨pre, l, post, rfl, hdis.trans (List.take_prefix _ _), ?_, ?_⟩
      · rw [hdrop]
        simp only [render_cons, List.length_append, List.length_cons, List.length_drop]
        omega
      · rintro rfl
        rw [htake]
        exact hdis

/-! ## Each step -/

/-- The bytes not handled yet are the end of what was written, nothing is written before the
client has opened its FIFO, and a closed slot is not read any more. -/
structure Kept (c : Connection) : Prop where
  unhandled : c.unhandled <:+ render '\n' c.lines
  registering : c.registering = true → c.pass = none
  notOpened : c.writer = .notOpened → c.fifo = [] ∧ c.pass = none
  closed : c.active = false → c.registering = false ∧ c.pass = none ∧ Justified c

theorem Kept.init : Kept .init where
  unhandled := by simp [Connection.init, Connection.unhandled]
  registering _ := rfl
  notOpened _ := ⟨rfl, rfl⟩
  closed h := by simp [Connection.init] at h

/-- What is not handled begins with a line, or with the rest of one. -/
theorem Kept.exists_pending {c : Connection} (h : Kept c) :
    ∃ pre pending, c.unhandled = render '\n' pending ∧ (∀ x ∈ pending, IsLine x) ∧
      (c.lines = pre ++ pending ∨
        ∃ l k post, pending = l.drop k :: post ∧ c.lines = pre ++ l :: post) := by
  obtain ⟨handled, hhandled⟩ := h.unhandled
  rcases take_render '\n' c.lines handled.length with
    ⟨-, -, hdrop⟩ | ⟨pre, l, post, k, hlines, -, -, -, hdrop⟩
  · rw [← hhandled, List.drop_left] at hdrop
    exact ⟨c.lines, [], by simpa using hdrop, by simp, Or.inl (by simp)⟩
  · rw [← hhandled, List.drop_left] at hdrop
    refine ⟨pre, l.drop k :: post, hdrop, ?_, Or.inr ⟨l, k, post, rfl, hlines⟩⟩
    intro x hx
    -- what is left of a line is a line
    have hline : ∀ y ∈ l :: post, IsLine y := fun y hy =>
      Connection.isLine y (by rw [hlines]; exact List.mem_append_right _ hy)
    rcases List.mem_cons.mp hx with rfl | hx
    · obtain ⟨hnl, hnul, hfits⟩ := hline l List.mem_cons_self
      refine ⟨fun hmem => hnl (List.mem_of_mem_drop hmem),
        fun hmem => hnul (List.mem_of_mem_drop hmem), ?_⟩
      rw [List.length_drop]
      omega
    · exact hline x (List.mem_cons_of_mem _ hx)

/-- A `DISCONNECT` in a piece that does not begin inside a line with one is a `DISCONNECT` of the
client. -/
theorem Kept.disconnectRead {c c' : Connection} (h : Kept c) {buffer d : Text}
    (htorn : NotTorn c buffer) (hd : d ∈ commandsOf buffer) (hdis : IsDisconnect d)
    (hlines : c'.lines = c.lines) (hrest : buffer ++ c'.unhandled = c.unhandled) :
    DisconnectRead c' := by
  by_cases hstart : AtLineStart c
  · obtain ⟨pre, pending, hsplit, hun⟩ := hstart
    have hline : ∀ x ∈ pending, IsLine x := fun x hx =>
      Connection.isLine x (by rw [hsplit]; exact List.mem_append_right _ hx)
    obtain ⟨before, x, post, rfl, hx, hlen, -⟩ :=
      disconnect_of_buffer hline (hrest.trans hun) hd hdis
    exact ⟨pre ++ before, x, post, by rw [hlines, hsplit, List.append_assoc], hx, hlen⟩
  · obtain ⟨pre, pending, hun, hline, hsplit | ⟨l, k, post, rfl, hsplit⟩⟩ := h.exists_pending
    · exact absurd ⟨pre, pending, hsplit, hun⟩ hstart
    obtain ⟨before, x, after, heq, hx, hlen, hfirst⟩ :=
      disconnect_of_buffer hline (hrest.trans hun) hd hdis
    cases before with
    | nil => exact absurd (htorn (hfirst rfl)) hstart
    | cons first before =>
      -- the `DISCONNECT` comes after the line that is cut
      simp only [List.cons_append, List.cons.injEq] at heq
      obtain ⟨-, rfl⟩ := heq
      refine ⟨pre ++ l :: before, x, after, ?_, hx, hlen⟩
      rw [hlines, hsplit, List.append_assoc, List.cons_append]

/-- Handling a piece keeps the client: the slot is closed only by a `DISCONNECT`. -/
theorem Kept.processBuffer {c₀ c : Connection} (h : Kept c₀) {buffer : Text}
    (htorn : NotTorn c₀ buffer) (hwritten : c.written = c₀.written)
    (hwriter : c.writer = c₀.writer) (hactive : c.active = true) (hpass : c.pass = none)
    (hreg : c.registering = false) (hbuffer : buffer ++ c.fifo = c₀.unhandled) :
    Kept (processBuffer c buffer) := by
  obtain ⟨carried, active, heq, -, hclosed⟩ := processBuffer_changes c buffer
  rw [heq]
  -- the buffer and the FIFO are what was unhandled
  have hrest : buffer ++ ({ c with carried, active } : Connection).unhandled = c₀.unhandled := by
    rw [← hbuffer, Connection.unhandled, hpass]
    simp
  have hlines : ({ c with carried, active } : Connection).lines = c₀.lines := by
    rw [Connection.lines, hwritten, Connection.lines]
  exact {
    unhandled := by
      rw [hlines]
      exact List.IsSuffix.trans ⟨buffer, hrest⟩ h.unhandled
    registering := fun _ => hpass
    notOpened := by
      intro hno
      obtain ⟨hfifo, hnone⟩ := h.notOpened (hwriter ▸ hno)
      rw [Connection.unhandled, hfifo, hnone] at hbuffer
      exact ⟨(List.append_eq_nil_iff.mp hbuffer).2, hpass⟩
    closed := by
      intro hfalse
      obtain ⟨d, hd, hdis⟩ := hclosed hactive hfalse
      exact ⟨hreg, hpass, Or.inr (h.disconnectRead htorn hd hdis hlines hrest)⟩ }

/-- While the slot is read it is active. -/
theorem Kept.active {c : Connection} (h : Kept c) (hread : c.registering = true ∨ c.pass ≠ none) :
    c.active = true := by
  by_contra hclosed
  obtain ⟨hreg, hpass, -⟩ := h.closed (by simpa using hclosed)
  rcases hread with hread | hread
  · simp [hreg] at hread
  · exact hread hpass

/-- A writer that has opened the FIFO, and no longer has it open, has closed it. -/
theorem writer_eq_closed {c : Connection} (hopened : c.writer ≠ .notOpened)
    (hnot : c.writer ≠ .opened) : c.writer = .closed := by
  cases hw : c.writer with
  | notOpened => exact absurd hw hopened
  | opened => exact absurd hw hnot
  | closed => rfl

/-- The event loop keeps the client. -/
theorem Kept.eventRead {c c' : Connection} (h : Kept c)
    (htorn : ∀ buffer ∈ c.pass, EndsPass c buffer → NotTorn c buffer)
    (hstep : eventReadStep c = some c') : Kept c' := by
  unfold eventReadStep at hstep
  split at hstep
  next => simp at hstep
  next buffer hpass =>
    have hactive : c.active = true := h.active (Or.inr (by simp [hpass]))
    have hreg : c.registering = false := by
      by_contra htrue
      simpa [hpass] using h.registering (by simpa using htrue)
    have hopened : c.writer ≠ .notOpened := by
      intro hno
      simpa [hpass] using (h.notOpened hno).2
    split at hstep
    next hroom =>
      split at hstep
      next hfifo =>
        -- one more piece goes to the buffer
        simp only [Option.some.injEq] at hstep
        subst hstep
        exact { unhandled := by
                  simpa [Connection.unhandled, Connection.lines, hpass] using h.unhandled
                registering := fun htrue => by simp [hreg] at htrue
                notOpened := fun hno => absurd hno hopened
                closed := fun hclosed => by simp [hactive] at hclosed }
      next hfifo =>
        have hempty : c.fifo = [] := not_not.mp hfifo
        split at hstep <;> simp only [Option.some.injEq] at hstep <;> subst hstep
        next hwriter =>
          have hends : EndsPass c buffer := fun _ => ⟨hempty, hwriter⟩
          refine h.processBuffer (htorn buffer hpass hends) rfl rfl hactive rfl hreg ?_
          simp [Connection.unhandled, hpass]
        next hwriter =>
          -- the slot is closed, and what is in the buffer is ignored
          rw [processBuffer_eq_foldl, foldl_inactive rfl]
          exact { unhandled := by simp [Connection.unhandled, hempty]
                  registering := fun _ => rfl
                  notOpened := fun hno => absurd hno hopened
                  closed := fun _ => ⟨hreg, rfl, Or.inl (writer_eq_closed hopened hwriter)⟩ }
    next hfull =>
      simp only [Option.some.injEq] at hstep
      subst hstep
      have hends : EndsPass c buffer := fun hroom => absurd hroom hfull
      refine h.processBuffer (htorn buffer hpass hends) rfl rfl hactive rfl hreg ?_
      simp [Connection.unhandled, hpass]

/-- Every step of the connection that meets `KeepsSlot` keeps the client. -/
theorem Kept.connectionStep {slot : Fin maxClients} {c c' : Connection} {a : ConnectionAction}
    (h : Kept c) (hguard : KeepsSlot c a) (hstep : connectionStep slot c a = some c') :
    Kept c' := by
  cases a <;> simp only [FileServer.connectionStep] at hstep
  case openWriter =>
    split at hstep <;> simp only [Option.some.injEq, reduceCtorEq] at hstep
    next hopen =>
      subst hstep
      exact { unhandled := h.unhandled
              registering := h.registering
              notOpened := fun hno => by simp at hno
              closed := fun hclosed => by simp [hopen.2] at hclosed }
  case write l =>
    split at hstep <;> simp only [Option.some.injEq, reduceCtorEq] at hstep
    next hopen =>
      subst hstep
      refine { unhandled := ?_
               registering := h.registering
               notOpened := fun hno => by simp [hopen.1] at hno
               closed := fun hclosed => by simp [hopen.2] at hclosed }
      obtain ⟨handled, hhandled⟩ := h.unhandled
      refine ⟨handled, ?_⟩
      have hlines : render '\n' (c.lines ++ [l.text]) =
          handled ++ c.unhandled ++ l.text ++ ['\n'] := by
        rw [render_append, ← hhandled]
        simp
      simpa [Connection.lines, Connection.unhandled] using hlines.symm
  case closeWriter =>
    split at hstep <;> simp only [Option.some.injEq, reduceCtorEq] at hstep
    subst hstep
    exact { unhandled := h.unhandled
            registering := h.registering
            notOpened := fun hno => by simp at hno
            closed := fun hclosed =>
              ⟨(h.closed hclosed).1, (h.closed hclosed).2.1, Or.inl rfl⟩ }
  case registrationRead =>
    split at hstep <;> simp only [Option.some.injEq, reduceCtorEq] at hstep
    next hreg =>
      subst hstep
      have hpass : c.pass = none := h.registering hreg
      refine h.processBuffer hguard rfl rfl (h.active (Or.inl hreg)) hpass rfl ?_
      simp [Connection.unhandled, hpass]
  case event =>
    split at hstep <;> simp only [Option.some.injEq, reduceCtorEq] at hstep
    next hevent =>
      subst hstep
      obtain ⟨-, hreg, hpass, hactive, hready⟩ := hevent
      have hopened : c.writer ≠ .notOpened := by
        intro hno
        have hfifo : c.fifo = [] := (h.notOpened hno).1
        simp [hfifo, hno] at hready
      exact { unhandled := by
                simpa [Connection.unhandled, Connection.lines, hpass] using h.unhandled
              registering := fun htrue => by simp [hreg] at htrue
              notOpened := fun hno => absurd hno hopened
              closed := fun hclosed => by simp [hactive] at hclosed }
  case eventRead => exact h.eventRead hguard hstep
  case periodicRead =>
    obtain ⟨hopened, htorn⟩ := hguard
    split at hstep
    next hcheck =>
      obtain ⟨hreg, hpass, hactive⟩ := hcheck
      split at hstep
      next hfifo =>
        simp only [Option.some.injEq] at hstep
        subst hstep
        refine h.processBuffer htorn rfl rfl hactive hpass hreg ?_
        simp [Connection.unhandled, hpass]
      next hfifo =>
        split at hstep <;> simp only [Option.some.injEq] at hstep <;> subst hstep
        next => exact h
        next hwriter =>
          -- the read returns 0, and the client has closed the FIFO
          have hgone : c.writer = .closed := writer_eq_closed hopened hwriter
          exact { h with closed := fun _ => ⟨hreg, hpass, Or.inl hgone⟩ }
    next => simp at hstep

/-! ## Runs of the loop -/

/-- A step of the connection in the loop. -/
theorem loopStep_conn {slot : Fin maxClients} {s s' : MainLoop} {a : ConnectionAction}
    (h : loopStep slot s (.conn a) = some s') :
    connectionStep slot s.conn a = some s'.conn := by
  simp only [loopStep] at h
  split at h
  next =>
    obtain ⟨c, hc, rfl⟩ := Option.map_eq_some_iff.mp h
    exact hc
  next =>
    split at h
    · obtain ⟨c, hc, rfl⟩ := Option.map_eq_some_iff.mp h
      exact hc
    · simp at h

/-- A step of the loop is one of the connection, or leaves the connection as it is. -/
theorem loopStep_cases {slot : Fin maxClients} {s s' : MainLoop} {a : LoopAction}
    (h : loopStep slot s a = some s') :
    (∃ ca, a = .conn ca ∧ connectionStep slot s.conn ca = some s'.conn) ∨ s'.conn = s.conn := by
  cases a
  case conn ca => exact Or.inl ⟨ca, rfl, loopStep_conn h⟩
  all_goals
    simp only [loopStep] at h
    split at h <;> simp only [Option.some.injEq, reduceCtorEq] at h
    exact Or.inr (by rw [← h])

/-- In every run in which no periodic check comes before the client has opened its FIFO and no
piece from inside a line is taken for a `DISCONNECT`, the slot is closed only after a
`DISCONNECT` of the client has been read or the client has closed its FIFO. -/
theorem justified_of_run {slot : Fin maxClients} {counter : ℕ} {tr : List (MainLoop × LoopAction)}
    {s : MainLoop} (hrun : Run (loopStep slot) (.init counter) tr s)
    (hmeet : StepsMeet KeepsClient tr) (hclosed : s.conn.active = false) : Justified s.conn := by
  have hkept : Kept s.conn := by
    refine hrun.invariant (I := fun s => Kept s.conn) Kept.init ?_ hmeet
    intro t a u ht hguard hstep
    rcases loopStep_cases hstep with ⟨ca, rfl, hconn⟩ | hsame
    · exact ht.connectionStep hguard hconn
    · rw [hsame]
      exact ht
  exact (hkept.closed hclosed).2.2

/-- Until the client has opened its FIFO there are no lines, and nothing to read. -/
def Silent (c : Connection) : Prop :=
  c.writer = .notOpened → c.written = [] ∧ c.fifo = []

/-- A read leaves less in the FIFO. -/
theorem Silent.of_read {c d : Connection} (h : Silent c) (n : ℕ) (hfifo : d.fifo = c.fifo.drop n)
    (hwriter : d.writer = c.writer) (hwritten : d.written = c.written) : Silent d := by
  intro hno
  obtain ⟨hlines, hempty⟩ := h (hwriter ▸ hno)
  exact ⟨hwritten.trans hlines, by rw [hfifo, hempty, List.drop_nil]⟩

theorem Silent.processBuffer {c d : Connection} (h : Silent c) (n : ℕ)
    (hfifo : d.fifo = c.fifo.drop n) (hwriter : d.writer = c.writer)
    (hwritten : d.written = c.written) (buffer : Text) : Silent (processBuffer d buffer) := by
  obtain ⟨carried, active, heq, -, -⟩ := processBuffer_changes d buffer
  rw [heq]
  exact h.of_read n hfifo hwriter hwritten

theorem Silent.connectionStep {slot : Fin maxClients} {c c' : Connection} {a : ConnectionAction}
    (h : Silent c) (hstep : connectionStep slot c a = some c') : Silent c' := by
  cases a <;> simp only [FileServer.connectionStep] at hstep
  -- a client that has opened its end, now or before
  case openWriter | closeWriter =>
    split at hstep <;> simp only [Option.some.injEq, reduceCtorEq] at hstep
    subst hstep
    exact fun hno => by simp at hno
  case write l =>
    split at hstep <;> simp only [Option.some.injEq, reduceCtorEq] at hstep
    next hopen =>
      subst hstep
      exact fun hno => by simp [hopen.1] at hno
  case registrationRead =>
    split at hstep <;> simp only [Option.some.injEq, reduceCtorEq] at hstep
    subst hstep
    refine h.processBuffer bufferBytes ?_ ?_ ?_ _ <;> rfl
  case event =>
    split at hstep <;> simp only [Option.some.injEq, reduceCtorEq] at hstep
    subst hstep
    exact h
  case eventRead =>
    unfold eventReadStep at hstep
    split at hstep
    next => simp at hstep
    next buffer hpass =>
      repeat' split at hstep
      all_goals
        simp only [Option.some.injEq] at hstep
        subst hstep
      · exact h.of_read _ rfl rfl rfl
      all_goals refine h.processBuffer 0 ?_ ?_ ?_ buffer <;> rfl
  case periodicRead =>
    repeat' split at hstep
    all_goals simp only [Option.some.injEq, reduceCtorEq] at hstep
    all_goals subst hstep
    · refine h.processBuffer bufferBytes ?_ ?_ ?_ _ <;> rfl
    all_goals exact h

/-- A periodic check of the slot before the client has opened its FIFO closes the slot of a live
client. -/
theorem not_justified_of_check {slot : Fin maxClients} {counter : ℕ}
    {tr : List (MainLoop × LoopAction)} {s s' : MainLoop}
    (hrun : Run (loopStep slot) (.init counter) tr s) (hwriter : s.conn.writer = .notOpened)
    (hstep : loopStep slot s (.conn .periodicRead) = some s') :
    s'.conn.active = false ∧ ¬ Justified s'.conn := by
  have hsilent : Silent s.conn := by
    refine hrun.invariant_all (I := fun s => Silent s.conn) (fun _ => ⟨rfl, rfl⟩) ?_
    intro t a u ht hstep
    rcases loopStep_cases hstep with ⟨ca, -, hconn⟩ | hsame
    · exact ht.connectionStep hconn
    · rw [hsame]
      exact ht
  obtain ⟨hwritten, hfifo⟩ := hsilent hwriter
  -- the read returns 0
  have hclosed : s'.conn = { s.conn with active := false } := by
    have hconn := loopStep_conn hstep
    simp only [connectionStep, hfifo, hwriter] at hconn
    split at hconn
    · simpa [hfifo, hwriter] using hconn.symm
    · simp at hconn
  rw [hclosed]
  refine ⟨rfl, ?_⟩
  rintro (hgone | ⟨pre, l, post, hlines, -⟩)
  · simp [hwriter] at hgone
  · simp [Connection.lines, hwritten] at hlines

/-! ## A client that registers before a periodic check -/

/-- The client has opened its FIFO before a check, and no piece looks like a `DISCONNECT`. -/
private def quiet (s : MainLoop) : LoopAction → Bool
  | .conn .registrationRead => !cmdDisconnect.isPrefixOf (s.conn.fifo.take bufferBytes)
  | .conn .eventRead => !cmdDisconnect.isPrefixOf (s.conn.pass.getD [])
  | .conn .periodicRead =>
      s.conn.writer ≠ .notOpened && !cmdDisconnect.isPrefixOf (s.conn.fifo.take bufferBytes)
  | _ => true

private theorem keepsClient_of_quiet {s : MainLoop} {a : LoopAction} (h : quiet s a = true) :
    KeepsClient s a := by
  have hnot : ∀ buffer, cmdDisconnect.isPrefixOf buffer = false → NotTorn s.conn buffer :=
    fun buffer hno hpre => by simp [List.isPrefixOf_iff_prefix.mpr hpre] at hno
  cases a with
  | conn ca =>
    cases ca
    case registrationRead => exact hnot _ (by simpa [quiet] using h)
    case eventRead =>
      intro buffer hbuffer _
      have hpass : s.conn.pass = some buffer := hbuffer
      exact hnot _ (by simpa [quiet, hpass] using h)
    case periodicRead =>
      have hquiet : s.conn.writer ≠ .notOpened ∧
          cmdDisconnect.isPrefixOf (s.conn.fifo.take bufferBytes) = false := by
        simpa [quiet] using h
      exact ⟨hquiet.1, hnot _ hquiet.2⟩
    all_goals trivial
  | _ => trivial

private theorem opened_first_executes :
    (execute (loopStep 1) quiet (.init 4)
      [.conn .registrationRead, .conn .openWriter, .conn (.write getLine), .endEvents,
        .conn .periodicRead, .conn .closeWriter, .wake, .conn .event, .conn .eventRead]).isSome
      = true := by
  decide +kernel

/-- `justified_of_run` where the client opens its FIFO before the periodic check, sends a line
and closes the FIFO. -/
theorem justified_opened_first :
    ∃ s, Reachable (loopStep 1) (.init 4) s ∧ s.conn.active = false ∧ Justified s.conn := by
  obtain ⟨tr, h, hmeet⟩ := exists_run_of_isSome opened_first_executes
  have hkeeps : StepsMeet KeepsClient tr := hmeet.mono fun s a h => keepsClient_of_quiet h
  exact ⟨_, ⟨tr, h⟩, by decide +kernel, justified_of_run h hkeeps (by decide +kernel)⟩

private theorem early_check_executes :
    (execute (loopStep 1) (fun _ _ => true) (.init 4)
      [.conn .registrationRead, .endEvents, .conn .periodicRead]).isSome = true := by
  decide +kernel

/-- The client registers in an iteration that ends with a periodic check, which closes its slot
before the client has opened its FIFO. -/
theorem dropped_before_open :
    ∃ tr s, Run (loopStep 1) (.init 4) tr s ∧ s.conn.active = false ∧
      s.conn.writer = .notOpened ∧ ¬ Justified s.conn := by
  obtain ⟨tr, h, -⟩ := exists_run_of_isSome early_check_executes
  refine ⟨tr, _, h, by decide +kernel, by decide +kernel, ?_⟩
  rintro (hgone | ⟨pre, l, post, hlines, -⟩)
  · exact absurd hgone (by decide +kernel)
  · have hnone : pre ++ l :: post = [] := hlines.symm.trans (by decide +kernel)
    simp at hnone

end FileServer
