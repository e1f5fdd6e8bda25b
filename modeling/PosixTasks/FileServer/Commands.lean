import PosixTasks.FileServer.Connection

/-!
# Which commands of a client are carried out

## Main results

* `processBuffer_eq`: what a buffer of whole lines and a tail leads to;
* `Tracked`, `tracked_or_torn_of_run`: while no reader has lost or torn a command, the commands
  carried out are the lines written so far, up to the first `DISCONNECT`;
* `carried_eq_iff_of_run`: once all is read, they are exactly the lines written up to the first
  `DISCONNECT`, exactly if no reader has lost or torn a command and no such line is empty.
-/

namespace FileServer

open CString Lines Transition

/-! ## Lines up to the first `DISCONNECT` -/

/-- The command closes the connection. -/
abbrev IsDisconnect (command : Text) : Prop :=
  cmdDisconnect <+: command

/-- The lines up to and including the first `DISCONNECT`; all lines if there is none. -/
def upToDisconnect : List Text → List Text
  | [] => []
  | l :: lines => if IsDisconnect l then [l] else l :: upToDisconnect lines

/-- The lines that are not empty. -/
def nonblank (lines : List Text) : List Text :=
  lines.filter (· ≠ [])

@[simp]
theorem nonblank_nil : nonblank [] = [] := rfl

@[simp]
theorem nonblank_append (xs ys : List Text) :
    nonblank (xs ++ ys) = nonblank xs ++ nonblank ys := by
  simp [nonblank]

@[simp]
theorem nonblank_blank (xs : List Text) : nonblank ([] :: xs) = nonblank xs := by
  simp [nonblank]

theorem nonblank_cons {l : Text} (h : l ≠ []) (xs : List Text) :
    nonblank (l :: xs) = l :: nonblank xs := by
  simp [nonblank, h]

theorem mem_nonblank {xs : List Text} {l : Text} : l ∈ nonblank xs ↔ l ∈ xs ∧ l ≠ [] := by
  simp [nonblank]

theorem IsDisconnect.ne_nil {l : Text} (h : IsDisconnect l) : l ≠ [] := by
  rintro rfl
  simp [IsDisconnect, cmdDisconnect] at h

theorem upToDisconnect_append {xs : List Text} (h : ∀ l ∈ xs, ¬ IsDisconnect l)
    (ys : List Text) : upToDisconnect (xs ++ ys) = xs ++ upToDisconnect ys := by
  induction xs with
  | nil => rfl
  | cons x xs ih =>
    rw [List.cons_append, upToDisconnect, if_neg (h x (by simp)), ih fun l hl => h l (by simp [hl]),
      List.cons_append]

theorem upToDisconnect_eq_self {xs : List Text} (h : ∀ l ∈ xs, ¬ IsDisconnect l) :
    upToDisconnect xs = xs := by
  have := upToDisconnect_append h []
  simpa [upToDisconnect] using this

/-- Behind a `DISCONNECT` nothing matters. -/
theorem upToDisconnect_append_of_mem {xs : List Text} (h : ∃ l ∈ xs, IsDisconnect l)
    (ys : List Text) : upToDisconnect (xs ++ ys) = upToDisconnect xs := by
  induction xs with
  | nil => simp at h
  | cons x xs ih =>
    by_cases hx : IsDisconnect x
    · simp [upToDisconnect, hx]
    · have h' : ∃ l ∈ xs, IsDisconnect l := by simpa [hx] using h
      simp [upToDisconnect, hx, ih h']

/-- Empty lines do not change where the first `DISCONNECT` is. -/
theorem upToDisconnect_nonblank (xs : List Text) :
    upToDisconnect (nonblank xs) = nonblank (upToDisconnect xs) := by
  induction xs with
  | nil => rfl
  | cons x xs ih =>
    by_cases hblank : x = []
    · have hno : ¬ IsDisconnect [] := fun h => h.ne_nil rfl
      rw [hblank, nonblank_blank, ih, upToDisconnect, if_neg hno, nonblank_blank]
    · by_cases hx : IsDisconnect x
      · simp [nonblank_cons hblank, upToDisconnect, hx]
      · simp [nonblank_cons hblank, upToDisconnect, hx, ih]

/-! ## What a buffer leads to -/

/-- A command the server can carry out as it is: one line of at most 511 bytes. -/
def Fits (command : Text) : Prop :=
  command.length ≤ commandBytes ∧ '\n' ∉ command

theorem commandCopy_of_fits {command : Text} (h : Fits command) :
    commandCopy command = command := by
  rw [commandCopy, List.take_of_length_le h.1, List.takeWhile_eq_self_iff]
  intro c hc
  simpa using fun heq : c = '\n' => h.2 (heq ▸ hc)

theorem requestOf_eq_disconnect_iff (command : Text) :
    requestOf command = .disconnect ↔ IsDisconnect command := by
  unfold requestOf
  split
  next h => simp [IsDisconnect, h]
  next h =>
    refine iff_of_false ?_ h
    split
    · split <;> simp
    · simp

/-- One command: it is carried out if the slot is active, and `DISCONNECT` closes the slot. -/
theorem processClientCommand_eq {c : Connection} {command : Text} (h : Fits command)
    (hactive : c.active = true) :
    processClientCommand c command = { c with
      carried := c.carried ++ [command]
      active := ! decide (IsDisconnect command) } := by
  rw [processClientCommand, if_pos hactive, commandCopy_of_fits h]
  by_cases hdis : IsDisconnect command
  · simp [(requestOf_eq_disconnect_iff command).mpr hdis, hdis]
  · have hne : requestOf command ≠ .disconnect :=
      fun heq => hdis ((requestOf_eq_disconnect_iff command).mp heq)
    cases hreq : requestOf command <;> simp_all

theorem processClientCommand_inactive {c : Connection} (h : c.active = false) (command : Text) :
    processClientCommand c command = c := by
  simp [processClientCommand, h]

/-- The commands in a buffer, the tail included. -/
def commandsOf (buffer : Text) : List Text :=
  nonblank ((split '\n' (ofBuffer buffer)).1 ++ [(split '\n' (ofBuffer buffer)).2])

/-- Skipping the empty lines in a loop over the lines. -/
theorem foldl_nonblank {σ : Type*} (f : σ → Text → σ) (lines : List Text) (s : σ) :
    lines.foldl (fun s line => if line ≠ [] then f s line else s) s =
      (nonblank lines).foldl f s := by
  induction lines generalizing s with
  | nil => rfl
  | cons line lines ih =>
    by_cases hblank : line = []
    · rw [List.foldl_cons, if_neg (not_not.mpr hblank), ih, hblank, nonblank_blank]
    · rw [List.foldl_cons, if_pos hblank, ih, nonblank_cons hblank, List.foldl_cons]

/-- The loop over the lines of a buffer, with its tail. -/
theorem foldl_commandsOf {σ : Type*} (f : σ → Text → σ) (buffer : Text) (s : σ) :
    (let lines := split '\n' (ofBuffer buffer)
      let s := lines.1.foldl (fun s line => if line ≠ [] then f s line else s) s
      if lines.2 ≠ [] then f s lines.2 else s) = (commandsOf buffer).foldl f s := by
  rw [commandsOf, nonblank_append, List.foldl_append]
  simp only [foldl_nonblank]
  by_cases htail : (split '\n' (ofBuffer buffer)).2 = []
  · simp [htail, nonblank]
  · simp [htail, nonblank]

theorem processBuffer_eq_foldl (c : Connection) (buffer : Text) :
    processBuffer c buffer = (commandsOf buffer).foldl processClientCommand c :=
  foldl_commandsOf processClientCommand buffer c

theorem foldl_inactive {c : Connection} (h : c.active = false) (commands : List Text) :
    commands.foldl processClientCommand c = c := by
  induction commands with
  | nil => rfl
  | cons command commands ih => rw [List.foldl_cons, processClientCommand_inactive h, ih]

/-- The commands of a buffer are carried out up to the first `DISCONNECT`. -/
theorem foldl_processClientCommand {c : Connection} (hactive : c.active = true)
    {commands : List Text} (hfits : ∀ command ∈ commands, Fits command) :
    commands.foldl processClientCommand c
      = { c with carried := c.carried ++ upToDisconnect commands
                 active := ! decide (∃ command ∈ commands, IsDisconnect command) } := by
  induction commands generalizing c with
  | nil => simp [upToDisconnect, ← hactive]
  | cons command commands ih =>
    rw [List.foldl_cons, processClientCommand_eq (hfits command (by simp)) hactive]
    by_cases hdis : IsDisconnect command
    · rw [foldl_inactive (by simp [hdis])]
      simp [upToDisconnect, hdis]
    · rw [ih (by simp [hdis]) fun d hd => hfits d (by simp [hd])]
      simp [upToDisconnect, hdis]

/-! ## Following the lines -/

/-- The texts of the lines written. -/
def Connection.lines (c : Connection) : List Text :=
  c.written.map CommandLine.text

/-- The bytes written that are not handled yet. -/
def Connection.unhandled (c : Connection) : Text :=
  c.pass.getD [] ++ c.fifo

/-- A text that can be a line of a client. -/
def IsLine (l : Text) : Prop :=
  '\n' ∉ l ∧ '\x00' ∉ l ∧ l.length + 1 ≤ 511

theorem Connection.isLine {c : Connection} : ∀ l ∈ c.lines, IsLine l := by
  simpa only [Connection.lines, List.forall_mem_map] using
    fun l _ => ⟨l.noNewline, l.noNul, l.fits⟩

/-- The lines `done` are handled and the lines `rest` are not. If the last piece ended right
before a newline, that newline is still to come. -/
structure Waiting (c : Connection) (done rest pending : List Text) : Prop where
  lines : c.lines = done ++ rest
  noDisconnect : ∀ l ∈ done, ¬ IsDisconnect l
  carried : c.carried = nonblank done
  unhandled : c.unhandled = render '\n' pending
  pending : pending = rest ∨ pending = [] :: rest

/-- No reader has lost or torn a command so far. -/
def Tracked (c : Connection) : Prop :=
  (c.active = true ∧ (c.registering = true → c.pass = none) ∧
      ∃ done rest pending, Waiting c done rest pending) ∨
    (c.active = false ∧ c.registering = false ∧ c.pass = none ∧
      c.carried = nonblank (upToDisconnect c.lines))

/-- Some line was torn or lost: after the lines `done`, what was carried out is not `L`, or
nothing more is carried out. -/
def Torn (c : Connection) : Prop :=
  ∃ done L rest, c.lines = done ++ L :: rest ∧ (∀ l ∈ done, ¬ IsDisconnect l) ∧ L ≠ [] ∧
    ((∃ p more, c.carried = nonblank done ++ p :: more ∧ p ≠ L) ∨
      (c.active = false ∧ c.carried = nonblank done))

theorem Waiting.isLine {c : Connection} {done rest pending : List Text}
    (h : Waiting c done rest pending) : ∀ l ∈ pending, IsLine l := by
  have hrest : ∀ l ∈ rest, IsLine l := fun l hl =>
    Connection.isLine l (by rw [h.lines]; exact List.mem_append_right _ hl)
  rcases h.pending with rfl | rfl
  · exact hrest
  · simpa [IsLine] using hrest

theorem Waiting.upToDisconnect_lines {c : Connection} {done rest pending : List Text}
    (h : Waiting c done rest pending) :
    nonblank (upToDisconnect c.lines) = nonblank done ++ nonblank (upToDisconnect pending) := by
  have hno : ¬ IsDisconnect [] := fun h => h.ne_nil rfl
  rw [h.lines, upToDisconnect_append h.noDisconnect, nonblank_append]
  rcases h.pending with rfl | rfl
  · rfl
  · rw [upToDisconnect, if_neg hno, nonblank_blank]

/-- Where a piece ends in `pending`, it ends in `rest`, unless it is empty. -/
theorem Waiting.split_pending {c : Connection} {done rest pending pre post : List Text}
    {l : Text} (h : Waiting c done rest pending) (hp : pending = pre ++ l :: post) :
    (∃ pre', rest = pre' ++ l :: post ∧ nonblank pre' = nonblank pre ∧ ∀ x ∈ pre', x ∈ pre) ∨
      (pre = [] ∧ l = [] ∧ post = rest) := by
  rcases h.pending with rfl | rfl
  · exact Or.inl ⟨pre, hp, rfl, fun x hx => hx⟩
  · cases pre with
    | nil =>
      simp only [List.nil_append, List.cons.injEq] at hp
      exact Or.inr ⟨rfl, hp.1.symm, hp.2.symm⟩
    | cons x pre =>
      simp only [List.cons_append, List.cons.injEq] at hp
      obtain ⟨rfl, rfl⟩ := hp
      exact Or.inl ⟨pre, rfl, by simp, fun y hy => List.mem_cons_of_mem _ hy⟩

theorem noNul_render_lines {lines : List Text} (h : ∀ l ∈ lines, IsLine l) :
    '\x00' ∉ render '\n' lines := by
  induction lines with
  | nil => simp
  | cons l lines ih =>
    simp [(h l (by simp)).2.1, ih fun m hm => h m (by simp [hm])]

theorem fits_take {l : Text} (h : IsLine l) (k : ℕ) : Fits (l.take k) := by
  refine ⟨?_, fun hmem => h.1 (List.mem_of_mem_take hmem)⟩
  have := h.2.2
  rw [List.length_take, commandBytes]
  omega

theorem fits_of_isLine {l : Text} (h : IsLine l) : Fits l := by
  simpa using fits_take h l.length

/-- The buffer ends with a line, or right before the newline of one, or it has a `DISCONNECT`
before its tail. -/
def EndsWithLine (buffer rest : Text) : Prop :=
  (split '\n' (ofBuffer buffer)).2 = [] ∨ rest.head? = some '\n' ∨
    ∃ l ∈ (split '\n' (ofBuffer buffer)).1, IsDisconnect l

/-- The effect of a buffer on an active slot, given its commands. -/
theorem processBuffer_eq {c : Connection} (hactive : c.active = true) {buffer : Text}
    {commands : List Text} (hcommands : commandsOf buffer = commands)
    (hfits : ∀ command ∈ commands, Fits command) :
    processBuffer c buffer
      = { c with carried := c.carried ++ upToDisconnect commands
                 active := ! decide (∃ command ∈ commands, IsDisconnect command) } := by
  rw [processBuffer_eq_foldl, hcommands]
  exact foldl_processClientCommand hactive hfits

/-- The commands of a buffer of whole lines and a part of the next one. -/
theorem commandsOf_render {lines : List Text} {l : Text} (hlines : ∀ x ∈ lines, IsLine x)
    (hl : IsLine l) (k : ℕ) :
    split '\n' (ofBuffer (render '\n' lines ++ l.take k)) = (lines, l.take k) ∧
      commandsOf (render '\n' lines ++ l.take k) = nonblank lines ++ nonblank [l.take k] := by
  have hbuf : ofBuffer (render '\n' lines ++ l.take k) = render '\n' lines ++ l.take k := by
    refine ofBuffer_of_not_mem fun hmem => ?_
    rcases List.mem_append.mp hmem with h | h
    · exact noNul_render_lines hlines h
    · exact hl.2.1 (List.mem_of_mem_take h)
  have hsplit : split '\n' (render '\n' lines ++ l.take k) = (lines, l.take k) :=
    split_render_append (fun x hx => (hlines x hx).1) fun h => hl.1 (List.mem_of_mem_take h)
  exact ⟨by rw [hbuf, hsplit], by rw [commandsOf, hbuf, hsplit, nonblank_append]⟩

/-- `c` has taken `buffer` off what `c₀` was waiting with, and is about to handle it. -/
structure TakesBuffer (c₀ c : Connection) (done rest pending : List Text) (buffer : Text) :
    Prop where
  waiting : Waiting c₀ done rest pending
  written : c.written = c₀.written
  carried : c.carried = c₀.carried
  active : c.active = true
  pass : c.pass = none
  registering : c.registering = false
  cut : buffer ++ c.fifo = c₀.unhandled

/-- The buffer ends in the line `l`, after `k` bytes of it. -/
structure EndsIn (pending pre : List Text) (l : Text) (post : List Text) (k : ℕ)
    (buffer fifo : Text) : Prop where
  pending : pending = pre ++ l :: post
  le : k ≤ l.length
  buffer : buffer = render '\n' pre ++ l.take k
  fifo : fifo = render '\n' (l.drop k :: post)

section TakesBuffer

variable {c₀ c : Connection} {done rest pending : List Text} {buffer : Text}

theorem TakesBuffer.lines (h : TakesBuffer c₀ c done rest pending buffer) :
    c.lines = done ++ rest := by
  rw [Connection.lines, h.written, ← Connection.lines, h.waiting.lines]

/-- Once a `DISCONNECT` is carried out, only the lines up to it count. -/
theorem TakesBuffer.closed (h : TakesBuffer c₀ c done rest pending buffer)
    {commands : List Text} (hcommands : commandsOf buffer = commands)
    (hfits : ∀ d ∈ commands, Fits d) (hdis : ∃ d ∈ commands, IsDisconnect d)
    (hup : upToDisconnect commands = nonblank (upToDisconnect pending)) :
    Tracked (processBuffer c buffer) := by
  rw [processBuffer_eq h.active hcommands hfits]
  refine Or.inr ⟨by simpa using hdis, h.registering, h.pass, ?_⟩
  show c.carried ++ _ = nonblank (upToDisconnect c.lines)
  rw [Connection.lines, h.written, ← Connection.lines, h.waiting.upToDisconnect_lines, h.carried,
    h.waiting.carried, hup]

/-- With no `DISCONNECT` in the buffer the slot stays active. -/
theorem TakesBuffer.stays_active (h : TakesBuffer c₀ c done rest pending buffer)
    {commands rest' : List Text} (done' pending' : List Text)
    (hcommands : commandsOf buffer = commands) (hfits : ∀ d ∈ commands, Fits d)
    (hno : ∀ d ∈ commands, ¬ IsDisconnect d) (hlines : done ++ rest = done' ++ rest')
    (hno' : ∀ l ∈ done', ¬ IsDisconnect l)
    (hdone : nonblank done ++ commands = nonblank done') (hfifo : c.fifo = render '\n' pending')
    (hpending : pending' = rest' ∨ pending' = [] :: rest') :
    Tracked (processBuffer c buffer) := by
  rw [processBuffer_eq h.active hcommands hfits, upToDisconnect_eq_self hno]
  refine Or.inl ⟨by simpa using hno, by simp [h.registering], done', rest', pending', ?_, hno', ?_,
    ?_, hpending⟩
  · exact h.lines.trans hlines
  · show c.carried ++ commands = _
    rw [h.carried, h.waiting.carried, hdone]
  · show c.pass.getD [] ++ c.fifo = _
    rw [h.pass, hfifo, Option.getD_none, List.nil_append]

/-- The buffer takes all lines that are pending. -/
theorem TakesBuffer.takes_all (h : TakesBuffer c₀ c done rest pending buffer)
    (hbuffer : buffer = render '\n' pending) (hfifo : c.fifo = []) :
    EndsWithLine buffer c.fifo ∧ Tracked (processBuffer c buffer) := by
  -- the read ends at the end of a line, so that all pieces are whole commands
  have hline := h.waiting.isLine
  obtain ⟨hpieces, hcommands⟩ := commandsOf_render hline (l := []) ⟨by simp, by simp, by simp⟩ 0
  simp only [List.take_nil, List.append_nil, nonblank_blank, nonblank_nil] at hpieces hcommands
  rw [← hbuffer] at hpieces hcommands
  refine ⟨Or.inl (by rw [hpieces]), ?_⟩
  have hfits : ∀ d ∈ nonblank pending, Fits d := fun d hd =>
    fits_of_isLine (hline d (mem_nonblank.mp hd).1)
  have hnonblank : nonblank pending = nonblank rest := by
    rcases h.waiting.pending with hp | hp <;> simp [hp]
  by_cases hdis : ∃ d ∈ nonblank pending, IsDisconnect d
  · exact h.closed hcommands hfits hdis (upToDisconnect_nonblank pending)
  · push Not at hdis
    refine h.stays_active (done ++ rest) [] hcommands hfits hdis (List.append_nil _).symm ?_
      (by rw [hnonblank, nonblank_append]) hfifo (Or.inl rfl)
    intro x hx
    rcases List.mem_append.mp hx with hx | hx
    · exact h.waiting.noDisconnect x hx
    · exact fun hxdis => hdis x (hnonblank ▸ mem_nonblank.mpr ⟨hx, hxdis.ne_nil⟩) hxdis

variable {pre post : List Text} {l : Text} {k : ℕ}

theorem TakesBuffer.commands (h : TakesBuffer c₀ c done rest pending buffer)
    (hin : EndsIn pending pre l post k buffer c.fifo) :
    split '\n' (ofBuffer buffer) = (pre, l.take k) ∧
      commandsOf buffer = nonblank pre ++ nonblank [l.take k] ∧
      ∀ d ∈ nonblank pre ++ nonblank [l.take k], Fits d := by
  have hline := h.waiting.isLine
  rw [hin.pending] at hline
  have hpre : ∀ x ∈ pre, IsLine x := fun x hx => hline x (by simp [hx])
  have hl : IsLine l := hline l (by simp)
  obtain ⟨hpieces, hcommands⟩ := commandsOf_render hpre hl k
  rw [← hin.buffer] at hpieces hcommands
  refine ⟨hpieces, hcommands, fun d hd => ?_⟩
  rcases List.mem_append.mp hd with hd | hd
  · exact fits_of_isLine (hpre d (mem_nonblank.mp hd).1)
  · rw [List.mem_singleton.mp (mem_nonblank.mp hd).1]
    exact fits_take hl k

/-- A `DISCONNECT` lies before the line in which the buffer ends. -/
theorem TakesBuffer.disconnects (h : TakesBuffer c₀ c done rest pending buffer)
    (hin : EndsIn pending pre l post k buffer c.fifo) (hdis : ∃ d ∈ pre, IsDisconnect d) :
    EndsWithLine buffer c.fifo ∧ Tracked (processBuffer c buffer) := by
  obtain ⟨hpieces, hcommands, hfits⟩ := h.commands hin
  refine ⟨Or.inr (Or.inr (by rw [hpieces]; exact hdis)), ?_⟩
  have hdis' : ∃ d ∈ nonblank pre, IsDisconnect d := by
    obtain ⟨d, hd, hdd⟩ := hdis
    exact ⟨d, mem_nonblank.mpr ⟨hd, hdd.ne_nil⟩, hdd⟩
  refine h.closed hcommands hfits ?_ ?_
  · obtain ⟨d, hd, hdd⟩ := hdis'
    exact ⟨d, List.mem_append_left _ hd, hdd⟩
  · rw [hin.pending, upToDisconnect_append_of_mem hdis', upToDisconnect_append_of_mem hdis,
      upToDisconnect_nonblank]

theorem not_isDisconnect_nonblank (hdis : ∀ d ∈ pre, ¬ IsDisconnect d) :
    ∀ d ∈ nonblank pre, ¬ IsDisconnect d :=
  fun d hd => hdis d (mem_nonblank.mp hd).1

theorem TakesBuffer.noDisconnect_append (h : TakesBuffer c₀ c done rest pending buffer)
    (hdis : ∀ d ∈ pre, ¬ IsDisconnect d) {pre' : List Text} (hsub : ∀ x ∈ pre', x ∈ pre) :
    ∀ x ∈ done ++ pre', ¬ IsDisconnect x := by
  intro x hx
  rcases List.mem_append.mp hx with hx | hx
  · exact h.waiting.noDisconnect x hx
  · exact hdis x (hsub x hx)

/-- The buffer ends where a line begins. -/
theorem TakesBuffer.ends_at_start (h : TakesBuffer c₀ c done rest pending buffer)
    (hin : EndsIn pending pre l post k buffer c.fifo) (hdis : ∀ d ∈ pre, ¬ IsDisconnect d)
    (htail : l.take k = []) :
    EndsWithLine buffer c.fifo ∧ Tracked (processBuffer c buffer) := by
  obtain ⟨hpieces, hcommands, hfits⟩ := h.commands hin
  refine ⟨Or.inl (by rw [hpieces]; exact htail), ?_⟩
  have hfifo := hin.fifo
  have hl0 : l.drop k = l := by
    rcases List.take_eq_nil_iff.mp htail with rfl | rfl <;> simp
  rw [hl0] at hfifo
  rw [htail, nonblank_blank, nonblank_nil, List.append_nil] at hcommands hfits
  have hno := not_isDisconnect_nonblank hdis
  rcases h.waiting.split_pending hin.pending with ⟨pre', hrest, hnb, hsub⟩ | ⟨rfl, rfl, rfl⟩
  · exact h.stays_active _ _ hcommands hfits hno (by rw [hrest, List.append_assoc])
      (h.noDisconnect_append hdis hsub) (by rw [nonblank_append, hnb]) hfifo (Or.inl rfl)
  · exact h.stays_active _ _ hcommands hfits hno rfl h.waiting.noDisconnect (by simp) hfifo
      (Or.inr rfl)

/-- In a line that the buffer enters the handled lines go on up to that line. -/
theorem TakesBuffer.split_rest (h : TakesBuffer c₀ c done rest pending buffer)
    (hin : EndsIn pending pre l post k buffer c.fifo) (hl : l ≠ []) :
    ∃ pre', rest = pre' ++ l :: post ∧ nonblank pre' = nonblank pre ∧ ∀ x ∈ pre', x ∈ pre := by
  rcases h.waiting.split_pending hin.pending with hp | ⟨-, hnil, -⟩
  · exact hp
  · exact absurd hnil hl

/-- The buffer ends right before the newline of a line, which is a whole command. -/
theorem TakesBuffer.ends_at_end (h : TakesBuffer c₀ c done rest pending buffer)
    (hin : EndsIn pending pre l post l.length buffer c.fifo) (hdis : ∀ d ∈ pre, ¬ IsDisconnect d)
    (hl : l ≠ []) : EndsWithLine buffer c.fifo ∧ Tracked (processBuffer c buffer) := by
  obtain ⟨-, hcommands, hfits⟩ := h.commands hin
  have hfifo := hin.fifo
  rw [List.drop_length] at hfifo
  rw [List.take_length] at hcommands hfits
  refine ⟨Or.inr (Or.inl (by rw [hfifo]; simp)), ?_⟩
  obtain ⟨pre', hrest, hnb, hsub⟩ := h.split_rest hin hl
  have hno := not_isDisconnect_nonblank hdis
  by_cases hldis : IsDisconnect l
  · refine h.closed hcommands hfits ⟨l, by simp [mem_nonblank, hl], hldis⟩ ?_
    rw [hin.pending, upToDisconnect_append hno, upToDisconnect_append hdis, nonblank_append,
      nonblank_cons hl]
    simp [upToDisconnect, hldis, nonblank_cons hl]
  · refine h.stays_active (done ++ pre' ++ [l]) _ hcommands hfits ?_ (by simp [hrest]) ?_
      (by simp [hnb]) hfifo (Or.inr rfl)
    · intro d hd
      rcases List.mem_append.mp hd with hd | hd
      · exact hno d hd
      · obtain rfl : d = l := by simpa using (mem_nonblank.mp hd).1
        exact hldis
    · intro x hx
      rcases List.mem_append.mp hx with hx | hx
      · exact h.noDisconnect_append hdis hsub x hx
      · obtain rfl : x = l := by simpa using hx
        exact hldis

/-- The buffer ends inside a line: the start of the line is carried out as a command. -/
theorem TakesBuffer.torn (h : TakesBuffer c₀ c done rest pending buffer)
    (hin : EndsIn pending pre l post k buffer c.fifo) (hdis : ∀ d ∈ pre, ¬ IsDisconnect d)
    (htail : l.take k ≠ []) (hlt : k < l.length) :
    ¬ EndsWithLine buffer c.fifo ∧ Torn (processBuffer c buffer) := by
  obtain ⟨hpieces, hcommands, hfits⟩ := h.commands hin
  have hl : l ≠ [] := fun hnil => htail (by simp [hnil])
  constructor
  · rintro (hends | hends | ⟨d, hd, hdd⟩)
    · rw [hpieces] at hends
      exact htail hends
    · -- the next byte is one of the line
      rw [hin.fifo, render_cons, List.drop_eq_getElem_cons hlt] at hends
      simp only [List.cons_append, List.head?_cons, Option.some.injEq] at hends
      have hline : IsLine l := h.waiting.isLine l (by simp [hin.pending])
      exact hline.1 (hends ▸ List.getElem_mem hlt)
    · rw [hpieces] at hd
      exact hdis d hd hdd
  · obtain ⟨pre', hrest, hnb, hsub⟩ := h.split_rest hin hl
    rw [processBuffer_eq h.active hcommands hfits]
    refine ⟨done ++ pre', l, post, ?_, h.noDisconnect_append hdis hsub, hl,
      Or.inl ⟨l.take k, [], ?_, fun heq => ?_⟩⟩
    · refine h.lines.trans ?_
      rw [hrest, List.append_assoc]
    · show c.carried ++ _ = _
      rw [h.carried, h.waiting.carried, upToDisconnect_append (not_isDisconnect_nonblank hdis),
        nonblank_append, hnb, nonblank_cons htail]
      simp [upToDisconnect]
    · have := congrArg List.length heq
      rw [List.length_take] at this
      omega

/-- Handling a buffer keeps track of the lines exactly if it ends with a line. -/
theorem TakesBuffer.tracked_or_torn (h : TakesBuffer c₀ c done rest pending buffer) :
    EndsWithLine buffer c.fifo ∧ Tracked (processBuffer c buffer) ∨
      ¬ EndsWithLine buffer c.fifo ∧ Torn (processBuffer c buffer) := by
  have hcut := h.cut
  rw [h.waiting.unhandled] at hcut
  rcases take_render '\n' pending buffer.length with
    ⟨-, htake, hdrop⟩ | ⟨pre, l, post, k, hpending, hk, -, htake, hdrop⟩
  · rw [← hcut, List.take_left, hcut] at htake
    rw [← hcut, List.drop_left] at hdrop
    exact Or.inl (h.takes_all htake hdrop)
  · rw [← hcut, List.take_left] at htake
    rw [← hcut, List.drop_left] at hdrop
    -- the read ends in the line `l`: behind a disconnect, at its start, in it or at its end
    have hin : EndsIn pending pre l post k buffer c.fifo := ⟨hpending, hk, htake, hdrop⟩
    by_cases hdis : ∃ d ∈ pre, IsDisconnect d
    · exact Or.inl (h.disconnects hin hdis)
    push Not at hdis
    by_cases htail : l.take k = []
    · exact Or.inl (h.ends_at_start hin hdis htail)
    rcases hk.lt_or_eq with hlt | rfl
    · exact Or.inr (h.torn hin hdis htail hlt)
    · exact Or.inl (h.ends_at_end hin hdis fun hnil => htail (by simp [hnil]))

end TakesBuffer

/-- Handling a buffer keeps track of the lines exactly if it ends with a line. -/
theorem Waiting.processBuffer {c₀ c : Connection} {done rest pending : List Text}
    {buffer : Text} (h : Waiting c₀ done rest pending) (hwritten : c.written = c₀.written)
    (hcarried : c.carried = c₀.carried) (hactive : c.active = true) (hpass : c.pass = none)
    (hreg : c.registering = false) (hbuffer : buffer ++ c.fifo = c₀.unhandled) :
    (EndsWithLine buffer c.fifo → Tracked (processBuffer c buffer)) ∧
      (¬ EndsWithLine buffer c.fifo → Torn (processBuffer c buffer)) := by
  have htakes : TakesBuffer c₀ c done rest pending buffer :=
    ⟨h, hwritten, hcarried, hactive, hpass, hreg, hbuffer⟩
  rcases htakes.tracked_or_torn with ⟨hends, htracked⟩ | ⟨hnot, htorn⟩
  · exact ⟨fun _ => htracked, fun hno => absurd hends hno⟩
  · exact ⟨fun hends => absurd hends hnot, fun _ => htorn⟩

/-! ## The readers -/

/-- The step neither tears nor loses a command: a piece that is handled ends with a line, and
the event loop meets no end of file with commands in its buffer. -/
def KeepsCommands (c : Connection) : ConnectionAction → Prop
  | .registrationRead | .periodicRead =>
      EndsWithLine (c.fifo.take bufferBytes) (c.fifo.drop bufferBytes)
  | .eventRead =>
      match c.pass with
      | some buffer =>
          if buffer.length < bufferBytes then
            c.fifo = [] → c.writer ≠ .opened → commandsOf buffer = []
          else EndsWithLine buffer c.fifo
      | none => True
  | _ => True

instance (c : Connection) (a : ConnectionAction) : Decidable (KeepsCommands c a) := by
  cases a <;> unfold KeepsCommands <;> try unfold EndsWithLine
  case eventRead => cases c.pass <;> simp only <;> infer_instance
  all_goals infer_instance

/-- What was carried out and what was written only grows, and nothing is carried out once the
slot is closed. -/
structure Grows (c c' : Connection) : Prop where
  lines : ∃ more, c'.lines = c.lines ++ more
  carried : ∃ more, [] ∉ more ∧ c'.carried = c.carried ++ more
  inactive : c.active = false → c'.active = false ∧ c'.carried = c.carried

theorem Grows.refl (c : Connection) : Grows c c :=
  ⟨⟨[], by simp⟩, ⟨[], by simp, by simp⟩, fun h => ⟨h, rfl⟩⟩

theorem Grows.trans {c₁ c₂ c₃ : Connection} (h : Grows c₁ c₂) (h' : Grows c₂ c₃) :
    Grows c₁ c₃ := by
  obtain ⟨⟨xs, hxs⟩, ⟨ys, hne, hys⟩, hin⟩ := h
  obtain ⟨⟨xs', hxs'⟩, ⟨ys', hne', hys'⟩, hin'⟩ := h'
  refine ⟨⟨xs ++ xs', by rw [hxs', hxs, List.append_assoc]⟩,
    ⟨ys ++ ys', by simp [hne, hne'], by rw [hys', hys, List.append_assoc]⟩, fun h => ?_⟩
  obtain ⟨h₁, h₂⟩ := hin h
  obtain ⟨h₃, h₄⟩ := hin' h₁
  exact ⟨h₃, h₄.trans h₂⟩

theorem commandCopy_ne_nil {command : Text} (hne : command ≠ []) (hno : '\n' ∉ command) :
    commandCopy command ≠ [] := by
  cases command with
  | nil => exact absurd rfl hne
  | cons c command =>
    have hc : c ≠ '\n' := fun h => hno (by simp [h])
    simp [commandCopy, commandBytes, hc]

theorem grows_processClientCommand {command : Text} (hne : command ≠ []) (hno : '\n' ∉ command)
    (c : Connection) : Grows c (processClientCommand c command) := by
  have hcopy : [] ∉ [commandCopy command] := by
    simpa using (commandCopy_ne_nil hne hno).symm
  unfold processClientCommand
  split
  next h =>
    have hin : c.active = false → False := fun h' => by simp [h] at h'
    simp only
    split <;> exact ⟨⟨[], by simp [Connection.lines]⟩, ⟨_, hcopy, rfl⟩, fun h' => (hin h').elim⟩
  next => exact Grows.refl c

theorem mem_commandsOf {buffer command : Text} (h : command ∈ commandsOf buffer) :
    command ≠ [] ∧ '\n' ∉ command := by
  obtain ⟨hmem, hne⟩ := mem_nonblank.mp h
  obtain ⟨hlines, htail⟩ := not_mem_split '\n' (ofBuffer buffer)
  refine ⟨hne, ?_⟩
  rcases List.mem_append.mp hmem with hmem | hmem
  · exact hlines command hmem
  · rw [List.mem_singleton] at hmem
    exact hmem ▸ htail

theorem grows_processBuffer (c : Connection) (buffer : Text) :
    Grows c (processBuffer c buffer) := by
  rw [processBuffer_eq_foldl]
  have hcommands := fun command (hmem : command ∈ commandsOf buffer) => mem_commandsOf hmem
  generalize commandsOf buffer = commands at hcommands
  induction commands generalizing c with
  | nil => exact Grows.refl c
  | cons command commands ih =>
    obtain ⟨hne, hno⟩ := hcommands command (by simp)
    exact (grows_processClientCommand hne hno c).trans
      (ih _ fun d hd => hcommands d (List.mem_cons_of_mem _ hd))

/-- A step that handles no buffer changes neither what was carried out nor the lines, unless it
writes one; no step opens a closed slot. -/
theorem grows_step {slot : Fin maxClients} {c c' : Connection} {a : ConnectionAction}
    (h : connectionStep slot c a = some c') : Grows c c' := by
  -- a step that handles no buffer
  have hsame : ∀ d : Connection, d.written = c.written → d.carried = c.carried →
      (c.active = false → d.active = false) → Grows c d := fun d hw hc ha =>
    ⟨⟨[], by simp [Connection.lines, hw]⟩, ⟨[], by simp, by simp [hc]⟩, fun h => ⟨ha h, hc⟩⟩
  cases a <;> simp only [connectionStep] at h
  case openWriter =>
    split at h <;> simp only [Option.some.injEq, reduceCtorEq] at h
    subst h
    exact hsame _ rfl rfl id
  case write l =>
    split at h <;> simp only [Option.some.injEq, reduceCtorEq] at h
    subst h
    exact ⟨⟨[l.text], by simp [Connection.lines]⟩, ⟨[], by simp, by simp⟩, fun h => ⟨h, rfl⟩⟩
  case closeWriter =>
    split at h <;> simp only [Option.some.injEq, reduceCtorEq] at h
    subst h
    exact hsame _ rfl rfl id
  case registrationRead =>
    split at h <;> simp only [Option.some.injEq, reduceCtorEq] at h
    subst h
    refine (hsame _ ?_ ?_ ?_).trans (grows_processBuffer _ _)
    exacts [rfl, rfl, id]
  case event =>
    split at h <;> simp only [Option.some.injEq, reduceCtorEq] at h
    subst h
    exact hsame _ rfl rfl id
  case eventRead =>
    unfold eventReadStep at h
    split at h
    · simp at h
    · split at h
      · split at h
        · simp only [Option.some.injEq] at h
          subst h
          exact hsame _ rfl rfl id
        · split at h <;> simp only [Option.some.injEq] at h <;> subst h
          · refine (hsame _ ?_ ?_ ?_).trans (grows_processBuffer _ _)
            exacts [rfl, rfl, id]
          · refine (hsame _ ?_ ?_ ?_).trans (grows_processBuffer _ _)
            exacts [rfl, rfl, fun _ => rfl]
      · simp only [Option.some.injEq] at h
        subst h
        refine (hsame _ ?_ ?_ ?_).trans (grows_processBuffer _ _)
        exacts [rfl, rfl, id]
  case periodicRead =>
    split at h
    · split at h
      · simp only [Option.some.injEq] at h
        subst h
        refine (hsame _ ?_ ?_ ?_).trans (grows_processBuffer _ _)
        exacts [rfl, rfl, id]
      · split at h <;> simp only [Option.some.injEq] at h <;> subst h
        · exact Grows.refl c
        · exact hsame _ rfl rfl fun _ => rfl
    · simp at h

/-- A torn line stays torn. -/
theorem Torn.grows {c c' : Connection} (h : Torn c) (hg : Grows c c') : Torn c' := by
  obtain ⟨done, L, rest, hlines, hno, hL, hcarried⟩ := h
  obtain ⟨⟨xs, hxs⟩, ⟨ys, -, hys⟩, hin⟩ := hg
  refine ⟨done, L, rest ++ xs, by simp [hxs, hlines], hno, hL, ?_⟩
  rcases hcarried with ⟨p, more, hp, hne⟩ | ⟨hclosed, hdone⟩
  · exact Or.inl ⟨p, more ++ ys, by simp [hys, hp], hne⟩
  · obtain ⟨hclosed', heq⟩ := hin hclosed
    exact Or.inr ⟨hclosed', heq.trans hdone⟩

/-- With a torn line, what is carried out is not what was written. -/
theorem Torn.carried_ne {c : Connection} (h : Torn c) :
    c.carried ≠ nonblank (upToDisconnect c.lines) := by
  obtain ⟨done, L, rest, hlines, hno, hL, hcarried⟩ := h
  have hup : ∃ tail, nonblank (upToDisconnect c.lines) = nonblank done ++ L :: tail := by
    rw [hlines, upToDisconnect_append hno, nonblank_append, upToDisconnect]
    split
    · exact ⟨[], by rw [nonblank_cons hL, nonblank_nil]⟩
    · exact ⟨_, by rw [nonblank_cons hL]⟩
  obtain ⟨tail, hup⟩ := hup
  rw [hup]
  rcases hcarried with ⟨p, more, hp, hne⟩ | ⟨-, hdone⟩
  · rw [hp]
    intro heq
    exact hne (List.cons.inj (List.append_cancel_left heq)).1
  · rw [hdone]
    intro heq
    simpa using congrArg List.length heq

/-! ## Each step keeps track, or tears -/

theorem tracked_write {c : Connection} (h : Tracked c) (hactive : c.active = true)
    (l : CommandLine) :
    Tracked { c with fifo := c.fifo ++ l.text ++ ['\n'], written := c.written ++ [l] } := by
  rcases h with ⟨ha, hreg, done, rest, pending, hw⟩ | ⟨hclosed, -⟩
  · refine Or.inl ⟨ha, hreg, done, rest ++ [l.text], pending ++ [l.text], ?_, hw.noDisconnect,
      hw.carried, ?_, ?_⟩
    · have hlines : c.written.map CommandLine.text = done ++ rest := hw.lines
      simp [Connection.lines, hlines]
    · have hun : c.pass.getD [] ++ c.fifo = render '\n' pending := hw.unhandled
      show c.pass.getD [] ++ (c.fifo ++ l.text ++ ['\n']) = _
      rw [render_append, ← hun]
      simp
    · rcases hw.pending with rfl | rfl <;> simp
  · simp [hactive] at hclosed

/-- Closing the slot at the end of the FIFO loses the lines that are still in the buffer. -/
theorem tracked_or_torn_eof {c d : Connection} {done rest pending : List Text}
    (h : Waiting c done rest pending) (hwritten : d.written = c.written)
    (hcarried : d.carried = c.carried) (hclosed : d.active = false)
    (hreg : d.registering = false) (hpass : d.pass = none) :
    (nonblank rest = [] → Tracked d) ∧ (nonblank rest ≠ [] → Torn d) := by
  have hlines : d.lines = done ++ rest := by
    rw [← h.lines, Connection.lines, hwritten, Connection.lines]
  constructor
  · intro hblank
    refine Or.inr ⟨hclosed, hreg, hpass, ?_⟩
    rw [hlines, upToDisconnect_append h.noDisconnect, nonblank_append, ← upToDisconnect_nonblank,
      hblank, hcarried, h.carried]
    simp [upToDisconnect]
  · intro hmore
    -- `L` is the first line left that is not empty
    obtain ⟨blanks, L, rest', hrest, hblanks, hL⟩ :
        ∃ blanks L rest', rest = blanks ++ L :: rest' ∧ (∀ x ∈ blanks, x = []) ∧ L ≠ [] := by
      clear h hlines
      induction rest with
      | nil => simp at hmore
      | cons x rest ih =>
        by_cases hx : x = []
        · subst hx
          obtain ⟨blanks, L, rest', rfl, hb, hL⟩ := ih (by simpa using hmore)
          exact ⟨[] :: blanks, L, rest', rfl, by simpa using hb, hL⟩
        · exact ⟨[], x, rest, rfl, by simp, hx⟩
    have hnb : nonblank blanks = [] := by
      rw [nonblank, List.filter_eq_nil_iff]
      exact fun x hx => by simp [hblanks x hx]
    refine ⟨done ++ blanks, L, rest', by rw [hlines, hrest, List.append_assoc], ?_, hL,
      Or.inr ⟨hclosed, by rw [hcarried, h.carried, nonblank_append, hnb, List.append_nil]⟩⟩
    intro x hx
    rcases List.mem_append.mp hx with hx | hx
    · exact h.noDisconnect x hx
    · intro hdis
      exact hdis.ne_nil (hblanks x hx)

/-- All the commands in a buffer that holds everything that is left. -/
theorem Waiting.commandsOf_all {c : Connection} {done rest pending : List Text}
    (h : Waiting c done rest pending) {buffer : Text} (hbuffer : buffer = render '\n' pending) :
    commandsOf buffer = nonblank rest := by
  obtain ⟨-, hcommands⟩ := commandsOf_render h.isLine (l := []) ⟨by simp, by simp, by simp⟩ 0
  simp only [List.take_nil, List.append_nil, nonblank_blank, nonblank_nil] at hcommands
  rw [hbuffer, hcommands]
  rcases h.pending with hp | hp <;> simp [hp]

theorem tracked_eventRead {c c' : Connection} (h : Tracked c)
    (hstep : eventReadStep c = some c') :
    (KeepsCommands c .eventRead → Tracked c') ∧ (¬ KeepsCommands c .eventRead → Torn c') := by
  unfold eventReadStep at hstep
  split at hstep
  next => simp at hstep
  next buffer hpass =>
  have hkeeps : KeepsCommands c .eventRead ↔
      if buffer.length < bufferBytes then
        c.fifo = [] → c.writer ≠ .opened → commandsOf buffer = []
      else EndsWithLine buffer c.fifo := by
    simp [KeepsCommands, hpass]
  rcases h with ⟨ha, hreg, done, rest, pending, hw⟩ | ⟨-, -, hno, -⟩
  · have hun : buffer ++ c.fifo = c.unhandled := by rw [Connection.unhandled, hpass]; rfl
    have hregistered : c.registering = false := by
      by_contra hr
      simpa [hpass] using hreg (by simpa using hr)
    split at hstep
    next hroom =>
      rw [hkeeps, if_pos hroom]
      split at hstep
      next hmore =>
        -- more bytes are read into the buffer
        simp only [Option.some.injEq] at hstep
        subst hstep
        refine ⟨fun _ => Or.inl ⟨ha, fun hr => by simp [hregistered] at hr, done, rest, pending,
          hw.lines, hw.noDisconnect, hw.carried, ?_, hw.pending⟩, fun hno => ?_⟩
        · rw [← hw.unhandled, ← hun]
          simp [Connection.unhandled, List.append_assoc]
        · exact absurd (fun hnil => absurd hnil hmore) hno
      next hempty =>
        rw [not_not] at hempty
        split at hstep
        next hopened =>
          -- `EAGAIN`: the buffer is handled
          simp only [Option.some.injEq] at hstep
          subst hstep
          refine ⟨fun _ => ?_, fun hno => absurd (fun _ hne => absurd hopened hne) hno⟩
          refine (Waiting.processBuffer (c := { c with pass := none }) hw rfl rfl ha rfl hregistered
            hun).1 (Or.inl ?_)
          have hbuffer : buffer = render '\n' pending := by
            rw [← hw.unhandled, ← hun, hempty, List.append_nil]
          have hpieces := (commandsOf_render hw.isLine (l := [])
            ⟨by simp, by simp, by simp⟩ 0).1
          simp only [List.take_nil, List.append_nil, ← hbuffer] at hpieces
          rw [hpieces]
        next hopened =>
          -- end of file: the slot is closed first
          simp only [Option.some.injEq] at hstep
          subst hstep
          rw [processBuffer_eq_foldl, foldl_inactive rfl]
          have hbuffer : buffer = render '\n' pending := by
            rw [← hw.unhandled, ← hun, hempty, List.append_nil]
          have heof := tracked_or_torn_eof hw
            (d := { c with pass := none, active := false }) rfl rfl rfl hregistered rfl
          rw [hw.commandsOf_all hbuffer]
          exact ⟨fun hk => heof.1 (hk hempty hopened), fun hk => heof.2 fun hnb =>
            hk fun _ _ => hnb⟩
    next hfull =>
      rw [hkeeps, if_neg hfull]
      simp only [Option.some.injEq] at hstep
      subst hstep
      exact Waiting.processBuffer (c := { c with pass := none }) hw rfl rfl ha rfl hregistered hun
  · simp [hpass] at hno

theorem tracked_step {slot : Fin maxClients} {c c' : Connection} {a : ConnectionAction}
    (h : Tracked c) (hstep : connectionStep slot c a = some c') :
    (KeepsCommands c a → Tracked c') ∧ (¬ KeepsCommands c a → Torn c') := by
  cases a <;> simp only [connectionStep] at hstep
  case openWriter =>
    split at hstep <;> simp only [Option.some.injEq, reduceCtorEq] at hstep
    subst hstep
    refine ⟨fun _ => ?_, fun hno => absurd trivial hno⟩
    rcases h with ⟨ha, hreg, done, rest, pending, hw⟩ | h
    · exact Or.inl ⟨ha, hreg, done, rest, pending, hw.lines, hw.noDisconnect, hw.carried,
        hw.unhandled, hw.pending⟩
    · exact Or.inr h
  case write l =>
    split at hstep <;> simp only [Option.some.injEq, reduceCtorEq] at hstep
    next hopen =>
    subst hstep
    exact ⟨fun _ => tracked_write h hopen.2 l, fun hno => absurd trivial hno⟩
  case closeWriter =>
    split at hstep <;> simp only [Option.some.injEq, reduceCtorEq] at hstep
    subst hstep
    refine ⟨fun _ => ?_, fun hno => absurd trivial hno⟩
    rcases h with ⟨ha, hreg, done, rest, pending, hw⟩ | h
    · exact Or.inl ⟨ha, hreg, done, rest, pending, hw.lines, hw.noDisconnect, hw.carried,
        hw.unhandled, hw.pending⟩
    · exact Or.inr h
  case registrationRead =>
    split at hstep <;> simp only [Option.some.injEq, reduceCtorEq] at hstep
    next hregistering =>
    subst hstep
    rcases h with ⟨ha, hreg, done, rest, pending, hw⟩ | ⟨-, hno, -⟩
    -- the commands that came with the `REGISTER` are read right after it
    · refine Waiting.processBuffer
        (c := { c with registering := false, fifo := c.fifo.drop bufferBytes }) hw rfl rfl ha
        (hreg hregistering) rfl ?_
      rw [Connection.unhandled, hreg hregistering, List.take_append_drop]
      rfl
    · simp [hregistering] at hno
  case event =>
    split at hstep <;> simp only [Option.some.injEq, reduceCtorEq] at hstep
    next hevent =>
    subst hstep
    refine ⟨fun _ => ?_, fun hno => absurd trivial hno⟩
    rcases h with ⟨ha, hreg, done, rest, pending, hw⟩ | ⟨hclosed, -⟩
    · refine Or.inl ⟨ha, fun hr => by simp [hevent.2.1] at hr, done, rest, pending, hw.lines,
        hw.noDisconnect, hw.carried, ?_, hw.pending⟩
      rw [← hw.unhandled, Connection.unhandled, Connection.unhandled, hevent.2.2.1]
      rfl
    · simp [hevent.2.2.2.1] at hclosed
  case eventRead => exact tracked_eventRead h hstep
  case periodicRead =>
    split at hstep
    next hready =>
      rcases h with ⟨ha, hreg, done, rest, pending, hw⟩ | ⟨hclosed, -⟩
      · have hun : c.unhandled = c.fifo := by rw [Connection.unhandled, hready.2.1]; rfl
        split at hstep
        next hmore =>
          simp only [Option.some.injEq] at hstep
          subst hstep
          exact Waiting.processBuffer (c := { c with fifo := c.fifo.drop bufferBytes }) hw rfl rfl
            ha hready.2.1 hready.1
            (by rw [hun, List.take_append_drop])
        next hempty =>
          rw [not_not] at hempty
          -- nothing was read, and so nothing is handled
          have hends : KeepsCommands c .periodicRead := by
            simp [KeepsCommands, EndsWithLine, hempty, ofBuffer]
          refine ⟨fun _ => ?_, fun hno => absurd hends hno⟩
          split at hstep <;> simp only [Option.some.injEq] at hstep <;> subst hstep
          · exact Or.inl ⟨ha, hreg, done, rest, pending, hw⟩
          -- end of file: no line is lost, for none was left
          · have hrest : rest = [] := by
              have hp := hw.unhandled
              rw [hun, hempty, eq_comm, render_eq_nil] at hp
              rcases hw.pending with hq | hq <;> simp_all
            exact (tracked_or_torn_eof (d := { c with active := false }) hw rfl rfl rfl hready.1
              hready.2.1).1 (by simp [hrest])
      · simp [hready.2.2] at hclosed
    next => simp at hstep

/-! ## Along a run -/

theorem tracked_init : Tracked .init :=
  Or.inl ⟨rfl, fun _ => rfl, [], [], [], rfl, by simp, rfl, rfl, Or.inl rfl⟩

/-- Either no command was lost or torn in the run, or some line is torn for good. -/
theorem tracked_or_torn_of_run {slot : Fin maxClients}
    {tr : List (Connection × ConnectionAction)} {c : Connection}
    (h : Run (connectionStep slot) .init tr c) :
    (StepsMeet KeepsCommands tr → Tracked c) ∧ (¬ StepsMeet KeepsCommands tr → Torn c) := by
  induction h with
  | nil => simpa using tracked_init
  | @snoc tr c c' a hrun hstep ih =>
    simp only [stepsMeet_snoc]
    obtain ⟨ihtracked, ihtorn⟩ := ih
    refine ⟨fun hmeet => (tracked_step (ihtracked hmeet.1) hstep).1 hmeet.2, fun hno => ?_⟩
    by_cases hmeet : StepsMeet KeepsCommands tr
    · exact (tracked_step (ihtracked hmeet) hstep).2 fun hk => hno ⟨hmeet, hk⟩
    · exact (ihtorn hmeet).grows (grows_step hstep)

/-- The server has handled all that it will ever handle of what was written. -/
def Connection.Handled (c : Connection) : Prop :=
  c.active = false ∨ (c.pass = none ∧ c.fifo = [])

instance (c : Connection) : Decidable c.Handled := by
  unfold Connection.Handled
  infer_instance

theorem Tracked.carried_eq {c : Connection} (h : Tracked c) (hhandled : c.Handled) :
    c.carried = nonblank (upToDisconnect c.lines) := by
  rcases h with ⟨ha, -, done, rest, pending, hw⟩ | ⟨-, -, -, hcarried⟩
  · rcases hhandled with hclosed | ⟨hpass, hfifo⟩
    · simp [ha] at hclosed
    · have hp : pending = [] := by
        have := hw.unhandled
        rw [Connection.unhandled, hpass, hfifo, eq_comm] at this
        simpa using this
      have hrest : rest = [] := by
        rcases hw.pending with hq | hq <;> simp_all
      rw [hw.carried, hw.lines, hrest, List.append_nil, upToDisconnect_eq_self hw.noDisconnect]
  · exact hcarried

/-- No empty command is carried out. -/
theorem nil_not_mem_carried_of_run {slot : Fin maxClients}
    {tr : List (Connection × ConnectionAction)} {c : Connection}
    (h : Run (connectionStep slot) .init tr c) : [] ∉ c.carried := by
  refine h.invariant_all (I := fun c => [] ∉ c.carried) (by simp [Connection.init]) ?_
  intro c a c' hc hstep
  obtain ⟨more, hmore, heq⟩ := (grows_step hstep).carried
  rw [heq]
  simp [hc, hmore]

/-- Once all is handled, the commands carried out are exactly the lines the client has written
up to and including its first `DISCONNECT`, exactly if no step has lost or torn a command and
none of these lines is empty. -/
theorem carried_eq_iff_of_run {slot : Fin maxClients}
    {tr : List (Connection × ConnectionAction)} {c : Connection}
    (h : Run (connectionStep slot) .init tr c) (hhandled : c.Handled) :
    c.carried = upToDisconnect c.lines ↔
      StepsMeet KeepsCommands tr ∧ [] ∉ upToDisconnect c.lines := by
  obtain ⟨htracked, htorn⟩ := tracked_or_torn_of_run h
  have hself : ∀ {lines : List Text}, [] ∉ lines → nonblank lines = lines := fun hno =>
    List.filter_eq_self.mpr fun x hx => by simpa using fun heq : x = [] => hno (heq ▸ hx)
  constructor
  · intro heq
    have hno : [] ∉ upToDisconnect c.lines := heq ▸ nil_not_mem_carried_of_run h
    refine ⟨?_, hno⟩
    by_contra hmeet
    exact (htorn hmeet).carried_ne (by rw [hself hno, heq])
  · rintro ⟨hmeet, hno⟩
    rw [(htracked hmeet).carried_eq hhandled, hself hno]

/-! ## A client that closes its FIFO -/

/-- The line `GET a`. -/
def getLine : CommandLine where
  text := ['G', 'E', 'T', ' ', 'a']
  noNewline := by decide
  noNul := by decide
  fits := by decide

/-- The line `DISCONNECT`. -/
def disconnectLine : CommandLine where
  text := cmdDisconnect
  noNewline := by decide
  noNul := by decide
  fits := by decide

private theorem two_lines_executes :
    (execute (connectionStep 1) (fun c a => decide (KeepsCommands c a)) .init
      [.registrationRead, .openWriter, .write getLine, .write disconnectLine, .event, .eventRead,
        .eventRead]).isSome = true := by
  decide

/-- `carried_eq_iff_of_run` where the server reads the two lines of a client while the client
still has its FIFO open. -/
theorem carried_eq_two_lines :
    ∃ c, Reachable (connectionStep 1) .init c ∧
      c.carried = [getLine.text, disconnectLine.text] := by
  obtain ⟨tr, h, hmeet⟩ := exists_run_of_isSome two_lines_executes
  have hkeeps : StepsMeet KeepsCommands tr := hmeet.mono fun c a h => of_decide_eq_true h
  exact ⟨_, ⟨tr, h⟩, (carried_eq_iff_of_run h (by decide)).mpr ⟨hkeeps, by decide⟩⟩

private theorem closing_client_executes :
    (execute (connectionStep 1) (fun _ _ => true) .init
      [.registrationRead, .openWriter, .write getLine, .closeWriter, .event, .eventRead,
        .eventRead]).isSome = true := by
  decide

/-- The client closes its FIFO before the server reads: the event loop reads the line, meets the
end of the file and closes the slot, and the command is ignored. -/
theorem carried_of_closing_client :
    ∃ tr c, Run (connectionStep 1) .init tr c ∧ c.Handled ∧ c.writer = .closed ∧
      c.carried ≠ upToDisconnect c.lines := by
  obtain ⟨tr, h, -⟩ := exists_run_of_isSome closing_client_executes
  exact ⟨tr, _, h, by decide, by decide, by decide⟩

end FileServer
