import PosixTasks.Lib.CString
import PosixTasks.Lib.Lines
import PosixTasks.Lib.Transition

/-!
# Registration over the server FIFO

Each client writes one line `REGISTER <tx> <rx>` to the FIFO of the server.
`process_registration_commands` reads the FIFO in pieces of at most 1023 bytes until it is
empty, splits each piece at its newlines and drops what follows the last newline; the next
piece starts in the middle of that line.

## Main results

* `parseRegistration_drop_iff`: what is left of a line that was cut is parsed to its two paths
  exactly if the cut is inside the word `REGISTER` and both paths fit their buffers;
* `calls_eq_iff_of_run`: once the FIFO is empty, `register_new_client` has been called for
  exactly the lines written, exactly if every read cut harmlessly and every path fits.
-/

namespace FileServer

open CString Lines Transition

/-- `sizeof(buffer) - 1` in the readers of the server. -/
def bufferBytes : ℕ := 1023

/-- The width of the `%255s` that read a path. -/
def pathBytes : ℕ := 255

/-- `CMD_REGISTER`. -/
def cmdRegister : Text := ['R', 'E', 'G', 'I', 'S', 'T', 'E', 'R']

/-- `sscanf(line, "%*s %255s %255s", tx_path, rx_path) == 2`, with the two paths. -/
def parseRegistration (line : Text) : Option (Text × Text) :=
  match scanWord none line with
  | none => none
  | some (_, rest) =>
    match scanWord (some pathBytes) rest with
    | none => none
    | some (txPath, rest) =>
      match scanWord (some pathBytes) rest with
      | none => none
      | some (rxPath, _) => some (txPath, rxPath)

/-- What `process_registration_commands` does with one buffer: each line that ends in the buffer
and parses goes to `register_new_client`; the tail is dropped. -/
def processRegistrationBuffer {σ : Type*} (registerNewClient : σ → Text → Text → σ) (server : σ)
    (buffer : Text) : σ :=
  (split '\n' (ofBuffer buffer)).1.foldl
    (fun server line =>
      match parseRegistration line with
      | some (txPath, rxPath) => registerNewClient server txPath rxPath
      | none => server) server

/-- A registration, as a client writes it: its line is at most 511 bytes long. -/
structure Registration where
  tx : Text
  rx : Text
  tx_word : IsWord tx
  rx_word : IsWord rx
  noNul : '\x00' ∉ tx ++ rx
  fits : cmdRegister.length + tx.length + rx.length + 3 ≤ 511

/-- The line of a registration, without its newline. -/
def Registration.line (r : Registration) : Text :=
  cmdRegister ++ ' ' :: (r.tx ++ ' ' :: r.rx)

/-- The paths in a registration. -/
def Registration.paths (r : Registration) : Text × Text :=
  (r.tx, r.rx)

/-- The server FIFO, and the calls of `register_new_client` so far. -/
structure RegistrationState where
  /-- The bytes in the FIFO. -/
  fifo : Text
  /-- The arguments of the calls of `register_new_client`, in order. -/
  calls : List (Text × Text)
  /-- History: the registrations written, in the order they entered the FIFO. -/
  written : List Registration

/-- The FIFO is new and nobody has registered. -/
def RegistrationState.init : RegistrationState :=
  { fifo := [], calls := [], written := [] }

/-- A client writes its line, or the loop of `process_registration_commands` reads once. -/
inductive RegistrationAction where
  | write (r : Registration)
  | read

/-- One step. A read of the empty FIFO returns `EAGAIN` and ends the call; the next read is the
first of a later call. -/
def registrationStep (s : RegistrationState) : RegistrationAction → Option RegistrationState
  | .write r =>
      some { s with fifo := s.fifo ++ r.line ++ ['\n'], written := s.written ++ [r] }
  | .read =>
      some { s with
        fifo := s.fifo.drop bufferBytes
        calls := processRegistrationBuffer (fun calls tx rx => calls ++ [(tx, rx)]) s.calls
          (s.fifo.take bufferBytes) }

/-- The read leaves fewer bytes after its last newline than the word `REGISTER` has: it ends
with a line, or inside that word. -/
def CutsHarmlessly (s : RegistrationState) : RegistrationAction → Prop
  | .read => (split '\n' (s.fifo.take bufferBytes)).2.length < cmdRegister.length
  | .write _ => True

/-! ## Parsing what is left of a line -/

theorem cmdRegister_word : IsWord cmdRegister := by
  refine ⟨by decide, ?_⟩
  simp [cmdRegister, isSpace]

theorem atBreak_space (s : Text) : AtBreak (' ' :: s) := by
  intro c hc
  simp only [List.head?_cons, Option.mem_def, Option.some.injEq] at hc
  subst hc
  rfl

theorem isWord_drop {w : Text} (h : IsWord w) {k : ℕ} (hk : k < w.length) : IsWord (w.drop k) :=
  ⟨by simp [List.drop_eq_nil_iff, hk], fun c hc => h.2 c (List.mem_of_mem_drop hc)⟩

/-- The parser takes one word off the input and then the two paths. -/
theorem parseRegistration_eq_some {line tx rx : Text}
    (h : parseRegistration line = some (tx, rx)) :
    tx.length + rx.length + 1 ≤ wordBytes line := by
  unfold parseRegistration at h
  split at h
  · simp at h
  next w rest₁ h₁ =>
  split at h
  · simp at h
  next t rest₂ h₂ =>
  split at h
  · simp at h
  next r rest₃ h₃ =>
  simp only [Option.some.injEq, Prod.mk.injEq] at h
  obtain ⟨rfl, rfl⟩ := h
  obtain ⟨hw, hc₁⟩ := count_of_scanWord h₁
  obtain ⟨-, hc₂⟩ := count_of_scanWord h₂
  obtain ⟨-, hc₃⟩ := count_of_scanWord h₃
  have := List.length_pos_iff.mpr hw
  omega

theorem wordBytes_of_word {w : Text} (h : IsWord w) : wordBytes w = w.length :=
  List.countP_eq_length.mpr fun c hc => by simp [h.2 c hc]

/-- From a cut inside the word `REGISTER` the rest of the line is parsed as the line is. -/
theorem parseRegistration_cut (r : Registration) {k : ℕ} (hk : k < cmdRegister.length) :
    parseRegistration (r.line.drop k) = some r.paths ↔
      r.tx.length ≤ pathBytes ∧ r.rx.length ≤ pathBytes := by
  have hdrop : r.line.drop k = cmdRegister.drop k ++ ' ' :: (r.tx ++ ' ' :: r.rx) := by
    rw [Registration.line, List.drop_append_of_le_length hk.le]
  -- the first conversion takes what is left of the command, whatever that is
  have hword := scanWord_word (isWord_drop cmdRegister_word hk)
    (atBreak_space (r.tx ++ ' ' :: r.rx))
  have htx : scanWord (some pathBytes) (' ' :: (r.tx ++ ' ' :: r.rx))
      = some (r.tx.take pathBytes, r.tx.drop pathBytes ++ ' ' :: r.rx) := by
    rw [scanWord_space rfl]
    exact scanWord_width (by decide) r.tx_word (atBreak_space _)
  have hrx : scanWord (some pathBytes) (' ' :: r.rx)
      = some (r.rx.take pathBytes, r.rx.drop pathBytes) := by
    rw [scanWord_space rfl]
    have hend : AtBreak [] := by simp [AtBreak]
    simpa using scanWord_width (n := pathBytes) (by decide) r.rx_word hend
  rw [hdrop]
  by_cases hfit : r.tx.length ≤ pathBytes
  · have hparse : parseRegistration (cmdRegister.drop k ++ ' ' :: (r.tx ++ ' ' :: r.rx))
        = some (r.tx, r.rx.take pathBytes) := by
      simp only [parseRegistration, hword, htx, List.drop_of_length_le hfit, List.nil_append, hrx,
        List.take_of_length_le hfit]
    rw [hparse]
    simp [Registration.paths, hfit]
  · -- the first conversion stops inside the path, so the call has another first path
    refine iff_of_false (fun h => ?_) (fun h => hfit h.1)
    simp only [parseRegistration, hword, htx] at h
    split at h
    · simp at h
    · simp only [Option.some.injEq, Registration.paths, Prod.mk.injEq] at h
      have := congrArg List.length h.1
      rw [List.length_take] at this
      omega

/-- What is left of a cut line is parsed to the line's paths exactly if the cut is inside the
word `REGISTER` and both paths fit their buffers. -/
theorem parseRegistration_drop_iff (r : Registration) (k : ℕ) :
    parseRegistration (r.line.drop k) = some r.paths ↔
      k < cmdRegister.length ∧ r.tx.length ≤ pathBytes ∧ r.rx.length ≤ pathBytes := by
  by_cases hk : k < cmdRegister.length
  · simp [hk, parseRegistration_cut r hk]
  · refine iff_of_false (fun h => ?_) (fun h => hk h.1)
    -- behind the word there are only the bytes of the two paths left for three words
    have hle := parseRegistration_eq_some h
    have hdrop : r.line.drop k = (' ' :: (r.tx ++ ' ' :: r.rx)).drop (k - cmdRegister.length) := by
      rw [Registration.line, List.drop_append, List.drop_of_length_le (not_lt.mp hk),
        List.nil_append]
    have hsub : wordBytes (r.line.drop k) ≤ wordBytes (' ' :: (r.tx ++ ' ' :: r.rx)) := by
      rw [hdrop]
      exact (List.drop_sublist _ _).countP_le
    have hcount : wordBytes (' ' :: (r.tx ++ ' ' :: r.rx)) = r.tx.length + r.rx.length := by
      rw [← wordBytes_of_word r.tx_word, ← wordBytes_of_word r.rx_word]
      simp [wordBytes, isSpace, List.countP_append]
    omega

/-! ## The lines of a registration -/

theorem Registration.noNewline (r : Registration) : '\n' ∉ r.line := by
  have htx : '\n' ∉ r.tx := fun h => by simpa [isSpace] using r.tx_word.2 _ h
  have hrx : '\n' ∉ r.rx := fun h => by simpa [isSpace] using r.rx_word.2 _ h
  simp [Registration.line, cmdRegister, htx, hrx]

theorem Registration.line_noNul (r : Registration) : '\x00' ∉ r.line := by
  have h := r.noNul
  simp only [List.mem_append, not_or] at h
  simp [Registration.line, cmdRegister, h.1, h.2]

theorem Registration.length_line (r : Registration) : r.line.length < 511 := by
  have h := r.fits
  simp only [Registration.line, List.length_append, List.length_cons]
  omega

/-- The calls a buffer leads to. -/
theorem processRegistrationBuffer_calls (calls : List (Text × Text)) (buffer : Text) :
    processRegistrationBuffer (fun calls tx rx => calls ++ [(tx, rx)]) calls buffer
      = calls ++ (split '\n' (ofBuffer buffer)).1.filterMap parseRegistration := by
  rw [processRegistrationBuffer]
  generalize (split '\n' (ofBuffer buffer)).1 = lines
  induction lines generalizing calls with
  | nil => simp
  | cons line lines ih =>
    rw [List.foldl_cons, ih, List.filterMap_cons]
    cases parseRegistration line <;> simp

/-! ## What is left of each line -/

/-- A registration and how many bytes of its line went with an earlier read. -/
abbrev Piece := Registration × ℕ

/-- What is left of the line. -/
def Piece.text (p : Piece) : Text :=
  p.1.line.drop p.2

theorem Piece.noNewline (p : Piece) : '\n' ∉ p.text :=
  fun h => p.1.noNewline (List.mem_of_mem_drop h)

theorem Piece.noNul (p : Piece) : '\x00' ∉ p.text :=
  fun h => p.1.line_noNul (List.mem_of_mem_drop h)

theorem Piece.length_text (p : Piece) : p.text.length < 511 := by
  have := p.1.length_line
  rw [Piece.text, List.length_drop]
  omega

theorem noNul_render (pieces : List Piece) : '\x00' ∉ render '\n' (pieces.map Piece.text) := by
  induction pieces with
  | nil => simp
  | cons p pieces ih => simp [Piece.noNul, ih]

theorem noNewline_texts (pieces : List Piece) : ∀ l ∈ pieces.map Piece.text, '\n' ∉ l := by
  simpa only [List.forall_mem_map] using fun p _ => Piece.noNewline p

/-- The lines of `done` are read, each cut as its piece says, and those of `pending` are in the
FIFO, of which only the first may have been cut. -/
structure Cut (s : RegistrationState) (done pending : List Piece) : Prop where
  written : s.written = (done ++ pending).map Prod.fst
  fifo : s.fifo = render '\n' (pending.map Piece.text)
  calls : s.calls = done.filterMap fun p => parseRegistration p.text
  fresh : ∀ p ∈ pending.tail, p.2 = 0

theorem cut_write {s : RegistrationState} {done pending : List Piece} (h : Cut s done pending)
    (r : Registration) :
    Cut { s with fifo := s.fifo ++ r.line ++ ['\n'], written := s.written ++ [r] } done
      (pending ++ [(r, 0)]) where
  written := by simp [h.written]
  fifo := by simp [h.fifo, Piece.text]
  calls := h.calls
  fresh p hp := by
    cases pending with
    | nil => simp at hp
    | cons q pending =>
      simp only [List.cons_append, List.tail_cons, List.mem_append, List.mem_singleton] at hp
      rcases hp with hp | rfl
      · exact h.fresh p hp
      · rfl

/-- A read passes on some whole pieces, and cuts the next one if it does not empty the FIFO. -/
theorem cut_read {s : RegistrationState} {done pending : List Piece} (h : Cut s done pending)
    {s' : RegistrationState} (hstep : registrationStep s .read = some s') :
    ∃ done' pending', Cut s' done' pending' ∧
      (CutsHarmlessly s .read ∧ (∀ p ∈ done ++ pending, p.2 < cmdRegister.length) ↔
        ∀ p ∈ done' ++ pending', p.2 < cmdRegister.length) := by
  simp only [registrationStep, Option.some.injEq, processRegistrationBuffer_calls] at hstep
  subst hstep
  rcases take_render '\n' (pending.map Piece.text) bufferBytes with
    ⟨-, htake, hdrop⟩ | ⟨pre, l, post, k, hsplit, hk, hlen, htake, hdrop⟩
  · -- the read empties the FIFO
    rw [← h.fifo] at htake hdrop
    have hlines : split '\n' (s.fifo.take bufferBytes) = (pending.map Piece.text, []) := by
      rw [htake, h.fifo, split_render (noNewline_texts pending)]
    have hbuf : ofBuffer (s.fifo.take bufferBytes) = s.fifo.take bufferBytes :=
      ofBuffer_of_not_mem (by rw [htake, h.fifo]; exact noNul_render pending)
    refine ⟨done ++ pending, [], ⟨?_, ?_, ?_, by simp⟩, ?_⟩
    · simpa using h.written
    · simpa using hdrop
    · rw [hbuf, hlines, h.calls, List.filterMap_append, List.filterMap_map]
      rfl
    · simp [CutsHarmlessly, hlines, cmdRegister]
  · -- the read ends inside the piece `p`, which is not the first one
    obtain ⟨pieces, rest, rfl, hpre, hrest⟩ := List.map_eq_append_iff.mp hsplit
    obtain ⟨p, post', rfl, rfl, hpost⟩ := List.map_eq_cons_iff.mp hrest
    have hne : pieces ≠ [] := by
      rintro rfl
      have := p.length_text
      simp only [List.map_nil] at hpre
      subst hpre
      simp only [bufferBytes, render_nil, List.length_nil, Nat.zero_add] at hlen
      omega
    obtain ⟨q, pieces, rfl⟩ := List.exists_cons_of_ne_nil hne
    have hfresh := h.fresh
    simp only [List.cons_append, List.tail_cons, List.mem_append, List.mem_cons] at hfresh
    -- only the first piece can have lost its start to an earlier read
    have hp0 : p.2 = 0 := hfresh p (Or.inr (Or.inl rfl))
    have hptext : p.text = p.1.line := by rw [Piece.text, hp0, List.drop_zero]
    have hcut : Piece.text (p.1, k) = p.text.drop k := by rw [hptext]; rfl
    -- the rest of a line that was cut has no newline
    have htail : '\n' ∉ p.text.take k := fun hmem => p.noNewline (List.mem_of_mem_take hmem)
    rw [← h.fifo] at htake hdrop
    subst hpre hpost
    have hlines : split '\n' (s.fifo.take bufferBytes)
        = ((q :: pieces).map Piece.text, p.text.take k) := by
      rw [htake, split_render_append (noNewline_texts _) htail]
    have hbuf : ofBuffer (s.fifo.take bufferBytes) = s.fifo.take bufferBytes := by
      refine ofBuffer_of_not_mem fun hmem => noNul_render (q :: pieces ++ p :: post') ?_
      rw [← h.fifo]
      exact List.mem_of_mem_take hmem
    refine ⟨done ++ q :: pieces, (p.1, k) :: post', ⟨?_, ?_, ?_, ?_⟩, ?_⟩
    · simp [h.written]
    · rw [List.map_cons, hcut]
      exact hdrop
    · rw [hbuf, hlines, h.calls, List.filterMap_append, List.filterMap_map]
      rfl
    · exact fun x hx => hfresh x (Or.inr (Or.inr hx))
    · have hklen : (p.text.take k).length = k := by
        rw [List.length_take]
        omega
      simp only [CutsHarmlessly, hlines, hklen, List.forall_mem_append, List.forall_mem_cons, hp0]
      constructor
      · rintro ⟨hk, hdone, hpieces, -, hpost⟩
        exact ⟨⟨hdone, hpieces⟩, hk, hpost⟩
      · rintro ⟨⟨hdone, hpieces⟩, hk, hpost⟩
        exact ⟨hk, hdone, hpieces, by decide, hpost⟩

/-! ## The calls along a run -/

/-- Along a run every line is read in one piece, and the reads are harmless exactly if no line
lost its first word. -/
theorem cut_of_run {tr : List (RegistrationState × RegistrationAction)} {s : RegistrationState}
    (h : Run registrationStep .init tr s) :
    ∃ done pending, Cut s done pending ∧
      (StepsMeet CutsHarmlessly tr ↔ ∀ p ∈ done ++ pending, p.2 < cmdRegister.length) := by
  induction h with
  | nil => exact ⟨[], [], ⟨rfl, rfl, rfl, by simp⟩, by simp⟩
  | @snoc tr s s' a hrun hstep ih =>
    obtain ⟨done, pending, hcut, hmeet⟩ := ih
    cases a with
    | write r =>
      simp only [registrationStep, Option.some.injEq] at hstep
      subst hstep
      refine ⟨done, pending ++ [(r, 0)], cut_write hcut r, ?_⟩
      rw [stepsMeet_snoc, hmeet, ← List.append_assoc]
      simp [CutsHarmlessly, cmdRegister, or_imp, forall_and]
    | read =>
      obtain ⟨done', pending', hcut', hread⟩ := cut_read hcut hstep
      refine ⟨done', pending', hcut', ?_⟩
      rw [stepsMeet_snoc, hmeet, ← hread, and_comm]

/-- A list of optional values is the list of the values wanted exactly if each is. -/
theorem filterMap_eq_map_iff {α β : Type*} (f : α → Option β) (g : α → β) (l : List α) :
    l.filterMap f = l.map g ↔ ∀ x ∈ l, f x = some (g x) := by
  constructor
  · intro h
    induction l with
    | nil => simp
    | cons x l ih =>
      -- with one value missing the list on the left is too short
      have hlen : (l.filterMap f).length ≤ l.length := List.length_filterMap_le f l
      cases hx : f x with
      | none =>
        rw [List.filterMap_cons_none hx, List.map_cons] at h
        have := congrArg List.length h
        simp only [List.length_cons, List.length_map] at this
        omega
      | some y =>
        rw [List.filterMap_cons_some hx, List.map_cons, List.cons.injEq] at h
        obtain ⟨rfl, hl⟩ := h
        simpa [hx] using ih hl
  · intro h
    induction l with
    | nil => rfl
    | cons x l ih =>
      rw [List.filterMap_cons_some (h x (by simp)), ih fun y hy => h y (by simp [hy]),
        List.map_cons]

/-- Once the FIFO is empty, `register_new_client` has been called exactly once for each line
written, with the line's paths, in order and for nothing else, exactly if every read cut
harmlessly and every path fits its buffer. -/
theorem calls_eq_iff_of_run {tr : List (RegistrationState × RegistrationAction)}
    {s : RegistrationState} (h : Run registrationStep .init tr s) (hempty : s.fifo = []) :
    s.calls = s.written.map Registration.paths ↔
      StepsMeet CutsHarmlessly tr ∧
        ∀ r ∈ s.written, r.tx.length ≤ pathBytes ∧ r.rx.length ≤ pathBytes := by
  obtain ⟨done, pending, hcut, hmeet⟩ := cut_of_run h
  have hpending : pending = [] := by
    have := hcut.fifo
    rw [hempty] at this
    simpa using this.symm
  subst hpending
  have hwritten : s.written = done.map Prod.fst := by simpa using hcut.written
  rw [hcut.calls, hwritten, List.map_map, filterMap_eq_map_iff, hmeet]
  simp only [Piece.text, Function.comp_apply, parseRegistration_drop_iff, List.append_nil,
    List.forall_mem_map]
  constructor
  · exact fun hall => ⟨fun p hp => (hall p hp).1, fun p hp => (hall p hp).2⟩
  · exact fun hall p hp => ⟨hall.1 p hp, hall.2 p hp⟩

/-! ## Clients that register together -/

/-- The path `tmp/client_<pid>/tx` or `tmp/client_<pid>/rx` of the client with pid `1000 + i`. -/
def clientPath (i : Fin 22) (dir : Char) : Text :=
  ['t', 'm', 'p', '/', 'c', 'l', 'i', 'e', 'n', 't', '_', '1', '0',
    Char.ofNat (48 + i / 10), Char.ofNat (48 + i % 10), '/', dir, 'x']

theorem clientPath_word (i : Fin 22) (dir : Char) (hdir : isSpace dir = false) :
    IsWord (clientPath i dir) := by
  have hdigits : isSpace (Char.ofNat (48 + i / 10)) = false ∧
      isSpace (Char.ofNat (48 + i % 10)) = false := by
    revert i
    decide
  refine ⟨by simp [clientPath], ?_⟩
  intro c hc
  simp only [clientPath, List.mem_cons, List.not_mem_nil, or_false] at hc
  rcases hc with rfl | rfl | rfl | rfl | rfl | rfl | rfl | rfl | rfl | rfl | rfl | rfl | rfl |
    rfl | rfl | rfl | rfl | rfl
  all_goals first | rfl | exact hdigits.1 | exact hdigits.2 | exact hdir

/-- The registration of that client. -/
def clientRegistration (i : Fin 22) : Registration where
  tx := clientPath i 't'
  rx := clientPath i 'r'
  tx_word := clientPath_word i 't' rfl
  rx_word := clientPath_word i 'r' rfl
  noNul := by
    revert i
    decide
  fits := by simp [clientPath, cmdRegister]

/-- `calls_eq_iff_of_run` for a single client. -/
theorem calls_eq_of_one_client :
    ∃ s, Reachable registrationStep .init s ∧ s.calls = [(clientPath 0 't', clientPath 0 'r')] := by
  have h := ((Run.nil : Run registrationStep .init [] .init).snoc
    (a := .write (clientRegistration 0)) rfl).snoc (a := .read) rfl
  refine ⟨_, ⟨_, h⟩, (calls_eq_iff_of_run h (by decide)).mpr ⟨?_, ?_⟩⟩
  · simp only [List.nil_append, List.singleton_append, stepsMeet_cons, stepsMeet_nil, and_true]
    exact ⟨trivial, by unfold CutsHarmlessly; decide⟩
  · intro r hr
    obtain rfl : r = clientRegistration 0 := by simpa [RegistrationState.init] using hr
    decide

/-- 22 clients write their lines before the server reads, and the first read ends inside the
path in the last line. -/
def registerTogether : List RegistrationAction :=
  List.ofFn (fun i => .write (clientRegistration i)) ++ [RegistrationAction.read, .read]

private theorem together_executes :
    (execute registrationStep (fun _ _ => true) .init registerTogether).isSome = true := by
  decide +kernel

/-- The FIFO is empty, and the 22 lines have led to 21 registrations. -/
theorem calls_of_22_clients :
    ∃ tr s, Run registrationStep .init tr s ∧ s.fifo = [] ∧
      s.calls ≠ s.written.map Registration.paths := by
  obtain ⟨tr, h, -⟩ := exists_run_of_isSome together_executes
  refine ⟨tr, _, h, by decide +kernel, fun heq => ?_⟩
  have hcalls : ((execute registrationStep (fun _ _ => true) .init registerTogether).get
      together_executes).calls.length = 21 := by decide +kernel
  have hlines : ((execute registrationStep (fun _ _ => true) .init registerTogether).get
      together_executes).written.length = 22 := by decide +kernel
  have := congrArg List.length heq
  rw [hcalls, List.length_map, hlines] at this
  omega

end FileServer
