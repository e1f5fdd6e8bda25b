import PosixTasks.Lib.CString
import PosixTasks.Lib.Lines
import PosixTasks.Lib.Transition

/-!
# Commands over the control FIFO

A command is one line that `echo` writes to the control FIFO. `run_daemon` polls the FIFO once
in each sample period: `read_command` reads at most 255 bytes and decodes them as one command,
whatever they hold.

## Main results

* `handed_eq_iff_of_run`: once the FIFO is empty, the commands handed to `process_command` are
  the lines written, each once and in order, exactly if every poll that found bytes read exactly
  one line.
-/

namespace MonitorDaemon

open CString Lines Transition

/-- `sizeof(buffer) - 1` in `read_command`. -/
def commandBytes : ℕ := 255

/-- `MAX_PATH_LEN`. -/
def maxPathLen : ℕ := 4096

/-- `CommandType`. -/
inductive CommandType where
  | showDiff
  | showKDiffs
  | setPid
  | setPeriod
  | status
  | restore
  | unknown
  deriving DecidableEq, Repr

/-- `Command`. -/
structure Command where
  type : CommandType
  /-- The `k` of `show_k_diffs`, the new pid, the period or the sample. -/
  arg : ℤ
  filename : Text
  deriving DecidableEq

/-- `"show_diff"`. -/
def cmdShowDiff : Text := ['s', 'h', 'o', 'w', '_', 'd', 'i', 'f', 'f']

/-- `"show_k_diffs"`. -/
def cmdShowKDiffs : Text := ['s', 'h', 'o', 'w', '_', 'k', '_', 'd', 'i', 'f', 'f', 's']

/-- `"set_pid"`. -/
def cmdSetPid : Text := ['s', 'e', 't', '_', 'p', 'i', 'd']

/-- `"set_period"`. -/
def cmdSetPeriod : Text := ['s', 'e', 't', '_', 'p', 'e', 'r', 'i', 'o', 'd']

/-- `"status"`. -/
def cmdStatus : Text := ['s', 't', 'a', 't', 'u', 's']

/-- `"restore"`. -/
def cmdRestore : Text := ['r', 'e', 's', 't', 'o', 'r', 'e']

/-- `sscanf(buffer, "<name> %d", &cmd->arg)`: without a number `arg` keeps its value. -/
def scanArg (arg : ℤ) (rest : Text) : ℤ :=
  match scanInt rest with
  | some (n, _) => n
  | none => arg

/-- `sscanf(buffer, "restore %s %d", filename, &sample) == 2`, with the file name and the
sample. -/
def scanRestore (rest : Text) : Option (Text × ℤ) :=
  match scanWord none rest with
  | none => none
  | some (filename, rest) =>
    match scanInt rest with
    | none => none
    | some (sample, _) => some (filename, sample)

/-- How `read_command` decodes a buffer into `*cmd`, which holds `cmd` before. -/
def decodeCommand (cmd : Command) (buffer : Text) : Command :=
  let buffer := ofBuffer buffer
  if cmdShowDiff <+: buffer then { cmd with type := .showDiff, arg := 0 }
  else if cmdShowKDiffs <+: buffer then
    { cmd with type := .showKDiffs, arg := scanArg cmd.arg (buffer.drop cmdShowKDiffs.length) }
  else if cmdSetPid <+: buffer then
    { cmd with type := .setPid, arg := scanArg cmd.arg (buffer.drop cmdSetPid.length) }
  else if cmdSetPeriod <+: buffer then
    { cmd with type := .setPeriod, arg := scanArg cmd.arg (buffer.drop cmdSetPeriod.length) }
  else if cmdStatus <+: buffer then { cmd with type := .status, arg := 0 }
  else if cmdRestore <+: buffer then
    match scanRestore (buffer.drop cmdRestore.length) with
    | some (filename, sample) =>
        { type := .restore, arg := sample, filename := filename.take (maxPathLen - 1) }
    | none => { cmd with type := .unknown }
  else { cmd with type := .unknown }

/-- A line written to the control FIFO, without its newline: with it the line has at most 255
bytes. -/
structure ControlLine where
  text : Text
  noNewline : '\n' ∉ text
  noNul : '\x00' ∉ text
  fits : text.length + 1 ≤ commandBytes

/-- The bytes of the line. -/
def ControlLine.bytes (l : ControlLine) : Text :=
  l.text ++ ['\n']

/-- A command handed to `process_command`, with the bytes it was decoded from. -/
structure Handed where
  buffer : Text
  command : Command

/-- The control FIFO and the commands handed on so far. -/
structure ControlState where
  /-- The bytes in the FIFO. -/
  fifo : Text
  /-- The commands handed to `process_command`, in order. -/
  handed : List Handed
  /-- History: the lines written, in the order they entered the FIFO. -/
  written : List ControlLine

/-- The FIFO is new. -/
def ControlState.init : ControlState :=
  { fifo := [], handed := [], written := [] }

/-- Somebody writes a line, or an iteration of `run_daemon` polls the FIFO; `cmd` is what the
variable `cmd` of the iteration happens to hold. -/
inductive ControlAction where
  | write (l : ControlLine)
  | poll (cmd : Command)

/-- One step. A poll of the empty FIFO hands nothing on: `read` returns 0 or `EAGAIN`. -/
def controlStep (s : ControlState) : ControlAction → Option ControlState
  | .write l => some { s with fifo := s.fifo ++ l.bytes, written := s.written ++ [l] }
  | .poll cmd =>
      let buffer := s.fifo.take commandBytes
      if buffer ≠ [] then
        some { s with
          fifo := s.fifo.drop commandBytes
          handed := s.handed ++ [{ buffer, command := decodeCommand cmd buffer }] }
      else some s

/-- If the poll finds bytes, it reads exactly one line: the FIFO holds one line, or its first
line fills the buffer. -/
def ReadsOneLine (s : ControlState) : ControlAction → Prop
  | .poll _ => s.fifo = [] ∨ ∃ line, split '\n' (s.fifo.take commandBytes) = ([line], [])
  | .write _ => True

/-! ## Following the lines -/

/-- The bytes of some lines. -/
def bytesOf (lines : List ControlLine) : Text :=
  render '\n' (lines.map ControlLine.text)

theorem split_bytes (l : ControlLine) : split '\n' l.bytes = ([l.text], []) := by
  rw [ControlLine.bytes, split_append_line l.noNewline, split_nil]

/-- The lines `done` are handed on and the lines `rest` are in the FIFO. -/
structure Polled (s : ControlState) (done rest : List ControlLine) : Prop where
  written : s.written = done ++ rest
  fifo : s.fifo = bytesOf rest
  handed : s.handed.map Handed.buffer = done.map ControlLine.bytes

theorem polled_write {s s' : ControlState} {done rest : List ControlLine} {l : ControlLine}
    (h : Polled s done rest) (hstep : controlStep s (.write l) = some s') :
    Polled s' done (rest ++ [l]) := by
  simp only [controlStep, Option.some.injEq] at hstep
  subst hstep
  refine ⟨by simp [h.written], ?_, h.handed⟩
  simp [h.fifo, bytesOf, ControlLine.bytes]

/-- A poll that reads exactly one line hands on the next line. -/
theorem polled_poll {s s' : ControlState} {done rest : List ControlLine} {cmd : Command}
    (h : Polled s done rest) (hone : ReadsOneLine s (.poll cmd))
    (hstep : controlStep s (.poll cmd) = some s') :
    ∃ done' rest', Polled s' done' rest' := by
  simp only [controlStep] at hstep
  split at hstep <;> simp only [Option.some.injEq] at hstep <;> subst hstep
  next hne =>
    have hline : ∃ line, split '\n' (s.fifo.take commandBytes) = ([line], []) := by
      rcases hone with hempty | hone
      · simp [hempty] at hne
      · exact hone
    obtain ⟨line, hsplit⟩ := hline
    have hfifo : s.fifo = render '\n' (rest.map ControlLine.text) := h.fifo
    have hnoNewline : ∀ x ∈ rest.map ControlLine.text, '\n' ∉ x := by
      simpa only [List.forall_mem_map] using fun l _ => l.noNewline
    -- the bytes read are a whole line, so the cut is at the end of the first line
    obtain ⟨l, post, hrest, htake, hdrop⟩ : ∃ l post, rest = l :: post ∧
        s.fifo.take commandBytes = l.bytes ∧ s.fifo.drop commandBytes = bytesOf post := by
      rcases take_render '\n' (rest.map ControlLine.text) commandBytes with
        ⟨-, htake, hdrop⟩ | ⟨pre, l, post, k, hmap, hk, -, htake, hdrop⟩
      · rw [← hfifo] at htake hdrop
        rw [htake, hfifo, split_render hnoNewline] at hsplit
        simp only [Prod.mk.injEq, and_true] at hsplit
        obtain ⟨l, post, rfl, -, hpost⟩ := List.map_eq_cons_iff.mp hsplit
        obtain rfl := List.map_eq_nil_iff.mp hpost
        refine ⟨l, [], rfl, ?_, hdrop⟩
        rw [htake, hfifo]
        simp [ControlLine.bytes]
      · rw [← hfifo] at htake hdrop
        have hcut : '\n' ∉ l.take k := fun hmem =>
          hnoNewline l (by rw [hmap]; simp) (List.mem_of_mem_take hmem)
        have hpre : ∀ x ∈ pre, '\n' ∉ x := fun x hx => hnoNewline x (by rw [hmap]; simp [hx])
        rw [htake, split_render_append hpre hcut, Prod.mk.injEq] at hsplit
        obtain ⟨rfl, htail⟩ := hsplit
        have hl : l.drop k = l := by
          rcases List.take_eq_nil_iff.mp htail with rfl | rfl <;> simp
        obtain ⟨first, post', rfl, rfl, hpost⟩ := List.map_eq_cons_iff.mp hmap
        refine ⟨first, post', rfl, ?_, ?_⟩
        · rw [htake, htail]
          simp [ControlLine.bytes]
        · rw [hdrop, hl, bytesOf, hpost]
          rfl
    subst hrest
    refine ⟨done ++ [l], post, ?_, hdrop, ?_⟩
    · simpa using h.written
    · simp [h.handed, htake]
  next => exact ⟨done, rest, h⟩

/-- While every poll reads one line or nothing, the lines are handed on one by one. -/
theorem polled_of_run {tr : List (ControlState × ControlAction)} {s : ControlState}
    (h : Run controlStep .init tr s) (hone : StepsMeet ReadsOneLine tr) :
    ∃ done rest, Polled s done rest := by
  refine h.invariant (I := fun s => ∃ done rest, Polled s done rest)
    ⟨[], [], rfl, rfl, rfl⟩ ?_ hone
  rintro s a s' ⟨done, rest, hs⟩ hguard hstep
  cases a with
  | write l => exact ⟨done, rest ++ [l], polled_write hs hstep⟩
  | poll cmd => exact polled_poll hs hguard hstep

/-- What a poll reads is handed on. -/
theorem mem_handed_of_run {tr : List (ControlState × ControlAction)} {s : ControlState}
    (h : Run controlStep .init tr s) {t : ControlState} {cmd : Command}
    (hmem : (t, .poll cmd) ∈ tr) (hne : t.fifo ≠ []) :
    t.fifo.take commandBytes ∈ s.handed.map Handed.buffer := by
  induction h with
  | nil => simp at hmem
  | @snoc tr s s' a hrun hstep ih =>
    -- what was handed over stays in the history
    have hkeep : ∀ b ∈ s.handed.map Handed.buffer, b ∈ s'.handed.map Handed.buffer := by
      intro b hb
      cases a <;> simp only [controlStep] at hstep
      case write =>
        simp only [Option.some.injEq] at hstep
        subst hstep
        exact hb
      case poll =>
        split at hstep <;> simp only [Option.some.injEq] at hstep <;> subst hstep
        · simp only [List.map_append, List.mem_append]
          exact Or.inl hb
        · exact hb
    rcases List.mem_append.mp hmem with hmem | hmem
    · exact hkeep _ (ih hmem)
    · -- the last step is the poll itself
      simp only [List.mem_singleton, Prod.mk.injEq] at hmem
      obtain ⟨rfl, rfl⟩ := hmem
      have hbuf : t.fifo.take commandBytes ≠ [] := by
        simp [List.take_eq_nil_iff, hne, commandBytes]
      simp only [controlStep, if_pos hbuf, Option.some.injEq] at hstep
      subst hstep
      simp

/-- Once the FIFO is empty, the commands handed to `process_command` were decoded from exactly
the lines written, each once and in order, exactly if every poll that found bytes read exactly
one line. -/
theorem handed_eq_iff_of_run {tr : List (ControlState × ControlAction)} {s : ControlState}
    (h : Run controlStep .init tr s) (hempty : s.fifo = []) :
    s.handed.map Handed.buffer = s.written.map ControlLine.bytes ↔
      StepsMeet ReadsOneLine tr := by
  constructor
  · rintro heq ⟨t, a⟩ hmem
    cases a with
    | write => trivial
    | poll cmd =>
      by_cases hne : t.fifo = []
      · exact Or.inl hne
      · obtain ⟨l, -, hl⟩ := List.mem_map.mp (heq ▸ mem_handed_of_run h hmem hne)
        exact Or.inr ⟨l.text, by rw [← hl, split_bytes]⟩
  · intro hone
    obtain ⟨done, rest, hpolled⟩ := polled_of_run h hone
    have hrest : rest = [] := by
      have := hpolled.fifo
      rw [hempty, bytesOf, eq_comm] at this
      simpa using this
    rw [hpolled.handed, hpolled.written, hrest, List.append_nil]

/-! ## Two commands in one sample period -/

/-- The line `status`. -/
def statusLine : ControlLine where
  text := cmdStatus
  noNewline := by decide
  noNul := by decide
  fits := by decide

/-- The line `set_period 500`. -/
def setPeriodLine : ControlLine where
  text := cmdSetPeriod ++ [' ', '5', '0', '0']
  noNewline := by decide
  noNul := by decide
  fits := by decide

/-- What the variable holds before the first command. -/
def noCommand : Command :=
  { type := .unknown, arg := 0, filename := [] }

/-- `handed_eq_iff_of_run` where the daemon polls after each of the two lines. -/
theorem handed_eq_polled_each :
    ∃ s, Reachable controlStep .init s ∧
      s.handed.map Handed.buffer = [statusLine.bytes, setPeriodLine.bytes] := by
  have h := ((((Run.nil : Run controlStep .init [] .init).snoc (a := .write statusLine) rfl).snoc
    (a := .poll noCommand) rfl).snoc (a := .write setPeriodLine) rfl).snoc
    (a := .poll noCommand) rfl
  refine ⟨_, ⟨_, h⟩, (handed_eq_iff_of_run h rfl).mpr ?_⟩
  simp only [List.nil_append, List.cons_append, stepsMeet_cons, stepsMeet_nil, and_true,
    ReadsOneLine, true_and]
  exact ⟨Or.inr ⟨statusLine.text, by decide⟩, Or.inr ⟨setPeriodLine.text, by decide⟩⟩

/-- Both lines are written between two polls: one command is handed on, `status`. -/
theorem handed_of_two_lines :
    ∃ tr s, Run controlStep .init tr s ∧ s.fifo = [] ∧
      s.handed.map (Command.type ∘ Handed.command) = [.status] ∧
      s.handed.map Handed.buffer ≠ s.written.map ControlLine.bytes := by
  have h := ((Run.nil : Run controlStep .init [] .init).snoc (a := .write statusLine) rfl).snoc
    (a := .write setPeriodLine) rfl |>.snoc (a := .poll noCommand) rfl
  exact ⟨_, _, h, rfl, by decide, by decide⟩

end MonitorDaemon
