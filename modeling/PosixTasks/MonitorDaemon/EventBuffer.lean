import PosixTasks.Lib.Distinct
import PosixTasks.Lib.LittleEndian
import PosixTasks.MonitorDaemon.State

/-!
# The buffer of inotify events

`process_inotify_events` goes through the bytes that `read` returned. Each event starts with a
header of 16 bytes, of which the last four are the length of its name with the padding; the cursor
goes on by the header and this length, in every branch of the loop. On its way the loop adds
watches for new directories, so that later events in the same buffer can be for them.

No allocation for the queue fails.

## Main results

* `processBuffer_bytes`: on the bytes of some events the loop handles one event after the other
  and ends at the end of the buffer;
* `queue_of_processBuffer`: the queue is extended by the paths of the events that are to be
  reported, each once and in the order of their first occurrence.
-/

namespace MonitorDaemon

open CString LittleEndian

/-! ## Events in memory -/

/-- `sizeof(struct inotify_event)`. -/
def inotifyEventSize : ℕ := 16

/-- The bits of the types of events that the kernel delivers. -/
def eventTypes : List Mask :=
  [0x1, inModify, 0x4, inCloseWrite, 0x10, 0x20, inMovedFrom, inMovedTo, inCreate, inDelete,
    0x400, 0x800, 0x2000, 0x4000, 0x8000]

/-- The mask has one bit for the type of the event, and it may have `IN_ISDIR`. -/
def OneType (mask : Mask) : Prop :=
  ∃ type ∈ eventTypes, mask = type ∨ mask = type ||| inIsdir

instance (mask : Mask) : Decidable (OneType mask) :=
  inferInstanceAs (Decidable (∃ type ∈ eventTypes, mask = type ∨ mask = type ||| inIsdir))

/-- An event as the kernel writes it. -/
structure RawEvent where
  event : InotifyEvent
  cookie : Mask
  /-- How many NUL bytes follow the name; an event without a name has none. -/
  padding : ℕ
  wd_int : -2 ^ 31 ≤ event.wd ∧ event.wd < 2 ^ 31
  oneType : OneType event.mask
  noNul : '\x00' ∉ event.name
  noSlash : '/' ∉ event.name
  padded : padding = 0 ↔ event.name = []
  fits : event.name.length + padding < 2 ^ 32

/-- `len`. -/
def RawEvent.len (e : RawEvent) : ℕ :=
  e.event.name.length + e.padding

/-- The bytes of an event: `wd`, `mask`, `cookie`, `len` and `name`. -/
def RawEvent.bytes (e : RawEvent) : Text :=
  encodeInt 4 e.event.wd ++ encodeLE 4 e.event.mask.toNat ++ encodeLE 4 e.cookie.toNat ++
    encodeLE 4 e.len ++ e.event.name ++ List.replicate e.padding '\x00'

/-- What the loop reads through its pointer `event`. -/
structure EventView where
  wd : ℤ
  mask : Mask
  len : ℕ
  name : Text

/-- `(struct inotify_event *)&buffer[i]` -/
def eventAt (buffer : Text) (i : ℕ) : EventView :=
  let bytes := buffer.drop i
  { wd := decodeInt (bytes.take 4)
    mask := BitVec.ofNat 32 (decodeLE ((bytes.drop 4).take 4))
    len := decodeLE ((bytes.drop 12).take 4)
    name := ofBuffer (bytes.drop inotifyEventSize) }

/-! ## The loop -/

section

variable (isText : Text → Bool) (addWatch : Text → MonitorState → MonitorState)

/-- Whether an event of a file adds its path: `is_text`, and then `should_add`. -/
def shouldAdd (mask : Mask) (filePath : Text) : Bool :=
  let text :=
    if mask.has (inCreate ||| inModify ||| inCloseWrite ||| inMovedTo) then isText filePath
    else mask.has (inDelete ||| inMovedFrom)
  text ∧ (mask.has (inModify ||| inCloseWrite) ∨ mask.has inCreate ∨ mask.has inDelete ∨
    mask.has (inMovedFrom ||| inMovedTo))

/-- One iteration of the loop of `process_inotify_events`: what it does with the event at the
cursor, and the cursor after it. -/
def eventStep (watchList : List WatchInfo) (buffer : Text) (i : ℕ) : EventEffect × ℕ :=
  let event := eventAt buffer i
  if 0 < event.len then
    match getWatchPath watchList event.wd with
    | none => (.skip, i + (inotifyEventSize + event.len))
    | some watchDir =>
      let filePath := snprintf pathMax (joinPath watchDir event.name)
      let isDir := event.mask.has inIsdir
      if isDir ∧ event.mask.has inCreate then
        (.addWatch filePath, i + (inotifyEventSize + event.len))
      else if ¬ isDir then
        if basename filePath = debugLog then (.skip, i + (inotifyEventSize + event.len))
        else if restoredMark <:+: basename filePath then
          (.skip, i + (inotifyEventSize + event.len))
        else if shouldAdd isText event.mask filePath then
          (.enqueue filePath, i + (inotifyEventSize + event.len))
        else (.skip, i + (inotifyEventSize + event.len))
      else (.skip, i + (inotifyEventSize + event.len))
  else (.skip, i + (inotifyEventSize + event.len))

/-- Every branch advances the cursor by the length of the event. -/
theorem eventStep_snd (watchList : List WatchInfo) (buffer : Text) (i : ℕ) :
    (eventStep isText watchList buffer i).2 =
      i + (inotifyEventSize + (eventAt buffer i).len) := by
  unfold eventStep
  dsimp only
  split
  · split
    · rfl
    · split
      · rfl
      · split
        · split
          · rfl
          · split
            · rfl
            · split <;> rfl
        · rfl
  · rfl

/-- What an event leads to; `addWatch` is `add_inotify_watch_recursive`. -/
def applyEffect (addWatch : Text → MonitorState → MonitorState) (state : MonitorState) :
    EventEffect → MonitorState
  | .skip => state
  | .addWatch path => addWatch path state
  | .enqueue path =>
      { state with changedFilesQueue := enqueue state.changedFilesQueue path }

/-- The loop of `process_inotify_events` from the cursor `i` on. -/
def processBuffer (addWatch : Text → MonitorState → MonitorState) (state : MonitorState)
    (buffer : Text) (i : ℕ) : MonitorState × ℕ :=
  if i < buffer.length then
    let next := eventStep isText state.watchList buffer i
    processBuffer addWatch (applyEffect addWatch state next.1) buffer next.2
  else (state, i)
termination_by buffer.length - i
decreasing_by
  rw [eventStep_snd, inotifyEventSize]
  omega

end

/-! ### Watches for new directories -/

/-- The entries of a directory that `add_inotify_watch_recursive` goes through, in the order of
`readdir`. -/
inductive DirScan where
  | nil
  /-- A directory: the descriptor that `inotify_add_watch` gives it, `none` where the call for it
  returns before it has stored a watch, and its own entries. -/
  | dir (name : Text) (wd : Option ℤ) (entries rest : DirScan)
  /-- Anything else. -/
  | other (rest : DirScan)

/-- The watches that `add_inotify_watch_recursive` adds below `path`. -/
def DirScan.addWatches (path : Text) : DirScan → List WatchInfo → List WatchInfo
  | nil, watchList => watchList
  | dir name wd entries rest, watchList =>
      let fullpath := snprintf pathMax (joinPath path name)
      rest.addWatches path (match wd with
        | some wd => entries.addWatches fullpath (watchList ++ [{ wd, path := fullpath }])
        | none => watchList)
  | other rest, watchList => rest.addWatches path watchList

/-- `add_inotify_watch_recursive` on a path; `scan` is what it finds there, `none` if it returns
before it has stored a watch. -/
def addInotifyWatchRecursive (scan : List WatchInfo → Text → Option (ℤ × DirScan)) (path : Text)
    (state : MonitorState) : MonitorState :=
  match scan state.watchList path with
  | some (wd, entries) =>
      { state with watchList := entries.addWatches path (state.watchList ++ [{ wd, path }]) }
  | none => state

/-! ## Reading an event -/

/-- The fields of the header are read back. -/
theorem eventAt_header (pre : Text) (e : RawEvent) (rest : Text) :
    (eventAt (pre ++ (e.bytes ++ rest)) pre.length).wd = e.event.wd ∧
      (eventAt (pre ++ (e.bytes ++ rest)) pre.length).mask = e.event.mask ∧
      (eventAt (pre ++ (e.bytes ++ rest)) pre.length).len = e.len := by
  obtain ⟨hlow, hhigh⟩ := e.wd_int
  -- each field stands behind those before it
  have hwd : (e.bytes ++ rest).take 4 = encodeInt 4 e.event.wd := by
    simp only [RawEvent.bytes, List.append_assoc]
    exact List.take_left' (length_encodeInt 4 _)
  have hmask : ((e.bytes ++ rest).drop 4).take 4 = encodeLE 4 e.event.mask.toNat := by
    simp only [RawEvent.bytes, List.append_assoc]
    rw [List.drop_left' (length_encodeInt 4 _), List.take_left' (length_encodeLE 4 _)]
  have hlen : ((e.bytes ++ rest).drop 12).take 4 = encodeLE 4 e.len := by
    have hbefore : (encodeInt 4 e.event.wd ++ encodeLE 4 e.event.mask.toNat ++
        encodeLE 4 e.cookie.toNat).length = 12 := by simp
    rw [RawEvent.bytes, List.append_assoc, List.append_assoc, List.append_assoc,
      List.drop_left' hbefore, List.take_left' (length_encodeLE 4 _)]
  have hmaskLt : e.event.mask.toNat < 256 ^ 4 := e.event.mask.isLt
  have hlenLt : e.len < 256 ^ 4 := e.fits
  simp only [eventAt, List.drop_left, hwd, hmask, hlen, decodeLE_encodeLE,
    Nat.mod_eq_of_lt hmaskLt, Nat.mod_eq_of_lt hlenLt, BitVec.ofNat_toNat, BitVec.setWidth_eq,
    and_true]
  exact decodeInt_encodeInt (by omega) (by omega)

/-- The name is read back up to its padding. -/
theorem eventAt_name (pre : Text) (e : RawEvent) (rest : Text) (hname : e.event.name ≠ []) :
    (eventAt (pre ++ (e.bytes ++ rest)) pre.length).name = e.event.name := by
  have hbefore : (encodeInt 4 e.event.wd ++ encodeLE 4 e.event.mask.toNat ++
      encodeLE 4 e.cookie.toNat ++ encodeLE 4 e.len).length = inotifyEventSize := by
    simp [inotifyEventSize]
  -- a name has at least one NUL behind it
  obtain ⟨n, hn⟩ := Nat.exists_eq_succ_of_ne_zero fun h => hname (e.padded.mp h)
  simp only [eventAt, List.drop_left]
  rw [RawEvent.bytes, List.append_assoc, List.append_assoc, List.drop_left' hbefore, hn,
    List.replicate_succ, List.cons_append, ofBuffer, List.takeWhile_append_of_pos]
  · simp
  · intro c hc
    simpa using fun heq : c = '\x00' => e.noNul (heq ▸ hc)

/-- The length of the bytes of an event. -/
theorem length_bytes (e : RawEvent) : e.bytes.length = inotifyEventSize + e.len := by
  simp [RawEvent.bytes, RawEvent.len, inotifyEventSize]
  omega

theorem has_or (mask a b : Mask) : mask.has (a ||| b) = (mask.has a || mask.has b) := by
  simp only [Mask.has, BitVec.and_or_distrib_left]
  rw [Bool.eq_iff_iff]
  simp

/-! ## The loop handles one event after the other -/

/-- After an event the file exists, or it does not. -/
theorem OneType.not_both {mask : Mask} (h : OneType mask) :
    ¬ (mask.has existingKinds = true ∧ mask.has removedKinds = true) := by
  -- for each type, with and without `IN_ISDIR`
  have hall : (eventTypes.all fun type =>
      ! (type.has existingKinds && type.has removedKinds) &&
        ! ((type ||| inIsdir).has existingKinds && (type ||| inIsdir).has removedKinds)) =
          true := by
    decide
  obtain ⟨type, htype, hmask⟩ := h
  have htest := List.all_eq_true.mp hall type htype
  simp only [Bool.and_eq_true, Bool.not_eq_true', ← Bool.not_eq_true] at htest
  rcases hmask with rfl | rfl
  · exact htest.1
  · exact htest.2

/-- The two tests of the mask in the loop come down to one. -/
theorem shouldAdd_eq (isText : Text → Bool) (mask : Mask) (path : Text) :
    shouldAdd isText mask path =
      ((if mask.has existingKinds then isText path else mask.has removedKinds) &&
        mask.has (existingKinds ||| removedKinds)) := by
  simp only [shouldAdd, existingKinds, removedKinds, has_or]
  cases mask.has inCreate <;> cases mask.has inModify <;> cases mask.has inCloseWrite <;>
    cases mask.has inMovedTo <;> cases mask.has inDelete <;> cases mask.has inMovedFrom <;> simp

variable {isText : Text → Bool}

theorem RawEvent.len_pos (e : RawEvent) : 0 < e.len ↔ e.event.name ≠ [] := by
  have hpadded := e.padded
  have hname := List.length_pos_iff (l := e.event.name)
  rw [RawEvent.len]
  constructor
  · rintro hpos hnil
    rw [hnil, List.length_nil, hpadded.mpr hnil] at hpos
    omega
  · intro hne
    have := hname.mpr hne
    omega

/-- On the bytes of an event an iteration has the effect of the event. -/
theorem eventStep_bytes (isText : Text → Bool) (watchList : List WatchInfo) (pre : Text)
    (e : RawEvent) (rest : Text) :
    eventStep isText watchList (pre ++ (e.bytes ++ rest)) pre.length =
      (eventEffect isText watchList e.event, pre.length + e.bytes.length) := by
  obtain ⟨hwd, hmask, hlen⟩ := eventAt_header pre e rest
  have hcursor : (eventStep isText watchList (pre ++ (e.bytes ++ rest)) pre.length).2 =
      pre.length + e.bytes.length := by
    rw [eventStep_snd, hlen, length_bytes]
  refine Prod.ext ?_ hcursor
  simp only [eventStep, eventEffect, hwd, hmask, hlen, e.len_pos]
  by_cases hname : e.event.name = []
  · simp [hname]
  · rw [if_pos hname, if_neg hname, eventAt_name pre e rest hname]
    cases getWatchPath watchList e.event.wd with
    | none => rfl
    | some dir =>
      simp only [shouldAdd_eq, SkippedName]
      split
      · rfl
      · cases hdir : e.event.mask.has inIsdir with
        | true => simp
        | false =>
          simp only [Bool.false_eq_true, not_false_eq_true, if_true, if_false]
          -- the two names that are skipped are tested one after the other
          by_cases hlog : basename (snprintf pathMax (joinPath dir e.event.name)) = debugLog
          · simp [hlog]
          · by_cases hmark : restoredMark <:+: basename
                (snprintf pathMax (joinPath dir e.event.name))
            · simp [hlog, hmark]
            · simp only [hlog, hmark, if_false, or_self, Bool.and_eq_true]
              rw [apply_ite Prod.fst]

/-- On the bytes of some events the loop handles one event after the other, and it ends at the
end of the buffer. -/
theorem processBuffer_bytes (addWatch : Text → MonitorState → MonitorState)
    (state : MonitorState) (events : List RawEvent) :
    processBuffer isText addWatch state (events.flatMap RawEvent.bytes) 0 =
      (processInotifyEvents isText addWatch state (events.map RawEvent.event),
        (events.flatMap RawEvent.bytes).length) := by
  -- in general some bytes have been handled before, up to the cursor
  have hrest : ∀ (events : List RawEvent) (pre : Text) (state : MonitorState),
      processBuffer isText addWatch state (pre ++ events.flatMap RawEvent.bytes) pre.length =
        (processInotifyEvents isText addWatch state (events.map RawEvent.event),
          (pre ++ events.flatMap RawEvent.bytes).length) := by
    intro events
    induction events with
    | nil =>
      intro pre state
      rw [processBuffer]
      simp [processInotifyEvents]
    | cons e events ih =>
      intro pre state
      have hlt : pre.length < (pre ++ (e :: events).flatMap RawEvent.bytes).length := by
        have := length_bytes e
        simp [inotifyEventSize] at this ⊢
        omega
      rw [processBuffer, if_pos hlt]
      simp only [List.flatMap_cons, eventStep_bytes]
      have hnext := ih (pre ++ e.bytes) (handleEvent isText addWatch state e.event)
      rw [List.length_append, List.append_assoc] at hnext
      exact hnext
  exact hrest events [] state

/-! ## What is added to the queue -/

/-- The event is one of a file that is to be reported. -/
def Reports (isText : Text → Bool) (path : Text) (event : InotifyEvent) : Prop :=
  event.mask.has inIsdir = false ∧ event.name ≠ debugLog ∧ ¬ restoredMark <:+: event.name ∧
    (event.mask.has existingKinds = true ∧ isText path = true ∨
      event.mask.has removedKinds = true)

instance (isText : Text → Bool) (path : Text) (event : InotifyEvent) :
    Decidable (Reports isText path event) := by
  unfold Reports
  infer_instance

/-- The path that an event adds to the queue: it has a name, its watch descriptor is known, and it
is to be reported. -/
def reportedPath (isText : Text → Bool) (watchList : List WatchInfo) (event : InotifyEvent) :
    Option Text :=
  match getWatchPath watchList event.wd with
  | none => none
  | some dir =>
      if event.name ≠ [] ∧ Reports isText (joinPath dir event.name) event then
        some (joinPath dir event.name)
      else none

section

variable (isText) (addWatch : Text → MonitorState → MonitorState) (state : MonitorState)
  (events : List InotifyEvent)

/-- The watches known when the loop comes to event `k`. -/
def watchesBefore (k : ℕ) : List WatchInfo :=
  (processInotifyEvents isText addWatch state (events.take k)).watchList

/-- The paths of the events that are to be reported, in order. -/
def reportedPaths : List Text :=
  (List.range events.length).filterMap fun k =>
    events[k]?.bind (reportedPath isText (watchesBefore isText addWatch state events k))

/-- No path of an event is too long. -/
def PathsFit : Prop :=
  ∀ (k : ℕ) event dir, events[k]? = some event →
    getWatchPath (watchesBefore isText addWatch state events k) event.wd = some dir →
      (joinPath dir event.name).length < pathMax

end

/-- The effect of an event on the queue. -/
theorem eventEffect_eq (isText : Text → Bool) (watchList : List WatchInfo) {event : InotifyEvent}
    (htype : OneType event.mask) (hslash : '/' ∉ event.name)
    (hfits : ∀ dir, getWatchPath watchList event.wd = some dir →
      (joinPath dir event.name).length < pathMax) (path : Text) :
    eventEffect isText watchList event = .enqueue path ↔
      reportedPath isText watchList event = some path := by
  cases hwatch : getWatchPath watchList event.wd with
  | none =>
    simp only [eventEffect, reportedPath, hwatch, reduceCtorEq, iff_false]
    split <;> simp
  | some dir =>
    simp only [reportedPath, hwatch]
    by_cases hname : event.name = []
    · simp [eventEffect, hname]
    cases hdir : event.mask.has inIsdir with
    | true =>
      -- an event of a directory adds a watch or nothing
      simp only [eventEffect, if_neg hname, hwatch, hdir, true_and, if_true]
      split <;> simp [Reports, hdir]
    | false =>
      rw [eventEffect_file hwatch hname hslash (hfits dir hwatch) hdir]
      have hkind := htype.not_both
      simp only [Reports, SkippedName, has_or, hdir]
      by_cases hlog : event.name = debugLog
      · simp [hlog]
      by_cases hmark : restoredMark <:+: event.name
      · simp [hmark]
      simp only [hlog, hmark, or_self, if_false]
      cases hexisting : event.mask.has existingKinds with
      | true =>
        have hremoved : event.mask.has removedKinds = false := by simpa [hexisting] using hkind
        cases isText (joinPath dir event.name) <;> simp [hremoved, hname, hlog]
      | false => cases event.mask.has removedKinds <;> simp [hname, hlog]

/-! ### One more event -/

section

variable {addWatch : Text → MonitorState → MonitorState} {state : MonitorState}
  {events : List InotifyEvent} {event : InotifyEvent}

theorem processInotifyEvents_append_singleton :
    processInotifyEvents isText addWatch state (events ++ [event]) =
      handleEvent isText addWatch (processInotifyEvents isText addWatch state events) event := by
  rw [processInotifyEvents, List.foldl_append]
  rfl

/-- What is known at an event does not depend on the later ones. -/
theorem watchesBefore_append {k : ℕ} (hk : k ≤ events.length) :
    watchesBefore isText addWatch state (events ++ [event]) k =
      watchesBefore isText addWatch state events k := by
  rw [watchesBefore, watchesBefore, List.take_append_of_le_length hk]

/-- The last event is handled with the watches that the others have left. -/
theorem watchesBefore_append_length :
    watchesBefore isText addWatch state (events ++ [event]) events.length =
      (processInotifyEvents isText addWatch state events).watchList := by
  rw [watchesBefore_append le_rfl, watchesBefore, List.take_length]

theorem PathsFit.of_append (h : PathsFit isText addWatch state (events ++ [event])) :
    PathsFit isText addWatch state events := by
  intro k event' dir hevent hwatch
  have hk : k < events.length := (List.getElem?_eq_some_iff.mp hevent).1
  apply h k event' dir
  · rw [List.getElem?_append_left hk, hevent]
  · rw [watchesBefore_append hk.le, hwatch]

theorem reportedPaths_append_singleton :
    reportedPaths isText addWatch state (events ++ [event]) =
      reportedPaths isText addWatch state events ++
        (reportedPath isText (processInotifyEvents isText addWatch state events).watchList
          event).toList := by
  rw [reportedPaths, List.length_append, List.length_singleton, List.range_succ,
    List.filterMap_append, reportedPaths]
  congr 1
  · refine List.filterMap_congr fun k hk => ?_
    have hlt : k < events.length := List.mem_range.mp hk
    rw [List.getElem?_append_left hlt, watchesBefore_append hlt.le]
  · simp only [List.filterMap_cons, List.getElem?_concat_length, Option.bind_some,
      watchesBefore_append_length, List.filterMap_nil]
    cases reportedPath isText (processInotifyEvents isText addWatch state events).watchList event
      <;> rfl

end

/-- Events change the watches and the queue alone, and the queue gets the paths that they report. -/
theorem processInotifyEvents_eq {addWatch : Text → MonitorState → MonitorState}
    (hadd : ∀ path state, ∃ watchList, addWatch path state = { state with watchList })
    {state : MonitorState} {events : List InotifyEvent}
    (htypes : ∀ event ∈ events, OneType event.mask) (hslash : ∀ event ∈ events, '/' ∉ event.name)
    (hfits : PathsFit isText addWatch state events) :
    ∃ watchList, processInotifyEvents isText addWatch state events =
      { state with
        watchList
        changedFilesQueue :=
          (reportedPaths isText addWatch state events).foldl enqueue state.changedFilesQueue } := by
  induction events using List.reverseRecOn with
  | nil => exact ⟨state.watchList, rfl⟩
  | append_singleton events event ih =>
    obtain ⟨watchList, hstate⟩ := ih (fun e he => htypes e (List.mem_append_left _ he))
      (fun e he => hslash e (List.mem_append_left _ he)) hfits.of_append
    -- the last event is looked up in the watches that the others have left
    have hlast : watchesBefore isText addWatch state (events ++ [event]) events.length =
        watchList := by
      rw [watchesBefore_append_length, hstate]
    have heffect := eventEffect_eq isText watchList
      (htypes event (by simp)) (hslash event (by simp))
      (fun dir hwatch => hfits events.length event dir (by simp) (by rw [hlast, hwatch]))
    rw [processInotifyEvents_append_singleton, reportedPaths_append_singleton, hstate,
      List.foldl_append, handleEvent]
    -- an event with another effect reports nothing
    have hnone : (∀ path, eventEffect isText watchList event ≠ .enqueue path) →
        reportedPath isText watchList event = none := fun hother =>
      Option.eq_none_iff_forall_ne_some.mpr fun path hpath => hother path ((heffect path).mpr hpath)
    cases hcase : eventEffect isText watchList event with
    | skip => exact ⟨watchList, by simp [hnone (by simp [hcase])]⟩
    | addWatch dir =>
      obtain ⟨watchList', hadd⟩ := hadd dir { state with
        watchList
        changedFilesQueue :=
          (reportedPaths isText addWatch state events).foldl enqueue state.changedFilesQueue }
      exact ⟨watchList', by simp [hnone (by simp [hcase]), hadd]⟩
    | enqueue path =>
      have hsome := (heffect path).mp hcase
      exact ⟨watchList, by simp [hsome]⟩

/-- A path is put into a queue unless it is there already. -/
theorem enqueue_eq_insertNew : enqueue = Distinct.insertNew := by
  funext queue path
  simp only [enqueue, Distinct.insertNew, List.contains_iff_mem]
  congr

/-- `add_inotify_watch_recursive` changes the watches alone. -/
theorem addInotifyWatchRecursive_eq (scan : List WatchInfo → Text → Option (ℤ × DirScan))
    (path : Text) (state : MonitorState) :
    ∃ watchList, addInotifyWatchRecursive scan path state = { state with watchList } := by
  unfold addInotifyWatchRecursive
  split
  · exact ⟨_, rfl⟩
  · exact ⟨state.watchList, rfl⟩

/-- `process_inotify_events` consumes the whole buffer. It extends the queue by exactly the paths
of the events that carry a name, have a known watch descriptor and are to be reported, in the order
of their first occurrence and without those that are queued already. -/
theorem queue_of_processBuffer {isText : Text → Bool}
    {scan : List WatchInfo → Text → Option (ℤ × DirScan)} {state : MonitorState}
    {events : List RawEvent} (hnodup : state.changedFilesQueue.Nodup)
    (hfits : PathsFit isText (addInotifyWatchRecursive scan) state
      (events.map RawEvent.event)) :
    ∃ state', processBuffer isText (addInotifyWatchRecursive scan) state
        (events.flatMap RawEvent.bytes) 0 =
          (state', (events.flatMap RawEvent.bytes).length) ∧
      state'.changedFilesQueue = state.changedFilesQueue ++
        ((reportedPaths isText (addInotifyWatchRecursive scan) state
          (events.map RawEvent.event)).filter (· ∉ state.changedFilesQueue)).eraseDups ∧
      state'.changedFilesQueue.Nodup := by
  have htypes : ∀ event ∈ events.map RawEvent.event, OneType event.mask := by
    rw [List.forall_mem_map]
    exact fun e _ => e.oneType
  have hslash : ∀ event ∈ events.map RawEvent.event, '/' ∉ event.name := by
    rw [List.forall_mem_map]
    exact fun e _ => e.noSlash
  obtain ⟨watchList, hstate⟩ := processInotifyEvents_eq
    (addInotifyWatchRecursive_eq scan) htypes hslash hfits
  refine ⟨_, processBuffer_bytes _ state events, ?_, ?_⟩
  · rw [hstate, enqueue_eq_insertNew, Distinct.foldl_insertNew]
  · rw [hstate, enqueue_eq_insertNew]
    exact Distinct.nodup_foldl_insertNew hnodup _

/-- An event with a name of one character. -/
def namedEvent (wd : Fin 8) (mask : Mask) (oneType : OneType mask) (name : Char)
    (hname : name ≠ '\x00' ∧ name ≠ '/') : RawEvent where
  event := { wd := wd.val, mask, name := [name] }
  cookie := 0
  padding := 15
  wd_int := by
    show -2 ^ 31 ≤ ((wd.val : ℕ) : ℤ) ∧ ((wd.val : ℕ) : ℤ) < 2 ^ 31
    omega
  oneType
  noNul := by simpa [eq_comm] using hname.1
  noSlash := by simpa [eq_comm] using hname.2
  padded := by simp
  fits := by simp

/-- The watch of the monitored directory. -/
def rootWd : Fin 8 := 1

theorem oneType_inModify : OneType inModify :=
  ⟨inModify, by decide, Or.inl rfl⟩

/-- A directory is created, and a file in it is created and modified. -/
def newDirectory : List RawEvent :=
  [namedEvent rootWd (inCreate ||| inIsdir) ⟨inCreate, by decide, Or.inr rfl⟩ 'd' (by decide),
    namedEvent 2 inCreate ⟨inCreate, by decide, Or.inl rfl⟩ 'a' (by decide),
    namedEvent 2 inModify oneType_inModify 'a' (by decide)]

/-- `queue_of_processBuffer` for a file in a directory whose watch the buffer itself adds. -/
theorem queue_of_newDirectory :
    ∃ state', processBuffer (fun _ => true) (addInotifyWatchRecursive fun _ _ => some (2, .nil))
        (.fresh ['m'] 1 3 [{ wd := 1, path := ['m'] }]) (newDirectory.flatMap RawEvent.bytes) 0 =
          (state', (newDirectory.flatMap RawEvent.bytes).length) ∧
      state'.changedFilesQueue = [['m', '/', 'd', '/', 'a']] ∧ state'.changedFilesQueue.Nodup := by
  refine queue_of_processBuffer (by simp [MonitorState.fresh]) ?_
  intro k event dir hevent hwatch
  match k, hevent with
  | 0, rfl =>
    obtain rfl : ['m'] = dir := Option.some.inj hwatch
    decide
  | 1, rfl | 2, rfl =>
    obtain rfl : ['m', '/', 'd'] = dir := Option.some.inj hwatch
    decide

end MonitorDaemon
