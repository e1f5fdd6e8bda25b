import PosixTasks.MonitorDaemon.Disk

/-!
# Detecting changes

The state of the monitor and its two detectors. `process_inotify_events` puts the paths of file
events into `changed_files_queue`; where the queue is empty, `find_changed_files` compares the
files that `search_files_in_dir` finds with the table `state->files` instead.

## Main results

* `eventEffect_file`: which file events add the path they name to the queue;
* `mem_statChangedFiles`: the table detector reports the files found that have no entry with
  their current `st_mtime` and `st_size`.
-/

namespace MonitorDaemon

open CString

/-- `FileInfo`. -/
structure FileInfo where
  path : Text
  mtime : ℤ
  size : ℤ
  «exists» : Bool
  deriving DecidableEq

/-- `WatchInfo`. -/
structure WatchInfo where
  wd : ℤ
  path : Text
  deriving DecidableEq

/-- `MonitorState`. Each array is the list of its elements in use. -/
structure MonitorState where
  files : List FileInfo
  monitoredDir : Text
  monitoredPid : ℤ
  samplePeriodMs : ℤ
  currentSample : ℕ
  firstBackupDone : Bool
  inotifyFd : ℤ
  watchList : List WatchInfo
  changedFilesQueue : List Text

/-- `DEFAULT_SAMPLE_PERIOD_MS`. -/
def defaultSamplePeriodMs : ℤ := 10000

/-- The state before the first full backup: `init_monitor_state`, and then `init_inotify`, which
got a descriptor from the kernel and filled the watch list. -/
def MonitorState.fresh (monitoredDir : Text) (monitoredPid : ℤ) (inotifyFd : ℕ)
    (watchList : List WatchInfo) : MonitorState :=
  { files := [], monitoredDir, monitoredPid, samplePeriodMs := defaultSamplePeriodMs,
    currentSample := 0, firstBackupDone := false, inotifyFd, watchList,
    changedFilesQueue := [] }

/-- `get_watch_path`: the path of the first watch with this descriptor. -/
def getWatchPath (watchList : List WatchInfo) (wd : ℤ) : Option Text :=
  (watchList.find? (·.wd = wd)).map WatchInfo.path

/-! ## Events -/

/-- The bits of an event mask. -/
abbrev Mask := BitVec 32

/-- `IN_MODIFY`. -/
def inModify : Mask := 0x2

/-- `IN_CLOSE_WRITE`. -/
def inCloseWrite : Mask := 0x8

/-- `IN_MOVED_FROM`. -/
def inMovedFrom : Mask := 0x40

/-- `IN_MOVED_TO`. -/
def inMovedTo : Mask := 0x80

/-- `IN_CREATE`. -/
def inCreate : Mask := 0x100

/-- `IN_DELETE`. -/
def inDelete : Mask := 0x200

/-- `IN_ISDIR`. -/
def inIsdir : Mask := 0x40000000

/-- `mask & bits`. -/
def Mask.has (mask bits : Mask) : Bool :=
  mask &&& bits ≠ 0

/-- `struct inotify_event`; without a name `len` is 0. -/
structure InotifyEvent where
  wd : ℤ
  mask : Mask
  name : Text
  deriving DecidableEq

/-- `"_restored_"`. -/
def restoredMark : Text := ['_', 'r', 'e', 's', 't', 'o', 'r', 'e', 'd', '_']

/-- The base names that `process_inotify_events` skips. -/
def SkippedName (name : Text) : Prop :=
  name = debugLog ∨ restoredMark <:+: name

instance (name : Text) : Decidable (SkippedName name) := by
  unfold SkippedName
  infer_instance

/-- What `process_inotify_events` does with one event. -/
inductive EventEffect where
  | skip
  /-- `add_inotify_watch_recursive` is called for a new directory. -/
  | addWatch (path : Text)
  /-- The path goes into the queue unless it is there. -/
  | enqueue (path : Text)
  deriving DecidableEq

/-- The kinds of event after which the file exists. -/
def existingKinds : Mask := inCreate ||| inModify ||| inCloseWrite ||| inMovedTo

/-- The kinds of event after which it does not. -/
def removedKinds : Mask := inDelete ||| inMovedFrom

/-- One iteration of the loop of `process_inotify_events`; `isText` is `is_text_file`. -/
def eventEffect (isText : Text → Bool) (watchList : List WatchInfo) (event : InotifyEvent) :
    EventEffect :=
  -- an event of the watched directory itself
  if event.name = [] then .skip
  else
    match getWatchPath watchList event.wd with
    | none => .skip
    | some watchDir =>
      let filePath := snprintf pathMax (joinPath watchDir event.name)
      let isDir := event.mask.has inIsdir
      if isDir ∧ event.mask.has inCreate then .addWatch filePath
      else if isDir then .skip
      else if SkippedName (basename filePath) then .skip
      else
        let text :=
          -- a removed file cannot be examined, so that it counts as text
          if event.mask.has existingKinds then isText filePath else event.mask.has removedKinds
        if text ∧ event.mask.has (existingKinds ||| removedKinds) then .enqueue filePath
        else .skip

/-- Put a path into the queue unless it is there. -/
def enqueue (queue : List Text) (path : Text) : List Text :=
  if queue.contains path then queue else queue ++ [path]

/-- One iteration of the loop of `process_inotify_events` on the state; `addWatch` is
`add_inotify_watch_recursive`. -/
def handleEvent (isText : Text → Bool) (addWatch : Text → MonitorState → MonitorState)
    (state : MonitorState) (event : InotifyEvent) : MonitorState :=
  match eventEffect isText state.watchList event with
  | .skip => state
  | .addWatch path => addWatch path state
  | .enqueue path =>
      { state with changedFilesQueue := enqueue state.changedFilesQueue path }

/-- `process_inotify_events` on the events that `read` returned. -/
def processInotifyEvents (isText : Text → Bool) (addWatch : Text → MonitorState → MonitorState)
    (state : MonitorState) (events : List InotifyEvent) : MonitorState :=
  events.foldl (handleEvent isText addWatch) state

/-! ## `find_changed_files` -/

/-- `get_changed_files_from_queue`: the queue, and the state with the queue empty. -/
def getChangedFilesFromQueue (state : MonitorState) : List Text × MonitorState :=
  (state.changedFilesQueue, { state with changedFilesQueue := [] })

/-- The path of an entry after `strncpy`: a path that fills the buffer is followed by the bytes
that happen to lie behind it. -/
def storedPath (unset : Text → Text) (path : Text) : Text :=
  if path.length < maxPathLen - 1 then path
  else path.take (maxPathLen - 1) ++ unset path

/-- The entry of a path is brought up to date. The result tells whether it was outdated; without
an entry there is none. -/
def updateEntry (path : Text) (st : FileData) : List FileInfo → Option (Bool × List FileInfo)
  | [] => none
  | info :: files =>
      if info.path = path then
        some (info.mtime ≠ st.mtime ∨ info.size ≠ st.size ∨ ¬ info.exists,
          { info with mtime := st.mtime, size := st.size, «exists» := true } :: files)
      else (updateEntry path st files).map fun (changed, files) => (changed, info :: files)

/-- One iteration of the loop of `find_changed_files`: the table and the paths reported. `stat` is
what `stat` finds. -/
def checkFile (unset : Text → Text) (stat : Text → Option FileData) (path : Text)
    (files : List FileInfo) (changed : List Text) : List FileInfo × List Text :=
  match stat path with
  | none => (files, changed)
  | some st =>
    match updateEntry path st files with
    | some (modified, files) => (files, if modified then changed ++ [path] else changed)
    | none =>
        (files ++ [{ path := storedPath unset path, mtime := st.mtime, size := st.size,
                     «exists» := true }],
          changed ++ [path])

/-- The loop of `find_changed_files` over the array of files found; an indeterminate element
leaves the rest undefined. -/
def statChangedFiles (unset : Text → Text) (stat : Text → Option FileData) :
    List (Option Text) → List FileInfo → List Text → Option (List FileInfo × List Text)
  | [], files, changed => some (files, changed)
  | none :: _, _, _ => none
  | some path :: current, files, changed =>
      let (files, changed) := checkFile unset stat path files changed
      statChangedFiles unset stat current files changed

/-- `find_changed_files`: the paths reported and the state after it. `current` is what
`search_files_in_dir` returns. -/
def findChangedFiles (unset : Text → Text) (stat : Text → Option FileData)
    (current : List (Option Text)) (state : MonitorState) : Option (List Text × MonitorState) :=
  if 0 ≤ state.inotifyFd ∧ state.changedFilesQueue ≠ [] then
    some (getChangedFilesFromQueue state)
  else
    match statChangedFiles unset stat current state.files [] with
    | some (files, changed) => some (changed, { state with files })
    | none => none

/-! ## What the detectors report -/

theorem enqueue_of_mem {queue : List Text} {path : Text} (h : path ∈ queue) :
    enqueue queue path = queue := by
  simp [enqueue, h]

theorem enqueue_of_not_mem {queue : List Text} {path : Text} (h : path ∉ queue) :
    enqueue queue path = queue ++ [path] := by
  simp [enqueue, h]

theorem mem_enqueue {queue : List Text} {path q : Text} :
    q ∈ enqueue queue path ↔ q ∈ queue ∨ q = path := by
  rw [enqueue]
  split
  next hmem =>
    rw [List.contains_iff_mem] at hmem
    exact ⟨Or.inl, fun h => h.elim id fun heq => heq ▸ hmem⟩
  · simp

/-- A file event whose watch is known puts the path of the file into the queue if it is to be
reported. -/
theorem eventEffect_file {isText : Text → Bool} {watchList : List WatchInfo} {event : InotifyEvent}
    {watchDir : Text} (hwatch : getWatchPath watchList event.wd = some watchDir)
    (hname : event.name ≠ []) (hslash : '/' ∉ event.name)
    (hfits : (joinPath watchDir event.name).length < pathMax)
    (hfile : event.mask.has inIsdir = false) :
    eventEffect isText watchList event =
      if SkippedName event.name then .skip
      else if (if event.mask.has existingKinds then isText (joinPath watchDir event.name)
          else event.mask.has removedKinds) ∧ event.mask.has (existingKinds ||| removedKinds) then
        .enqueue (joinPath watchDir event.name)
      else .skip := by
  simp only [eventEffect, if_neg hname, hwatch, snprintf_of_fits hfits, hfile,
    basename_joinPath hslash]
  simp

/-- Only an event of a directory leads to a new watch. -/
theorem eventEffect_ne_addWatch {isText : Text → Bool} {watchList : List WatchInfo}
    {event : InotifyEvent} {path : Text} (hfile : event.mask.has inIsdir = false) :
    eventEffect isText watchList event ≠ .addWatch path := by
  unfold eventEffect
  split
  · simp
  · split
    · simp
    · simp only [hfile, Bool.false_eq_true, false_and, if_false]
      split
      · simp
      · generalize (if event.mask.has existingKinds = true then _ else _) = text
        by_cases htext : text = true ∧ event.mask.has (existingKinds ||| removedKinds) = true
        · simp [htext]
        · simp [htext]

/-- The table has an entry for the path with these values. -/
def UpToDate (files : List FileInfo) (path : Text) (st : FileData) : Prop :=
  ∃ info, files.find? (·.path = path) = some info ∧ info.mtime = st.mtime ∧
    info.size = st.size ∧ info.exists = true

theorem updateEntry_eq_none {path : Text} {st : FileData} {files : List FileInfo} :
    updateEntry path st files = none ↔ files.find? (·.path = path) = none := by
  induction files with
  | nil => simp [updateEntry]
  | cons info files ih =>
    by_cases hpath : info.path = path
    · simp [updateEntry, hpath]
    · rw [updateEntry, if_neg hpath, Option.map_eq_none_iff, ih]
      simp [hpath]

/-- An update keeps the entries of other paths, and its result tells whether the entry was
outdated. -/
theorem updateEntry_spec {path : Text} {st : FileData} {files files' : List FileInfo}
    {modified : Bool} (h : updateEntry path st files = some (modified, files')) :
    (modified = true ↔ ¬ UpToDate files path st) ∧ UpToDate files' path st ∧
      ∀ q ≠ path, files'.find? (·.path = q) = files.find? (·.path = q) := by
  induction files generalizing files' with
  | nil => simp [updateEntry] at h
  | cons info files ih =>
    by_cases hpath : info.path = path
    · simp only [updateEntry, if_pos hpath, Option.some.injEq, Prod.mk.injEq] at h
      obtain ⟨rfl, rfl⟩ := h
      refine ⟨?_, ⟨_, List.find?_cons_of_pos (by simpa using hpath), rfl, rfl, rfl⟩, ?_⟩
      · simp [UpToDate, hpath]
        tauto
      · intro q hq
        have hne : ¬ info.path = q := fun heq => hq (heq ▸ hpath)
        simp [hne]
    · rw [updateEntry, if_neg hpath, Option.map_eq_some_iff] at h
      obtain ⟨⟨m, files''⟩, hrec, heq⟩ := h
      simp only [Prod.mk.injEq] at heq
      obtain ⟨rfl, rfl⟩ := heq
      obtain ⟨hmod, hupto, hother⟩ := ih hrec
      -- the search goes past an entry with another path
      have hcons : ∀ fs : List FileInfo, (info :: fs).find? (·.path = path) =
          fs.find? (·.path = path) := fun fs => by simp [hpath]
      refine ⟨?_, ?_, fun q hq => ?_⟩
      · rw [hmod, UpToDate, UpToDate, hcons]
      · rw [UpToDate, hcons]
        exact hupto
      · simp only [List.find?_cons, hother q hq]

/-- A stored path is read back as the path of one file. -/
theorem storedPath_eq {unset : Text → Text} {p q : Text} (hp : p.length < pathMax)
    (hq : q.length < pathMax) (h : storedPath unset q = p) : q = p := by
  have hsize : maxPathLen = pathMax := rfl
  unfold storedPath at h
  split at h
  · exact h
  -- the stored text is as long as the buffer, so that nothing was behind it
  · have hfull : q.take (maxPathLen - 1) = q := List.take_of_length_le (by omega)
    rw [hfull] at h
    have hlen := congrArg List.length h
    rw [List.length_append] at hlen
    obtain hnil : unset q = [] := List.length_eq_zero_iff.mp (by omega)
    rw [← h, hnil, List.append_nil]

/-- One check reports its own file if that is outdated. -/
theorem mem_checkFile {unset : Text → Text} {stat : Text → Option FileData} {p q : Text}
    {files : List FileInfo} {changed : List Text} :
    p ∈ (checkFile unset stat q files changed).2 ↔
      p ∈ changed ∨ p = q ∧ ∃ st, stat q = some st ∧ ¬ UpToDate files q st := by
  unfold checkFile
  split
  next hnone => simp [hnone]
  next st hst =>
    split
    next modified files' hupdate =>
      have hmod := (updateEntry_spec hupdate).1
      simp only [hst, Option.some.injEq, exists_eq_left', ← hmod]
      by_cases hm : modified = true
      · simp [hm]
      · simp [hm]
    next hupdate =>
      have hout : ¬ UpToDate files q st := by
        rintro ⟨info, hinfo, -⟩
        simp [updateEntry_eq_none.mp hupdate] at hinfo
      simp [hst, hout]

/-- One check keeps what the table says about the other files. -/
theorem upToDate_checkFile {unset : Text → Text} {stat : Text → Option FileData} {p q : Text}
    {files : List FileInfo} {changed : List Text} {st : FileData} (hp : p.length < pathMax)
    (hq : q.length < pathMax) (hne : p ≠ q) :
    UpToDate (checkFile unset stat q files changed).1 p st ↔ UpToDate files p st := by
  unfold checkFile
  split
  · rfl
  · split
    next hupdate =>
      rw [UpToDate, UpToDate, (updateEntry_spec hupdate).2.2 p hne]
    · have hother : ¬ storedPath unset q = p := fun h => hne (storedPath_eq hp hq h).symm
      simp [UpToDate, List.find?_append, hother]

/-- One check leaves a current entry current. -/
theorem UpToDate.checkFile_self {unset : Text → Text} {stat : Text → Option FileData} {q : Text}
    {files : List FileInfo} {changed : List Text} {st : FileData} (h : UpToDate files q st)
    (hst : stat q = some st) : UpToDate (checkFile unset stat q files changed).1 q st := by
  unfold checkFile
  simp only [hst]
  split
  next hupdate => exact (updateEntry_spec hupdate).2.1
  next hupdate =>
    obtain ⟨info, hinfo, -⟩ := h
    simp [updateEntry_eq_none.mp hupdate] at hinfo

/-- The table detector is defined if the array has no indeterminate element. -/
theorem statChangedFiles_eq_none {unset : Text → Text} {stat : Text → Option FileData}
    {current : List (Option Text)} {files : List FileInfo} {changed : List Text} :
    statChangedFiles unset stat current files changed = none ↔ none ∈ current := by
  induction current generalizing files changed with
  | nil => simp [statChangedFiles]
  | cons slot current ih =>
    cases slot with
    | none => simp [statChangedFiles]
    | some q => simp [statChangedFiles, ih]

/-- The table detector reports the files found whose entry is missing or outdated. -/
theorem mem_statChangedFiles {unset : Text → Text} {stat : Text → Option FileData}
    {current : List (Option Text)} {files files' : List FileInfo} {changed changed' : List Text}
    (hfits : ∀ q, some q ∈ current → q.length < pathMax)
    (h : statChangedFiles unset stat current files changed = some (files', changed')) {p : Text} :
    p ∈ changed' ↔
      p ∈ changed ∨ some p ∈ current ∧ ∃ st, stat p = some st ∧ ¬ UpToDate files p st := by
  induction current generalizing files changed with
  | nil =>
    simp only [statChangedFiles, Option.some.injEq, Prod.mk.injEq] at h
    simp [h.2]
  | cons slot current ih =>
    cases slot with
    | none => simp [statChangedFiles] at h
    | some q =>
      have hrest : ∀ q, some q ∈ current → q.length < pathMax := fun q hq =>
        hfits q (List.mem_cons_of_mem _ hq)
      have h : statChangedFiles unset stat current (checkFile unset stat q files changed).1
          (checkFile unset stat q files changed).2 = some (files', changed') := h
      rw [ih hrest h, mem_checkFile]
      simp only [List.mem_cons, Option.some.injEq]
      by_cases hpq : p = q
      · subst hpq
        -- a file found again was brought up to date, or it is reported already
        by_cases hout : ∃ st, stat p = some st ∧ ¬ UpToDate files p st
        · simp [hout]
        · have hdone : ¬ ∃ st, stat p = some st ∧
              ¬ UpToDate (checkFile unset stat p files changed).1 p st := by
            rintro ⟨st, hst, hnot⟩
            exact hnot (UpToDate.checkFile_self (by_contra fun h => hout ⟨st, hst, h⟩) hst)
          simp [hout, hdone]
      · by_cases hp : some p ∈ current
        · have hkeep : ∀ st, UpToDate (checkFile unset stat q files changed).1 p st ↔
              UpToDate files p st := fun st =>
            upToDate_checkFile (hrest p hp) (hfits q (by simp)) hpq
          simp [hpq, hkeep]
        · simp [hpq, hp]

end MonitorDaemon
