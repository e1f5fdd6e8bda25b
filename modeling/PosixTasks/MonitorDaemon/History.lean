import PosixTasks.MonitorDaemon.Backup

/-!
# Histories of edits and samples

A run of the daemon from its full backup on: text files under the monitored directory are
edited, `process_inotify_events` reads the events, and samples are taken. The directories stay
as they are, and each of them is watched.

## Main results

* `handleEvent_file`: what the event of an edit does to the queue;
* `start_spec` and `daemonStep_sample`: what the full backup and a sample do to the state.
-/

namespace MonitorDaemon

open CString Transition

/-- The kinds of event of a file that is created or modified, or moved in. -/
def writtenKinds : List Mask := [inCreate, inModify, inCloseWrite, inMovedTo]

/-- The kinds of event of a file that is deleted, or moved out. -/
def deletedKinds : List Mask := [inDelete, inMovedFrom]

/-- An edit of the file `name` in the directory `dir`. -/
structure Edit where
  dir : Text
  name : Text
  /-- The file after the edit; `none` if it is deleted. -/
  data : Option FileData
  /-- The tree after the edit. -/
  tree : Listing
  /-- The watch of the directory. -/
  wd : ℤ
  /-- The kinds of the events that the edit raises. -/
  masks : List Mask

/-- The file that is edited. -/
def Edit.path (e : Edit) : Text :=
  joinPath e.dir e.name

/-- The events that the edit raises. -/
def Edit.events (e : Edit) : List InotifyEvent :=
  e.masks.map fun mask => { wd := e.wd, mask, name := e.name }

/-- The full backup or a sample. -/
structure Sample where
  /-- The time at which it was taken. -/
  now : ℕ
  /-- The content of the files when it was taken. -/
  content : Text → Option Text
  /-- The files backed up. -/
  reported : List Text

/-- The daemon, the monitored tree and the backup directory. -/
structure DaemonState where
  monitor : MonitorState
  /-- The tree under the monitored directory. -/
  tree : Listing
  backups : Backups
  /-- The events that the kernel has raised and `process_inotify_events` has not read. -/
  pending : List InotifyEvent
  /-- History: the files edited after the full backup and after the last sample that reported
  them. -/
  dirty : List Text
  /-- History: no file was edited after the full backup and the last sample. -/
  quiet : Bool
  /-- History: the full backup and the samples in order. -/
  history : List Sample

/-- What `stat` finds. -/
def DaemonState.stat (s : DaemonState) (path : Text) : Option FileData :=
  s.tree.fileAt s.monitor.monitoredDir path

inductive DaemonAction where
  | edit (e : Edit)
  /-- `process_inotify_events`, where `read` returns this number of events. -/
  | process (count : ℕ)
  /-- `current_sample` is incremented, and `create_incremental_backup` is called. -/
  | sample (now : ℕ) (unset : Text → Text)

/-- The two trees differ in no file but this one. -/
def SameElsewhere (root path : Text) (tree tree' : Listing) : Prop :=
  ∀ p ∈ (tree.files root ++ tree'.files root).map Prod.fst,
    p ≠ path → tree'.fileAt root p = tree.fileAt root p

instance (root path : Text) (tree tree' : Listing) :
    Decidable (SameElsewhere root path tree tree') :=
  inferInstanceAs (Decidable (∀ p ∈ (tree.files root ++ tree'.files root).map Prod.fst,
    p ≠ path → tree'.fileAt root p = tree.fileAt root p))

/-- The edit can be made: its directory is watched, the new tree has the edited file and is the
old one elsewhere, and the events are events of such an edit. -/
structure Edit.Possible (e : Edit) (root : Text) (watchList : List WatchInfo) (tree : Listing) :
    Prop where
  watched : getWatchPath watchList e.wd = some e.dir
  name_ne : e.name ≠ []
  name_slash : '/' ∉ e.name
  fits : e.path.length < pathMax
  events_ne : e.masks ≠ []
  kinds : ∀ mask ∈ e.masks, mask ∈ if e.data.isSome then writtenKinds else deletedKinds
  wellFormed : e.tree.WellFormed root
  edited : e.tree.fileAt root e.path = e.data
  same : SameElsewhere root e.path tree e.tree

instance (e : Edit) (root : Text) (watchList : List WatchInfo) (tree : Listing) :
    Decidable (e.Possible root watchList tree) :=
  have : Decidable
      (∀ mask ∈ e.masks, mask ∈ if e.data.isSome then writtenKinds else deletedKinds) :=
    List.decidableBAll _ e.masks
  decidable_of_iff (getWatchPath watchList e.wd = some e.dir ∧ e.name ≠ [] ∧ '/' ∉ e.name ∧
      e.path.length < pathMax ∧ e.masks ≠ [] ∧
      (∀ mask ∈ e.masks, mask ∈ if e.data.isSome then writtenKinds else deletedKinds) ∧
      e.tree.WellFormed root ∧ e.tree.fileAt root e.path = e.data ∧
      SameElsewhere root e.path tree e.tree)
    ⟨fun ⟨h₁, h₂, h₃, h₄, h₅, h₆, h₇, h₈, h₉⟩ => ⟨h₁, h₂, h₃, h₄, h₅, h₆, h₇, h₈, h₉⟩,
      fun ⟨h₁, h₂, h₃, h₄, h₅, h₆, h₇, h₈, h₉⟩ => ⟨h₁, h₂, h₃, h₄, h₅, h₆, h₇, h₈, h₉⟩⟩

section

variable (tools : Tools)

/-- `is_text_file`. -/
def DaemonState.isText (s : DaemonState) (path : Text) : Bool :=
  match s.stat path with
  | some data => isTextFile tools.magicFile data.content
  | none => false

/-- What `search_files_in_dir` returns for the monitored directory. -/
def DaemonState.found (s : DaemonState) : List (Option Text) :=
  searchFilesInDir (isTextFile tools.magicFile) s.monitor.monitoredDir s.tree

/-- The daemon before its full backup. -/
def DaemonState.init (monitor : MonitorState) (tree : Listing) : DaemonState :=
  { monitor, tree, backups := fun _ => none, pending := [], dirty := [], quiet := true,
    history := [] }

/-- `create_full_backup`, with the backup directory empty. -/
def DaemonState.fullBackup (s : DaemonState) : Option DaemonState :=
  match createFullBackup s.stat (s.found tools) s.monitor s.backups with
  | none => none
  | some (monitor, backups) =>
      some { s with
        monitor, backups
        history := [{ now := 0, content := contentAt s.stat,
                      reported := backedUp ((filesFound (s.found tools)).getD []) }] }

/-- One step; `addWatch` is `add_inotify_watch_recursive`. -/
def daemonStep (addWatch : Text → MonitorState → MonitorState) (s : DaemonState) :
    DaemonAction → Option DaemonState
  | .edit e =>
      if e.Possible s.monitor.monitoredDir s.monitor.watchList s.tree then
        some { s with
          tree := e.tree
          pending := s.pending ++ e.events
          dirty := e.path :: s.dirty
          quiet := false }
      else none
  | .process count =>
      some { s with
        monitor := processInotifyEvents (s.isText tools) addWatch s.monitor
          (s.pending.take count)
        pending := s.pending.drop count }
  | .sample now unset =>
      if s.pending = [] then
        let monitor := { s.monitor with currentSample := s.monitor.currentSample + 1 }
        match createIncrementalBackup s.stat tools unset (s.found tools) now monitor s.backups with
        | none => none
        | some (changed, monitor, backups) =>
            some { s with
              monitor, backups
              dirty := s.dirty.filter fun path => ! changed.contains path
              quiet := true
              history := s.history ++ [{ now, content := contentAt s.stat,
                                         reported := backedUp changed }] }
      else none

end

/-- The start of a run: the daemon after its full backup. -/
def DaemonState.start (tools : Tools) (monitoredDir : Text) (monitoredPid : ℤ) (inotifyFd : ℕ)
    (watchList : List WatchInfo) (tree : Listing) : Option DaemonState :=
  if tree.WellFormed monitoredDir then
    (DaemonState.init (.fresh monitoredDir monitoredPid inotifyFd watchList) tree).fullBackup tools
  else none

/-! ## One step at a time -/

section

variable {tools : Tools} {addWatch : Text → MonitorState → MonitorState}
  {s s' : DaemonState}

/-- Trees that differ in one file find the same elsewhere. -/
theorem SameElsewhere.fileAt_eq {root path p : Text} {tree tree' : Listing}
    (h : SameElsewhere root path tree tree') (hp : p ≠ path) :
    tree'.fileAt root p = tree.fileAt root p := by
  have hnone : ∀ l : List (Text × FileData), p ∉ l.map Prod.fst → l.lookup p = none := by
    intro l hmem
    rw [List.lookup_eq_none_iff]
    intro x hx
    simpa using fun heq : p = x.1 => hmem (heq ▸ List.mem_map_of_mem hx)
  by_cases hmem : p ∈ (tree.files root ++ tree'.files root).map Prod.fst
  · exact h p hmem hp
  · rw [List.map_append, List.mem_append, not_or] at hmem
    rw [Listing.fileAt, Listing.fileAt, hnone _ hmem.1, hnone _ hmem.2]

/-- No event of an edit is one of a directory. -/
theorem has_inIsdir_of_edit {mask : Mask} (h : mask ∈ writtenKinds ∨ mask ∈ deletedKinds) :
    mask.has inIsdir = false := by
  simp only [writtenKinds, deletedKinds, List.mem_cons, List.not_mem_nil, or_false] at h
  rcases h with (h | h | h | h) | (h | h) <;> rw [h] <;> decide

/-- The event of an edit puts the file into the queue if it is a text file now and its name is
not skipped. -/
theorem handleEvent_file {isText : Text → Bool} {monitor : MonitorState} {event : InotifyEvent}
    {dir : Text} (hwatch : getWatchPath monitor.watchList event.wd = some dir)
    (hname : event.name ≠ []) (hslash : '/' ∉ event.name)
    (hfits : (joinPath dir event.name).length < pathMax) (hkind : event.mask ∈ writtenKinds) :
    handleEvent isText addWatch monitor event =
      if ¬ SkippedName event.name ∧ isText (joinPath dir event.name) then
        { monitor with
          changedFilesQueue := enqueue monitor.changedFilesQueue (joinPath dir event.name) }
      else monitor := by
  have hfile : event.mask.has inIsdir = false := has_inIsdir_of_edit (Or.inl hkind)
  have hmask : event.mask.has existingKinds = true ∧
      event.mask.has (existingKinds ||| removedKinds) = true := by
    simp only [writtenKinds, List.mem_cons, List.not_mem_nil, or_false] at hkind
    rcases hkind with h | h | h | h <;> rw [h] <;> decide
  obtain ⟨hexisting, hkinds⟩ := hmask
  rw [handleEvent, eventEffect_file hwatch hname hslash hfits hfile]
  by_cases hskip : SkippedName event.name
  · simp [hskip]
  · by_cases htext : isText (joinPath dir event.name) = true
    · simp [hskip, htext, hexisting, hkinds]
    · simp [hskip, htext, hexisting]

/-- The states in which a run can start. -/
theorem start_spec {monitoredDir : Text} {pid : ℤ} {fd : ℕ} {watchList : List WatchInfo}
    {tree : Listing} (h : DaemonState.start tools monitoredDir pid fd watchList tree = some s) :
    tree.WellFormed monitoredDir ∧ ∃ found done,
      filesFound (searchFilesInDir (isTextFile tools.magicFile) monitoredDir tree) = some found ∧
      s = { DaemonState.init { MonitorState.fresh monitoredDir pid fd watchList with
              firstBackupDone := done } tree with
            backups := fullBackupLoop (tree.fileAt monitoredDir) monitoredDir found fun _ => none
            history := [{ now := 0, content := contentAt (tree.fileAt monitoredDir),
                          reported := backedUp found }] } := by
  unfold DaemonState.start at h
  split at h
  next hwf =>
    refine ⟨hwf, ?_⟩
    simp only [DaemonState.fullBackup] at h
    split at h
    · simp at h
    next monitor backups hfull =>
      obtain ⟨found, done, hfound, hmonitor, hbackups⟩ := createFullBackup_spec hfull
      simp only [Option.some.injEq] at h
      refine ⟨found, done, hfound, ?_⟩
      rw [← h, hmonitor, hbackups, hfound]
      rfl
  · simp at h

/-- Neither detector changes more than the queue and the table, and both leave the queue empty. -/
theorem findChangedFiles_frame {unset : Text → Text} {stat : Text → Option FileData}
    {current : List (Option Text)} {monitor monitor' : MonitorState} {changed : List Text}
    (hfd : 0 ≤ monitor.inotifyFd)
    (h : findChangedFiles unset stat current monitor = some (changed, monitor')) :
    monitor' = { monitor with files := monitor'.files, changedFilesQueue := [] } ∧
      (monitor.changedFilesQueue ≠ [] → changed = monitor.changedFilesQueue) := by
  unfold findChangedFiles at h
  split at h
  next hqueue =>
    simp only [getChangedFilesFromQueue, Option.some.injEq, Prod.mk.injEq] at h
    obtain ⟨rfl, rfl⟩ := h
    exact ⟨rfl, fun _ => rfl⟩
  next hqueue =>
    have hempty : monitor.changedFilesQueue = [] := by
      by_contra hne
      exact hqueue ⟨hfd, hne⟩
    split at h
    next files changed' _ =>
      simp only [Option.some.injEq, Prod.mk.injEq] at h
      obtain ⟨rfl, rfl⟩ := h
      exact ⟨by rw [← hempty], fun hne => absurd hempty hne⟩
    · simp at h

/-- What a sample does to the state. -/
theorem daemonStep_sample {now : ℕ} {unset : Text → Text} (hfd : 0 ≤ s.monitor.inotifyFd)
    (h : daemonStep tools addWatch s (.sample now unset) = some s') :
    ∃ changed files, s.pending = [] ∧
      findChangedFiles unset s.stat (s.found tools)
          { s.monitor with currentSample := s.monitor.currentSample + 1 } =
        some (changed, s'.monitor) ∧
      s' = { s with
        monitor := { s.monitor with
          currentSample := s.monitor.currentSample + 1
          files := files
          changedFilesQueue := [] }
        backups := incrementalBackupLoop s.stat tools s.monitor.monitoredDir now
          (s.monitor.currentSample + 1) changed s.backups
        dirty := s.dirty.filter fun path => ! changed.contains path
        quiet := true
        history := s.history ++ [{ now, content := contentAt s.stat,
                                   reported := backedUp changed }] } := by
  simp only [daemonStep] at h
  split at h
  next hpending =>
    simp only [createIncrementalBackup] at h
    cases hfind : findChangedFiles unset s.stat (s.found tools)
        { s.monitor with currentSample := s.monitor.currentSample + 1 } with
    | none => simp [hfind] at h
    | some result =>
      obtain ⟨changed, monitor⟩ := result
      obtain ⟨hmonitor, -⟩ := findChangedFiles_frame (by exact hfd) hfind
      simp only [hfind, Option.some.injEq] at h
      subst h
      refine ⟨changed, monitor.files, hpending, rfl, ?_⟩
      rw [hmonitor]
  · simp at h

end

/-! ## For examples -/

/-- A file of one line. -/
def redLine : Text := ['r', 'e', 'd', '\n']

/-- Another one. -/
def blueLine : Text := ['b', 'l', 'u', 'e', '\n']

/-- No directory is created. -/
def noWatch (_ : Text) (monitor : MonitorState) : MonitorState :=
  monitor

end MonitorDaemon
