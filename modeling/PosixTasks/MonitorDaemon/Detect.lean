import PosixTasks.MonitorDaemon.History
import PosixTasks.MonitorDaemon.UnifiedDiff

/-!
# Which changes a sample reports

A sample reports the paths in `changed_files_queue`; where the queue is empty, it reports the
files that differ from the table `state->files`. The full backup and the samples that report the
queue leave the table as it is.

## Main results

* `tracking_step`: the queue, the pending events and the files edited belong together;
* `reportsExactly_iff_of_run`: every sample reports exactly the text files edited since they were
  last backed up if and only if, at each sample, either the queue is not empty and it misses no
  edited file whose name the daemon skips, or the table is outdated for exactly those files;
* `reported_first_scan`: the first sample that uses the table reports every file found.
-/

namespace MonitorDaemon

open CString Transition

section

variable (tools : Tools)

/-- A text file that was edited, and whose name `process_inotify_events` skips. -/
def DaemonState.Overlooked (s : DaemonState) (path : Text) : Prop :=
  s.isText tools path = true ∧ path ∈ s.dirty ∧ SkippedName (basename path)

/-- A file found that has no entry with its `st_mtime` and `st_size` in the table. -/
def DaemonState.Outdated (s : DaemonState) (path : Text) : Prop :=
  some path ∈ s.found tools ∧
    ∃ st, s.stat path = some st ∧ ¬ UpToDate s.monitor.files path st

/-- The detector that the sample uses sees what was edited: the queue holds all that was edited,
or it is empty and the table is outdated for exactly the files that never enter the queue. -/
def DaemonState.DetectorAgrees (s : DaemonState) : Prop :=
  if s.monitor.changedFilesQueue = [] then
    none ∉ s.found tools ∧ ∀ path, s.Outdated tools path ↔ s.Overlooked tools path
  else ∀ path, ¬ s.Overlooked tools path

/-- What `find_changed_files` reports in a sample. -/
def DaemonState.reported (s : DaemonState) (unset : Text → Text) : Option (List Text) :=
  (findChangedFiles unset s.stat (s.found tools)
    { s.monitor with currentSample := s.monitor.currentSample + 1 }).map Prod.fst

/-- The sample reports a text file exactly if it was edited after the full backup and the last
sample that reported it, and it reports nothing if no file was edited after the full backup and
the last sample. -/
def DaemonState.ReportsExactly (s : DaemonState) (unset : Text → Text) : Prop :=
  ∃ changed, s.reported tools unset = some changed ∧
    (∀ path, s.isText tools path = true → (path ∈ changed ↔ path ∈ s.dirty)) ∧
    (s.quiet = true → changed = [])

/-- If the step is a sample, it reports exactly what was edited. -/
def SampleExact (s : DaemonState) : DaemonAction → Prop
  | .sample _ unset => s.ReportsExactly tools unset
  | _ => True

/-- If the step is a sample, its detector agrees with the edits. -/
def SampleAgrees (s : DaemonState) : DaemonAction → Prop
  | .sample _ _ => s.DetectorAgrees tools
  | _ => True

/-- If the step is a sample, it does not use the table. -/
def SampleQueued (s : DaemonState) : DaemonAction → Prop
  | .sample _ _ => s.monitor.changedFilesQueue ≠ []
  | _ => True

/-- The step deletes no file. -/
def KeepsFiles (_ : DaemonState) : DaemonAction → Prop
  | .edit e => e.data.isSome = true
  | _ => True

instance (s : DaemonState) (a : DaemonAction) : Decidable (KeepsFiles s a) :=
  match a with
  | .edit e => inferInstanceAs (Decidable (e.data.isSome = true))
  | .process _ | .sample _ _ => isTrue trivial

end

/-! ## Queue, events and edits -/

/-- The event is one of an edit of the file `path`. -/
structure EventOf (watchList : List WatchInfo) (event : InotifyEvent) (path : Text) : Prop where
  name_ne : event.name ≠ []
  name_slash : '/' ∉ event.name
  fits : path.length < pathMax
  kind : event.mask ∈ writtenKinds
  watched : ∃ dir, getWatchPath watchList event.wd = some dir ∧ path = joinPath dir event.name

/-- What is queued or pending was edited, and what was edited is queued or pending. -/
structure Tracking (tools : Tools) (s : DaemonState) : Prop where
  wellFormed : s.tree.WellFormed s.monitor.monitoredDir
  fd : 0 ≤ s.monitor.inotifyFd
  queued : ∀ path ∈ s.monitor.changedFilesQueue,
    path ∈ s.dirty ∧ ¬ SkippedName (basename path)
  raised : ∀ event ∈ s.pending, ∃ path ∈ s.dirty, EventOf s.monitor.watchList event path
  noticed : ∀ path ∈ s.dirty, s.isText tools path = true → ¬ SkippedName (basename path) →
    path ∈ s.monitor.changedFilesQueue ∨
      ∃ event ∈ s.pending, EventOf s.monitor.watchList event path

section

variable {tools : Tools} {addWatch : Text → MonitorState → MonitorState}
  {s s' : DaemonState}

/-- Two files with the same event are one. -/
theorem EventOf.unique {watchList : List WatchInfo} {event : InotifyEvent} {path path' : Text}
    (h : EventOf watchList event path) (h' : EventOf watchList event path') : path = path' := by
  obtain ⟨dir, hdir, rfl⟩ := h.watched
  obtain ⟨dir', hdir', rfl⟩ := h'.watched
  rw [Option.some.inj (hdir.symm.trans hdir')]

/-- The events of edits put into the queue the files that are text files now, unless their names
are skipped, and change nothing else. -/
theorem processInotifyEvents_files (isText : Text → Bool)
    (addWatch : Text → MonitorState → MonitorState) {events : List InotifyEvent}
    {monitor : MonitorState}
    (h : ∀ event ∈ events, ∃ path, EventOf monitor.watchList event path) :
    ∃ queue, processInotifyEvents isText addWatch monitor events =
        { monitor with changedFilesQueue := queue } ∧
      ∀ path, path ∈ queue ↔ path ∈ monitor.changedFilesQueue ∨
        (∃ event ∈ events, EventOf monitor.watchList event path) ∧
          isText path = true ∧ ¬ SkippedName (basename path) := by
  induction events generalizing monitor with
  | nil => exact ⟨monitor.changedFilesQueue, rfl, fun path => by simp⟩
  | cons event events ih =>
    obtain ⟨file, hfile⟩ := h event List.mem_cons_self
    obtain ⟨dir, hdir, rfl⟩ := hfile.watched
    have hbase : basename (joinPath dir event.name) = event.name :=
      basename_joinPath hfile.name_slash
    -- the file of an event is known from the list of watches
    have hself : ∀ path, EventOf monitor.watchList event path ↔
        path = joinPath dir event.name :=
      fun path => ⟨fun hpath => hpath.unique hfile, fun heq => heq ▸ hfile⟩
    rw [processInotifyEvents, List.foldl_cons, handleEvent_file hdir hfile.name_ne
      hfile.name_slash hfile.fits hfile.kind]
    split
    next hadd =>
      obtain ⟨queue, hmonitor, hqueue⟩ := @ih { monitor with
        changedFilesQueue := enqueue monitor.changedFilesQueue (joinPath dir event.name) }
        fun e he => h e (List.mem_cons_of_mem _ he)
      refine ⟨queue, hmonitor, fun path => ?_⟩
      rw [hqueue, mem_enqueue]
      simp only [List.exists_mem_cons_iff, hself]
      -- the file of this event, and the other files
      by_cases hpath : path = joinPath dir event.name
      · subst hpath
        simp [hbase, hadd]
      · simp [hpath]
    next hskip =>
      obtain ⟨queue, hmonitor, hqueue⟩ := ih fun e he => h e (List.mem_cons_of_mem _ he)
      refine ⟨queue, hmonitor, fun path => ?_⟩
      rw [hqueue]
      simp only [List.exists_mem_cons_iff, hself]
      by_cases hpath : path = joinPath dir event.name
      · subst hpath
        rw [hbase]
        tauto
      · simp [hpath]

/-- The events of an edit are events of the edited file. -/
theorem Edit.eventOf {e : Edit} {root : Text} {watchList : List WatchInfo} {tree : Listing}
    (h : e.Possible root watchList tree) (hdata : e.data.isSome = true) :
    ∀ event ∈ e.events, EventOf watchList event e.path := by
  intro event hevent
  obtain ⟨mask, hmask, rfl⟩ := List.mem_map.mp hevent
  exact {
    name_ne := h.name_ne
    name_slash := h.name_slash
    fits := h.fits
    kind := by simpa [hdata] using h.kinds mask hmask
    watched := ⟨e.dir, h.watched, rfl⟩ }

theorem tracking_edit {e : Edit} (hs : Tracking tools s) (hdata : e.data.isSome = true)
    (h : daemonStep tools addWatch s (.edit e) = some s') : Tracking tools s' := by
  simp only [daemonStep] at h
  split at h <;> simp only [Option.some.injEq, reduceCtorEq] at h
  next hedit =>
    subst h
    have hevents := Edit.eventOf hedit hdata
    refine ⟨hedit.wellFormed, hs.fd, ?_, ?_, ?_⟩
    · intro path hpath
      obtain ⟨hdirty, hskip⟩ := hs.queued path hpath
      exact ⟨List.mem_cons_of_mem _ hdirty, hskip⟩
    · intro event hevent
      rcases List.mem_append.mp hevent with hevent | hevent
      · obtain ⟨path, hdirty, hof⟩ := hs.raised event hevent
        exact ⟨path, List.mem_cons_of_mem _ hdirty, hof⟩
      · exact ⟨e.path, List.mem_cons_self, hevents event hevent⟩
    · intro path hdirty htext hskip
      by_cases hpath : path = e.path
      · -- the edit has raised an event of its file
        obtain ⟨mask, masks, hmasks⟩ := List.exists_cons_of_ne_nil hedit.events_ne
        have hevent : ({ wd := e.wd, mask, name := e.name } : InotifyEvent) ∈ e.events := by
          simp [Edit.events, hmasks]
        exact Or.inr ⟨_, List.mem_append_right _ hevent, hpath ▸ hevents _ hevent⟩
      · -- another file is as it was
        have hsame : s.isText tools path = true := by
          have hstat : e.tree.fileAt s.monitor.monitoredDir path = s.stat path :=
            hedit.same.fileAt_eq hpath
          rw [← htext, DaemonState.isText, DaemonState.isText, ← hstat]
          rfl
        have hdirty : path ∈ s.dirty := (List.mem_cons.mp hdirty).resolve_left hpath
        rcases hs.noticed path hdirty hsame hskip with hqueue | ⟨event, hevent, hof⟩
        · exact Or.inl hqueue
        · exact Or.inr ⟨event, List.mem_append_left _ hevent, hof⟩

theorem tracking_process {count : ℕ} (hs : Tracking tools s)
    (h : daemonStep tools addWatch s (.process count) = some s') : Tracking tools s' := by
  simp only [daemonStep, Option.some.injEq] at h
  have hfiles : ∀ event ∈ s.pending.take count,
      ∃ path, EventOf s.monitor.watchList event path := fun event hevent => by
    obtain ⟨path, -, hof⟩ := hs.raised event (List.mem_of_mem_take hevent)
    exact ⟨path, hof⟩
  obtain ⟨queue, hmonitor, hqueue⟩ := processInotifyEvents_files (s.isText tools) addWatch hfiles
  rw [hmonitor] at h
  subst h
  refine ⟨hs.wellFormed, hs.fd, ?_, ?_, ?_⟩
  · intro path hpath
    rcases (hqueue path).mp hpath with hpath | ⟨⟨event, hevent, hof⟩, -, hskip⟩
    · exact hs.queued path hpath
    · obtain ⟨path', hdirty, hof'⟩ := hs.raised event (List.mem_of_mem_take hevent)
      exact ⟨hof.unique hof' ▸ hdirty, hskip⟩
  · exact fun event hevent => hs.raised event (List.mem_of_mem_drop hevent)
  · intro path hdirty htext hskip
    rcases hs.noticed path hdirty htext hskip with hpath | ⟨event, hevent, hof⟩
    · exact Or.inl ((hqueue path).mpr (Or.inl hpath))
    · -- the event is read now, or it stays pending
      rw [← List.take_append_drop count s.pending, List.mem_append] at hevent
      rcases hevent with hevent | hevent
      · exact Or.inl ((hqueue path).mpr (Or.inr ⟨⟨event, hevent, hof⟩, htext, hskip⟩))
      · exact Or.inr ⟨event, hevent, hof⟩

theorem tracking_sample {now : ℕ} {unset : Text → Text} (hs : Tracking tools s)
    (h : daemonStep tools addWatch s (.sample now unset) = some s') : Tracking tools s' := by
  obtain ⟨changed, files, hpending, hfind, hs'⟩ := daemonStep_sample hs.fd h
  have hqueue := (findChangedFiles_frame (by exact hs.fd) hfind).2
  subst hs'
  refine ⟨hs.wellFormed, hs.fd, by simp, by simp [hpending], ?_⟩
  intro path hdirty htext hskip
  -- nothing is pending, so an edited text file was in the queue, and all of that was reported
  obtain ⟨hdirty, hnot⟩ := List.mem_filter.mp hdirty
  rcases hs.noticed path hdirty htext hskip with hmem | ⟨event, hevent, -⟩
  · rw [hqueue (List.ne_nil_of_mem hmem)] at hnot
    simp [hmem] at hnot
  · simp [hpending] at hevent

theorem tracking_step {a : DaemonAction} (hs : Tracking tools s) (hkeep : KeepsFiles s a)
    (h : daemonStep tools addWatch s a = some s') : Tracking tools s' := by
  cases a with
  | edit e => exact tracking_edit hs hkeep h
  | process count => exact tracking_process hs h
  | sample now unset => exact tracking_sample hs h

/-- Before the first edit there is nothing to track. -/
theorem tracking_start {monitoredDir : Text} {pid : ℤ} {fd : ℕ} {watchList : List WatchInfo}
    {tree : Listing} (h : DaemonState.start tools monitoredDir pid fd watchList tree = some s) :
    Tracking tools s := by
  obtain ⟨hwf, found, done, -, rfl⟩ := start_spec h
  exact {
    wellFormed := hwf
    fd := Int.natCast_nonneg fd
    queued := by simp [DaemonState.init, MonitorState.fresh]
    raised := by simp [DaemonState.init]
    noticed := by simp [DaemonState.init] }

/-! ## One sample -/

/-- Once a sample has reported exactly what was edited, no edited text file is left. -/
def Settled (tools : Tools) (s : DaemonState) : Prop :=
  s.quiet = true → s.monitor.changedFilesQueue = [] ∧ s.pending = [] ∧
    ∀ path ∈ s.dirty, s.isText tools path = false

/-- In a sample that uses the table, the table detector reports the outdated files. -/
theorem reported_of_empty (unset : Text → Text) (hs : Tracking tools s)
    (hqueue : s.monitor.changedFilesQueue = []) :
    (s.reported tools unset = none ↔ none ∈ s.found tools) ∧
      ∀ changed, s.reported tools unset = some changed →
        ∀ path, path ∈ changed ↔ s.Outdated tools path := by
  -- the kernel resolves every path that was found
  have hfits : ∀ path, some path ∈ s.found tools → path.length < pathMax := by
    intro path hpath
    obtain ⟨-, data, hdata, -⟩ := mem_searchFilesInDir hs.wellFormed hpath
    exact Listing.length_lt_of_fileAt hs.wellFormed hdata
  simp only [DaemonState.reported, findChangedFiles, hqueue, ne_eq, not_true_eq_false, and_false,
    if_false]
  cases hstat : statChangedFiles unset s.stat (s.found tools) s.monitor.files [] with
  | none =>
    have hnone : none ∈ s.found tools := statChangedFiles_eq_none.mp hstat
    simp [hnone]
  | some result =>
    obtain ⟨files, changed⟩ := result
    have hsome : none ∉ s.found tools := fun hnone => by
      simp [statChangedFiles_eq_none.mpr hnone] at hstat
    refine ⟨by simp [hsome], ?_⟩
    intro changed' heq path
    obtain rfl : changed = changed' := by simpa using heq
    rw [mem_statChangedFiles hfits hstat]
    simp [DaemonState.Outdated]

/-- An outdated file is a text file. -/
theorem DaemonState.Outdated.isText {path : Text} (hs : Tracking tools s)
    (h : s.Outdated tools path) : s.isText tools path = true := by
  obtain ⟨hfound, -⟩ := h
  obtain ⟨-, data, hdata, htext⟩ := mem_searchFilesInDir hs.wellFormed hfound
  have hstat : s.stat path = some data := hdata
  simp [DaemonState.isText, hstat, htext]

/-- A sample with all events processed reports exactly what was edited if and only if its
detector agrees with the edits. -/
theorem reportsExactly_iff {unset : Text → Text} (hs : Tracking tools s)
    (hsettled : Settled tools s) (hpending : s.pending = []) :
    s.ReportsExactly tools unset ↔ s.DetectorAgrees tools := by
  -- with no event pending, an edited text file is queued unless its name is skipped
  have hnoticed : ∀ path ∈ s.dirty, s.isText tools path = true →
      ¬ SkippedName (basename path) → path ∈ s.monitor.changedFilesQueue := by
    intro path hdirty htext hskip
    rcases hs.noticed path hdirty htext hskip with hmem | ⟨event, hevent, -⟩
    · exact hmem
    · simp [hpending] at hevent
  by_cases hqueue : s.monitor.changedFilesQueue = []
  · obtain ⟨hnone, hmem⟩ := reported_of_empty unset hs hqueue
    have hover : ∀ path, s.Overlooked tools path ↔
        s.isText tools path = true ∧ path ∈ s.dirty := by
      intro path
      refine ⟨fun h => ⟨h.1, h.2.1⟩, fun ⟨htext, hdirty⟩ => ⟨htext, hdirty, ?_⟩⟩
      by_contra hskip
      have := hnoticed path hdirty htext hskip
      simp [hqueue] at this
    rw [DaemonState.DetectorAgrees, if_pos hqueue]
    constructor
    · rintro ⟨changed, hreported, hexact, -⟩
      refine ⟨fun h => by simp [hnone.mpr h] at hreported, fun path => ?_⟩
      rw [hover, ← hmem changed hreported]
      constructor
      · intro hpath
        have htext := DaemonState.Outdated.isText hs ((hmem changed hreported path).mp hpath)
        exact ⟨htext, (hexact path htext).mp hpath⟩
      · rintro ⟨htext, hdirty⟩
        exact (hexact path htext).mpr hdirty
    · rintro ⟨hdefined, hagree⟩
      obtain ⟨changed, hreported⟩ := Option.ne_none_iff_exists'.mp (mt hnone.mp hdefined)
      refine ⟨changed, hreported, fun path htext => ?_, fun hquiet => ?_⟩
      · rw [hmem changed hreported, hagree, hover]
        simp [htext]
      · apply List.eq_nil_iff_forall_not_mem.mpr
        intro path hpath
        rw [hmem changed hreported, hagree, hover] at hpath
        rw [(hsettled hquiet).2.2 path hpath.2] at hpath
        simp at hpath
  · -- the queue is handed over
    have hreported : s.reported tools unset = some s.monitor.changedFilesQueue := by
      simp [DaemonState.reported, findChangedFiles, getChangedFilesFromQueue, hs.fd, hqueue]
    rw [DaemonState.DetectorAgrees, if_neg hqueue]
    constructor
    · rintro ⟨changed, hchanged, hexact, -⟩ path ⟨htext, hdirty, hskip⟩
      obtain rfl : s.monitor.changedFilesQueue = changed :=
        Option.some.inj (hreported.symm.trans hchanged)
      exact (hs.queued path ((hexact path htext).mpr hdirty)).2 hskip
    · intro hover
      refine ⟨_, hreported, fun path htext => ⟨fun hmem => (hs.queued path hmem).1,
        fun hdirty => ?_⟩, fun hquiet => absurd (hsettled hquiet).1 hqueue⟩
      exact hnoticed path hdirty htext fun hskip => hover path ⟨htext, hdirty, hskip⟩

/-! ## All samples of a run -/

/-- After a sample that reports exactly what was edited nothing is left, until the next edit. -/
theorem settled_step {a : DaemonAction} (hs : Tracking tools s) (hsettled : Settled tools s)
    (hexact : SampleExact tools s a) (h : daemonStep tools addWatch s a = some s') :
    Settled tools s' := by
  intro hquiet
  cases a with
  | edit e =>
    simp only [daemonStep] at h
    split at h <;> simp only [Option.some.injEq, reduceCtorEq] at h
    subst h
    simp at hquiet
  | process count =>
    simp only [daemonStep, Option.some.injEq] at h
    subst h
    obtain ⟨hqueue, hpending, hdirty⟩ := hsettled hquiet
    have hnothing : processInotifyEvents (s.isText tools) addWatch s.monitor
        (s.pending.take count) = s.monitor := by
      rw [hpending, List.take_nil]
      rfl
    rw [hnothing, hpending, List.drop_nil]
    exact ⟨hqueue, rfl, hdirty⟩
  | sample now unset =>
    obtain ⟨changed, files, hpending, hfind, hs'⟩ := daemonStep_sample hs.fd h
    obtain ⟨changed', hreported, hreports, -⟩ := hexact
    obtain rfl : changed = changed' := by
      simpa [DaemonState.reported, hfind] using hreported
    subst hs'
    refine ⟨rfl, hpending, fun path hpath => ?_⟩
    obtain ⟨hdirty, hnot⟩ := List.mem_filter.mp hpath
    -- an edited text file would have been reported
    by_contra htext
    have htext : s.isText tools path = true := eq_true_of_ne_false htext
    have hmem : path ∈ changed := (hreports path htext).mpr hdirty
    simp [hmem] at hnot

/-- As long as the samples report exactly what was edited, their detectors agree with the edits,
and the other way round. -/
theorem samplesExact_iff_of_run {tr : List (DaemonState × DaemonAction)} {s₀ : DaemonState}
    (htracking : Tracking tools s₀) (hsettled : Settled tools s₀)
    (h : Run (daemonStep tools addWatch) s₀ tr s) (hkeep : StepsMeet KeepsFiles tr) :
    Tracking tools s ∧ (StepsMeet (SampleExact tools) tr ↔ StepsMeet (SampleAgrees tools) tr) ∧
      (StepsMeet (SampleExact tools) tr → Settled tools s) := by
  induction h with
  | nil => exact ⟨htracking, by simp, fun _ => hsettled⟩
  | @snoc tr t u a _ hstep ih =>
    rw [stepsMeet_snoc] at hkeep
    obtain ⟨ht, hiff, hquiet⟩ := ih hkeep.1
    refine ⟨tracking_step ht hkeep.2 hstep, ?_, ?_⟩
    · rw [stepsMeet_snoc, stepsMeet_snoc, ← hiff]
      -- up to here every sample was exact, so that the table is settled
      refine and_congr_right fun hexact => ?_
      cases a with
      | edit e => exact Iff.rfl
      | process count => exact Iff.rfl
      | sample now unset =>
        obtain ⟨-, -, hpending, -⟩ := daemonStep_sample ht.fd hstep
        exact reportsExactly_iff ht (hquiet hexact) hpending
    · rw [stepsMeet_snoc]
      rintro ⟨hexact, hlast⟩
      exact settled_step ht (hquiet hexact) hlast hstep

/-- In a run from the full backup that deletes no file, with all events processed before each
sample: all samples taken so far and the next one report exactly what was edited if and only if
the detectors that they use agree with the edits. -/
theorem reportsExactly_iff_of_run {monitoredDir : Text} {pid : ℤ} {fd : ℕ}
    {watchList : List WatchInfo} {tree : Listing} {s₀ : DaemonState}
    {tr : List (DaemonState × DaemonAction)} {unset : Text → Text}
    (hstart : DaemonState.start tools monitoredDir pid fd watchList tree = some s₀)
    (h : Run (daemonStep tools addWatch) s₀ tr s) (hkeep : StepsMeet KeepsFiles tr)
    (hpending : s.pending = []) :
    (StepsMeet (SampleExact tools) tr ∧ s.ReportsExactly tools unset) ↔
      (StepsMeet (SampleAgrees tools) tr ∧ s.DetectorAgrees tools) := by
  have hsettled : Settled tools s₀ := by
    obtain ⟨-, found, done, -, rfl⟩ := start_spec hstart
    exact fun _ => ⟨rfl, rfl, by simp [DaemonState.init]⟩
  obtain ⟨ht, hiff, hquiet⟩ := samplesExact_iff_of_run (tracking_start hstart) hsettled h hkeep
  rw [← hiff]
  exact and_congr_right fun hexact => reportsExactly_iff ht (hquiet hexact) hpending

/-! ## The first sample that uses the table -/

/-- Only a sample with an empty queue writes to the table. -/
theorem files_step {a : DaemonAction} (hs : Tracking tools s) (hqueued : SampleQueued s a)
    (h : daemonStep tools addWatch s a = some s') : s'.monitor.files = s.monitor.files := by
  cases a with
  | edit e =>
    simp only [daemonStep] at h
    split at h <;> simp only [Option.some.injEq, reduceCtorEq] at h
    rw [← h]
  | process count =>
    simp only [daemonStep, Option.some.injEq] at h
    have hfiles : ∀ event ∈ s.pending.take count,
        ∃ path, EventOf s.monitor.watchList event path := fun event hevent => by
      obtain ⟨path, -, hof⟩ := hs.raised event (List.mem_of_mem_take hevent)
      exact ⟨path, hof⟩
    obtain ⟨queue, hmonitor, -⟩ := processInotifyEvents_files (s.isText tools) addWatch hfiles
    rw [← h, hmonitor]
  | sample now unset =>
    obtain ⟨changed, files, -, hfind, -⟩ := daemonStep_sample hs.fd h
    -- with a queue the table is not looked at
    rw [findChangedFiles, if_pos ⟨hs.fd, hqueued⟩] at hfind
    simp only [getChangedFilesFromQueue, Option.some.injEq, Prod.mk.injEq] at hfind
    rw [← hfind.2]

/-- The full backup does not fill the table: as long as every sample has found something in the
queue, the next one that does not reports every file found, whether it was edited or not. -/
theorem reported_first_scan {monitoredDir : Text} {pid : ℤ} {fd : ℕ} {watchList : List WatchInfo}
    {tree : Listing} {s₀ : DaemonState} {tr : List (DaemonState × DaemonAction)}
    {unset : Text → Text}
    (hstart : DaemonState.start tools monitoredDir pid fd watchList tree = some s₀)
    (h : Run (daemonStep tools addWatch) s₀ tr s) (hkeep : StepsMeet KeepsFiles tr)
    (hqueued : StepsMeet SampleQueued tr) (hqueue : s.monitor.changedFilesQueue = []) :
    ∀ changed, s.reported tools unset = some changed →
      ∀ path, path ∈ changed ↔ some path ∈ s.found tools := by
  have hinit : s₀.monitor.files = [] := by
    obtain ⟨-, found, done, -, rfl⟩ := start_spec hstart
    rfl
  have hmeet : StepsMeet (fun t a => KeepsFiles t a ∧ SampleQueued t a) tr :=
    fun x hx => ⟨hkeep x hx, hqueued x hx⟩
  -- as long as every sample has a queue, the table stays empty
  have hkept : ∀ t a u, Tracking tools t ∧ t.monitor.files = [] →
      KeepsFiles t a ∧ SampleQueued t a → daemonStep tools addWatch t a = some u →
      Tracking tools u ∧ u.monitor.files = [] := by
    rintro t a u ⟨ht, hempty⟩ ⟨hkeeps, hqueue⟩ hstep
    exact ⟨tracking_step ht hkeeps hstep, (files_step ht hqueue hstep).trans hempty⟩
  obtain ⟨hs, hfiles⟩ := h.invariant ⟨tracking_start hstart, hinit⟩ hkept hmeet
  intro changed hreported path
  rw [(reported_of_empty unset hs hqueue).2 changed hreported]
  refine ⟨fun hout => hout.1, fun hfound => ⟨hfound, ?_⟩⟩
  obtain ⟨-, data, hdata, -⟩ := mem_searchFilesInDir hs.wellFormed hfound
  refine ⟨data, hdata, ?_⟩
  rintro ⟨info, hinfo, -⟩
  rw [hfiles] at hinfo
  cases hinfo

end

/-! ## One file -/

/-- The file `/m/a` with the given content and `st_mtime`. -/
def oneFile (content : Text) (mtime : ℤ) : Listing :=
  .file ['a'] { content, mtime } .nil

/-- The watch of `/m`. -/
def oneWatch : List WatchInfo :=
  [{ wd := 1, path := ['/', 'm'] }]

/-- The start with the file `/m/a`. -/
def oneFileStart : Option DaemonState :=
  DaemonState.start gnuTools ['/', 'm'] 1 3 oneWatch (oneFile redLine 0)

/-- The file `/m/a` is written. -/
def oneEdit : Edit where
  dir := ['/', 'm']
  name := ['a']
  data := some { content := blueLine, mtime := 1 }
  tree := oneFile blueLine 1
  wd := 1
  masks := [inModify, inCloseWrite]

/-- The file is edited and its events are processed. -/
def oneEditActions : List DaemonAction :=
  [.edit oneEdit, .process 2]

theorem oneFileStart_isSome : oneFileStart.isSome = true := by
  decide

private theorem oneEdit_executes :
    (execute (daemonStep gnuTools noWatch) (fun s a => decide (KeepsFiles s a))
      (oneFileStart.get oneFileStart_isSome) oneEditActions).isSome = true := by
  decide +kernel

/-- The state after the edit. -/
def oneEditState : DaemonState :=
  (execute (daemonStep gnuTools noWatch) (fun s a => decide (KeepsFiles s a))
    (oneFileStart.get oneFileStart_isSome) oneEditActions).get oneEdit_executes

/-- `reportsExactly_iff_of_run` at the sample after the edit of one file. -/
theorem reportsExactly_one_edit :
    Reachable (daemonStep gnuTools noWatch) (oneFileStart.get oneFileStart_isSome)
        oneEditState ∧
      oneEditState.dirty = [['/', 'm', '/', 'a']] ∧
      oneEditState.ReportsExactly gnuTools fun _ => [] := by
  obtain ⟨tr, hrun, hacts, hmeet⟩ := exists_run_of_execute (Option.some_get oneEdit_executes).symm
  have hdirty : oneEditState.dirty = [['/', 'm', '/', 'a']] := by decide +kernel
  have hqueue : oneEditState.monitor.changedFilesQueue ≠ [] := by decide +kernel
  refine ⟨⟨tr, hrun⟩, hdirty, ?_⟩
  apply ((reportsExactly_iff_of_run (Option.some_get oneFileStart_isSome).symm hrun
    (hmeet.mono fun _ _ => of_decide_eq_true) (by decide +kernel)).mpr ⟨?_, ?_⟩).2
  · -- the run takes no sample
    rintro ⟨t, a⟩ hmem
    have ha : a ∈ oneEditActions := hacts ▸ List.mem_map_of_mem hmem
    simp only [oneEditActions, List.mem_cons, List.not_mem_nil, or_false] at ha
    rcases ha with rfl | rfl <;> trivial
  · show oneEditState.DetectorAgrees gnuTools
    rw [DaemonState.DetectorAgrees, if_neg hqueue]
    rintro path ⟨-, hpath, hskip⟩
    rw [hdirty, List.mem_singleton] at hpath
    subst hpath
    exact absurd hskip (by decide)

/-- The first sample after the full backup reports a file that nobody has edited. -/
theorem reported_one_file :
    (oneFileStart.get oneFileStart_isSome).pending = [] ∧
      (oneFileStart.get oneFileStart_isSome).dirty = [] ∧
      (oneFileStart.get oneFileStart_isSome).reported gnuTools (fun _ => []) =
        some [['/', 'm', '/', 'a']] ∧
      ¬ (oneFileStart.get oneFileStart_isSome).ReportsExactly gnuTools fun _ => [] := by
  have hreported : (oneFileStart.get oneFileStart_isSome).reported gnuTools (fun _ => []) =
      some [['/', 'm', '/', 'a']] := by decide
  refine ⟨by decide, by decide, hreported, ?_⟩
  rintro ⟨changed, hchanged, -, hquiet⟩
  rw [hreported, hquiet (by decide)] at hchanged
  exact absurd hchanged (by decide)

end MonitorDaemon
