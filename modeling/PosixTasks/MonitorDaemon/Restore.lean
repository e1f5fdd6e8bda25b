import PosixTasks.MonitorDaemon.History
import PosixTasks.MonitorDaemon.UnifiedDiff

/-!
# Restoring a file to a sample

`restore_file_to_sample` applies the diff of one sample to the base copy, and takes the base copy
as it is where the sample has no diff of the file. What the backup directory holds is a function
of the history: the base copy is the file at the first backup that reported it, and there is a
diff from it in each sample that reported the file. That `diff` and `patch` are run on these files
is known where the shell reads the path of the file as it is, and where the command lines fit.

## Main results

* `kept_of_run`: the copies of a file in the backup directory, as a function of the history;
* `restoresHistory_of_run`: a restored file is the file as it was at the sample if the sample
  reported it, both programs are run on its copies and the diff is applied undamaged; if the sample
  did not report it, exactly if the file was as in its base copy.
-/

namespace MonitorDaemon

open CString Transition

/-! ## The history of one file -/

/-- The base copy of a file: its content at the first backup that reported it. -/
def baseOf (history : List Sample) (path : Text) : Option Text :=
  history.findSome? fun sample =>
    if sample.reported.contains path then sample.content path else none

/-- The output of `diff` for a file in sample `n`, where the history ends with this sample. -/
def diffBody (tools : Tools) (history : List Sample) (path oldBackupPath : Text)
    (n : ℕ) (sample : Sample) : Text :=
  tools.diff n oldBackupPath path (baseOf history path) (sample.content path)

/-- The diff file of sample `n`, if that sample reported the file. -/
def diffOf (tools : Tools) (history : List Sample) (path oldBackupPath : Text) (n : ℕ) :
    Option Text :=
  match history[n]? with
  | some sample =>
      if sample.reported.contains path then
        some (saveDiff oldBackupPath path sample.now n
          (diffBody tools (history.take (n + 1)) path oldBackupPath n sample))
      else none
  | none => none

section

variable {monitoredDir : Text}

/-- The path of the file. -/
def FileSample.path (x : FileSample monitoredDir) : Text :=
  joinPath monitoredDir x.filename

/-- The relative path under which the file is backed up. -/
def FileSample.relativePath (x : FileSample monitoredDir) : Text :=
  x.filename.map flatten

/-- Among the files backed up, no other has the backup names of this one. -/
def DaemonState.NoCollision (s : DaemonState) (x : FileSample monitoredDir) : Prop :=
  ∀ sample ∈ s.history, ∀ p ∈ sample.reported,
    makeBackupRelativePath p monitoredDir maxPathLen = x.relativePath → p = x.path

/-- If `restore_file_to_sample` returns 0, the file it writes is the file as it was when the
sample was taken. -/
def DaemonState.RestoresHistory (tools : Tools) (s : DaemonState) (x : FileSample monitoredDir) :
    Prop :=
  ∀ restoredPath restored,
    restoreFileToSample tools s.monitor s.backups x.filename x.sample =
      some (restoredPath, restored) →
    ∃ sample, s.history[x.sample]? = some sample ∧ sample.content x.path = some restored

/-- The shell runs `diff` and `patch` on the copies of the file: it reads the path of the file as it
is, and both command lines fit into their buffers. -/
structure FileSample.Runs (x : FileSample monitoredDir) (pid : ℕ) : Prop where
  quotable : Quotable x.path
  outside : ¬ InBackupDir x.path
  diff_fits : (diffCommand (fullFormat x.relativePath) x.path).length < cmdSize
  patch_fits : (patchCommand (tempFormat x.relativePath pid)
    (cleanDiffFormat x.relativePath x.sample pid)).length < cmdSize

/-- The diff from a base copy to the content in the sample is taken and applied undamaged: the shell
runs both programs, both files are text, and the diff file that is made at the time `now` passes the
filter of `restore_file_to_sample` as far as `diff` has written it. -/
structure FileSample.Applies (x : FileSample monitoredDir) (tools : Tools) (now : ℕ)
    (base content : Text) : Prop where
  runs : x.Runs tools.pid
  base_text : '\x00' ∉ base
  content_text : '\x00' ∉ content
  clean :
    let body := tools.diff x.sample (fullFormat x.relativePath) x.path (some base) (some content)
    cleanDiff (saveDiff (fullFormat x.relativePath) x.path now x.sample body) = body

/-- Where there is a base copy: the sample reported the file, and the diff to its content then is
applied undamaged; or the sample did not report the file, and the file was as in its base copy. -/
def DaemonState.Recoverable (tools : Tools) (s : DaemonState) (x : FileSample monitoredDir) :
    Prop :=
  ∀ base sample, baseOf s.history x.path = some base → s.history[x.sample]? = some sample →
    if sample.reported.contains x.path then
      ∃ content, sample.content x.path = some content ∧ x.Applies tools sample.now base content
    else sample.content x.path = some base

/-- The sample, if it was taken, did not report the file. -/
def DaemonState.NotReported (s : DaemonState) (x : FileSample monitoredDir) : Prop :=
  ∀ sample, s.history[x.sample]? = some sample → sample.reported.contains x.path = false

/-! ## What the backup directory holds -/

/-- What does not depend on any file. -/
structure Steady (monitoredDir : Text) (s : DaemonState) : Prop where
  fd : 0 ≤ s.monitor.inotifyFd
  dir : s.monitor.monitoredDir = monitoredDir
  files : ∀ event ∈ s.pending, event.mask.has inIsdir = false
  length : s.history.length = s.monitor.currentSample + 1

/-- The backup directory holds what the history says; what is in a diff is known if `diff` is run on
the files. -/
structure Kept (tools : Tools) (x : FileSample monitoredDir) (s : DaemonState) : Prop where
  base : s.backups (fullFormat x.relativePath) = baseOf s.history x.path
  isSome : (s.backups (diffFormat x.relativePath x.sample)).isSome =
    (diffOf tools s.history x.path (fullFormat x.relativePath) x.sample).isSome
  diff : DiffRuns (fullFormat x.relativePath) x.path → ¬ InBackupDir x.path →
    s.backups (diffFormat x.relativePath x.sample) =
      diffOf tools s.history x.path (fullFormat x.relativePath) x.sample

theorem baseOf_append (history : List Sample) (sample : Sample) (path : Text) :
    baseOf (history ++ [sample]) path = (baseOf history path).or
      (if sample.reported.contains path then sample.content path else none) := by
  rw [baseOf, List.findSome?_append, baseOf]
  congr 1
  simp only [List.findSome?_singleton]

/-- A base copy is never replaced. -/
theorem baseOf_take {history : List Sample} {path base : Text} {n : ℕ}
    (h : baseOf (history.take n) path = some base) : baseOf history path = some base := by
  rw [baseOf] at h
  rw [← List.take_append_drop n history, baseOf, List.findSome?_append, h, Option.some_or]

/-- A sample that reported a file with some content leaves a base copy of it. -/
theorem baseOf_isSome {history : List Sample} {path content : Text} {n : ℕ} {sample : Sample}
    (hsample : history[n]? = some sample) (hreported : sample.reported.contains path = true)
    (hcontent : sample.content path = some content) :
    ∃ base, baseOf (history.take (n + 1)) path = some base := by
  have hmem : sample ∈ history.take (n + 1) := by
    obtain ⟨hn, rfl⟩ := List.getElem?_eq_some_iff.mp hsample
    exact List.mem_take_iff_getElem.mpr ⟨n, by omega, rfl⟩
  rw [← Option.isSome_iff_exists, baseOf, List.findSome?_isSome_iff]
  exact ⟨sample, hmem, by rw [if_pos hreported, hcontent]; rfl⟩

/-- A sample adds to the history of the diffs what it reports itself. -/
theorem diffOf_append {tools : Tools} (history : List Sample) (sample : Sample)
    (path old : Text) (n : ℕ) :
    diffOf tools (history ++ [sample]) path old n =
      if n = history.length then
        if sample.reported.contains path then
          some (saveDiff old path sample.now n
            (diffBody tools (history ++ [sample]) path old n sample))
        else none
      else diffOf tools history path old n := by
  split
  next hn =>
    subst hn
    have htake : (history ++ [sample]).take (history.length + 1) = history ++ [sample] :=
      List.take_of_length_le (by simp)
    rw [diffOf, List.getElem?_concat_length, htake]
  next hn =>
    rw [diffOf, diffOf]
    rcases Nat.lt_or_gt_of_ne hn with hlt | hgt
    · rw [List.getElem?_append_left hlt, List.take_append_of_le_length hlt]
    · rw [List.getElem?_eq_none (by simp; omega), List.getElem?_eq_none (by omega)]

/-! ## One step at a time -/

variable {tools : Tools} {addWatch : Text → MonitorState → MonitorState} {s s' : DaemonState}
  {x : FileSample monitoredDir}

/-- Events of files change the queue alone. -/
theorem processInotifyEvents_frame (isText : Text → Bool)
    (addWatch : Text → MonitorState → MonitorState) {events : List InotifyEvent}
    (monitor : MonitorState) (h : ∀ event ∈ events, event.mask.has inIsdir = false) :
    ∃ queue, processInotifyEvents isText addWatch monitor events =
      { monitor with changedFilesQueue := queue } := by
  induction events generalizing monitor with
  | nil => exact ⟨monitor.changedFilesQueue, rfl⟩
  | cons event events ih =>
    have hfile := h event List.mem_cons_self
    obtain ⟨queue, hhandle⟩ : ∃ queue, handleEvent isText addWatch monitor event =
        { monitor with changedFilesQueue := queue } := by
      rw [handleEvent]
      cases heffect : eventEffect isText monitor.watchList event with
      | skip => exact ⟨monitor.changedFilesQueue, rfl⟩
      | addWatch path => exact absurd heffect (eventEffect_ne_addWatch hfile)
      | enqueue path => exact ⟨_, rfl⟩
    rw [processInotifyEvents, List.foldl_cons, hhandle]
    exact ih { monitor with changedFilesQueue := queue } fun e he =>
      h e (List.mem_cons_of_mem _ he)

/-- The file is backed up under its relative path. -/
theorem FileSample.relativePath_eq (x : FileSample monitoredDir) :
    makeBackupRelativePath x.path monitoredDir maxPathLen = x.relativePath := by
  have h := relativePathOf_eq x
  rwa [relativePathOf, snprintf_of_fits x.path_fits] at h

theorem FileSample.full_length (x : FileSample monitoredDir) :
    (fullFormat x.relativePath).length < maxPathLen := by
  simpa [fullFormat, FileSample.relativePath] using x.full_fits

theorem FileSample.diff_length (x : FileSample monitoredDir) :
    (diffFormat x.relativePath x.sample).length < maxPathLen := by
  simpa [diffFormat, FileSample.relativePath] using x.diff_fits

/-- Only a sample changes the backup directory and the history. -/
theorem daemonStep_edit_or_process {a : DaemonAction} (hs : Steady monitoredDir s)
    (ha : ∀ now unset, a ≠ .sample now unset) (h : daemonStep tools addWatch s a = some s') :
    Steady monitoredDir s' ∧ s'.backups = s.backups ∧ s'.history = s.history := by
  cases a with
  | edit e =>
    simp only [daemonStep] at h
    split at h <;> simp only [Option.some.injEq, reduceCtorEq] at h
    next hedit =>
      subst h
      refine ⟨{ hs with files := fun event hevent => ?_ }, rfl, rfl⟩
      rcases List.mem_append.mp hevent with hevent | hevent
      · exact hs.files event hevent
      · obtain ⟨mask, hmask, rfl⟩ := List.mem_map.mp hevent
        -- the edit of a file raises events of files
        have hkind := hedit.kinds mask hmask
        split at hkind
        · exact has_inIsdir_of_edit (Or.inl hkind)
        · exact has_inIsdir_of_edit (Or.inr hkind)
  | process count =>
    simp only [daemonStep, Option.some.injEq] at h
    have hfiles : ∀ event ∈ s.pending.take count, event.mask.has inIsdir = false :=
      fun event hevent => hs.files event (List.mem_of_mem_take hevent)
    obtain ⟨queue, hqueue⟩ :=
      processInotifyEvents_frame (s.isText tools) addWatch s.monitor hfiles
    rw [hqueue] at h
    subst h
    exact ⟨{ hs with files := fun event hevent => hs.files event (List.mem_of_mem_drop hevent) },
      rfl, rfl⟩
  | sample now unset => exact absurd rfl (ha now unset)

/-- A sample adds itself to the history, and what it reports to the backup directory. -/
theorem kept_sample {now : ℕ} {unset : Text → Text} (hruns : tools.RunsCommands)
    (hs : Steady monitoredDir s) (h : daemonStep tools addWatch s (.sample now unset) = some s') :
    Steady monitoredDir s' ∧ s.history <+: s'.history ∧
      (Kept tools x s → s'.NoCollision x → Kept tools x s') := by
  obtain ⟨changed, files, hpending, hfind, hs'⟩ := daemonStep_sample hs.fd h
  have hdir := hs.dir
  have hlen := hs.length
  subst hs'
  refine ⟨⟨hs.fd, hdir, by simp [hpending], by simp [hlen]⟩, List.prefix_append _ _,
    fun hkept hone => ?_⟩
  -- what this sample reports does not collide with the file
  have hone' : ∀ p ∈ backedUp changed,
      makeBackupRelativePath p s.monitor.monitoredDir maxPathLen = x.relativePath → p = x.path := by
    intro p hp hrel
    rw [hdir] at hrel
    exact hone _ (List.mem_append_right _ (List.mem_singleton.mpr rfl)) p hp hrel
  have hrel : makeBackupRelativePath x.path s.monitor.monitoredDir maxPathLen = x.relativePath := by
    rw [hdir]
    exact x.relativePath_eq
  -- before this sample, there is no diff of it
  have hnone : x.sample = s.monitor.currentSample + 1 →
      s.backups (diffFormat x.relativePath x.sample) = none := by
    intro hn
    rw [← Option.not_isSome_iff_eq_none, hkept.isSome, diffOf, List.getElem?_eq_none (by omega)]
    simp
  have hfits := x.diff_length
  refine { base := ?_, isSome := ?_, diff := fun hcmd houtside => ?_ }
  · simp only [baseOf_append, ← hkept.base, incrementalBackupLoop_full hrel hone' x.full_length,
      List.contains_iff_mem]
  · simp only [diffOf_append, List.contains_iff_mem, hlen]
    by_cases hn : x.sample = s.monitor.currentSample + 1
    · have hfree := hnone hn
      rw [hn] at hfree hfits ⊢
      rw [if_pos rfl, incrementalBackupLoop_isSome hrel hone' x.full_length hfits, hfree]
      split <;> rfl
    · rw [if_neg hn, incrementalBackupLoop_diff_of_ne (Ne.symm hn), hkept.isSome]
  · simp only [diffOf_append, diffBody, baseOf_append, ← hkept.base, ← hkept.diff hcmd houtside,
      List.contains_iff_mem, hlen]
    by_cases hn : x.sample = s.monitor.currentSample + 1
    · -- this very sample: it writes the diff exactly if it reports the file
      have hfree := hnone hn
      rw [hn] at hfree hfits ⊢
      rw [if_pos rfl,
        incrementalBackupLoop_diff hruns hcmd houtside hrel hone' x.full_length hfits, hfree]
      split <;> rfl
    · rw [if_neg hn, incrementalBackupLoop_diff_of_ne (Ne.symm hn)]

theorem kept_start {pid : ℤ} {fd : ℕ} {watchList : List WatchInfo} {tree : Listing}
    (h : DaemonState.start tools monitoredDir pid fd watchList tree = some s) :
    Steady monitoredDir s ∧ (1 ≤ x.sample → s.NoCollision x → Kept tools x s) := by
  obtain ⟨-, found, done, -, hs⟩ := start_spec h
  subst hs
  refine ⟨⟨Int.natCast_nonneg fd, rfl, by simp [DaemonState.init], rfl⟩, fun hn hone => ?_⟩
  have hdiff : fullBackupLoop (tree.fileAt monitoredDir) monitoredDir found (fun _ => none)
      (diffFormat x.relativePath x.sample) = none := fullBackupLoop_diff found
  have hnone : ∀ sample : Sample,
      diffOf tools [sample] x.path (fullFormat x.relativePath) x.sample = none := by
    intro sample
    rw [diffOf, List.getElem?_eq_none (by simpa using hn)]
  refine { base := ?_, isSome := ?_, diff := fun _ _ => hdiff.trans (hnone _).symm }
  · have hone' : ∀ p ∈ backedUp found,
        makeBackupRelativePath p monitoredDir maxPathLen = x.relativePath → p = x.path :=
      hone _ (List.mem_singleton.mpr rfl)
    simp only [fullBackupLoop_full x.relativePath_eq hone' x.full_length, baseOf,
      List.findSome?_singleton, List.contains_iff_mem, Option.or_none]
  · exact congrArg Option.isSome (hdiff.trans (hnone _).symm)

/-- The copies of a file in the backup directory are those that the history tells. -/
theorem kept_of_run {pid : ℤ} {fd : ℕ} {watchList : List WatchInfo} {tree : Listing}
    {s₀ : DaemonState} {tr : List (DaemonState × DaemonAction)} (hruns : tools.RunsCommands)
    (hstart : DaemonState.start tools monitoredDir pid fd watchList tree = some s₀)
    (h : Run (daemonStep tools addWatch) s₀ tr s) (hn : 1 ≤ x.sample) :
    Steady monitoredDir s ∧ (s.NoCollision x → Kept tools x s) := by
  obtain ⟨hsteady, hkept⟩ := kept_start (x := x) hstart
  refine h.invariant_all
    (I := fun s => Steady monitoredDir s ∧ (s.NoCollision x → Kept tools x s))
    ⟨hsteady, hkept hn⟩ ?_
  rintro t a u ⟨ht, hkept⟩ hstep
  -- only a sample writes into the backup directory
  by_cases ha : ∃ now unset, a = .sample now unset
  · obtain ⟨now, unset, rfl⟩ := ha
    obtain ⟨hu, hgrows, hsample⟩ := kept_sample (x := x) hruns ht hstep
    refine ⟨hu, fun hone => hsample (hkept fun sample hmem => ?_) hone⟩
    exact hone sample (hgrows.subset hmem)
  · obtain ⟨hu, hbackups, hhistory⟩ := daemonStep_edit_or_process ht
      (fun now unset heq => ha ⟨now, unset, heq⟩) hstep
    refine ⟨hu, fun hone => ?_⟩
    rw [DaemonState.NoCollision, hhistory] at hone
    have hbefore := hkept hone
    exact { base := by rw [hbackups, hhistory]; exact hbefore.base
            isSome := by rw [hbackups, hhistory]; exact hbefore.isSome
            diff := by rw [hbackups, hhistory]; exact hbefore.diff }

/-! ## The command lines for one file -/

theorem FileSample.plain_relativePath (h : Quotable x.path) : Plain x.relativePath := by
  intro c hc
  obtain ⟨d, hd, rfl⟩ := List.mem_map.mp hc
  rw [flatten]
  split
  · decide
  · exact h.plain d (List.mem_append_right _ (List.mem_cons_of_mem _ hd))

theorem FileSample.Runs.diffRuns {pid : ℕ} (h : x.Runs pid) :
    DiffRuns (fullFormat x.relativePath) x.path where
  fits := h.diff_fits
  oldFile := by
    rw [fullFormat, List.append_assoc]
    exact quotable_backupDir (plain_append.mpr
      ⟨by decide, FileSample.plain_relativePath h.quotable⟩)
  newFile := h.quotable

theorem FileSample.Runs.patchRuns {pid : ℕ} (h : x.Runs pid) :
    PatchRuns (tempFormat x.relativePath pid) (cleanDiffFormat x.relativePath x.sample pid) where
  fits := h.patch_fits
  file := by
    rw [tempFormat, List.append_assoc, List.append_assoc]
    apply quotable_backupDir
    rw [plain_append, plain_append, plain_cons]
    exact ⟨by decide, FileSample.plain_relativePath h.quotable, by decide, plain_decimal pid⟩
  input := by
    rw [cleanDiffFormat, List.append_assoc, List.append_assoc, List.append_assoc, List.cons_append]
    apply quotable_backupDir
    rw [plain_append, plain_append, plain_cons, plain_append, plain_cons]
    exact ⟨by decide, FileSample.plain_relativePath h.quotable, by decide,
      plain_decimal x.sample, by decide, plain_decimal pid⟩

/-! ## What a restore returns -/

/-- `restore_file_to_sample` in terms of the history and of the diff that is there. -/
theorem restoreFileToSample_eq (hs : Steady monitoredDir s) (hkept : Kept tools x s)
    (hn : 1 ≤ x.sample) (hle : x.sample ≤ s.monitor.currentSample) :
    restoreFileToSample tools s.monitor s.backups x.filename x.sample =
      ((baseOf s.history x.path).bind fun base =>
        match s.backups (diffFormat x.relativePath x.sample) with
        | none => some base
        | some diffFile =>
            patchTempFile tools s.backups x.relativePath x.sample base diffFile).map
        fun restored => (restoredFilePath monitoredDir x.filename x.sample, restored) := by
  have hrange : ¬ ((x.sample : ℤ) < 1 ∨ (s.monitor.currentSample : ℤ) < x.sample) := by omega
  -- the names that a restore builds are those that the backups built
  have hfull : s.backups (fullBackupPath monitoredDir x.filename) = baseOf s.history x.path := by
    rw [fullBackupPath_eq]
    exact hkept.base
  have hrelative : relativePathOf monitoredDir x.filename = x.relativePath := relativePathOf_eq x
  have hdiff : s.backups (diffPath monitoredDir x.filename x.sample) =
      s.backups (diffFormat x.relativePath x.sample) := by
    rw [diffPath_eq]
    rfl
  rw [restoreFileToSample, if_neg x.ne_nil, if_neg hrange]
  simp only [Int.toNat_natCast, hs.dir, hfull, hdiff, hrelative]
  cases baseOf s.history x.path with
  | none => rfl
  | some base =>
    simp only [Option.bind_some]
    cases s.backups (diffFormat x.relativePath x.sample) with
    | none => rfl
    | some diffFile =>
      cases hpatch : patchTempFile tools s.backups x.relativePath x.sample base diffFile <;>
        simp [hpatch]

/-- There is a diff of the file exactly if the sample reported it. -/
theorem Kept.isSome_iff (hkept : Kept tools x s) {sample : Sample}
    (hsample : s.history[x.sample]? = some sample) :
    (s.backups (diffFormat x.relativePath x.sample)).isSome = true ↔
      sample.reported.contains x.path = true := by
  rw [hkept.isSome, diffOf, hsample]
  simp only
  split
  next h => exact iff_of_true rfl h
  next h => exact iff_of_false Bool.false_ne_true h

/-- The diff of a sample is from the very base copy that a restore takes, so that patching it gives
the file of the sample. -/
theorem patchTempFile_of_applies (hruns : tools.RunsCommands) (hpatch : tools.RoundTrip)
    (hkept : Kept tools x s) {base content diffFile : Text} {sample : Sample}
    (hbase : baseOf s.history x.path = some base) (hsample : s.history[x.sample]? = some sample)
    (hreported : sample.reported.contains x.path = true)
    (hcontent : sample.content x.path = some content)
    (h : x.Applies tools sample.now base content)
    (hdiff : s.backups (diffFormat x.relativePath x.sample) = some diffFile) :
    patchTempFile tools s.backups x.relativePath x.sample base diffFile = some content := by
  obtain ⟨base', hbase'⟩ := baseOf_isSome hsample hreported hcontent
  obtain rfl : base' = base := Option.some.inj ((baseOf_take hbase').symm.trans hbase)
  rw [hkept.diff h.runs.diffRuns h.runs.outside, diffOf, hsample] at hdiff
  simp only [if_pos hreported, diffBody, hbase', hcontent, Option.some.injEq] at hdiff
  rw [patchTempFile_eq hruns h.runs.patchRuns, ← hdiff, h.clean,
    hpatch _ _ _ _ _ h.base_text h.content_text]

/-- A sample that was not taken is refused. -/
theorem restoresHistory_of_not_taken (hlt : s.monitor.currentSample < x.sample) :
    s.RestoresHistory tools x := by
  have hrange : (x.sample : ℤ) < 1 ∨ (s.monitor.currentSample : ℤ) < x.sample := by omega
  intro restoredPath restored hrestore
  rw [restoreFileToSample, if_neg x.ne_nil, if_pos hrange] at hrestore
  simp at hrestore

theorem Steady.recoverable_of_not_taken (hs : Steady monitoredDir s)
    (hlt : s.monitor.currentSample < x.sample) : s.Recoverable tools x := by
  have hlen := hs.length
  intro base sample _ hsample
  rw [List.getElem?_eq_none (by omega)] at hsample
  simp at hsample

/-- The diff of a sample that reported the file is applied to the base copy. -/
theorem restoresHistory_of_reported (hruns : tools.RunsCommands) (hpatch : tools.RoundTrip)
    (hs : Steady monitoredDir s) (hkept : Kept tools x s) (hn : 1 ≤ x.sample)
    (hle : x.sample ≤ s.monitor.currentSample) {sample : Sample}
    (hsample : s.history[x.sample]? = some sample)
    (hreported : sample.reported.contains x.path = true) (h : s.Recoverable tools x) :
    s.RestoresHistory tools x := by
  obtain ⟨diffFile, hdiff⟩ := Option.isSome_iff_exists.mp ((hkept.isSome_iff hsample).mpr hreported)
  intro restoredPath restored hrestore
  rw [restoreFileToSample_eq hs hkept hn hle] at hrestore
  obtain ⟨restored', hrestored, hpair⟩ := Option.map_eq_some_iff.mp hrestore
  obtain ⟨base, hbase, hrestored⟩ := Option.bind_eq_some_iff.mp hrestored
  have happlies := h base sample hbase hsample
  rw [if_pos hreported] at happlies
  obtain ⟨content, hcontent, happlies⟩ := happlies
  simp only [hdiff, patchTempFile_of_applies hruns hpatch hkept hbase hsample hreported hcontent
    happlies hdiff, Option.some.injEq] at hrestored
  refine ⟨sample, hsample, ?_⟩
  rw [hcontent, hrestored, (Prod.mk.inj hpair).2]

/-- There is no diff of a sample that did not report the file, so that the base copy is taken. -/
theorem restoresHistory_iff_of_not_reported (hs : Steady monitoredDir s) (hkept : Kept tools x s)
    (hn : 1 ≤ x.sample) (hle : x.sample ≤ s.monitor.currentSample) {sample : Sample}
    (hsample : s.history[x.sample]? = some sample)
    (hreported : ¬ sample.reported.contains x.path = true) :
    s.RestoresHistory tools x ↔
      ∀ base, baseOf s.history x.path = some base → sample.content x.path = some base := by
  have hnone : s.backups (diffFormat x.relativePath x.sample) = none :=
    Option.not_isSome_iff_eq_none.mp fun hsome =>
      hreported ((hkept.isSome_iff hsample).mp hsome)
  simp only [DaemonState.RestoresHistory, restoreFileToSample_eq hs hkept hn hle, hsample,
    Option.some.injEq, exists_eq_left', hnone, Option.bind_fun_some, Option.map_eq_some_iff,
    Prod.mk.injEq]
  constructor
  · exact fun hall base hbase => hall _ base ⟨base, hbase, rfl, rfl⟩
  · rintro hall _ _ ⟨base, hbase, -, rfl⟩
    exact hall base hbase

theorem recoverable_iff_of_not_reported {sample : Sample}
    (hsample : s.history[x.sample]? = some sample)
    (hreported : ¬ sample.reported.contains x.path = true) :
    s.Recoverable tools x ↔
      ∀ base, baseOf s.history x.path = some base → sample.content x.path = some base := by
  constructor
  · intro hall base hbase
    have hcase := hall base sample hbase hsample
    rwa [if_neg hreported] at hcase
  · rintro hall base sample' hbase hsample'
    obtain rfl := Option.some.inj (hsample.symm.trans hsample')
    rw [if_neg hreported]
    exact hall base hbase

/-- In a run from the full backup in which the backup names of the file do not collide: whenever
the file can be restored to a sample, it is restored as it was then, if the sample reported it and
its diff is applied undamaged, or the sample did not report it and the file was as in its base copy.
For a sample that did not report it, this is the only case. -/
theorem restoresHistory_of_run {pid : ℤ} {fd : ℕ} {watchList : List WatchInfo}
    {tree : Listing} {s₀ : DaemonState} {tr : List (DaemonState × DaemonAction)}
    (hruns : tools.RunsCommands) (hpatch : tools.RoundTrip)
    (hstart : DaemonState.start tools monitoredDir pid fd watchList tree = some s₀)
    (h : Run (daemonStep tools addWatch) s₀ tr s) (hn : 1 ≤ x.sample) (hone : s.NoCollision x) :
    (s.Recoverable tools x → s.RestoresHistory tools x) ∧
      (s.NotReported x → (s.RestoresHistory tools x ↔ s.Recoverable tools x)) := by
  obtain ⟨hsteady, hkept⟩ := kept_of_run hruns hstart h hn
  have hkept := hkept hone
  have hlen := hsteady.length
  -- a sample that was not taken is refused
  rcases Nat.lt_or_ge s.monitor.currentSample x.sample with hlt | hle
  · have hrestores : s.RestoresHistory tools x := restoresHistory_of_not_taken hlt
    exact ⟨fun _ => hrestores,
      fun _ => iff_of_true hrestores (hsteady.recoverable_of_not_taken hlt)⟩
  obtain ⟨sample, hsample⟩ : ∃ sample, s.history[x.sample]? = some sample :=
    ⟨_, List.getElem?_eq_getElem (by omega)⟩
  by_cases hreported : sample.reported.contains x.path = true
  · refine ⟨restoresHistory_of_reported hruns hpatch hsteady hkept hn hle hsample hreported,
      fun hnot => ?_⟩
    rw [hnot sample hsample] at hreported
    cases hreported
  · rw [restoresHistory_iff_of_not_reported hsteady hkept hn hle hsample hreported,
      recoverable_iff_of_not_reported hsample hreported]
    exact ⟨id, fun _ => Iff.rfl⟩

end

/-! ## Two files and two samples -/

/-- The files `/m/a` and `/m/b`, each with its content and `st_mtime`. -/
def twoFiles (a b : Text) (mtimeA mtimeB : ℤ) : Listing :=
  .file ['a'] { content := a, mtime := mtimeA } (.file ['b'] { content := b, mtime := mtimeB } .nil)

/-- The start with both files. -/
def twoFilesStart : Option DaemonState :=
  DaemonState.start gnuTools ['/', 'm'] 1 3 [{ wd := 1, path := ['/', 'm'] }]
    (twoFiles redLine redLine 0 0)

theorem twoFilesStart_isSome : twoFilesStart.isSome = true := by
  decide

/-- One of the files is written. -/
def editOf (name content : Text) (tree : Listing) : Edit where
  dir := ['/', 'm']
  name := name
  data := some { content, mtime := 1 }
  tree := tree
  wd := 1
  masks := [inModify]

/-- `/m/a` is edited before the first sample, and `/m/b` between it and the second one. -/
def twoSamples : List DaemonAction :=
  [.edit (editOf ['a'] blueLine (twoFiles blueLine redLine 1 0)), .process 1, .sample 8 fun _ => [],
    .edit (editOf ['b'] blueLine (twoFiles blueLine blueLine 1 1)), .process 1,
    .sample 9 fun _ => []]

private theorem twoSamples_executes :
    (execute (daemonStep gnuTools noWatch) (fun _ _ => true)
      (twoFilesStart.get twoFilesStart_isSome) twoSamples).isSome = true := by
  decide +kernel

/-- The state after the second sample. -/
def twoSamplesState : DaemonState :=
  (execute (daemonStep gnuTools noWatch) (fun _ _ => true)
    (twoFilesStart.get twoFilesStart_isSome) twoSamples).get twoSamples_executes

/-- The first sample. -/
def firstSample : Sample :=
  (twoSamplesState.history[1]?).get (by decide +kernel)

/-- `/m/a`, to be restored to a sample below 10. -/
def fileA (n : ℕ) (hn : n < 10) : FileSample ['/', 'm'] where
  filename := ['a']
  sample := n
  ne_nil := by decide
  relative := by decide
  path_fits := by decide
  full_fits := by decide
  diff_fits := by interval_cases n <;> decide
  restored_fits := by interval_cases n <;> decide

/-- The diff from the full backup to the first sample is applied undamaged. -/
theorem applies_first_sample :
    (fileA 1 (by decide)).Applies gnuTools firstSample.now redLine blueLine where
  runs := { quotable := by decide, outside := by decide, diff_fits := by decide +kernel,
            patch_fits := by decide +kernel }
  base_text := by decide
  content_text := by decide
  clean := by decide +kernel

/-- `restoresHistory_of_run` for the first sample, which reported the file. -/
theorem restoresHistory_first_sample :
    Reachable (daemonStep gnuTools noWatch) (twoFilesStart.get twoFilesStart_isSome)
        twoSamplesState ∧
      twoSamplesState.RestoresHistory gnuTools (fileA 1 (by decide)) ∧
      (restoreFileToSample gnuTools twoSamplesState.monitor twoSamplesState.backups
        ['a'] 1).map Prod.snd = some blueLine := by
  obtain ⟨tr, hrun, -⟩ := exists_run_of_execute (Option.some_get twoSamples_executes).symm
  have hone : twoSamplesState.NoCollision (fileA 1 (by decide)) := by
    unfold DaemonState.NoCollision
    decide +kernel
  refine ⟨⟨tr, hrun⟩, (restoresHistory_of_run gnuTools_runsCommands gnuTools_roundTrip
    (Option.some_get twoFilesStart_isSome).symm hrun (by decide) hone).1 ?_, by decide +kernel⟩
  intro base sample hbase hsample
  obtain rfl : firstSample = sample := Option.get_of_eq_some _ hsample
  have hred : baseOf twoSamplesState.history (fileA 1 (by decide)).path = some redLine := by
    decide +kernel
  obtain rfl : redLine = base := Option.some.inj (hred.symm.trans hbase)
  rw [if_pos (by decide +kernel)]
  exact ⟨blueLine, by decide +kernel, applies_first_sample⟩

/-- Restored to the second sample, which did not report it, `/m/a` is the file at the full
backup and not the file at that sample. -/
theorem restored_second_sample :
    Reachable (daemonStep gnuTools noWatch) (twoFilesStart.get twoFilesStart_isSome)
        twoSamplesState ∧
      (restoreFileToSample gnuTools twoSamplesState.monitor twoSamplesState.backups
        ['a'] 2).map Prod.snd = some redLine ∧
      (twoSamplesState.history[2]?).map (fun sample => sample.content ['/', 'm', '/', 'a']) =
        some (some blueLine) ∧
      ¬ twoSamplesState.RestoresHistory gnuTools (fileA 2 (by decide)) := by
  obtain ⟨tr, hrun, -⟩ := exists_run_of_execute (Option.some_get twoSamples_executes).symm
  have hrestored : (restoreFileToSample gnuTools twoSamplesState.monitor
      twoSamplesState.backups ['a'] 2).map Prod.snd = some redLine := by decide +kernel
  have hcontent : (twoSamplesState.history[2]?).map
      (fun sample => sample.content ['/', 'm', '/', 'a']) = some (some blueLine) := by
    decide +kernel
  refine ⟨⟨tr, hrun⟩, hrestored, hcontent, fun hrestores => ?_⟩
  -- the restored file holds one line and the sample the other
  obtain ⟨⟨path, restored⟩, hrestore, heq⟩ := Option.map_eq_some_iff.mp hrestored
  obtain ⟨sample, hsample, hthen⟩ := hrestores path restored hrestore
  change twoSamplesState.history[2]? = some sample at hsample
  rw [hsample] at hcontent
  have hblue : sample.content ['/', 'm', '/', 'a'] = some blueLine := by simpa using hcontent
  have hred : sample.content ['/', 'm', '/', 'a'] = some redLine := by
    rw [← heq]
    exact hthen
  rw [hblue] at hred
  exact absurd hred (by decide)

end MonitorDaemon
