import PosixTasks.MonitorDaemon.State

/-!
# The table of files

Without a queue `find_changed_files` goes through the files that `search_files_in_dir` found. It
looks each of them up in `state->files`, reports it if its entry is missing or outdated, and brings
the table up to date on the way; a new entry can make the table grow. No allocation fails.

## Main results

* `FileTable.scan_spec`: what a scan reports, and the table it leaves;
* `findChangedFiles_settles`: it reports what is outdated, in the order of the scan, and then the
  table agrees with the disk, so that a second call reports nothing;
* `findChangedFiles_full`: a new path that fills its buffer is reported by every call, unless a NUL
  happens to lie behind it;
* `FileTable.scan_refines`: the scan is `statChangedFiles` with the capacity added.
-/

namespace MonitorDaemon

open CString

/-! ## The scan -/

/-- `MAX_FILES`. -/
def maxFiles : ℕ := 1000

/-- `state->files`, its first `file_count` entries, and `state->capacity`. -/
structure FileTable where
  files : List FileInfo
  capacity : ℕ
  deriving DecidableEq

namespace FileTable

/-- The capacity that the table has for one more entry. -/
def grown (t : FileTable) : ℕ :=
  if t.capacity ≤ t.files.length then
    if t.capacity = 0 then maxFiles else t.capacity * 2
  else t.capacity

/-- An entry is written behind the last one; it must be inside the array. -/
def append (t : FileTable) (info : FileInfo) : Option FileTable :=
  if t.files.length < t.grown then some ⟨t.files ++ [info], t.grown⟩ else none

section

variable (unset : Text → Text) (stat : Text → Option FileData)

/-- One iteration of the loop of `find_changed_files`, with the paths reported so far. -/
def check (path : Text) (t : FileTable) (changed : List Text) : Option (FileTable × List Text) :=
  match stat path with
  | none => some (t, changed)
  | some st =>
    match updateEntry path st t.files with
    | some (modified, files) =>
        some ({ t with files }, if modified then changed ++ [path] else changed)
    | none =>
        (t.append { path := storedPath unset path, mtime := st.mtime, size := st.size,
                    «exists» := true }).map fun t => (t, changed ++ [path])

/-- The loop of `find_changed_files`. -/
def scan : List Text → FileTable → List Text → Option (FileTable × List Text)
  | [], t, changed => some (t, changed)
  | path :: current, t, changed =>
    (t.check unset stat path changed).bind fun (t, changed) => scan current t changed

end

end FileTable

/-- `find_changed_files` with the capacity of the table. -/
def findChangedFilesIn (unset : Text → Text) (stat : Text → Option FileData)
    (current : List Text) (state : MonitorState) (capacity : ℕ) :
    Option (List Text × MonitorState × ℕ) :=
  if 0 ≤ state.inotifyFd ∧ state.changedFilesQueue ≠ [] then
    let (changed, state) := getChangedFilesFromQueue state
    some (changed, state, capacity)
  else
    (FileTable.scan unset stat current ⟨state.files, capacity⟩ []).map fun (t, changed) =>
      (changed, { state with files := t.files }, t.capacity)

namespace FileTable

/-! ## Entries -/

/-- The entry that the search of the table finds. -/
def entry (t : FileTable) (path : Text) : Option FileInfo :=
  t.files.find? (·.path = path)

/-- The paths of the table are distinct, and the entries fit into the array. -/
structure WellFormed (t : FileTable) : Prop where
  distinct : (t.files.map FileInfo.path).Nodup
  fits : t.files.length ≤ t.capacity

/-- The file is there, and it has no entry, or `st_mtime` or `st_size` differ from the entry, or
the entry says that the file does not exist. -/
def Outdated (t : FileTable) (stat : Text → Option FileData) (path : Text) : Prop :=
  ∃ st, stat path = some st ∧ ∀ info, t.entry path = some info →
    info.mtime ≠ st.mtime ∨ info.size ≠ st.size ∨ info.exists = false

instance (t : FileTable) (stat : Text → Option FileData) (path : Text) :
    Decidable (t.Outdated stat path) :=
  match hstat : stat path with
  | none => isFalse fun ⟨_, hst, _⟩ => by rw [hstat] at hst; cases hst
  | some st =>
    match hentry : t.entry path with
    | none => isTrue ⟨st, hstat, fun _ hinfo => by rw [hentry] at hinfo; cases hinfo⟩
    | some info =>
      decidable_of_iff (info.mtime ≠ st.mtime ∨ info.size ≠ st.size ∨ info.exists = false) <| by
        constructor
        · rintro hdiffers
          refine ⟨st, hstat, fun info' hinfo => ?_⟩
          rwa [← Option.some.inj (hentry.symm.trans hinfo)]
        · rintro ⟨st', hst, hall⟩
          rw [Option.some.inj (hstat.symm.trans hst)]
          exact hall info hentry

/-- The file has an entry with its `st_mtime` and `st_size`. -/
def Agrees (t : FileTable) (path : Text) (st : FileData) : Prop :=
  t.entry path = some { path, mtime := st.mtime, size := st.size, «exists» := true }

variable {t t' : FileTable} {unset : Text → Text} {stat : Text → Option FileData} {path : Text}
  {st : FileData}

theorem agrees_iff : t.Agrees path st ↔ UpToDate t.files path st := by
  constructor
  · intro h
    exact ⟨_, h, rfl, rfl, rfl⟩
  · rintro ⟨⟨path', mtime, size, present⟩, hfind, rfl, rfl, rfl⟩
    obtain rfl : path' = path := by simpa using List.find?_some hfind
    exact hfind

/-- A file that is there is outdated unless the table agrees with it. -/
theorem outdated_iff (hst : stat path = some st) : t.Outdated stat path ↔ ¬ t.Agrees path st := by
  rw [agrees_iff, UpToDate, Outdated]
  constructor
  · rintro ⟨st', hst', hall⟩ ⟨info, hinfo, hmtime, hsize, hexists⟩
    obtain rfl : st = st' := Option.some.inj (hst.symm.trans hst')
    rcases hall info hinfo with h | h | h
    · exact h hmtime
    · exact h hsize
    · rw [hexists] at h
      cases h
  · intro hnot
    refine ⟨st, hst, fun info hinfo => ?_⟩
    by_contra hsame
    push Not at hsame
    exact hnot ⟨info, hinfo, hsame.1, hsame.2.1, by simpa using hsame.2.2⟩

/-- A file is stored under its path if that leaves room for a NUL byte, or if there is one behind
it. -/
theorem storedPath_of_terminated (hfits : path.length < maxPathLen)
    (hterminated : path.length < maxPathLen - 1 ∨ unset path = []) :
    storedPath unset path = path := by
  unfold storedPath
  split
  · rfl
  next hfull =>
    rw [hterminated.resolve_left hfull, List.append_nil, List.take_of_length_le (by omega)]

/-- A path that fills the buffer is not stored as it is, unless there is a NUL byte behind it. -/
theorem storedPath_ne {q : Text} (hfull : path.length = maxPathLen - 1) (hunset : unset path ≠ [])
    (hq : q.length < maxPathLen) : storedPath unset q ≠ path := by
  intro h
  have hpath : path.length < pathMax := by
    rw [hfull]
    decide
  obtain rfl : q = path := storedPath_eq hpath hq h
  rw [storedPath, if_neg (by omega), List.take_of_length_le hfull.le] at h
  exact hunset (List.append_right_eq_self.mp h)

/-! ## One file -/

/-- An update keeps the paths of the table. -/
theorem map_path_updateEntry {files files' : List FileInfo} {modified : Bool}
    (h : updateEntry path st files = some (modified, files')) :
    files'.map FileInfo.path = files.map FileInfo.path := by
  induction files generalizing files' with
  | nil => simp [updateEntry] at h
  | cons info files ih =>
    rw [updateEntry] at h
    split at h
    · simp only [Option.some.injEq, Prod.mk.injEq] at h
      obtain ⟨-, rfl⟩ := h
      rfl
    · obtain ⟨⟨m, files₁⟩, hrec, heq⟩ := Option.map_eq_some_iff.mp h
      simp only [Prod.mk.injEq] at heq
      obtain ⟨rfl, rfl⟩ := heq
      rw [List.map_cons, List.map_cons, ih hrec]

theorem lt_grown (h : t.files.length ≤ t.capacity) : t.files.length < t.grown := by
  unfold grown
  split
  · split
    · rw [maxFiles]
      omega
    · omega
  · omega

/-- There is room for a new entry, and the entries before it stay. -/
theorem WellFormed.append (h : t.WellFormed) (info : FileInfo) (hnew : t.entry info.path = none) :
    ∃ t', t.append info = some t' ∧ t'.WellFormed ∧ t'.entry info.path = some info ∧
      ∀ q, q ≠ info.path → t'.entry q = t.entry q := by
  have hroom := lt_grown h.fits
  refine ⟨⟨t.files ++ [info], t.grown⟩, if_pos hroom, ⟨?_, ?_⟩, ?_, ?_⟩
  · rw [List.map_append]
    refine List.Nodup.append h.distinct (List.nodup_singleton _) ?_
    simpa [entry, List.find?_eq_none] using hnew
  · simpa using hroom
  -- the new entry is found behind those that do not have its path
  · have hold : t.files.find? (·.path = info.path) = none := hnew
    simp [entry, List.find?_append, hold]
  · intro q hq
    simp [entry, List.find?_append, Ne.symm hq]

/-- A check reports an outdated file and brings its entry up to date. -/
theorem WellFormed.check (h : t.WellFormed) (unset : Text → Text)
    (stat : Text → Option FileData)
    (hstored : t.entry path = none → storedPath unset path = path) (changed : List Text) :
    ∃ t', t.check unset stat path changed =
        some (t', if t.Outdated stat path then changed ++ [path] else changed) ∧
      t'.WellFormed ∧ (∀ st, stat path = some st → t'.Agrees path st) ∧
      ∀ q, q ≠ path ∨ stat q = none → t'.entry q = t.entry q := by
  cases hst : stat path with
  | none =>
    have hnot : ¬ t.Outdated stat path := by
      rintro ⟨st, hst', -⟩
      rw [hst] at hst'
      cases hst'
    refine ⟨t, ?_, h, nofun, fun _ _ => rfl⟩
    rw [FileTable.check, hst, if_neg hnot]
  | some st =>
    -- a file that can be examined is not one of the others
    have hother : ∀ q, q ≠ path ∨ stat q = none → q ≠ path := by
      rintro q (hq | hq) rfl
      · exact hq rfl
      · rw [hst] at hq
        cases hq
    cases hupdate : updateEntry path st t.files with
    | some updated =>
      obtain ⟨modified, files⟩ := updated
      obtain ⟨hmodified, hupto, hkept⟩ := updateEntry_spec hupdate
      have hpaths := map_path_updateEntry hupdate
      refine ⟨{ t with files }, ?_, ⟨?_, ?_⟩, ?_, fun q hq => hkept q (hother q hq)⟩
      · have hiff : t.Outdated stat path ↔ modified = true := by
          rw [outdated_iff hst, agrees_iff, hmodified]
        simp [FileTable.check, hst, hupdate, hiff]
      · rw [hpaths]
        exact h.distinct
      · rw [← List.length_map (f := FileInfo.path), hpaths, List.length_map]
        exact h.fits
      · rintro st' hst'
        rw [← Option.some.inj hst']
        exact agrees_iff.mpr hupto
    | none =>
      have hnone : t.entry path = none := updateEntry_eq_none.mp hupdate
      have hout : t.Outdated stat path := ⟨st, hst, fun info hinfo => by
        rw [hnone] at hinfo
        cases hinfo⟩
      obtain ⟨t', happend, hwell, hentry, hkept⟩ := h.append
        { path, mtime := st.mtime, size := st.size, «exists» := true } hnone
      refine ⟨t', ?_, hwell, ?_, fun q hq => hkept q (hother q hq)⟩
      · rw [if_pos hout]
        simp [FileTable.check, hst, hupdate, hstored hnone, happend]
      · rintro st' hst'
        rw [← Option.some.inj hst']
        exact hentry

/-! ## A scan -/

/-- What one call of `find_changed_files` finds: distinct paths that fit into an entry. -/
structure DiskScan where
  unset : Text → Text
  stat : Text → Option FileData
  current : List Text
  nodup : current.Nodup
  fits : ∀ path ∈ current, path.length < maxPathLen
  terminated : ∀ path ∈ current, path.length < maxPathLen - 1 ∨ unset path = []

variable {current changed changed' : List Text}

theorem outdated_congr (h : t'.entry path = t.entry path) :
    t'.Outdated stat path ↔ t.Outdated stat path := by
  rw [Outdated, Outdated, h]

/-- A scan of distinct files reports those that are outdated, in order. Then the table agrees with
the disk on these files, and its other entries are as they were. -/
theorem WellFormed.scan (h : t.WellFormed) (unset : Text → Text)
    (stat : Text → Option FileData) (hnodup : current.Nodup)
    (hstored : ∀ path ∈ current, t.entry path = none → storedPath unset path = path)
    (changed : List Text) :
    ∃ t', t.scan unset stat current changed =
        some (t', changed ++ current.filter (t.Outdated stat ·)) ∧
      t'.WellFormed ∧ (∀ path ∈ current, ∀ st, stat path = some st → t'.Agrees path st) ∧
      ∀ q, q ∉ current ∨ stat q = none → t'.entry q = t.entry q := by
  induction current generalizing t changed with
  | nil => exact ⟨t, by simp [FileTable.scan], h, by simp, fun _ _ => rfl⟩
  | cons path current ih =>
    obtain ⟨hpath, hnodup⟩ := List.nodup_cons.mp hnodup
    obtain ⟨t₁, hcheck, hwell₁, hagrees₁, hkept₁⟩ :=
      h.check unset stat (hstored path List.mem_cons_self) changed
    -- the check leaves the entries of the files behind it
    have hlater : ∀ q ∈ current, t₁.entry q = t.entry q := fun q hq =>
      hkept₁ q (Or.inl (ne_of_mem_of_not_mem hq hpath))
    have hstored₁ : ∀ q ∈ current, t₁.entry q = none → storedPath unset q = q := by
      intro q hq hnone
      rw [hlater q hq] at hnone
      exact hstored q (List.mem_cons_of_mem _ hq) hnone
    obtain ⟨t', hscan, hwell, hagrees, hkept⟩ := ih hwell₁ hnodup hstored₁
      (if t.Outdated stat path then changed ++ [path] else changed)
    refine ⟨t', ?_, hwell, ?_, ?_⟩
    · have hfilter : current.filter (t₁.Outdated stat ·) = current.filter (t.Outdated stat ·) :=
        List.filter_congr fun q hq => by simp only [outdated_congr (hlater q hq)]
      rw [FileTable.scan, hcheck, Option.bind_some]
      dsimp only
      rw [hscan, hfilter, List.filter_cons]
      by_cases hout : t.Outdated stat path <;> simp [hout]
    · intro q hq st hst
      rcases List.mem_cons.mp hq with rfl | hq
      · rw [Agrees, hkept q (Or.inl hpath)]
        exact hagrees₁ st hst
      · exact hagrees q hq st hst
    · intro q hq
      have hq₁ : q ≠ path ∨ stat q = none := hq.imp_left List.ne_of_not_mem_cons
      rw [hkept q (hq.imp_left List.not_mem_of_not_mem_cons), hkept₁ q hq₁]

/-- However the files appear and disappear, the table stays well formed from scan to scan. -/
theorem WellFormed.scans (h : t.WellFormed) (scans : List DiskScan) :
    ∃ t', scans.foldlM (fun t s => (t.scan s.unset s.stat s.current []).map Prod.fst) t = some t' ∧
      t'.WellFormed := by
  induction scans generalizing t with
  | nil => exact ⟨t, rfl, h⟩
  | cons s scans ih =>
    obtain ⟨t₁, hscan, hwell, -, -⟩ := h.scan s.unset s.stat s.nodup
      (fun path hpath _ => storedPath_of_terminated (s.fits path hpath) (s.terminated path hpath))
      []
    obtain ⟨t', hrest, hwell'⟩ := ih hwell
    refine ⟨t', ?_, hwell'⟩
    rw [List.foldlM_cons, hscan, Option.map_some]
    exact hrest

/-- The update of an entry that is up to date changes nothing. -/
theorem updateEntry_of_agrees {files : List FileInfo}
    (h : files.find? (·.path = path) =
      some { path, mtime := st.mtime, size := st.size, «exists» := true }) :
    updateEntry path st files = some (false, files) := by
  induction files with
  | nil => cases h
  | cons info files ih =>
    -- up to the first entry with this path nothing is touched
    by_cases hpath : info.path = path
    · obtain rfl : info = { path, mtime := st.mtime, size := st.size, «exists» := true } := by
        simpa [hpath] using h
      simp [updateEntry]
    · rw [List.find?_cons_of_neg (by simpa using hpath)] at h
      rw [updateEntry, if_neg hpath, ih h, Option.map_some]

/-- Where the table agrees with the disk, a scan reports nothing and changes nothing. -/
theorem scan_of_agrees (unset : Text → Text)
    (h : ∀ path ∈ current, ∀ st, stat path = some st → t.Agrees path st)
    (changed : List Text) : t.scan unset stat current changed = some (t, changed) := by
  induction current generalizing changed with
  | nil => rfl
  | cons path current ih =>
    have hcheck : t.check unset stat path changed = some (t, changed) := by
      cases hst : stat path with
      | none => simp [FileTable.check, hst]
      | some st =>
        have hupdate := updateEntry_of_agrees (h path List.mem_cons_self st hst)
        simp [FileTable.check, hst, hupdate]
    rw [FileTable.scan, hcheck, Option.bind_some]
    exact ih (fun q hq => h q (List.mem_cons_of_mem _ hq)) changed

theorem entry_eq_none_iff : t.entry path = none ↔ path ∉ t.files.map FileInfo.path := by
  simp [entry, List.find?_eq_none]

/-- No check makes an entry for a path that fills the buffer. -/
theorem entry_check_full {q : Text} (hfull : path.length = maxPathLen - 1)
    (hunset : unset path ≠ []) (hq : q.length < maxPathLen) (hnew : t.entry path = none)
    (h : t.check unset stat q changed = some (t', changed')) : t'.entry path = none := by
  rw [FileTable.check] at h
  cases hst : stat q with
  | none =>
    simp only [hst, Option.some.injEq, Prod.mk.injEq] at h
    rwa [← h.1]
  | some st =>
    simp only [hst] at h
    cases hupdate : updateEntry q st t.files with
    | some updated =>
      simp only [hupdate, Option.some.injEq, Prod.mk.injEq] at h
      rw [entry_eq_none_iff, ← h.1, map_path_updateEntry hupdate]
      exact entry_eq_none_iff.mp hnew
    | none =>
      -- what is stored for this file runs on behind the buffer
      have hother : storedPath unset q ≠ path := storedPath_ne hfull hunset hq
      rw [entry_eq_none_iff] at hnew
      simp only [hupdate, FileTable.append] at h
      split at h
      · simp only [Option.map_some, Option.some.injEq, Prod.mk.injEq] at h
        rw [entry_eq_none_iff, ← h.1]
        simpa [Ne.symm hother] using hnew
      · cases h

/-- A check reports a file without an entry, and keeps what was reported before. -/
theorem mem_check {q : Text} (h : t.check unset stat q changed = some (t', changed')) :
    (∀ p ∈ changed, p ∈ changed') ∧
      (t.entry q = none → (stat q).isSome = true → q ∈ changed') := by
  rw [FileTable.check] at h
  cases hst : stat q with
  | none =>
    simp only [hst, Option.some.injEq, Prod.mk.injEq] at h
    rw [← h.2]
    exact ⟨fun _ hp => hp, fun _ hsome => absurd hsome (by simp)⟩
  | some st =>
    simp only [hst] at h
    cases hupdate : updateEntry q st t.files with
    | some updated =>
      simp only [hupdate, Option.some.injEq, Prod.mk.injEq] at h
      -- an update presupposes an entry
      have hentry : t.entry q ≠ none := by
        intro hnone
        rw [updateEntry_eq_none.mpr hnone] at hupdate
        cases hupdate
      rw [← h.2]
      refine ⟨fun p hp => ?_, fun hnone _ => absurd hnone hentry⟩
      split
      · exact List.mem_append_left _ hp
      · exact hp
    | none =>
      simp only [hupdate] at h
      obtain ⟨t₁, -, heq⟩ := Option.map_eq_some_iff.mp h
      rw [← (Prod.mk.inj heq).2]
      exact ⟨fun p hp => List.mem_append_left _ hp,
        fun _ _ => List.mem_append_right _ List.mem_cons_self⟩

/-- A scan makes no entry for a path that fills the buffer, and reports the file. -/
theorem scan_full (hfull : path.length = maxPathLen - 1) (hunset : unset path ≠ [])
    (hfits : ∀ q ∈ current, q.length < maxPathLen) (hnew : t.entry path = none)
    (h : t.scan unset stat current changed = some (t', changed')) :
    t'.entry path = none ∧ (∀ p ∈ changed, p ∈ changed') ∧
      (path ∈ current → (stat path).isSome = true → path ∈ changed') := by
  induction current generalizing t changed with
  | nil =>
    simp only [FileTable.scan, Option.some.injEq, Prod.mk.injEq] at h
    obtain ⟨rfl, rfl⟩ := h
    exact ⟨hnew, fun _ hp => hp, fun hmem => absurd hmem List.not_mem_nil⟩
  | cons q current ih =>
    obtain ⟨⟨t₁, changed₁⟩, hcheck, hscan⟩ := Option.bind_eq_some_iff.mp h
    obtain ⟨hkept, hreported⟩ := mem_check hcheck
    have hnew₁ := entry_check_full hfull hunset (hfits q List.mem_cons_self) hnew hcheck
    obtain ⟨hnew', hkept', hlater⟩ := ih (fun p hp => hfits p (List.mem_cons_of_mem _ hp)) hnew₁
      hscan
    -- either the check of the file itself reports it, or the rest of the scan
    refine ⟨hnew', fun p hp => hkept' p (hkept p hp), fun hmem hsome => ?_⟩
    rcases List.mem_cons.mp hmem with rfl | hmem
    · exact hkept' path (hreported hnew hsome)
    · exact hlater hmem hsome

/-- Without the capacity a check is `checkFile`. -/
theorem checkFile_of_check (h : t.check unset stat path changed = some (t', changed')) :
    checkFile unset stat path t.files changed = (t'.files, changed') := by
  rw [FileTable.check] at h
  rw [checkFile]
  cases hst : stat path with
  | none =>
    simp only [hst, Option.some.injEq, Prod.mk.injEq] at h
    rw [h.1, h.2]
  | some st =>
    simp only [hst] at h ⊢
    -- an entry is updated in place, or a new one is put behind the others
    cases hupdate : updateEntry path st t.files with
    | some updated =>
      simp only [hupdate, Option.some.injEq, Prod.mk.injEq] at h ⊢
      rw [← h.1, ← h.2]
      exact ⟨rfl, rfl⟩
    | none =>
      simp only [hupdate, FileTable.append] at h ⊢
      split at h
      · simp only [Option.map_some, Option.some.injEq, Prod.mk.injEq] at h
        rw [← h.1, ← h.2]
      · cases h

/-- Without the capacity the scan is `statChangedFiles`. -/
theorem scan_refines (h : t.scan unset stat current changed = some (t', changed')) :
    statChangedFiles unset stat (current.map some) t.files changed =
      some (t'.files, changed') := by
  induction current generalizing t changed with
  | nil =>
    simp only [FileTable.scan, Option.some.injEq, Prod.mk.injEq] at h
    obtain ⟨rfl, rfl⟩ := h
    rfl
  | cons path current ih =>
    obtain ⟨⟨t₁, changed₁⟩, hcheck, hscan⟩ := Option.bind_eq_some_iff.mp h
    have hfile := checkFile_of_check hcheck
    rw [List.map_cons, statChangedFiles, hfile]
    exact ih hscan

end FileTable

/-- `find_changed_files` with an empty queue reports, in the order of the scan, exactly the files
that are outdated. Then the table is well formed and agrees with the disk on every file of the
scan, the other entries are as they were, and a second call reports nothing. -/
theorem findChangedFiles_settles {unset : Text → Text} {stat : Text → Option FileData}
    {current : List Text} {state : MonitorState} {capacity : ℕ}
    (hqueue : state.changedFilesQueue = [])
    (hwell : FileTable.WellFormed ⟨state.files, capacity⟩) (hnodup : current.Nodup)
    (hfits : ∀ path ∈ current, path.length < maxPathLen)
    (hterminated : ∀ path ∈ current, FileTable.entry ⟨state.files, capacity⟩ path = none →
      path.length < maxPathLen - 1 ∨ unset path = []) :
    ∃ files capacity',
      findChangedFilesIn unset stat current state capacity =
        some (current.filter (FileTable.Outdated ⟨state.files, capacity⟩ stat ·),
          { state with files }, capacity') ∧
      FileTable.WellFormed ⟨files, capacity'⟩ ∧
      (∀ path ∈ current, ∀ st, stat path = some st → FileTable.Agrees ⟨files, capacity'⟩ path st) ∧
      (∀ path, path ∉ current ∨ stat path = none →
        FileTable.entry ⟨files, capacity'⟩ path = FileTable.entry ⟨state.files, capacity⟩ path) ∧
      ∀ unset' current', current' ⊆ current →
        findChangedFilesIn unset' stat current' { state with files } capacity' =
          some ([], { state with files }, capacity') := by
  obtain ⟨t', hscan, hwell', hagrees, hkept⟩ := hwell.scan unset stat hnodup
    (fun path hpath hnone => FileTable.storedPath_of_terminated (hfits path hpath)
      (hterminated path hpath hnone)) []
  refine ⟨t'.files, t'.capacity, ?_, hwell', hagrees, hkept, fun unset' current' hsub => ?_⟩
  · simp [findChangedFilesIn, hqueue, hscan]
  · have hagain := FileTable.scan_of_agrees unset'
      (fun path hpath => hagrees path (hsub hpath)) []
    simp [findChangedFilesIn, hqueue, hagain]

/-- `strncpy` leaves out the NUL behind a new path of `MAX_PATH_LEN - 1` bytes: a call with an empty
queue reports the file, and leaves a state in which the next call does so again. -/
theorem findChangedFiles_full {unset : Text → Text} {stat : Text → Option FileData}
    {current changed : List Text} {state state' : MonitorState} {capacity capacity' : ℕ}
    {path : Text} (hfull : path.length = maxPathLen - 1) (hunset : unset path ≠ [])
    (hqueue : state.changedFilesQueue = []) (hfits : ∀ q ∈ current, q.length < maxPathLen)
    (hmem : path ∈ current) (hexists : (stat path).isSome = true)
    (hnew : FileTable.entry ⟨state.files, capacity⟩ path = none)
    (h : findChangedFilesIn unset stat current state capacity =
      some (changed, state', capacity')) :
    path ∈ changed ∧ state'.changedFilesQueue = [] ∧
      FileTable.entry ⟨state'.files, capacity'⟩ path = none := by
  rw [findChangedFilesIn, if_neg (by simp [hqueue])] at h
  obtain ⟨⟨t', changed'⟩, hscan, heq⟩ := Option.map_eq_some_iff.mp h
  simp only [Prod.mk.injEq] at heq
  obtain ⟨rfl, rfl, rfl⟩ := heq
  obtain ⟨hnew', -, hreported⟩ := FileTable.scan_full hfull hunset hfits hnew hscan
  exact ⟨hreported hmem hexists, hqueue, hnew'⟩

/-- The state with one file in its table. -/
def oneEntry (present : Bool) : MonitorState :=
  { MonitorState.fresh ['m'] 1 3 [] with
    files := [{ path := ['a'], mtime := 1, size := 2, «exists» := present }] }

theorem oneEntry_wellFormed (present : Bool) :
    FileTable.WellFormed ⟨(oneEntry present).files, 1⟩ :=
  ⟨List.nodup_singleton _, le_rfl⟩

/-- A file is on the disk as the table has it. -/
def sameFile (_ : Text) : Option FileData :=
  some { content := ['x', 'y'], mtime := 1 }

/-- `findChangedFiles_settles` where the table has to grow for the second file. -/
theorem settles_oneEntry :
    ∃ files capacity',
      findChangedFilesIn id sameFile [['a'], ['b']] (oneEntry true) 1 =
        some ([['b']], { oneEntry true with files }, capacity') ∧
      FileTable.WellFormed ⟨files, capacity'⟩ ∧
      findChangedFilesIn id sameFile [['a'], ['b']] { oneEntry true with files } capacity' =
        some ([], { oneEntry true with files }, capacity') := by
  obtain ⟨files, capacity', hfirst, hwell, -, -, hsecond⟩ :=
    @findChangedFiles_settles id sameFile [['a'], ['b']] (oneEntry true) 1 rfl
      (oneEntry_wellFormed true) (by decide) (by decide)
      fun path hpath _ => Or.inl (by revert path; decide)
  exact ⟨files, capacity', hfirst, hwell, hsecond id _ (List.Subset.refl _)⟩

/-- A file whose entry says that it does not exist is reported, whatever its time and size are. -/
theorem reported_of_not_exists :
    FileTable.WellFormed ⟨(oneEntry false).files, 1⟩ ∧
      ¬ ∃ changed state capacity,
        findChangedFilesIn id sameFile [['a']] (oneEntry false) 1 =
          some (changed, state, capacity) ∧
        ∀ path, path ∈ changed ↔ path ∈ [['a']] ∧ ∃ st, sameFile path = some st ∧
          ∀ info, FileTable.entry ⟨(oneEntry false).files, 1⟩ path = some info →
            info.mtime ≠ st.mtime ∨ info.size ≠ st.size := by
  refine ⟨oneEntry_wellFormed false, ?_⟩
  rintro ⟨changed, state, capacity, hrun, hall⟩
  obtain rfl : [['a']] = changed := congrArg Prod.fst (Option.some.inj hrun)
  obtain ⟨-, st, hst, hdiffers⟩ := (hall ['a']).mp List.mem_cons_self
  obtain rfl := Option.some.inj hst
  exact absurd (hdiffers _ rfl) (by decide)

end MonitorDaemon
