import PosixTasks.Lib.Fgets
import PosixTasks.Lib.Transition
import PosixTasks.MonitorDaemon.Names
import PosixTasks.MonitorDaemon.State

/-!
# Backups

`create_full_backup`, `create_incremental_backup` and `restore_file_to_sample` on the files of
the backup directory, which lies outside the monitored directory. No call that they make to read
or write a file fails.

`diff` and `patch` are run by a shell, on command lines that are printed into buffers of 2048 bytes
with the names of the files between double quotes. What a shell makes of a command line is given by
`Tools`; that it runs these programs on these files is known only for names that it reads as they
are, and for lines that fit.

## Main results

* `incrementalBackupLoop_full`: a sample keeps the base copy of a file, or takes one if it reports
  the file;
* `incrementalBackupLoop_isSome` and `incrementalBackupLoop_diff`: a sample writes a diff of a file
  exactly if it reports the file, and what is in it if its command line runs `diff`;
* `patchTempFile_eq`: what a restore makes of a base copy if its command line runs `patch`.
-/

namespace MonitorDaemon

open CString Transition

/-- The files of the backup directory by their paths. -/
abbrev Backups := Text → Option Text

/-- What the daemon relies on. The times of files are seen by the programs; those of one sample are
told by its number. -/
structure Tools where
  /-- The MIME type that `magic_file` gives a file with these bytes. -/
  magicFile : Text → Option Text
  /-- `getpid()`. -/
  pid : ℕ
  /-- What `diff -u` of two files writes in a sample, by their names and bytes; a missing file is
  `none`. -/
  diff : ℕ → Text → Text → Option Text → Option Text → Text
  /-- The file after `patch -u` has read a patch, if it exits with 0 and there is a file then. -/
  patch : Text → Text → Option Text
  /-- What a shell that `popen` starts in a sample writes for a command line, with the files that
  it can read. -/
  popen : ℕ → Text → (Text → Option Text) → Text
  /-- The files after a shell that `system` starts has run a command line, if it exits with 0. -/
  system : Text → (Text → Option Text) → Option (Text → Option Text)

/-- `patch` undoes `diff`: what it makes of the old text file is the new one. -/
def Tools.RoundTrip (tools : Tools) : Prop :=
  ∀ sample oldFile newFile old new, '\x00' ∉ old → '\x00' ∉ new →
    tools.patch old (tools.diff sample oldFile newFile (some old) (some new)) = some new

/-! ## Command lines -/

/-- `sizeof(cmd)` and `sizeof(patch_cmd)`. -/
def cmdSize : ℕ := 2048

/-- `"`, which stands around the names of files. -/
def quote : Char := '\x22'

/-- `" 2>/dev/null"`. -/
def discardErrors : Text := [' ', '2', '>', '/', 'd', 'e', 'v', '/', 'n', 'u', 'l', 'l']

/-- `"diff -u \"%s\" \"%s\" 2>/dev/null"`. -/
def diffCommand (oldFile newFile : Text) : Text :=
  ['d', 'i', 'f', 'f', ' ', '-', 'u', ' '] ++ quote :: oldFile ++
    quote :: ' ' :: quote :: newFile ++ quote :: discardErrors

/-- `"patch -u \"%s\" < \"%s\" 2>/dev/null"`. -/
def patchCommand (file input : Text) : Text :=
  ['p', 'a', 't', 'c', 'h', ' ', '-', 'u', ' '] ++ quote :: file ++
    quote :: ' ' :: '<' :: ' ' :: quote :: input ++ quote :: discardErrors

/-- The end of a text, and the characters that a shell does not take as they are between double
quotes. -/
def shellSpecial : List Char := ['\x00', '$', '\x60', quote, '\x5c']

/-- A text that a shell reads as it is between double quotes. -/
def Plain (s : Text) : Prop :=
  ∀ c ∈ s, c ∉ shellSpecial

instance (s : Text) : Decidable (Plain s) :=
  List.decidableBAll _ s

/-- A name that a shell hands on as it is, and that is not taken for an option. -/
structure Quotable (name : Text) : Prop where
  plain : Plain name
  not_option : name.head? ≠ some '-'

instance (name : Text) : Decidable (Quotable name) :=
  decidable_of_iff (Plain name ∧ name.head? ≠ some '-')
    ⟨fun ⟨h, h'⟩ => ⟨h, h'⟩, fun ⟨h, h'⟩ => ⟨h, h'⟩⟩

/-- Command lines with quotable names run `diff` and `patch` on the files that they name. -/
structure Tools.RunsCommands (tools : Tools) : Prop where
  diff : ∀ sample oldFile newFile files, Quotable oldFile → Quotable newFile →
    tools.popen sample (diffCommand oldFile newFile) files =
      tools.diff sample oldFile newFile (files oldFile) (files newFile)
  patch : ∀ file input files old new, Quotable file → Quotable input → file ≠ input →
    files file = some old → files input = some new →
    (tools.system (patchCommand file input) files).bind (fun files => files file) =
      tools.patch old new

/-- The command line of `save_diff` fits into its buffer, and its names are quotable. -/
structure DiffRuns (oldFile newFile : Text) : Prop where
  fits : (diffCommand oldFile newFile).length < cmdSize
  oldFile : Quotable oldFile
  newFile : Quotable newFile

/-- The command line of `restore_file_to_sample` fits into its buffer, and its names are
quotable. -/
structure PatchRuns (file input : Text) : Prop where
  fits : (patchCommand file input).length < cmdSize
  file : Quotable file
  input : Quotable input

/-- `"/temp_restore_"`. -/
def tempInfix : Text :=
  ['/', 't', 'e', 'm', 'p', '_', 'r', 'e', 's', 't', 'o', 'r', 'e', '_']

/-- `"/temp_clean_diff_"`. -/
def cleanDiffInfix : Text :=
  ['/', 't', 'e', 'm', 'p', '_', 'c', 'l', 'e', 'a', 'n', '_', 'd', 'i', 'f', 'f', '_']

/-- `"%s/temp_restore_%s_%d"`. -/
def tempFormat (relativePath : Text) (pid : ℕ) : Text :=
  backupDir ++ tempInfix ++ relativePath ++ '_' :: decimal pid

/-- `"%s/temp_clean_diff_%s_%d_%d"`. -/
def cleanDiffFormat (relativePath : Text) (sample pid : ℕ) : Text :=
  backupDir ++ cleanDiffInfix ++ relativePath ++ '_' :: decimal sample ++ '_' :: decimal pid

/-! ## Diff files -/

/-- `sizeof(line)`, the buffer of `fgets`. -/
def lineSize : ℕ := 4096

/-- `"# Timestamp: "`. -/
def timestampLabel : Text := ['#', ' ', 'T', 'i', 'm', 'e', 's', 't', 'a', 'm', 'p', ':', ' ']

/-- `"# Sample: "`. -/
def sampleLabel : Text := ['#', ' ', 'S', 'a', 'm', 'p', 'l', 'e', ':', ' ']

/-- `"# Old file: "`. -/
def oldFileLabel : Text := ['#', ' ', 'O', 'l', 'd', ' ', 'f', 'i', 'l', 'e', ':', ' ']

/-- `"# New file: "`. -/
def newFileLabel : Text := ['#', ' ', 'N', 'e', 'w', ' ', 'f', 'i', 'l', 'e', ':', ' ']

/-- `"---\n"`. -/
def metadataEnd : Text := ['-', '-', '-', '\n']

/-- The metadata that `save_diff` writes. -/
def metadata (oldFile newFile : Text) (timestamp sample : ℕ) : Text :=
  timestampLabel ++ decimal timestamp ++ ['\n'] ++ sampleLabel ++ decimal sample ++ ['\n'] ++
    oldFileLabel ++ oldFile ++ ['\n'] ++ newFileLabel ++ newFile ++ ['\n'] ++ metadataEnd

/-- The lines of a file as `fgets` reads them. -/
def linesOf (s : Text) : List Text :=
  (fgetsAll lineSize [] s).map ofBuffer

/-- The diff file that `save_diff` writes; `body` is the output of `diff`. -/
def saveDiff (oldFile newFile : Text) (timestamp sample : ℕ) (body : Text) : Text :=
  metadata oldFile newFile timestamp sample ++ (linesOf body).flatten

/-- A line that `restore_file_to_sample` leaves out. -/
def MetadataLine (line : Text) : Prop :=
  line.head? = some '#' ∨ metadataEnd <+: line

instance (line : Text) : Decidable (MetadataLine line) :=
  inferInstanceAs (Decidable (line.head? = some '#' ∨ metadataEnd <+: line))

/-- The patch that `restore_file_to_sample` extracts from a diff file. -/
def cleanDiff (diffFile : Text) : Text :=
  ((linesOf diffFile).filter fun line => ¬ MetadataLine line).flatten

/-! ## `create_full_backup` and `create_incremental_backup` -/

section

variable (stat : Text → Option FileData)

/-- The content of a file, if it exists. -/
def contentAt (path : Text) : Option Text :=
  (stat path).map FileData.content

/-- The file is in the backup directory. -/
def InBackupDir (path : Text) : Prop :=
  backupDir ++ ['/'] <+: path

instance (path : Text) : Decidable (InBackupDir path) :=
  inferInstanceAs (Decidable (backupDir ++ ['/'] <+: path))

/-- What a program can read: the files of the backup directory, and other files. -/
def readable (backups : Backups) (path : Text) : Option Text :=
  if InBackupDir path then backups path else contentAt stat path

/-- Copy a file, if it can be opened. -/
def copyFile (src dst : Text) (backups : Backups) : Backups :=
  match stat src with
  | some data => Function.update backups dst (some data.content)
  | none => backups

/-- One iteration of the loop of `create_full_backup`. -/
def fullBackupOf (monitoredDir path : Text) (backups : Backups) : Backups :=
  if basename path = debugLog then backups
  else
    let relativePath := makeBackupRelativePath path monitoredDir maxPathLen
    if maxPathLen ≤ (fullFormat relativePath).length then backups
    else copyFile stat path (fullFormat relativePath) backups

/-- The loop of `create_full_backup` over the files found. -/
def fullBackupLoop (monitoredDir : Text) (found : List Text) (backups : Backups) : Backups :=
  found.foldl (fun backups path => fullBackupOf stat monitoredDir path backups) backups

/-- The files found, if the array has no indeterminate element. -/
def filesFound (current : List (Option Text)) : Option (List Text) :=
  if current.contains none then none else some (current.filterMap id)

/-- `create_full_backup`; `current` is what `search_files_in_dir` returns. -/
def createFullBackup (current : List (Option Text)) (state : MonitorState) (backups : Backups) :
    Option (MonitorState × Backups) :=
  match filesFound current with
  | none => none
  | some [] => some (state, backups)
  | some found =>
      some ({ state with firstBackupDone := true },
        fullBackupLoop stat state.monitoredDir found backups)

/-- The base copy of a file is made unless there is one. -/
def keepBase (path oldBackupPath : Text) (backups : Backups) : Backups :=
  if (backups oldBackupPath).isSome then backups else copyFile stat path oldBackupPath backups

/-- One iteration of the loop of `create_incremental_backup`, in the sample `sample`. -/
def incrementalBackupOf (tools : Tools) (monitoredDir : Text) (now sample : ℕ) (path : Text)
    (backups : Backups) : Backups :=
  if basename path = debugLog then backups
  else
    let relativePath := makeBackupRelativePath path monitoredDir maxPathLen
    let oldBackupPath := fullFormat relativePath
    if maxPathLen ≤ oldBackupPath.length then backups
    else
      let backups := keepBase stat path oldBackupPath backups
      let diffPath := diffFormat relativePath sample
      if maxPathLen ≤ diffPath.length then backups
      else
        -- the command line is cut if it does not fit
        let cmd := snprintf cmdSize (diffCommand oldBackupPath path)
        let body := tools.popen sample cmd (readable stat backups)
        Function.update backups diffPath (some (saveDiff oldBackupPath path now sample body))

/-- The loop of `create_incremental_backup` over the paths reported. -/
def incrementalBackupLoop (tools : Tools) (monitoredDir : Text) (now sample : ℕ)
    (changed : List Text) (backups : Backups) : Backups :=
  changed.foldl (fun backups path =>
    incrementalBackupOf stat tools monitoredDir now sample path backups) backups

/-- `create_incremental_backup`: the paths reported, and the state and the backups after it. -/
def createIncrementalBackup (tools : Tools) (unset : Text → Text) (current : List (Option Text))
    (now : ℕ) (state : MonitorState) (backups : Backups) :
    Option (List Text × MonitorState × Backups) :=
  match findChangedFiles unset stat current state with
  | none => none
  | some (changed, state) =>
      some (changed, state,
        incrementalBackupLoop stat tools state.monitoredDir now state.currentSample changed
          backups)

end

/-! ## `restore_file_to_sample` -/

/-- What `restore_file_to_sample` makes of `temp_file`, which holds the base copy, with a diff file;
`none` if the command line of `patch` fails. -/
def patchTempFile (tools : Tools) (backups : Backups) (relativePath : Text) (sample : ℕ)
    (base diffFile : Text) : Option Text :=
  let tempFile := snprintf maxPathLen (tempFormat relativePath tools.pid)
  let cleanDiffPath := snprintf maxPathLen (cleanDiffFormat relativePath sample tools.pid)
  let files := Function.update (Function.update backups tempFile (some base)) cleanDiffPath
    (some (cleanDiff diffFile))
  (tools.system (snprintf cmdSize (patchCommand tempFile cleanDiffPath)) files).bind fun files =>
    files tempFile

/-- `restore_file_to_sample`: the file it writes and its bytes, if it returns 0. -/
def restoreFileToSample (tools : Tools) (state : MonitorState) (backups : Backups)
    (filename : Text) (targetSample : ℤ) : Option (Text × Text) :=
  if filename = [] then none
  else if targetSample < 1 ∨ (state.currentSample : ℤ) < targetSample then none
  else
    let sample := targetSample.toNat
    match backups (fullBackupPath state.monitoredDir filename) with
    | none => none
    | some base =>
      match backups (diffPath state.monitoredDir filename sample) with
      | none => some (restoredFilePath state.monitoredDir filename sample, base)
      | some diffFile =>
        match patchTempFile tools backups (relativePathOf state.monitoredDir filename) sample base
            diffFile with
        | none => none
        | some restored => some (restoredFilePath state.monitoredDir filename sample, restored)

/-! ## What a backup leaves behind -/

/-- The paths that the loops over the files do not skip. -/
def backedUp (paths : List Text) : List Text :=
  paths.filter fun path => basename path ≠ debugLog

theorem plain_append {s t : Text} : Plain (s ++ t) ↔ Plain s ∧ Plain t :=
  List.forall_mem_append

theorem plain_cons {c : Char} {s : Text} : Plain (c :: s) ↔ c ∉ shellSpecial ∧ Plain s :=
  List.forall_mem_cons

theorem plain_decimal (n : ℕ) : Plain (decimal n) := by
  have hdigit : shellSpecial.all (fun c => ! c.isDigit) = true := by decide
  intro c hc hspecial
  exact not_mem_decimal (by simpa using List.all_eq_true.mp hdigit c hspecial) n hc

/-- A name in the backup directory is quotable if what follows the directory is plain. -/
theorem quotable_backupDir {name : Text} (h : Plain name) : Quotable (backupDir ++ name) where
  plain := plain_append.mpr ⟨by decide, h⟩
  not_option := by simp [backupDir]

theorem fullFormat_ne_diffFormat (r r' : Text) (n : ℕ) : fullFormat r ≠ diffFormat r' n := by
  simp [fullFormat, diffFormat, fullInfix, diffInfix]

section

variable {stat : Text → Option FileData} {tools : Tools} {monitoredDir path r : Text}
  {now sample n : ℕ} {backups : Backups}

/-- What is at a key after a copy to it, if nothing was there. -/
theorem copyFile_self (src dst : Text) (hnone : backups dst = none) :
    copyFile stat src dst backups dst = contentAt stat src := by
  unfold copyFile contentAt
  cases stat src with
  | none => simpa using hnone
  | some data => simp

theorem copyFile_other (src : Text) {dst key : Text} (h : key ≠ dst) :
    copyFile stat src dst backups key = backups key := by
  unfold copyFile
  cases stat src with
  | none => rfl
  | some data => simp [h]

/-- The base copy is the one that was there, or the file itself. -/
theorem keepBase_self (path old : Text) :
    keepBase stat path old backups old = (backups old).or (contentAt stat path) := by
  unfold keepBase
  cases hb : backups old with
  | none => simpa using copyFile_self path old hb
  | some base => simp [hb]

theorem keepBase_other (path : Text) {old key : Text} (h : key ≠ old) :
    keepBase stat path old backups key = backups key := by
  rw [keepBase]
  split
  · rfl
  · exact copyFile_other path h

/-- A file with another name in the backup directory leaves the base copy as it is. -/
theorem incrementalBackupOf_full_of_ne
    (h : makeBackupRelativePath path monitoredDir maxPathLen ≠ r) :
    incrementalBackupOf stat tools monitoredDir now sample path backups (fullFormat r) =
      backups (fullFormat r) := by
  have hkey : fullFormat r ≠ fullFormat (makeBackupRelativePath path monitoredDir maxPathLen) :=
    fun heq => h (fullFormat_inj.mp heq).symm
  simp only [incrementalBackupOf]
  split
  · rfl
  · split
    · rfl
    · split
      · exact keepBase_other _ hkey
      · rw [Function.update_of_ne (fullFormat_ne_diffFormat _ _ _), keepBase_other _ hkey]

/-- A file with another name in the backup directory leaves the diff as it is, and so does
another sample. -/
theorem incrementalBackupOf_diff_of_ne
    (h : makeBackupRelativePath path monitoredDir maxPathLen ≠ r ∨ sample ≠ n) :
    incrementalBackupOf stat tools monitoredDir now sample path backups (diffFormat r n) =
      backups (diffFormat r n) := by
  have hkey : diffFormat r n ≠
      diffFormat (makeBackupRelativePath path monitoredDir maxPathLen) sample := by
    intro heq
    obtain ⟨hr, hn⟩ := diffFormat_inj.mp heq
    exact h.elim (fun hne => hne hr.symm) fun hne => hne hn.symm
  have hfull : diffFormat r n ≠
      fullFormat (makeBackupRelativePath path monitoredDir maxPathLen) :=
    (fullFormat_ne_diffFormat _ _ _).symm
  simp only [incrementalBackupOf]
  split
  · rfl
  · split
    · rfl
    · split
      · exact keepBase_other _ hfull
      · rw [Function.update_of_ne hkey, keepBase_other _ hfull]

/-- The base copy after a file was backed up: the one that was there, or the file itself. -/
theorem incrementalBackupOf_full (hlog : basename path ≠ debugLog)
    (hrel : makeBackupRelativePath path monitoredDir maxPathLen = r)
    (hfits : (fullFormat r).length < maxPathLen) :
    incrementalBackupOf stat tools monitoredDir now sample path backups (fullFormat r) =
      (backups (fullFormat r)).or (contentAt stat path) := by
  simp only [incrementalBackupOf, if_neg hlog, hrel, if_neg (Nat.not_le.mpr hfits)]
  split
  · exact keepBase_self path _
  · rw [Function.update_of_ne (fullFormat_ne_diffFormat _ _ _), keepBase_self]

theorem inBackupDir_fullFormat (r : Text) : InBackupDir (fullFormat r) :=
  ⟨['f', 'u', 'l', 'l', '_'] ++ r, by simp [fullFormat, fullInfix]⟩

/-- A command line that fits and has quotable names compares the two files. -/
theorem popen_diffCommand (hruns : tools.RunsCommands) (h : DiffRuns (fullFormat r) path)
    (houtside : ¬ InBackupDir path) :
    tools.popen sample (snprintf cmdSize (diffCommand (fullFormat r) path))
        (readable stat backups) =
      tools.diff sample (fullFormat r) path (backups (fullFormat r)) (contentAt stat path) := by
  rw [snprintf_of_fits h.fits, hruns.diff _ _ _ _ h.oldFile h.newFile, readable, readable,
    if_pos (inBackupDir_fullFormat r), if_neg houtside]

/-- There is a diff after a file was backed up. -/
theorem incrementalBackupOf_isSome (hlog : basename path ≠ debugLog)
    (hrel : makeBackupRelativePath path monitoredDir maxPathLen = r)
    (hfits : (fullFormat r).length < maxPathLen)
    (hdiff : (diffFormat r sample).length < maxPathLen) :
    (incrementalBackupOf stat tools monitoredDir now sample path backups
      (diffFormat r sample)).isSome = true := by
  simp only [incrementalBackupOf, if_neg hlog, hrel, if_neg (Nat.not_le.mpr hfits),
    if_neg (Nat.not_le.mpr hdiff), Function.update_self, Option.isSome_some]

/-- The diff after a file was backed up leads from its base copy to the file as it is. -/
theorem incrementalBackupOf_diff (hruns : tools.RunsCommands) (hcmd : DiffRuns (fullFormat r) path)
    (houtside : ¬ InBackupDir path) (hlog : basename path ≠ debugLog)
    (hrel : makeBackupRelativePath path monitoredDir maxPathLen = r)
    (hfits : (fullFormat r).length < maxPathLen)
    (hdiff : (diffFormat r sample).length < maxPathLen) :
    incrementalBackupOf stat tools monitoredDir now sample path backups (diffFormat r sample) =
      some (saveDiff (fullFormat r) path now sample (tools.diff sample (fullFormat r) path
        ((backups (fullFormat r)).or (contentAt stat path)) (contentAt stat path))) := by
  simp only [incrementalBackupOf, if_neg hlog, hrel, if_neg (Nat.not_le.mpr hfits),
    if_neg (Nat.not_le.mpr hdiff)]
  rw [Function.update_self, popen_diffCommand hruns hcmd houtside, keepBase_self]

/-- The files that the loop skips do not matter. -/
theorem incrementalBackupLoop_backedUp (changed : List Text) :
    incrementalBackupLoop stat tools monitoredDir now sample changed backups =
      incrementalBackupLoop stat tools monitoredDir now sample (backedUp changed) backups := by
  rw [incrementalBackupLoop, incrementalBackupLoop, backedUp, List.foldl_filter]
  congr 1
  funext b p
  by_cases hlog : basename p = debugLog
  · simp [incrementalBackupOf, hlog]
  · simp [hlog]

/-- A sample keeps the base copy of a file, or takes one if it reports the file. -/
theorem incrementalBackupLoop_full {changed : List Text}
    (hrel : makeBackupRelativePath path monitoredDir maxPathLen = r)
    (hone : ∀ p ∈ backedUp changed,
      makeBackupRelativePath p monitoredDir maxPathLen = r → p = path)
    (hfits : (fullFormat r).length < maxPathLen) :
    incrementalBackupLoop stat tools monitoredDir now sample changed backups (fullFormat r) =
      (backups (fullFormat r)).or
        (if path ∈ backedUp changed then contentAt stat path else none) := by
  rw [incrementalBackupLoop_backedUp]
  have hfold := foldl_observe
    (fun backups p => incrementalBackupOf stat tools monitoredDir now sample p backups)
    (fun backups : Backups => backups (fullFormat r)) (fun base => base.or (contentAt stat path))
    (p := path) (l := backedUp changed) ?_ ?_ ?_ backups
  · split
    next hmem => exact hfold.1 hmem
    next hmem => exact (hfold.2 hmem).trans Option.or_none.symm
  · intro hmem s
    exact incrementalBackupOf_full (by simpa [backedUp] using (List.mem_filter.mp hmem).2) hrel
      hfits
  · intro p hp hne s
    exact incrementalBackupOf_full_of_ne fun heq => hne (hone p hp heq)
  · intro base
    cases base <;> simp

/-- A sample writes a diff of a file exactly if it reports the file. -/
theorem incrementalBackupLoop_isSome {changed : List Text}
    (hrel : makeBackupRelativePath path monitoredDir maxPathLen = r)
    (hone : ∀ p ∈ backedUp changed,
      makeBackupRelativePath p monitoredDir maxPathLen = r → p = path)
    (hfits : (fullFormat r).length < maxPathLen)
    (hdiff : (diffFormat r sample).length < maxPathLen) :
    (incrementalBackupLoop stat tools monitoredDir now sample changed backups
        (diffFormat r sample)).isSome =
      if path ∈ backedUp changed then true else (backups (diffFormat r sample)).isSome := by
  rw [incrementalBackupLoop_backedUp]
  have hfold := foldl_observe
    (fun backups p => incrementalBackupOf stat tools monitoredDir now sample p backups)
    (fun backups : Backups => (backups (diffFormat r sample)).isSome) (fun _ => true)
    (p := path) (l := backedUp changed) ?_ ?_ ?_ backups
  · split
    next hmem => exact hfold.1 hmem
    next hmem => exact hfold.2 hmem
  · intro hmem s
    exact incrementalBackupOf_isSome (by simpa [backedUp] using (List.mem_filter.mp hmem).2) hrel
      hfits hdiff
  · intro p hp hne s
    rw [incrementalBackupOf_diff_of_ne (Or.inl fun heq => hne (hone p hp heq))]
  · intro b
    rfl

/-- The diff of a file that a sample reports. -/
theorem incrementalBackupLoop_diff {changed : List Text} (hruns : tools.RunsCommands)
    (hcmd : DiffRuns (fullFormat r) path) (houtside : ¬ InBackupDir path)
    (hrel : makeBackupRelativePath path monitoredDir maxPathLen = r)
    (hone : ∀ p ∈ backedUp changed,
      makeBackupRelativePath p monitoredDir maxPathLen = r → p = path)
    (hfits : (fullFormat r).length < maxPathLen)
    (hdiff : (diffFormat r sample).length < maxPathLen) :
    incrementalBackupLoop stat tools monitoredDir now sample changed backups (diffFormat r sample) =
      if path ∈ backedUp changed then
        some (saveDiff (fullFormat r) path now sample (tools.diff sample (fullFormat r) path
          ((backups (fullFormat r)).or (contentAt stat path)) (contentAt stat path)))
      else backups (diffFormat r sample) := by
  rw [incrementalBackupLoop_backedUp]
  -- the diff depends on the base copy, so both are observed
  have hfold := foldl_observe
    (fun backups p => incrementalBackupOf stat tools monitoredDir now sample p backups)
    (fun backups : Backups => (backups (fullFormat r), backups (diffFormat r sample)))
    (fun x => (x.1.or (contentAt stat path),
      some (saveDiff (fullFormat r) path now sample (tools.diff sample (fullFormat r) path
        (x.1.or (contentAt stat path)) (contentAt stat path)))))
    (p := path) (l := backedUp changed) ?_ ?_ ?_ backups
  · split
    next hmem => exact congrArg Prod.snd (hfold.1 hmem)
    next hmem => exact congrArg Prod.snd (hfold.2 hmem)
  · intro hmem s
    have hlog : basename path ≠ debugLog := by
      simpa [backedUp] using (List.mem_filter.mp hmem).2
    rw [incrementalBackupOf_full hlog hrel hfits,
      incrementalBackupOf_diff hruns hcmd houtside hlog hrel hfits hdiff]
  · intro p hp hne s
    have hother : makeBackupRelativePath p monitoredDir maxPathLen ≠ r :=
      fun heq => hne (hone p hp heq)
    rw [incrementalBackupOf_full_of_ne hother, incrementalBackupOf_diff_of_ne (Or.inl hother)]
  · rintro ⟨x, y⟩
    cases x <;> simp

/-- A sample leaves the diffs of the other samples as they are. -/
theorem incrementalBackupLoop_diff_of_ne {changed : List Text} (h : sample ≠ n) :
    incrementalBackupLoop stat tools monitoredDir now sample changed backups (diffFormat r n) =
      backups (diffFormat r n) := by
  rw [incrementalBackupLoop]
  induction changed generalizing backups with
  | nil => rfl
  | cons p changed ih => rw [List.foldl_cons, ih, incrementalBackupOf_diff_of_ne (Or.inr h)]

/-! ## What the full backup leaves behind -/

/-- The full backup copies the files found and changes the flag alone. -/
theorem createFullBackup_spec {current : List (Option Text)} {monitor monitor' : MonitorState}
    {backups' : Backups}
    (h : createFullBackup stat current monitor backups = some (monitor', backups')) :
    ∃ found done, filesFound current = some found ∧
      monitor' = { monitor with firstBackupDone := done } ∧
      backups' = fullBackupLoop stat monitor.monitoredDir found backups := by
  unfold createFullBackup at h
  split at h
  · simp at h
  next hfound =>
    simp only [Option.some.injEq, Prod.mk.injEq] at h
    exact ⟨[], monitor.firstBackupDone, hfound, h.1.symm, h.2.symm⟩
  next found _ hfound =>
    simp only [Option.some.injEq, Prod.mk.injEq] at h
    exact ⟨found, true, hfound, h.1.symm, h.2.symm⟩

theorem fullBackupOf_diff : fullBackupOf stat monitoredDir path backups (diffFormat r n) =
    backups (diffFormat r n) := by
  simp only [fullBackupOf]
  split
  · rfl
  · split
    · rfl
    · exact copyFile_other _ (fullFormat_ne_diffFormat _ _ _).symm

theorem fullBackupOf_full_of_ne (h : makeBackupRelativePath path monitoredDir maxPathLen ≠ r) :
    fullBackupOf stat monitoredDir path backups (fullFormat r) = backups (fullFormat r) := by
  simp only [fullBackupOf]
  split
  · rfl
  · split
    · rfl
    · exact copyFile_other _ fun heq => h (fullFormat_inj.mp heq).symm

theorem fullBackupOf_full (hlog : basename path ≠ debugLog)
    (hrel : makeBackupRelativePath path monitoredDir maxPathLen = r)
    (hfits : (fullFormat r).length < maxPathLen) :
    fullBackupOf stat monitoredDir path backups (fullFormat r) =
      (contentAt stat path).or (backups (fullFormat r)) := by
  simp only [fullBackupOf, if_neg hlog, hrel, if_neg (Nat.not_le.mpr hfits), copyFile, contentAt]
  cases stat path with
  | none => simp
  | some data => simp

/-- The full backup writes no diffs. -/
theorem fullBackupLoop_diff (found : List Text) :
    fullBackupLoop stat monitoredDir found backups (diffFormat r n) =
      backups (diffFormat r n) := by
  rw [fullBackupLoop]
  induction found generalizing backups with
  | nil => rfl
  | cons p found ih => rw [List.foldl_cons, ih, fullBackupOf_diff]

/-- The full backup copies the files found. -/
theorem fullBackupLoop_full {found : List Text}
    (hrel : makeBackupRelativePath path monitoredDir maxPathLen = r)
    (hone : ∀ p ∈ backedUp found, makeBackupRelativePath p monitoredDir maxPathLen = r → p = path)
    (hfits : (fullFormat r).length < maxPathLen) :
    fullBackupLoop stat monitoredDir found backups (fullFormat r) =
      if path ∈ backedUp found then (contentAt stat path).or (backups (fullFormat r))
      else backups (fullFormat r) := by
  have hskip : fullBackupLoop stat monitoredDir found backups =
      fullBackupLoop stat monitoredDir (backedUp found) backups := by
    rw [fullBackupLoop, fullBackupLoop, backedUp, List.foldl_filter]
    congr 1
    funext b p
    by_cases hlog : basename p = debugLog
    · simp [fullBackupOf, hlog]
    · simp [hlog]
  rw [hskip]
  have hfold := foldl_observe (fun backups p => fullBackupOf stat monitoredDir p backups)
    (fun backups : Backups => backups (fullFormat r)) (fun base => (contentAt stat path).or base)
    (p := path) (l := backedUp found) ?_ ?_ ?_ backups
  · split
    next hmem => exact hfold.1 hmem
    next hmem => exact hfold.2 hmem
  · intro hmem s
    exact fullBackupOf_full (by simpa [backedUp] using (List.mem_filter.mp hmem).2) hrel hfits
  · intro p hp hne s
    exact fullBackupOf_full_of_ne fun heq => hne (hone p hp heq)
  · intro base
    cases contentAt stat path <;> simp

/-! ## What a restore makes of a base copy -/

theorem length_lt_of_patchRuns {file input : Text} (h : PatchRuns file input) :
    file.length < maxPathLen ∧ input.length < maxPathLen := by
  have hfits := h.fits
  simp only [patchCommand, cmdSize, List.length_append, List.length_cons] at hfits
  constructor <;> rw [maxPathLen] <;> omega

theorem tempFormat_ne_cleanDiffFormat (r : Text) (n pid : ℕ) :
    tempFormat r pid ≠ cleanDiffFormat r n pid := by
  simp [tempFormat, cleanDiffFormat, tempInfix, cleanDiffInfix]

/-- A command line that fits and has quotable names patches the base copy. -/
theorem patchTempFile_eq (hruns : tools.RunsCommands)
    (h : PatchRuns (tempFormat r tools.pid) (cleanDiffFormat r n tools.pid))
    (base diffFile : Text) :
    patchTempFile tools backups r n base diffFile = tools.patch base (cleanDiff diffFile) := by
  obtain ⟨htemp, hclean⟩ := length_lt_of_patchRuns h
  have hne := tempFormat_ne_cleanDiffFormat r n tools.pid
  simp only [patchTempFile, snprintf_of_fits htemp, snprintf_of_fits hclean,
    snprintf_of_fits h.fits]
  refine hruns.patch _ _ _ _ _ h.file h.input hne ?_ (Function.update_self ..)
  rw [Function.update_of_ne hne, Function.update_self]

end

end MonitorDaemon
