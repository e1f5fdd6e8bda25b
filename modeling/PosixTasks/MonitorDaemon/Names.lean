import PosixTasks.MonitorDaemon.Disk

/-!
# Names of backup artefacts

A monitored file has a base copy in the backup directory, a diff for each sample that reports
it, and a restored copy in the monitored directory for each sample restored. Their names are
made from the path of the file by `make_backup_relative_path` and by the format strings of
`create_full_backup`, `create_incremental_backup` and `restore_file_to_sample`.

## Main results

* `noSharedName_iff`: no two files share an artefact exactly if their relative paths do not
  become equal when `/` is read as `_`, and no two of them restored to one sample have the same
  base name.
-/

namespace MonitorDaemon

open CString

/-- `BACKUP_DIR`. -/
def backupDir : Text :=
  ['/', 't', 'm', 'p', '/', 'd', 'a', 'e', 'm', 'o', 'n', '_', 'b', 'a', 'c', 'k', 'u', 'p', 's']

/-- `"/full_"`. -/
def fullInfix : Text := ['/', 'f', 'u', 'l', 'l', '_']

/-- `"/diff_"`. -/
def diffInfix : Text := ['/', 'd', 'i', 'f', 'f', '_']

/-- `"_sample_"`. -/
def sampleInfix : Text := ['_', 's', 'a', 'm', 'p', 'l', 'e', '_']

/-- `"_restored"`, without the `_` before the sample. -/
def restoredInfix : Text := ['_', 'r', 'e', 's', 't', 'o', 'r', 'e', 'd']

/-- What replaces a character of the relative path. -/
def flatten (c : Char) : Char :=
  if c = '/' then '_' else c

/-- `if (relative_path[0] == '/') memmove(...)`. -/
def dropLeadingSlash : Text → Text
  | [] => []
  | c :: s => if c = '/' then s else c :: s

/-- `make_backup_relative_path`. -/
def makeBackupRelativePath (filePath monitoredDir : Text) (relPathSize : ℕ) : Text :=
  let relativePath :=
    if monitoredDir <+: filePath then
      if monitoredDir.length < filePath.length then
        dropLeadingSlash ((filePath.drop monitoredDir.length).take (relPathSize - 1))
      else (basename filePath).take (relPathSize - 1)
    else filePath.take (relPathSize - 1)
  relativePath.map flatten

/-- `"%s/full_%s"`. -/
def fullFormat (relativePath : Text) : Text :=
  backupDir ++ fullInfix ++ relativePath

/-- `"%s/diff_%s_sample_%d"`. -/
def diffFormat (relativePath : Text) (sample : ℕ) : Text :=
  backupDir ++ diffInfix ++ relativePath ++ sampleInfix ++ decimal sample

/-- The two formats of `restored_filename`: `"%.*s_restored_%d%s"` at the last dot, else
`"%s_restored_%d"`. -/
def restoredFormat (basename : Text) (sample : ℕ) : Text :=
  match splitLast '.' basename with
  | some (stem, ext) => stem ++ restoredInfix ++ '_' :: decimal sample ++ '.' :: ext
  | none => basename ++ restoredInfix ++ '_' :: decimal sample

/-- `relative_path`, for the file that `filename` names in `monitored_dir`. -/
def relativePathOf (monitoredDir filename : Text) : Text :=
  makeBackupRelativePath (snprintf maxPathLen (joinPath monitoredDir filename)) monitoredDir
    maxPathLen

/-- `backup_path`, `old_backup_path` and `base_backup_path`. -/
def fullBackupPath (monitoredDir filename : Text) : Text :=
  snprintf maxPathLen (fullFormat (relativePathOf monitoredDir filename))

/-- `diff_path`. -/
def diffPath (monitoredDir filename : Text) (sample : ℕ) : Text :=
  snprintf maxPathLen (diffFormat (relativePathOf monitoredDir filename) sample)

/-- `restored_file_path`. -/
def restoredFilePath (monitoredDir filename : Text) (sample : ℕ) : Text :=
  snprintf maxPathLen
    (joinPath monitoredDir (snprintf maxPathLen (restoredFormat (basename filename) sample)))

/-- A file under `monitoredDir`, by its path relative to it, and a sample. No name made from
them is too long for its buffer. -/
@[ext]
structure FileSample (monitoredDir : Text) where
  filename : Text
  sample : ℕ
  ne_nil : filename ≠ []
  relative : filename.head? ≠ some '/'
  path_fits : (joinPath monitoredDir filename).length < maxPathLen
  full_fits : (fullFormat filename).length < maxPathLen
  diff_fits : (diffFormat filename sample).length < maxPathLen
  restored_fits :
    (joinPath monitoredDir (restoredFormat (basename filename) sample)).length < maxPathLen

variable {monitoredDir : Text}

/-- Characters that a backup name does not tell apart. -/
def FlatEq (c d : Char) : Prop :=
  c = d ∨ (c = '/' ∨ c = '_') ∧ (d = '/' ∨ d = '_')

/-- Paths that are equal when `/` is read as `_`. -/
def Confusable : Text → Text → Prop :=
  List.Forall₂ FlatEq

/-- No two files of `files` share a base copy, and no two of its pairs of a file and a sample
share a diff or a restored copy. -/
structure NoSharedName (files : Set (FileSample monitoredDir)) : Prop where
  full : ∀ x ∈ files, ∀ y ∈ files, x.filename ≠ y.filename →
    fullBackupPath monitoredDir x.filename ≠ fullBackupPath monitoredDir y.filename
  diff : ∀ x ∈ files, ∀ y ∈ files, x ≠ y →
    diffPath monitoredDir x.filename x.sample ≠ diffPath monitoredDir y.filename y.sample
  restored : ∀ x ∈ files, ∀ y ∈ files, x ≠ y →
    restoredFilePath monitoredDir x.filename x.sample ≠
      restoredFilePath monitoredDir y.filename y.sample

/-! ## The name of one file -/

theorem flatten_eq_iff {c d : Char} : flatten c = flatten d ↔ FlatEq c d := by
  unfold flatten FlatEq
  split <;> split <;> grind

/-- Relative paths are flattened to one text exactly if they are confusable. -/
theorem map_flatten_eq_iff {r r' : Text} : r.map flatten = r'.map flatten ↔ Confusable r r' := by
  induction r generalizing r' with
  | nil =>
    cases r' with
    | nil => exact iff_of_true rfl List.Forall₂.nil
    | cons d r' => exact ⟨fun h => by simp at h, fun h => by cases h⟩
  | cons c r ih =>
    cases r' with
    | nil => exact ⟨fun h => by simp at h, fun h => by cases h⟩
    | cons d r' =>
      simp only [List.map_cons, List.cons.injEq, flatten_eq_iff, ih, Confusable,
        List.forall₂_cons]

/-- The relative path of a file under the monitored directory is its name in it, flattened. -/
theorem relativePathOf_eq (x : FileSample monitoredDir) :
    relativePathOf monitoredDir x.filename = x.filename.map flatten := by
  have hprefix : monitoredDir <+: joinPath monitoredDir x.filename :=
    List.prefix_append _ _
  have hlong : monitoredDir.length < (joinPath monitoredDir x.filename).length := by
    simp [joinPath]
  have hdrop : (joinPath monitoredDir x.filename).drop monitoredDir.length =
      '/' :: x.filename := by
    simp [joinPath]
  have hfits : ('/' :: x.filename).length ≤ maxPathLen - 1 := by
    have := x.path_fits
    simp only [joinPath, List.length_append] at this
    omega
  rw [relativePathOf, snprintf_of_fits x.path_fits, makeBackupRelativePath, if_pos hprefix,
    if_pos hlong, hdrop, List.take_of_length_le hfits]
  rfl

theorem fullBackupPath_eq (x : FileSample monitoredDir) :
    fullBackupPath monitoredDir x.filename = fullFormat (x.filename.map flatten) := by
  rw [fullBackupPath, relativePathOf_eq, snprintf_of_fits]
  simpa [fullFormat] using x.full_fits

theorem diffPath_eq (x : FileSample monitoredDir) :
    diffPath monitoredDir x.filename x.sample =
      diffFormat (x.filename.map flatten) x.sample := by
  rw [diffPath, relativePathOf_eq, snprintf_of_fits]
  simpa [diffFormat] using x.diff_fits

theorem restoredFilePath_eq (x : FileSample monitoredDir) :
    restoredFilePath monitoredDir x.filename x.sample =
      joinPath monitoredDir (restoredFormat (basename x.filename) x.sample) := by
  have hfits := x.restored_fits
  rw [restoredFilePath, snprintf_of_fits (s := restoredFormat _ _), snprintf_of_fits hfits]
  simp only [joinPath, List.length_append, List.length_cons] at hfits
  omega

/-! ## Names and what they tell apart -/

theorem fullFormat_inj {r r' : Text} : fullFormat r = fullFormat r' ↔ r = r' := by
  simp [fullFormat]

/-- A decimal number behind the last `_` is read back from the name. -/
theorem append_decimal_inj {a a' : Text} {n n' : ℕ} :
    a ++ '_' :: decimal n = a' ++ '_' :: decimal n' ↔ a = a' ∧ n = n' := by
  rw [append_last_inj (not_mem_decimal (by decide) n) (not_mem_decimal (by decide) n'),
    decimal_injective.eq_iff]

/-- A diff name determines the flattened path and the sample. -/
theorem diffFormat_inj {r r' : Text} {n n' : ℕ} :
    diffFormat r n = diffFormat r' n' ↔ r = r' ∧ n = n' := by
  have hformat : ∀ (r : Text) (n : ℕ), diffFormat r n =
      (backupDir ++ diffInfix ++ r ++ ['_', 's', 'a', 'm', 'p', 'l', 'e']) ++
        '_' :: decimal n := by
    intro r n
    simp [diffFormat, sampleInfix]
  rw [hformat, hformat, append_decimal_inj]
  simp

/-- A restored copy keeps the dot of the base name, and its absence. -/
theorem dot_mem_restoredFormat {b : Text} {n : ℕ} : '.' ∈ restoredFormat b n ↔ '.' ∈ b := by
  by_cases hb : '.' ∈ b
  · obtain ⟨stem, ext, rfl, hext⟩ := exists_last_of_mem hb
    simp [restoredFormat, splitLast_append hext]
  · have hdecimal : '.' ∉ decimal n := not_mem_decimal (by decide) n
    simp [restoredFormat, splitLast_eq_none hb, hb, hdecimal, restoredInfix]

/-- The name of a restored copy determines the base name and the sample. -/
theorem restoredFormat_inj {b b' : Text} {n n' : ℕ} :
    restoredFormat b n = restoredFormat b' n' ↔ b = b' ∧ n = n' := by
  refine ⟨fun h => ?_, fun ⟨hb, hn⟩ => by rw [hb, hn]⟩
  have hdot : '.' ∈ b ↔ '.' ∈ b' := by
    rw [← dot_mem_restoredFormat (n := n), h, dot_mem_restoredFormat]
  by_cases hb : '.' ∈ b
  · -- the extension is what follows the last dot
    obtain ⟨stem, ext, rfl, hext⟩ := exists_last_of_mem hb
    obtain ⟨stem', ext', rfl, hext'⟩ := exists_last_of_mem (hdot.mp hb)
    simp only [restoredFormat, splitLast_append hext, splitLast_append hext'] at h
    rw [append_last_inj hext hext', append_decimal_inj, List.append_cancel_right_eq] at h
    obtain ⟨⟨rfl, rfl⟩, rfl⟩ := h
    exact ⟨rfl, rfl⟩
  · simp only [restoredFormat, splitLast_eq_none hb, splitLast_eq_none (mt hdot.mpr hb)] at h
    rwa [append_decimal_inj, List.append_cancel_right_eq] at h

theorem joinPath_inj {dir b b' : Text} : joinPath dir b = joinPath dir b' ↔ b = b' := by
  simp [joinPath]

/-! ## Which files share a name -/

/-- No two files share an artefact exactly if no two of their paths become equal when `/` is
read as `_`, and no two files restored to one sample have the same base name. -/
theorem noSharedName_iff (files : Set (FileSample monitoredDir)) :
    NoSharedName files ↔
      ∀ x ∈ files, ∀ y ∈ files, x.filename ≠ y.filename →
        ¬ Confusable x.filename y.filename ∧
          (x.sample = y.sample → basename x.filename ≠ basename y.filename) := by
  constructor
  · intro h x hx y hy hne
    refine ⟨fun hconf => h.full x hx y hy hne ?_, fun hsample hbase =>
      h.restored x hx y hy (fun heq => hne (heq ▸ rfl)) ?_⟩
    · rw [fullBackupPath_eq, fullBackupPath_eq, map_flatten_eq_iff.mpr hconf]
    · rw [restoredFilePath_eq, restoredFilePath_eq, hsample, hbase]
  · intro h
    refine ⟨fun x hx y hy hne heq => ?_, fun x hx y hy hne heq => ?_,
      fun x hx y hy hne heq => ?_⟩
    · rw [fullBackupPath_eq, fullBackupPath_eq, fullFormat_inj, map_flatten_eq_iff] at heq
      exact (h x hx y hy hne).1 heq
    · rw [diffPath_eq, diffPath_eq, diffFormat_inj, map_flatten_eq_iff] at heq
      exact (h x hx y hy fun hfile => hne (FileSample.ext hfile heq.2)).1 heq.1
    · rw [restoredFilePath_eq, restoredFilePath_eq, joinPath_inj, restoredFormat_inj] at heq
      exact (h x hx y hy fun hfile => hne (FileSample.ext hfile heq.2)).2 heq.2 heq.1

/-! ## Three files that share names -/

/-- The monitored directory `/m`. -/
def dirM : Text := ['/', 'm']

/-- `/m/a/b.txt` at sample 1. -/
def nestedFile : FileSample dirM where
  filename := ['a', '/', 'b', '.', 't', 'x', 't']
  sample := 1
  ne_nil := by decide
  relative := by decide
  path_fits := by decide
  full_fits := by decide
  diff_fits := by decide
  restored_fits := by decide

/-- `/m/a_b.txt` at sample 1. -/
def flatFile : FileSample dirM where
  filename := ['a', '_', 'b', '.', 't', 'x', 't']
  sample := 1
  ne_nil := by decide
  relative := by decide
  path_fits := by decide
  full_fits := by decide
  diff_fits := by decide
  restored_fits := by decide

/-- `/m/c/b.txt` at sample 1. -/
def otherFile : FileSample dirM where
  filename := ['c', '/', 'b', '.', 't', 'x', 't']
  sample := 1
  ne_nil := by decide
  relative := by decide
  path_fits := by decide
  full_fits := by decide
  diff_fits := by decide
  restored_fits := by decide

/-- `a/b.txt` and `a_b.txt` share their base copy and their diff, `a/b.txt` and `c/b.txt` their
restored copy. -/
theorem names_shared :
    (nestedFile.filename ≠ flatFile.filename ∧
      fullBackupPath dirM nestedFile.filename = fullBackupPath dirM flatFile.filename ∧
      diffPath dirM nestedFile.filename nestedFile.sample =
        diffPath dirM flatFile.filename flatFile.sample) ∧
    nestedFile.filename ≠ otherFile.filename ∧
      restoredFilePath dirM nestedFile.filename nestedFile.sample =
        restoredFilePath dirM otherFile.filename otherFile.sample := by
  decide

end MonitorDaemon
