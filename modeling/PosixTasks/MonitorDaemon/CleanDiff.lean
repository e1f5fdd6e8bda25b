import PosixTasks.MonitorDaemon.Backup

/-!
# The metadata of a diff file

`save_diff` writes a header of metadata in front of a diff, and `restore_file_to_sample` takes it
away again. It does so by leaving out everything that looks like metadata, wherever it stands, and
both read with a buffer of 4096 bytes, so that the pieces of a long line are looked at one by one.

## Main results

* `cleanDiff_saveDiff_iff`: the diff is got back if and only if every piece of the header looks like
  metadata, and no piece of the diff.
-/

namespace MonitorDaemon

open CString

/-- `%ld` and `%d`. -/
def decimalInt : ℤ → Text
  | .ofNat n => decimal n
  | .negSucc n => '-' :: decimal (n + 1)

/-- What is written in front of the last newline of the metadata, with the timestamp and the number
of the sample as texts. -/
def metadataText (oldFile newFile timestamp sample : Text) : Text :=
  timestampLabel ++ timestamp ++ ['\n'] ++ sampleLabel ++ sample ++ ['\n'] ++
    oldFileLabel ++ oldFile ++ ['\n'] ++ newFileLabel ++ newFile ++ ['\n'] ++ ['-', '-', '-']

/-- The metadata that `save_diff` writes for whatever timestamp and number. -/
def metadataInt (oldFile newFile : Text) (timestamp sample : ℤ) : Text :=
  metadataText oldFile newFile (decimalInt timestamp) (decimalInt sample) ++ ['\n']

/-- The diff file that `save_diff` writes for whatever timestamp and number. -/
def saveDiffInt (oldFile newFile : Text) (timestamp sample : ℤ) (body : Text) : Text :=
  metadataInt oldFile newFile timestamp sample ++ (linesOf body).flatten

variable {oldFile newFile body s : Text} {timestamp sample : ℤ}

/-- The daemon writes diff files with timestamps and numbers that are not negative. -/
theorem saveDiffInt_natCast (oldFile newFile : Text) (timestamp sample : ℕ) (body : Text) :
    saveDiffInt oldFile newFile timestamp sample body =
      saveDiff oldFile newFile timestamp sample body := by
  have hend : metadataEnd = ['-', '-', '-'] ++ ['\n'] := rfl
  simp only [saveDiffInt, saveDiff, metadataInt, metadataText, metadata, hend, List.append_assoc]
  rfl

/-- Without a NUL, the lines are what `fgets` reads. -/
theorem linesOf_eq (hs : '\x00' ∉ s) : linesOf s = fgetsAll lineSize [] s := by
  rw [linesOf]
  conv_rhs => rw [← List.map_id (fgetsAll lineSize [] s)]
  apply List.map_congr_left
  intro p hp
  apply ofBuffer_of_not_mem
  intro hmem
  apply hs
  have hflat := flatten_fgetsAll lineSize [] s
  rw [List.nil_append] at hflat
  rw [← hflat]
  exact List.mem_flatten.mpr ⟨p, hp, hmem⟩

theorem flatten_linesOf (hs : '\x00' ∉ s) : (linesOf s).flatten = s := by
  rw [linesOf_eq hs, flatten_fgetsAll, List.nil_append]

theorem nul_not_mem_decimalInt (z : ℤ) : '\x00' ∉ decimalInt z := by
  cases z with
  | ofNat n => exact not_mem_decimal (by decide) n
  | negSucc n =>
    have := not_mem_decimal (c := '\x00') (by decide) (n + 1)
    simp [decimalInt, this]

theorem nul_not_mem_metadataInt (hold : '\x00' ∉ oldFile) (hnew : '\x00' ∉ newFile)
    (timestamp sample : ℤ) :
    '\x00' ∉ metadataInt oldFile newFile timestamp sample := by
  have htimestamp := nul_not_mem_decimalInt timestamp
  have hsample := nul_not_mem_decimalInt sample
  simp [metadataInt, metadataText, timestampLabel, sampleLabel, oldFileLabel, newFileLabel,
    hold, hnew, htimestamp, hsample]

/-- The diff that is fed to `patch` is the one that was saved if and only if every piece of the
header looks like metadata, and no piece of the diff. -/
theorem cleanDiff_saveDiff_iff (hold : '\x00' ∉ oldFile) (hnew : '\x00' ∉ newFile)
    (hbody : '\x00' ∉ body) :
    cleanDiff (saveDiffInt oldFile newFile timestamp sample body) = body ↔
      (∀ line ∈ linesOf (metadataInt oldFile newFile timestamp sample), MetadataLine line) ∧
        ∀ line ∈ linesOf body, ¬ MetadataLine line := by
  have hheader := nul_not_mem_metadataInt hold hnew timestamp sample
  have hfile : '\x00' ∉ metadataInt oldFile newFile timestamp sample ++ body :=
    fun hmem => (List.mem_append.mp hmem).elim hheader hbody
  have hclean : cleanDiff (saveDiffInt oldFile newFile timestamp sample body) =
      keepPieces lineSize (fun line => ¬ MetadataLine line)
        (metadataInt oldFile newFile timestamp sample ++ body) := by
    rw [saveDiffInt, flatten_linesOf hbody, cleanDiff, linesOf_eq hfile, keepPieces]
  rw [hclean, linesOf_eq hheader, linesOf_eq hbody, metadataInt, keepPieces_append_iff]
  simp

/-! ## Two diffs -/

/-- A line of a unified diff. -/
def IsDiffLine (line : Text) : Prop :=
  ∃ c ∈ [' ', '+', '-', '@', '\\'], line.head? = some c

/-- A text of lines. -/
def joinLines (lines : List Text) : Text :=
  (lines.map fun line => line ++ ['\n']).flatten

/-- `diff -u` where the line `x` is removed. -/
def removedX : List Text :=
  ["--- a".toList, "+++ b".toList, "@@ -1 +0,0 @@".toList, "-x".toList]

/-- `diff -u` where the line `--` is removed. -/
def removedDashes : List Text :=
  ["--- a".toList, "+++ b".toList, "@@ -1 +0,0 @@".toList, "---".toList]

/-- `cleanDiff_saveDiff_iff` for the line `x`. -/
theorem cleanDiff_removed_x :
    cleanDiff (saveDiffInt ['a'] ['b'] 5 1 (joinLines removedX)) = joinLines removedX := by
  apply (cleanDiff_saveDiff_iff (by decide) (by decide) (by decide)).mpr
  decide +kernel

/-- The removed line `--` is taken for the end of the metadata. -/
theorem cleanDiff_removed_dashes :
    (∀ line ∈ removedDashes, IsDiffLine line) ∧ '\x00' ∉ joinLines removedDashes ∧
      cleanDiff (saveDiffInt ['a'] ['b'] 5 1 (joinLines removedDashes)) ≠
        joinLines removedDashes := by
  refine ⟨?_, by decide, by decide +kernel⟩
  simp [removedDashes, IsDiffLine]

end MonitorDaemon
