import PosixTasks.Lib.Numbers
import PosixTasks.Lib.Truncation
import PosixTasks.MonitorDaemon.CleanDiff

/-!
# Replies with diffs

`process_command` puts the replies to `show_diff` and `show_k_diffs` together by `strncat`, each
time with the room that `response_len - strlen(response) - 1` computes. The model follows the
`int` of the loop over the samples up to its largest value, whose increment is not defined.

## Main results

* `showDiff_eq`, `showKDiffs_eq`: the replies are the reply texts as far as they fit;
* `processShow_eq_iff`: so they are if and only if `show_k_diffs` does not count up to `INT_MAX`.
-/

namespace MonitorDaemon

open CString Truncation

/-! ## The code -/

/-- `INT_MAX`. -/
def intMax : ℤ := 2 ^ 31 - 1

/-- The values of an `int`. -/
def IsInt (n : ℤ) : Prop :=
  -2 ^ 31 ≤ n ∧ n ≤ intMax

instance (n : ℤ) : Decidable (IsInt n) :=
  inferInstanceAs (Decidable (_ ∧ _))

/-- What `process_command` finds in `BACKUP_DIR`. -/
structure DiffFiles where
  /-- The paths that `glob` finds for a pattern; `none` if it does not return 0. -/
  glob : Text → Option (List Text)
  /-- The bytes that `get_diff_content` reads; `none` if it does not return 0. -/
  content : Text → Option Text

/-- `"%s/diff_*_sample_%d"`. -/
def diffPattern (sample : ℤ) : Text :=
  snprintf maxPathLen (backupDir ++ diffInfix ++ ['*'] ++ sampleInfix ++ decimalInt sample)

section

variable (diffs : DiffFiles) (responseLen : ℕ)

/-- An iteration of the loop of `CMD_SHOW_DIFF`. A content is appended as a string. -/
def appendDiff (response path : Text) : Option Text :=
  match diffs.content path with
  | some content =>
      appendAll responseLen response [path, ":\n".toList, ofBuffer content, "\n---\n".toList]
  | none => some response

/-- The case `CMD_SHOW_DIFF`. -/
def showDiff (currentSample : ℤ) : Option Text :=
  match diffs.glob (diffPattern currentSample) with
  | some paths => do
    let response ← append responseLen [] "Latest diffs:\n".toList
    (paths.take 5).foldlM (appendDiff diffs responseLen) response
  | none => append responseLen [] "No diffs found for current sample\n".toList

/-- An iteration of the inner loop of `CMD_SHOW_K_DIFFS`. -/
def appendLine (sample : ℤ) (response path : Text) : Option Text :=
  appendAll responseLen response
    ["Sample ".toList, snprintf 32 (decimalInt sample), ": ".toList, path, "\n".toList]

/-- The body of the outer loop of `CMD_SHOW_K_DIFFS`. -/
def appendSample (sample : ℤ) (response : Text) : Option Text :=
  if sample < 0 then some response
  else
    match diffs.glob (diffPattern sample) with
    | some paths => paths.foldlM (appendLine responseLen sample) response
    | none => some response

/-- The outer loop of `CMD_SHOW_K_DIFFS`. -/
def sampleLoop (currentSample sample : ℤ) (response : Text) : Option Text :=
  if sample ≤ currentSample then
    match appendSample diffs responseLen sample response with
    | none => none
    | some response =>
      -- `sample++`
      if sample = intMax then none else sampleLoop currentSample (sample + 1) response
  else some response
termination_by (currentSample + 1 - sample).toNat

/-- The case `CMD_SHOW_K_DIFFS`. -/
def showKDiffs (currentSample arg : ℤ) : Option Text :=
  let k := if arg ≤ 0 ∨ currentSample < arg then currentSample else arg
  match appendAll responseLen []
      ["Diffs for last ".toList, snprintf 32 (decimalInt k), " samples:\n".toList] with
  | none => none
  | some response => sampleLoop diffs responseLen currentSample (currentSample - k + 1) response

/-- The part of `process_command` for `CMD_SHOW_DIFF` and `CMD_SHOW_K_DIFFS`: the string in
`response`, or `none` if the run is not defined. -/
def processShow (cmd : Command) (currentSample : ℤ) : Option Text :=
  match cmd.type with
  | .showDiff => showDiff diffs responseLen currentSample
  | .showKDiffs => showKDiffs diffs responseLen currentSample cmd.arg
  | _ => some []

end

/-! ## The reply texts -/

section

variable (diffs : DiffFiles)

/-- A diff in the reply to `show_diff`, if it can be read. -/
def diffText (path : Text) : Text :=
  match diffs.content path with
  | some content => [path, ":\n".toList, ofBuffer content, "\n---\n".toList].flatten
  | none => []

/-- The reply to `show_diff`: the first five diffs of the current sample. -/
def showDiffText (currentSample : ℤ) : Text :=
  match diffs.glob (diffPattern currentSample) with
  | some paths => "Latest diffs:\n".toList ++ (paths.take 5).flatMap (diffText diffs)
  | none => "No diffs found for current sample\n".toList

/-- The line of a diff in the reply to `show_k_diffs`. -/
def lineText (sample : ℤ) (path : Text) : Text :=
  ["Sample ".toList, decimalInt sample, ": ".toList, path, "\n".toList].flatten

/-- The lines of a sample. -/
def sampleText (sample : ℤ) : Text :=
  ((diffs.glob (diffPattern sample)).getD []).flatMap (lineText sample)

/-- How many samples `show_k_diffs` goes back. -/
def samplesShown (currentSample arg : ℤ) : ℤ :=
  if 1 ≤ arg ∧ arg ≤ currentSample then arg else currentSample

/-- The samples from one up to another. -/
def samplesTo (first last : ℤ) : List ℤ :=
  (List.range (last + 1 - first).toNat).map fun i : ℕ => first + i

/-- The reply to `show_k_diffs`: a line for each diff of the last samples. -/
def showKDiffsText (currentSample arg : ℤ) : Text :=
  let k := samplesShown currentSample arg
  ["Diffs for last ".toList, decimalInt k, " samples:\n".toList].flatten ++
    (samplesTo (currentSample - k + 1) currentSample).flatMap (sampleText diffs)

/-- The text that a command asks for. -/
def replyText (cmd : Command) (currentSample : ℤ) : Text :=
  match cmd.type with
  | .showDiff => showDiffText diffs currentSample
  | .showKDiffs => showKDiffsText diffs currentSample cmd.arg
  | _ => []

end

/-! ## The replies are cut where the buffer ends -/

variable {diffs : DiffFiles} {responseLen : ℕ} {currentSample arg : ℤ}

/-- An `int` is written with at most eleven characters. -/
theorem length_decimalInt {n : ℤ} (h : IsInt n) : (decimalInt n).length < 32 := by
  obtain ⟨hlow, hhigh⟩ := h
  rw [intMax] at hhigh
  cases n with
  | ofNat n =>
    rw [Int.ofNat_eq_natCast] at hhigh
    have hlength := length_decimal_le (n := n) (k := 10) (by decide) (by omega)
    rw [decimalInt]
    omega
  | negSucc n =>
    have hlength := length_decimal_le (n := n + 1) (k := 10) (by decide) (by omega)
    rw [decimalInt, List.length_cons]
    omega

theorem appendDiff_take (hlen : 1 ≤ responseLen) (text path : Text) :
    appendDiff diffs responseLen (text.take (responseLen - 1)) path =
      some ((text ++ diffText diffs path).take (responseLen - 1)) := by
  rw [appendDiff, diffText]
  cases diffs.content path with
  | none => simp
  | some content => exact appendAll_take hlen text _

theorem showDiff_eq (hlen : 1 ≤ responseLen) (diffs : DiffFiles) (currentSample : ℤ) :
    showDiff diffs responseLen currentSample =
      some ((showDiffText diffs currentSample).take (responseLen - 1)) := by
  have hfirst : ∀ piece : Text,
      append responseLen [] piece = some (piece.take (responseLen - 1)) := by
    intro piece
    simpa using append_take hlen ([] : Text) piece
  rw [showDiff, showDiffText]
  cases diffs.glob (diffPattern currentSample) with
  | none => exact hfirst _
  | some paths =>
    dsimp only
    rw [hfirst, Option.bind_eq_bind, Option.bind_some]
    exact foldlM_take (g := diffText diffs) (paths.take 5)
      (fun text path _ => appendDiff_take hlen text path) _

theorem appendLine_take {sample : ℤ} (hlen : 1 ≤ responseLen) (hint : IsInt sample)
    (text path : Text) :
    appendLine responseLen sample (text.take (responseLen - 1)) path =
      some ((text ++ lineText sample path).take (responseLen - 1)) := by
  rw [appendLine, snprintf_of_fits (length_decimalInt hint)]
  exact appendAll_take hlen text _

theorem appendSample_take {sample : ℤ} (hlen : 1 ≤ responseLen) (hint : IsInt sample)
    (hsample : 0 ≤ sample) (text : Text) :
    appendSample diffs responseLen sample (text.take (responseLen - 1)) =
      some ((text ++ sampleText diffs sample).take (responseLen - 1)) := by
  rw [appendSample, if_neg (by omega), sampleText]
  cases diffs.glob (diffPattern sample) with
  | none => simp
  | some paths =>
    exact foldlM_take (g := lineText sample) paths
      (fun text path _ => appendLine_take hlen hint text path) text

theorem samplesTo_cons {first last : ℤ} (h : first ≤ last) :
    samplesTo first last = first :: samplesTo (first + 1) last := by
  have hlength : (last + 1 - first).toNat = (last + 1 - (first + 1)).toNat + 1 := by omega
  rw [samplesTo, samplesTo, hlength, List.range_succ_eq_map, List.map_cons, List.map_map,
    Nat.cast_zero, add_zero]
  refine congrArg _ (List.map_congr_left fun i _ => ?_)
  rw [Function.comp_apply, Nat.succ_eq_add_one]
  push_cast
  ring

theorem samplesTo_nil {first last : ℤ} (h : last < first) : samplesTo first last = [] := by
  rw [samplesTo, Int.toNat_of_nonpos (by omega)]
  rfl

/-- Below `INT_MAX` the loop appends the lines of the samples. -/
theorem sampleLoop_take {sample : ℤ} (hlen : 1 ≤ responseLen)
    (hcurrent : currentSample < intMax) (hsample : 0 ≤ sample) (text : Text) :
    sampleLoop diffs responseLen currentSample sample (text.take (responseLen - 1)) =
      some ((text ++ (samplesTo sample currentSample).flatMap (sampleText diffs)).take
        (responseLen - 1)) := by
  rw [sampleLoop]
  split
  next hle =>
    have hint : IsInt sample := ⟨by omega, hle.trans hcurrent.le⟩
    rw [appendSample_take hlen hint hsample]
    dsimp only
    rw [if_neg (by omega), sampleLoop_take hlen hcurrent (by omega), samplesTo_cons hle,
      List.flatMap_cons, List.append_assoc]
  next hgt => simp [samplesTo_nil (not_le.mp hgt)]
termination_by (currentSample + 1 - sample).toNat

/-- The loop does not end where it would count beyond `INT_MAX`. -/
theorem sampleLoop_intMax {sample : ℤ} (hsample : sample ≤ intMax) (response : Text) :
    sampleLoop diffs responseLen intMax sample response = none := by
  rw [sampleLoop, if_pos hsample]
  split
  · rfl
  · split
    · rfl
    · exact sampleLoop_intMax (by omega) _
termination_by (intMax + 1 - sample).toNat

/-- The heading of the reply to `show_k_diffs` is followed by the loop. -/
theorem showKDiffs_eq_sampleLoop (hlen : 1 ≤ responseLen) (diffs : DiffFiles)
    (hint : IsInt currentSample) (arg : ℤ) :
    showKDiffs diffs responseLen currentSample arg =
      sampleLoop diffs responseLen currentSample
        (currentSample - samplesShown currentSample arg + 1)
        (["Diffs for last ".toList, decimalInt (samplesShown currentSample arg),
          " samples:\n".toList].flatten.take (responseLen - 1)) := by
  have hk : (if arg ≤ 0 ∨ currentSample < arg then currentSample else arg) =
      samplesShown currentSample arg := by
    rw [samplesShown]
    split <;> split <;> omega
  have hkint : IsInt (samplesShown currentSample arg) := by
    rw [samplesShown]
    split
    next h => exact ⟨by omega, h.2.trans hint.2⟩
    next h => exact hint
  have hheading := appendAll_take hlen ([] : Text) ["Diffs for last ".toList,
    decimalInt (samplesShown currentSample arg), " samples:\n".toList]
  rw [List.take_nil, List.nil_append] at hheading
  rw [showKDiffs, hk, snprintf_of_fits (length_decimalInt hkint), hheading]

/-- The first sample shown has a number above 0. -/
theorem first_sample_pos (currentSample arg : ℤ) :
    1 ≤ currentSample - samplesShown currentSample arg + 1 := by
  rw [samplesShown]
  split <;> omega

theorem showKDiffs_eq (hlen : 1 ≤ responseLen) (diffs : DiffFiles) (hint : IsInt currentSample)
    (hcurrent : currentSample < intMax) (arg : ℤ) :
    showKDiffs diffs responseLen currentSample arg =
      some ((showKDiffsText diffs currentSample arg).take (responseLen - 1)) := by
  have hfirst := first_sample_pos currentSample arg
  rw [showKDiffs_eq_sampleLoop hlen diffs hint]
  exact sampleLoop_take hlen hcurrent (by omega) _

theorem showKDiffs_intMax (hlen : 1 ≤ responseLen) (diffs : DiffFiles) (arg : ℤ) :
    showKDiffs diffs responseLen intMax arg = none := by
  have hint : IsInt intMax := ⟨by decide, le_rfl⟩
  rw [showKDiffs_eq_sampleLoop hlen diffs hint]
  refine sampleLoop_intMax ?_ _
  rw [samplesShown]
  have hmax : intMax = 2147483647 := rfl
  split <;> omega

/-- The reply to `show_diff` or `show_k_diffs` is the first `response_len - 1` characters of its
text, and no size underflows, if and only if the loop over the samples does not count beyond
`INT_MAX`. -/
theorem processShow_eq_iff (hlen : 1 ≤ responseLen) (hint : IsInt currentSample)
    (diffs : DiffFiles) (cmd : Command) :
    processShow diffs responseLen cmd currentSample =
        some ((replyText diffs cmd currentSample).take (responseLen - 1)) ↔
      ¬ (cmd.type = .showKDiffs ∧ currentSample = intMax) := by
  rw [processShow, replyText]
  cases htype : cmd.type with
  | showDiff => simp [showDiff_eq hlen]
  | showKDiffs =>
    by_cases hmax : currentSample = intMax
    · subst hmax
      simp [showKDiffs_intMax hlen]
    · have hlt : currentSample < intMax := lt_of_le_of_ne hint.2 hmax
      simp [showKDiffs_eq hlen diffs hint hlt, hmax]
  | _ => simp

/-- There are no diffs. -/
def noDiffs : DiffFiles where
  glob _ := none
  content _ := none

/-- `processShow_eq_iff` for a reply that does not fit. -/
theorem processShow_short :
    processShow noDiffs 7 { type := .showKDiffs, arg := 0, filename := [] } 0 =
      some "Diffs ".toList :=
  (processShow_eq_iff (by decide : 1 ≤ 7) (by decide : IsInt 0) noDiffs
    { type := .showKDiffs, arg := 0, filename := [] }).mpr (by decide)

/-- With the last number that an `int` can have, the loop over the samples does not end. -/
theorem processShow_intMax :
    processShow noDiffs 8192 { type := .showKDiffs, arg := 1, filename := [] } intMax ≠
      some ((replyText noDiffs { type := .showKDiffs, arg := 1, filename := [] } intMax).take
        8191) := by
  have hnone : processShow noDiffs 8192 { type := .showKDiffs, arg := 1, filename := [] } intMax =
      none := showKDiffs_intMax (by decide : 1 ≤ 8192) noDiffs 1
  rw [hnone]
  exact nofun

end MonitorDaemon
