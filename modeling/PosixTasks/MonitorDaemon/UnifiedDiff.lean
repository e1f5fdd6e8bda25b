import PosixTasks.Lib.Lines
import PosixTasks.MonitorDaemon.Backup

/-!
# A diff that is undone

`diff -u` and `patch -u` for two files that have no line in common, such as two different files of
one line: there is one hunk, which takes away all lines of the old file and adds all lines of the
new one. A shell takes the names of the files from between the double quotes of a command line.

## Main results

* `gnuTools_roundTrip`: the new file is got back, whatever the files and their names are;
* `gnuTools_runsCommands`: the command lines of the daemon run both programs on their files.
-/

namespace MonitorDaemon

open CString Lines

/-- `"\\ No newline at end of file"`. -/
def noNewline : Text :=
  ['\x5c', ' ', 'N', 'o', ' ', 'n', 'e', 'w', 'l', 'i', 'n', 'e', ' ', 'a', 't', ' ', 'e', 'n',
    'd', ' ', 'o', 'f', ' ', 'f', 'i', 'l', 'e']

/-- The times in the headers. -/
def fileTime : Text :=
  ['2', '0', '2', '5', '-', '1', '1', '-', '0', '3', ' ', '1', '0', ':', '1', '5', ':', '3',
    '0', '.', '0', '0', '0', '0', '0', '0', '0', '0', '0', ' ', '+', '0', '0', '0', '0']

/-- The lines of a file with a mark in front of each, and a remark if the last one does not end. -/
def markedLines (mark : Char) (content : Text) : List Text :=
  (split '\n' content).1.map (mark :: ·) ++
    if (split '\n' content).2 = [] then [] else [mark :: (split '\n' content).2, noNewline]

/-- The file that the lines with a mark make. -/
def unmarkedFile (mark : Char) : List Text → Text
  | [] => []
  | line :: lines =>
      if line.head? = some mark then
        line.tail ++ (if lines.head? = some noNewline then [] else ['\n']) ++
          unmarkedFile mark lines
      else unmarkedFile mark lines

/-- The number of lines of a file. -/
def lineCount (content : Text) : ℕ :=
  (split '\n' content).1.length + if (split '\n' content).2 = [] then 0 else 1

/-- The first line and the number of lines, in the head of a hunk. -/
def hunkRange (count : ℕ) : Text :=
  if count = 0 then ['0', ',', '0'] else if count = 1 then ['1'] else '1' :: ',' :: decimal count

/-- A name in a header, which is one line. -/
def headerName (name : Text) : Text :=
  if '\n' ∈ name then
    quote :: name.flatMap (fun c => if c = '\n' then ['\x5c', 'n'] else [c]) ++ [quote]
  else name

/-- The header and the hunk. -/
def diffLines (oldFile newFile old new : Text) : List Text :=
  (['-', '-', '-', ' '] ++ headerName oldFile ++ '\t' :: fileTime) ::
    (['+', '+', '+', ' '] ++ headerName newFile ++ '\t' :: fileTime) ::
    (['@', '@', ' ', '-'] ++ hunkRange (lineCount old) ++ [' ', '+'] ++
      hunkRange (lineCount new) ++ [' ', '@', '@']) ::
    (markedLines '-' old ++ markedLines '+' new)

/-- `diff -u`; files that do not differ have no diff. -/
def diffFiles (oldFile newFile old new : Text) : Text :=
  if old = new then [] else render '\n' (diffLines oldFile newFile old new)

/-- `patch -u`; the file has to be the one that the hunk takes away. -/
def patchFile (old patch : Text) : Option Text :=
  if patch = [] then some old
  else
    let hunk := (split '\n' patch).1.drop 3
    if unmarkedFile '-' hunk = old then some (unmarkedFile '+' hunk) else none

/-! ## The hunk is read back -/

theorem unmarkedFile_cons_other {mark : Char} {line : Text} (h : line.head? ≠ some mark)
    (lines : List Text) : unmarkedFile mark (line :: lines) = unmarkedFile mark lines := by
  rw [unmarkedFile, if_neg h]

theorem unmarkedFile_cons_mark (mark : Char) (line : Text) {lines : List Text}
    (h : lines.head? ≠ some noNewline) :
    unmarkedFile mark ((mark :: line) :: lines) = line ++ '\n' :: unmarkedFile mark lines := by
  rw [unmarkedFile, if_pos (List.head?_cons ..), if_neg h, List.tail_cons, List.append_assoc,
    List.singleton_append]

/-- The lines with a mark are not followed by the remark. -/
theorem head?_marked_ne {mark : Char} (hmark : mark ≠ '\x5c') (lines : List Text)
    {rest : List Text} (hrest : rest.head? ≠ some noNewline) :
    (lines.map (mark :: ·) ++ rest).head? ≠ some noNewline := by
  cases lines with
  | nil => exact hrest
  | cons line lines => simp [noNewline, hmark]

theorem unmarkedFile_map {mark : Char} (hmark : mark ≠ '\x5c') (lines : List Text)
    {rest : List Text} (hrest : rest.head? ≠ some noNewline) :
    unmarkedFile mark (lines.map (mark :: ·) ++ rest) =
      render '\n' lines ++ unmarkedFile mark rest := by
  induction lines with
  | nil => rfl
  | cons line lines ih =>
    rw [List.map_cons, List.cons_append,
      unmarkedFile_cons_mark mark line (head?_marked_ne hmark lines hrest), ih, render_cons,
      List.append_assoc, List.cons_append]

/-- What is marked is got back. -/
theorem unmarkedFile_markedLines {mark : Char} (hmark : mark ≠ '\x5c') (content : Text)
    {rest : List Text} (hrest : rest.head? ≠ some noNewline) :
    unmarkedFile mark (markedLines mark content ++ rest) = content ++ unmarkedFile mark rest := by
  have hcontent := render_split_append '\n' content
  rw [markedLines, List.append_assoc]
  split
  next htail =>
    rw [htail, List.append_nil] at hcontent
    rw [List.nil_append, unmarkedFile_map hmark _ hrest, hcontent]
  next htail =>
    -- the last line is followed by the remark
    have hlast : unmarkedFile mark ((mark :: (split '\n' content).2) :: noNewline :: rest) =
        (split '\n' content).2 ++ unmarkedFile mark rest := by
      rw [unmarkedFile, if_pos (List.head?_cons ..), if_pos (List.head?_cons ..),
        unmarkedFile_cons_other (by simp [noNewline, Ne.symm hmark]), List.tail_cons,
        List.append_nil]
    rw [unmarkedFile_map hmark _ (by simp [noNewline, hmark]), List.cons_append, List.cons_append,
      List.nil_append, hlast, ← List.append_assoc, hcontent]

/-- What has another mark is passed over. -/
theorem unmarkedFile_other {mark mark' : Char} (hne : mark' ≠ mark) (hmark : mark ≠ '\x5c')
    (content : Text) (rest : List Text) :
    unmarkedFile mark (markedLines mark' content ++ rest) = unmarkedFile mark rest := by
  have hother : ∀ lines : List Text, (∀ l ∈ lines, l.head? ≠ some mark) →
      unmarkedFile mark (lines ++ rest) = unmarkedFile mark rest := by
    intro lines hlines
    induction lines with
    | nil => rfl
    | cons line lines ih =>
      rw [List.cons_append, unmarkedFile_cons_other (hlines line List.mem_cons_self),
        ih fun l hl => hlines l (List.mem_cons_of_mem line hl)]
  -- the mark of a line is its first character; the remark begins with a backslash
  apply hother
  intro l hl
  rw [markedLines, List.mem_append, List.mem_map] at hl
  rcases hl with ⟨line, -, rfl⟩ | hl
  · simpa using hne
  · split at hl
    · simp at hl
    · rcases List.mem_pair.mp hl with rfl | rfl
      · simpa using hne
      · simpa [noNewline] using Ne.symm hmark

/-! ## Lines of a diff -/

theorem newline_not_mem_markedLines {mark : Char} (hmark : mark ≠ '\n') (content : Text) :
    ∀ l ∈ markedLines mark content, '\n' ∉ l := by
  obtain ⟨hlines, htail⟩ := not_mem_split '\n' content
  intro l hl
  rw [markedLines, List.mem_append, List.mem_map] at hl
  rcases hl with ⟨line, hline, rfl⟩ | hl
  · simp [Ne.symm hmark, hlines line hline]
  · split at hl
    · simp at hl
    · rcases List.mem_pair.mp hl with rfl | rfl
      · simp [Ne.symm hmark, htail]
      · decide

theorem newline_not_mem_hunkRange (count : ℕ) : '\n' ∉ hunkRange count := by
  have hdigits : '\n' ∉ decimal count := not_mem_decimal (by decide) count
  unfold hunkRange
  split_ifs <;> simp [hdigits]

theorem newline_not_mem_headerName (name : Text) : '\n' ∉ headerName name := by
  rw [headerName]
  split
  next =>
    have hescaped : ∀ c : Char, '\n' ∉ if c = '\n' then ['\x5c', 'n'] else [c] := by
      intro c
      split
      · decide
      next hc => simpa using Ne.symm hc
    simp [quote, List.mem_flatMap, hescaped]
  next h => exact h

theorem newline_not_mem_diffLines (oldFile newFile old new : Text) :
    ∀ l ∈ diffLines oldFile newFile old new, '\n' ∉ l := by
  have hname := newline_not_mem_headerName
  have hrange := newline_not_mem_hunkRange
  have htime : '\n' ∉ fileTime := by decide
  intro l hl
  simp only [diffLines, List.mem_cons, List.mem_append] at hl
  rcases hl with rfl | rfl | rfl | hl | hl
  · simp [hname, htime]
  · simp [hname, htime]
  · simp [hrange]
  · exact newline_not_mem_markedLines (by decide) old l hl
  · exact newline_not_mem_markedLines (by decide) new l hl

/-- The patch undoes the diff. -/
theorem patchFile_diffFiles (oldFile newFile old new : Text) :
    patchFile old (diffFiles oldFile newFile old new) = some new := by
  by_cases hsame : old = new
  · rw [diffFiles, if_pos hsame, patchFile, if_pos rfl, hsame]
  · have hne : render '\n' (diffLines oldFile newFile old new) ≠ [] := by
      simp [diffLines]
    -- the lines that are added do not begin with the remark
    have hnew : (markedLines '+' new).head? ≠ some noNewline := by
      refine head?_marked_ne (by decide) _ ?_
      split <;> simp [noNewline]
    have hremoved : unmarkedFile '-' (markedLines '-' old ++ markedLines '+' new) = old := by
      rw [unmarkedFile_markedLines (by decide) old hnew,
        ← List.append_nil (markedLines '+' new), unmarkedFile_other (by decide) (by decide)]
      exact List.append_nil old
    have hadded : unmarkedFile '+' (markedLines '-' old ++ markedLines '+' new) = new := by
      rw [unmarkedFile_other (by decide) (by decide), ← List.append_nil (markedLines '+' new),
        unmarkedFile_markedLines (by decide) new (by simp)]
      exact List.append_nil new
    rw [diffFiles, if_neg hsame, patchFile, if_neg hne,
      split_render (newline_not_mem_diffLines oldFile newFile old new)]
    simp only [diffLines, List.drop_succ_cons, List.drop_zero, hremoved, hadded, if_true]

/-! ## The tools -/

/-- `"application/octet-stream"`. -/
def octetStream : Text :=
  ['a', 'p', 'p', 'l', 'i', 'c', 'a', 't', 'i', 'o', 'n', '/', 'o', 'c', 't', 'e', 't', '-',
    's', 't', 'r', 'e', 'a', 'm']

/-- The names between the double quotes of a command line, if there are two. -/
def quotedNames (cmd : Text) : Option (Text × Text) :=
  match cmd.splitOn quote with
  | [_, first, _, second, _] => some (first, second)
  | _ => none

/-- Files of two bytes and more without a NUL are text files, and a shell is asked for `diff` and
`patch` alone. -/
def gnuTools : Tools where
  magicFile content :=
    if content.length < 2 ∨ '\x00' ∈ content then some octetStream else some textMime
  pid := 7
  diff _ oldFile newFile old new :=
    match old, new with
    | some old, some new => diffFiles oldFile newFile old new
    | _, _ => []
  patch := patchFile
  popen _ cmd files :=
    match quotedNames cmd with
    | some (oldFile, newFile) =>
        match files oldFile, files newFile with
        | some old, some new => diffFiles oldFile newFile old new
        | _, _ => []
    | none => []
  system cmd files :=
    match quotedNames cmd with
    | some (file, input) =>
        (files input).bind fun patch => (files file).bind fun old =>
          (patchFile old patch).map fun new => Function.update files file (some new)
    | none => none

theorem gnuTools_roundTrip : gnuTools.RoundTrip :=
  fun _ oldFile newFile old new _ _ => patchFile_diffFiles oldFile newFile old new

theorem Quotable.quote_not_mem {name : Text} (h : Quotable name) : quote ∉ name :=
  fun hmem => h.plain quote hmem (by decide)

/-- The parts of a command line between its quotes. -/
theorem quotedNames_eq (start middle rest : Text) {first second cmd : Text} (hstart : quote ∉ start)
    (hmiddle : quote ∉ middle) (hrest : quote ∉ rest) (hfirst : Quotable first)
    (hsecond : Quotable second)
    (hcmd : cmd = [quote].intercalate [start, first, middle, second, rest]) :
    quotedNames cmd = some (first, second) := by
  have hparts : ∀ l ∈ [start, first, middle, second, rest], quote ∉ l := by
    simp only [List.mem_cons, List.not_mem_nil, or_false, forall_eq_or_imp, forall_eq]
    exact ⟨hstart, hfirst.quote_not_mem, hmiddle, hsecond.quote_not_mem, hrest⟩
  rw [quotedNames, hcmd, List.splitOn_intercalate quote hparts (by simp)]

theorem quotedNames_diffCommand {oldFile newFile : Text} (hold : Quotable oldFile)
    (hnew : Quotable newFile) :
    quotedNames (diffCommand oldFile newFile) = some (oldFile, newFile) := by
  refine quotedNames_eq ['d', 'i', 'f', 'f', ' ', '-', 'u', ' '] [' '] discardErrors (by decide)
    (by decide) (by decide) hold hnew ?_
  simp [diffCommand, List.intercalate]

theorem quotedNames_patchCommand {file input : Text} (hfile : Quotable file)
    (hinput : Quotable input) :
    quotedNames (patchCommand file input) = some (file, input) := by
  refine quotedNames_eq ['p', 'a', 't', 'c', 'h', ' ', '-', 'u', ' '] [' ', '<', ' ']
    discardErrors (by decide) (by decide) (by decide) hfile hinput ?_
  simp [patchCommand, List.intercalate]

theorem gnuTools_runsCommands : gnuTools.RunsCommands where
  diff sample oldFile newFile files hold hnew := by
    simp only [gnuTools, quotedNames_diffCommand hold hnew]
  patch file input files old new hfile hinput _ hold hnew := by
    simp only [gnuTools, quotedNames_patchCommand hfile hinput, hold, hnew, Option.bind_some]
    cases patchFile old new <;> simp

end MonitorDaemon
