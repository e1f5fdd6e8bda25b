import PosixTasks.MonitorDaemon.Command

/-!
# The monitored tree

The directory tree under the monitored directory, as `readdir` lists it, and
`search_files_in_dir`, which looks for its text files. Each call of `search_files_in_dir` counts
the files it finds itself, and all the calls store into one array: what a nested call finds is
not counted, and it is stored over what its callers found.

## Main results

* `fileAt_eq_some_iff`: in a well-formed tree a path names one file;
* `mem_searchFilesInDir`: a path in the array is the path of a text file of the tree.
-/

namespace MonitorDaemon

open CString

/-- `PATH_MAX`. -/
def pathMax : ℕ := 4096

/-- `"%s/%s"`, a directory and a name in it. -/
def joinPath (dir name : Text) : Text :=
  dir ++ '/' :: name

/-- `"debug.log"`. -/
def debugLog : Text := ['d', 'e', 'b', 'u', 'g', '.', 'l', 'o', 'g']

/-- `"text"`. -/
def textMime : Text := ['t', 'e', 'x', 't']

/-- A regular file: its bytes and its `st_mtime`. -/
structure FileData where
  content : Text
  mtime : ℤ
  deriving DecidableEq

/-- `st_size`. -/
def FileData.size (data : FileData) : ℤ :=
  data.content.length

/-- `is_text_file` for a file with these bytes; `magicFile` is the MIME type that `magic_file`
gives it. -/
def isTextFile (magicFile : Text → Option Text) (content : Text) : Bool :=
  match magicFile content with
  | some mime => textMime <:+: mime
  | none => false

/-- The entries of a directory in the order of `readdir`, without `.` and `..`. -/
inductive Listing where
  | nil
  /-- A regular file. -/
  | file (name : Text) (data : FileData) (rest : Listing)
  /-- A directory and its own entries. -/
  | dir (name : Text) (entries rest : Listing)
  /-- Neither of them: a FIFO, a socket, a device. -/
  | special (name : Text) (rest : Listing)

namespace Listing

/-- The names in the directory. -/
def names : Listing → List Text
  | nil => []
  | file name _ rest => name :: rest.names
  | dir name _ rest => name :: rest.names
  | special name rest => name :: rest.names

/-- The regular files at any depth, with their paths. -/
def files (path : Text) : Listing → List (Text × FileData)
  | nil => []
  | file name data rest => (joinPath path name, data) :: rest.files path
  | dir name entries rest => entries.files (joinPath path name) ++ rest.files path
  | special _ rest => rest.files path

/-- A name that can stand in a directory, with a path that the kernel resolves. -/
def GoodName (path name : Text) (rest : Listing) : Prop :=
  name ≠ [] ∧ '/' ∉ name ∧ name ∉ rest.names ∧ (joinPath path name).length < pathMax

instance (path name : Text) (rest : Listing) : Decidable (GoodName path name rest) := by
  unfold GoodName
  infer_instance

/-- Names are not empty, hold no `/` and are distinct in each directory, and no path is too long
for the kernel. -/
def WellFormed (path : Text) : Listing → Prop
  | nil => True
  | file name _ rest => GoodName path name rest ∧ rest.WellFormed path
  | dir name entries rest =>
      GoodName path name rest ∧ entries.WellFormed (joinPath path name) ∧ rest.WellFormed path
  | special name rest => GoodName path name rest ∧ rest.WellFormed path

instance instDecidableWellFormed : (path : Text) → (l : Listing) → Decidable (l.WellFormed path)
  | _, nil => isTrue trivial
  | path, file name _ rest =>
      have := instDecidableWellFormed path rest
      inferInstanceAs (Decidable (GoodName path name rest ∧ rest.WellFormed path))
  | path, dir name entries rest =>
      have := instDecidableWellFormed (joinPath path name) entries
      have := instDecidableWellFormed path rest
      inferInstanceAs (Decidable (GoodName path name rest ∧
        entries.WellFormed (joinPath path name) ∧ rest.WellFormed path))
  | path, special name rest =>
      have := instDecidableWellFormed path rest
      inferInstanceAs (Decidable (GoodName path name rest ∧ rest.WellFormed path))

/-- The file that a path names. -/
def fileAt (l : Listing) (root path : Text) : Option FileData :=
  (l.files root).lookup path

end Listing

/-! ## `search_files_in_dir` -/

/-- The first `count` elements of the array `*files` after `realloc`. An element that was never
assigned is indeterminate: `none`. -/
def reallocFiles (files : List (Option Text)) (count : ℕ) : List (Option Text) :=
  files.take count ++ List.replicate (count - files.length) none

/-- The loop of `search_files_in_dir` on the directory `path`: the array `*files` and the local
`count`. -/
def Listing.search (isText : Text → Bool) (path : Text) :
    Listing → List (Option Text) × ℕ → List (Option Text) × ℕ
  | nil, found => found
  | file name data rest, (files, count) =>
      let fullpath := snprintf pathMax (joinPath path name)
      if basename fullpath = debugLog then rest.search isText path (files, count)
      else if isText data.content then
        rest.search isText path (reallocFiles files count ++ [some fullpath], count + 1)
      else rest.search isText path (files, count)
  | dir name entries rest, (files, count) =>
      -- the count that the nested call returns is dropped
      let fullpath := snprintf pathMax (joinPath path name)
      rest.search isText path ((entries.search isText fullpath (files, 0)).1, count)
  | special _ rest, found => rest.search isText path found

/-- `search_files_in_dir` with `*files` initially `NULL`: the elements of the array that its
callers read. -/
def searchFilesInDir (isText : Text → Bool) (path : Text) (l : Listing) : List (Option Text) :=
  let (files, count) := l.search isText path ([], 0)
  reallocFiles files count

/-! ## Paths in a well-formed tree -/

/-- The base name of a path in a directory. -/
theorem basename_joinPath {dir name : Text} (h : '/' ∉ name) :
    basename (joinPath dir name) = name := by
  rw [basename, joinPath, splitLast_append h]

/-- `p` is `dir` or a path below it. -/
def Below (dir p : Text) : Prop :=
  p = dir ∨ ∃ s, p = joinPath dir s

theorem below_joinPath {dir name p : Text} (h : Below (joinPath dir name) p) :
    ∃ s, p = joinPath dir (name ++ s) ∧ (s = [] ∨ s.head? = some '/') := by
  rcases h with rfl | ⟨s, rfl⟩
  · exact ⟨[], by simp, Or.inl rfl⟩
  · exact ⟨'/' :: s, by simp [joinPath], Or.inr rfl⟩

/-- Below two entries of one directory there is no common path. -/
theorem eq_of_below {dir name name' p : Text} (hname : '/' ∉ name) (hname' : '/' ∉ name')
    (h : Below (joinPath dir name) p) (h' : Below (joinPath dir name') p) : name = name' := by
  obtain ⟨s, rfl, hs⟩ := below_joinPath h
  obtain ⟨s', heq, hs'⟩ := below_joinPath h'
  have hcut : ∀ {name s : Text}, '/' ∉ name → (s = [] ∨ s.head? = some '/') →
      (name ++ s).takeWhile (· ≠ '/') = name := by
    intro name s hname hs
    rcases hs with rfl | hs
    · rw [List.append_nil, takeWhile_ne_eq_self hname]
    · obtain ⟨s, rfl⟩ := List.head?_eq_some_iff.mp hs
      exact takeWhile_ne_append hname s
  have happend : name ++ s = name' ++ s' := by simpa [joinPath] using heq
  rw [← hcut hname hs, happend, hcut hname' hs']

namespace Listing

/-- Every file is below an entry of the directory. -/
theorem exists_below_of_mem_files {l : Listing} {path p : Text} {data : FileData}
    (h : (p, data) ∈ l.files path) : ∃ name ∈ l.names, Below (joinPath path name) p := by
  induction l generalizing path with
  | nil => simp [files] at h
  | file name data' rest ih =>
    simp only [files, List.mem_cons, Prod.mk.injEq] at h
    rcases h with ⟨rfl, -⟩ | h
    · exact ⟨name, by simp [names], Or.inl rfl⟩
    · obtain ⟨name', hmem, hbelow⟩ := ih h
      exact ⟨name', by simp [names, hmem], hbelow⟩
  | dir name entries rest ihEntries ih =>
    simp only [files, List.mem_append] at h
    rcases h with h | h
    · obtain ⟨name', -, hbelow⟩ := ihEntries h
      obtain ⟨s, rfl, -⟩ := below_joinPath hbelow
      exact ⟨name, by simp [names], Or.inr ⟨_, rfl⟩⟩
    · obtain ⟨name', hmem, hbelow⟩ := ih h
      exact ⟨name', by simp [names, hmem], hbelow⟩
  | special name rest ih =>
    obtain ⟨name', hmem, hbelow⟩ := ih h
    exact ⟨name', by simp [names, hmem], hbelow⟩

theorem noSlash_of_mem_names {l : Listing} {path name : Text} (hwf : l.WellFormed path)
    (h : name ∈ l.names) : '/' ∉ name := by
  induction l generalizing path with
  | nil => simp [names] at h
  | file name' data rest ih =>
    obtain ⟨hgood, hrest⟩ := hwf
    rcases List.mem_cons.mp h with rfl | h
    · exact hgood.2.1
    · exact ih hrest h
  | dir name' entries rest _ ih =>
    obtain ⟨hgood, -, hrest⟩ := hwf
    rcases List.mem_cons.mp h with rfl | h
    · exact hgood.2.1
    · exact ih hrest h
  | special name' rest ih =>
    obtain ⟨hgood, hrest⟩ := hwf
    rcases List.mem_cons.mp h with rfl | h
    · exact hgood.2.1
    · exact ih hrest h

/-- Below the first entry there is no file of the others. -/
theorem not_below_of_mem_files {rest : Listing} {path name p : Text} {data : FileData}
    (hgood : GoodName path name rest) (hrest : rest.WellFormed path)
    (h : (p, data) ∈ rest.files path) : ¬ Below (joinPath path name) p := by
  intro hbelow
  obtain ⟨name', hmem, hbelow'⟩ := exists_below_of_mem_files h
  obtain rfl := eq_of_below hgood.2.1 (noSlash_of_mem_names hrest hmem) hbelow hbelow'
  exact hgood.2.2.1 hmem

/-- Files of a well-formed tree have distinct paths. -/
theorem nodup_files {l : Listing} {path : Text} (hwf : l.WellFormed path) :
    ((l.files path).map Prod.fst).Nodup := by
  induction l generalizing path with
  | nil => simp [files]
  | file name data rest ih =>
    obtain ⟨hgood, hrest⟩ := hwf
    simp only [files, List.map_cons, List.nodup_cons]
    refine ⟨fun hmem => ?_, ih hrest⟩
    obtain ⟨⟨p, data'⟩, hmem, rfl⟩ := List.mem_map.mp hmem
    exact not_below_of_mem_files hgood hrest hmem (Or.inl rfl)
  | dir name entries rest ihEntries ih =>
    obtain ⟨hgood, hentries, hrest⟩ := hwf
    simp only [files, List.map_append]
    refine List.Nodup.append (ihEntries hentries) (ih hrest) ?_
    rintro p hleft hright
    obtain ⟨⟨q, data⟩, hq, rfl⟩ := List.mem_map.mp hleft
    obtain ⟨⟨q', data'⟩, hq', heq⟩ := List.mem_map.mp hright
    obtain rfl : q' = q := heq
    obtain ⟨name', -, hbelow⟩ := exists_below_of_mem_files hq
    obtain ⟨s, hs, -⟩ := below_joinPath hbelow
    exact not_below_of_mem_files hgood hrest hq' (Or.inr ⟨_, hs⟩)
  | special name rest ih => exact ih hwf.2

/-- In a well-formed tree a path names one file. -/
theorem fileAt_eq_some_iff {l : Listing} {root p : Text} {data : FileData}
    (hwf : l.WellFormed root) : l.fileAt root p = some data ↔ (p, data) ∈ l.files root := by
  have hnodup := nodup_files hwf
  rw [fileAt]
  generalize l.files root = files at hnodup ⊢
  induction files with
  | nil => simp
  | cons entry files ih =>
    obtain ⟨q, data'⟩ := entry
    simp only [List.map_cons, List.nodup_cons] at hnodup
    by_cases hpq : p = q
    · subst hpq
      have hnot : (p, data) ∉ files := fun hmem => hnodup.1 (List.mem_map.mpr ⟨_, hmem, rfl⟩)
      simp [List.lookup, hnot, eq_comm]
    · have hne : (p == q) = false := by simpa using hpq
      simp [List.lookup, hne, hpq, ih hnodup.2]

/-- The kernel resolves the path of every file. -/
theorem length_lt_of_mem_files {l : Listing} {path p : Text} {data : FileData}
    (hwf : l.WellFormed path) (h : (p, data) ∈ l.files path) : p.length < pathMax := by
  induction l generalizing path with
  | nil => simp [files] at h
  | file name data' rest ih =>
    obtain ⟨hgood, hrest⟩ := hwf
    simp only [files, List.mem_cons, Prod.mk.injEq] at h
    rcases h with ⟨rfl, -⟩ | h
    · exact hgood.2.2.2
    · exact ih hrest h
  | dir name entries rest ihEntries ih =>
    obtain ⟨-, hentries, hrest⟩ := hwf
    rcases List.mem_append.mp h with h | h
    · exact ihEntries hentries h
    · exact ih hrest h
  | special name rest ih => exact ih hwf.2 h

theorem length_lt_of_fileAt {l : Listing} {root p : Text} {data : FileData}
    (hwf : l.WellFormed root) (h : l.fileAt root p = some data) : p.length < pathMax :=
  length_lt_of_mem_files hwf ((fileAt_eq_some_iff hwf).mp h)

end Listing

/-! ## What the array holds -/

theorem mem_reallocFiles {files : List (Option Text)} {count : ℕ} {p : Text}
    (h : some p ∈ reallocFiles files count) : some p ∈ files := by
  simp only [reallocFiles, List.mem_append, List.mem_replicate, reduceCtorEq, and_false,
    or_false] at h
  exact List.mem_of_mem_take h

/-- What the loop adds to the array are paths of text files of the directory, other than
`debug.log`. -/
theorem Listing.mem_search {isText : Text → Bool} {l : Listing} {path : Text}
    (hwf : l.WellFormed path) {found : List (Option Text) × ℕ} {p : Text}
    (h : some p ∈ (l.search isText path found).1) :
    some p ∈ found.1 ∨ basename p ≠ debugLog ∧
      ∃ data, (p, data) ∈ l.files path ∧ isText data.content = true := by
  induction l generalizing path found with
  | nil => exact Or.inl h
  | file name data rest ih =>
    obtain ⟨hgood, hrest⟩ := hwf
    obtain ⟨array, count⟩ := found
    simp only [search, snprintf_of_fits hgood.2.2.2] at h
    -- what is in the rest of the directory
    have hmore : ∀ data', (p, data') ∈ rest.files path →
        (p, data') ∈ (Listing.file name data rest).files path := by
      intro data' hmem
      exact List.mem_cons_of_mem _ hmem
    split at h
    · rcases ih hrest h with h | ⟨hlog, data', hmem, htext⟩
      · exact Or.inl h
      · exact Or.inr ⟨hlog, data', hmore _ hmem, htext⟩
    next hlog =>
      split at h
      next htext =>
        rcases ih hrest h with h | ⟨hlog, data', hmem, htext⟩
        · rcases List.mem_append.mp h with h | h
          · exact Or.inl (mem_reallocFiles h)
          · obtain rfl : p = joinPath path name := by simpa using h
            exact Or.inr ⟨hlog, data, by simp [files], htext⟩
        · exact Or.inr ⟨hlog, data', hmore _ hmem, htext⟩
      · rcases ih hrest h with h | ⟨hlog, data', hmem, htext⟩
        · exact Or.inl h
        · exact Or.inr ⟨hlog, data', hmore _ hmem, htext⟩
  | dir name entries rest ihEntries ih =>
    obtain ⟨hgood, hentries, hrest⟩ := hwf
    obtain ⟨array, count⟩ := found
    simp only [search, snprintf_of_fits hgood.2.2.2] at h
    -- it was found behind the directory, in it, or before it
    rcases ih hrest h with h | ⟨hlog, data, hmem, htext⟩
    · rcases ihEntries hentries h with h | ⟨hlog, data, hmem, htext⟩
      · exact Or.inl h
      · exact Or.inr ⟨hlog, data, List.mem_append_left _ hmem, htext⟩
    · exact Or.inr ⟨hlog, data, List.mem_append_right _ hmem, htext⟩
  | special name rest ih => exact ih hwf.2 h

/-- A path in the array is the path of a text file of the tree, other than `debug.log`. -/
theorem mem_searchFilesInDir {isText : Text → Bool} {l : Listing} {path p : Text}
    (hwf : l.WellFormed path) (h : some p ∈ searchFilesInDir isText path l) :
    basename p ≠ debugLog ∧
      ∃ data, l.fileAt path p = some data ∧ isText data.content = true := by
  rcases Listing.mem_search hwf (mem_reallocFiles h) with h | ⟨hlog, data, hmem, htext⟩
  · simp at h
  · exact ⟨hlog, data, (Listing.fileAt_eq_some_iff hwf).mpr hmem, htext⟩

end MonitorDaemon
