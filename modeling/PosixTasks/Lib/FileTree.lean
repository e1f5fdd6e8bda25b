import PosixTasks.Lib.Directories

/-!
# A tree of directories and FIFOs

What stands below the root and below the current directory, with the calls that make and remove
entries. A call fails only for what the tree says: no permission is missing, and no name is a link
or too long.

## Main results

* `isDir_of_prefix`: everything on the way to an entry is a directory;
* `readdir_eq`, `rmdir_eq`: when a directory can be read and removed;
* `dirOf_fileText`: what the text of a path names.
-/

namespace Directories

open CString Lines

/-- What an entry is. -/
inductive Kind where
  | directory
  | fifo
  deriving DecidableEq

/-- The entries, each at one place and in a directory. -/
structure FileTree where
  entries : List (Dir × Kind)
  nodup : (entries.map Prod.fst).Nodup
  /-- The root and the current directory are no entries. -/
  named : ∀ (d : Dir) (k : Kind), (d, k) ∈ entries → d.names ≠ []
  parent_mem : ∀ (d : Dir) (k : Kind), (d, k) ∈ entries →
    d.parent.names = [] ∨ (d.parent, Kind.directory) ∈ entries

namespace FileTree

variable {fs : FileTree} {d e : Dir} {k l : Kind} {path : Text}

/-- There is something at this place. -/
def Has (fs : FileTree) (d : Dir) : Prop :=
  d.names = [] ∨ d ∈ fs.entries.map Prod.fst

/-- There is a directory at this place. -/
def IsDir (fs : FileTree) (d : Dir) : Prop :=
  d.names = [] ∨ (d, .directory) ∈ fs.entries

instance : Decidable (fs.Has d) := inferInstanceAs (Decidable (_ ∨ _))

instance : Decidable (fs.IsDir d) := inferInstanceAs (Decidable (_ ∨ _))

theorem has_of_mem (h : (d, k) ∈ fs.entries) : fs.Has d :=
  .inr (List.mem_map_of_mem (f := Prod.fst) h)

/-- There is one entry at a place. -/
theorem kind_unique (h : (d, k) ∈ fs.entries) (h' : (d, l) ∈ fs.entries) : k = l :=
  congrArg Prod.snd (List.inj_on_of_nodup_map fs.nodup h h' rfl)

/-- What stands in a directory. -/
def children (fs : FileTree) (d : Dir) : List Text :=
  (fs.entries.filter (·.1.parent = d)).filterMap (·.1.names.getLast?)

theorem children_eq_nil_iff :
    fs.children d = [] ↔ ∀ e k, (e, k) ∈ fs.entries → e.parent ≠ d := by
  rw [children, List.filterMap_eq_nil_iff]
  constructor
  · rintro h e k hmem rfl
    have hlast := h (e, k) (by simpa using hmem)
    exact fs.named e k hmem (List.getLast?_eq_none_iff.mp hlast)
  · rintro h ⟨e, k⟩ hmem
    rw [List.mem_filter] at hmem
    exact absurd (of_decide_eq_true hmem.2) (h e k hmem.1)

/-- Everything on the way to an entry is a directory. -/
theorem isDir_of_prefix (h : (d, k) ∈ fs.entries) {names : List Text} (hpre : names <+: d.names)
    (hne : names ≠ d.names) : fs.IsDir ⟨d.fromRoot, names⟩ := by
  obtain ⟨rest, hrest⟩ := hpre
  induction rest using List.reverseRecOn generalizing d k with
  | nil => exact absurd (by simpa using hrest) hne
  | append_singleton rest name ih =>
    have hparent : d.parent = ⟨d.fromRoot, names ++ rest⟩ := by
      rw [Dir.parent, ← hrest, ← List.append_assoc, List.dropLast_concat]
    by_cases hnil : rest = []
    · have hmem := fs.parent_mem d k h
      rw [hparent, hnil, List.append_nil] at hmem
      exact hmem
    · rcases fs.parent_mem d k h with hroot | hmem
      · rw [hparent] at hroot
        exact .inl (List.append_eq_nil_iff.mp hroot).1
      · rw [hparent] at hmem
        have hne' : names ≠ names ++ rest := by simpa using fun h => hnil h
        have hdir := ih hmem hne' rfl
        exact hdir

/-- Nothing is below an empty directory. -/
theorem eq_of_children_eq_nil (hempty : fs.children d = []) (h : (e, k) ∈ fs.entries)
    (hroot : e.fromRoot = d.fromRoot) (hpre : d.names <+: e.names) : e.names = d.names := by
  obtain ⟨rest, hrest⟩ := hpre
  cases rest with
  | nil => simpa using hrest.symm
  | cons name rest =>
    exfalso
    have hbelow : d.names ++ [name] <+: e.names := ⟨rest, by simpa using hrest⟩
    have hchild : ∃ l, ((⟨d.fromRoot, d.names ++ [name]⟩ : Dir), l) ∈ fs.entries := by
      by_cases heq : d.names ++ [name] = e.names
      · refine ⟨k, ?_⟩
        rw [heq, ← hroot]
        exact h
      · have hdir := isDir_of_prefix h hbelow heq
        rw [hroot] at hdir
        exact ⟨.directory, hdir.resolve_left (by simp)⟩
    obtain ⟨l, hl⟩ := hchild
    exact children_eq_nil_iff.mp hempty _ l hl (by simp [Dir.parent])

/-! ## Adding and removing entries -/

/-- Add an entry. -/
def add (fs : FileTree) (d : Dir) (k : Kind) (hnew : ¬ fs.Has d) (hparent : fs.IsDir d.parent) :
    FileTree where
  entries := (d, k) :: fs.entries
  nodup := List.nodup_cons.mpr ⟨fun h => hnew (.inr h), fs.nodup⟩
  named e l h := by
    rcases List.mem_cons.mp h with heq | h
    · obtain ⟨rfl, -⟩ := Prod.mk.inj heq
      exact fun hnil => hnew (.inl hnil)
    · exact fs.named e l h
  parent_mem e l h := by
    rcases List.mem_cons.mp h with heq | h
    · obtain ⟨rfl, -⟩ := Prod.mk.inj heq
      exact hparent.imp_right (List.mem_cons_of_mem _)
    · exact (fs.parent_mem e l h).imp_right (List.mem_cons_of_mem _)

/-- Remove an entry with nothing in it. -/
def remove (fs : FileTree) (d : Dir) (hempty : fs.children d = []) : FileTree where
  entries := fs.entries.filter (·.1 ≠ d)
  nodup := fs.nodup.sublist (List.filter_sublist.map _)
  named e k h := fs.named e k (List.mem_filter.mp h).1
  parent_mem e k h := by
    have hmem := (List.mem_filter.mp h).1
    refine (fs.parent_mem e k hmem).imp_right fun hparent => List.mem_filter.mpr ⟨hparent, ?_⟩
    simpa using children_eq_nil_iff.mp hempty e k hmem

theorem mem_remove {hempty : fs.children d = []} :
    (e, k) ∈ (fs.remove d hempty).entries ↔ (e, k) ∈ fs.entries ∧ e ≠ d := by
  simp [remove]

/-- `mkdir`. -/
def mkdir (fs : FileTree) (path : Text) : FileTree × MkdirResult :=
  if path = [] then (fs, .failed)
  else if h : fs.Has (dirOf path) then (fs, .fileExists)
  else if hparent : fs.IsDir (dirOf path).parent then
    (fs.add (dirOf path) .directory h hparent, .created)
  else (fs, .failed)

/-- `opendir` and `readdir` to the end; `.` and `..` come first. -/
def readdir (fs : FileTree) (path : Text) : Option (List Text) :=
  if path ≠ [] ∧ fs.IsDir (dirOf path) then
    some (['.'] :: ['.', '.'] :: fs.children (dirOf path))
  else none

/-- `rmdir`, and whether it succeeds. -/
def rmdir (fs : FileTree) (path : Text) : FileTree × Bool :=
  if path ≠ [] ∧ (dirOf path, .directory) ∈ fs.entries then
    if hempty : fs.children (dirOf path) = [] then (fs.remove (dirOf path) hempty, true)
    else (fs, false)
  else (fs, false)

theorem children_of_fifo (h : (d, .fifo) ∈ fs.entries) : fs.children d = [] := by
  rw [children_eq_nil_iff]
  rintro e k hmem rfl
  rcases fs.parent_mem e k hmem with hroot | hparent
  · exact fs.named _ _ h hroot
  · exact Kind.noConfusion (kind_unique h hparent)

/-- `unlink`. A directory is not removed. -/
def unlink (fs : FileTree) (path : Text) : FileTree :=
  if h : (dirOf path, .fifo) ∈ fs.entries then fs.remove (dirOf path) (children_of_fifo h) else fs

/-- A directory on the way can be read. -/
theorem readdir_eq (hpath : path ≠ []) (h : fs.IsDir (dirOf path)) :
    fs.readdir path = some (['.'] :: ['.', '.'] :: fs.children (dirOf path)) :=
  if_pos ⟨hpath, h⟩

/-- An empty directory can be removed. -/
theorem rmdir_eq (hpath : path ≠ []) (h : (dirOf path, .directory) ∈ fs.entries)
    (hempty : fs.children (dirOf path) = []) :
    fs.rmdir path = (fs.remove (dirOf path) hempty, true) := by
  rw [rmdir, if_pos ⟨hpath, h⟩, dif_pos hempty]

end FileTree

/-! ## The text of a path -/

/-- A name that a directory can hold, apart from `.` and `..`. -/
structure IsName (name : Text) : Prop where
  ne_nil : name ≠ []
  slash : '/' ∉ name
  nul : '\x00' ∉ name
  dot : name ≠ ['.']
  dots : name ≠ ['.', '.']

/-- The text of a directory, with a slash at its end. -/
def dirText (fromRoot : Bool) (names : List Text) : Text :=
  (if fromRoot then ['/'] else []) ++ names.flatMap (· ++ ['/'])

/-- The text of the path of what has this name in the directory. -/
def fileText (fromRoot : Bool) (names : List Text) (name : Text) : Text :=
  dirText fromRoot names ++ name

section Text

variable {r : Bool} {names : List Text} {name : Text}

theorem dirText_concat (r : Bool) (names : List Text) (name : Text) :
    dirText r (names ++ [name]) = fileText r names name ++ ['/'] := by
  simp [dirText, fileText]

theorem getLast?_dirText (r : Bool) (names : List Text) :
    dirText r names = [] ∨ (dirText r names).getLast? = some '/' := by
  rcases List.eq_nil_or_concat names with rfl | ⟨names, name, rfl⟩
  · cases r
    · exact .inl rfl
    · exact .inr rfl
  · rw [List.concat_eq_append, dirText_concat]
    exact .inr List.getLast?_concat

theorem components_dirText (h : ∀ n ∈ names, IsName n) : components (dirText r names) = names := by
  induction names using List.reverseRecOn with
  | nil => cases r <;> decide
  | append_singleton names name ih =>
    have hname := h name (by simp)
    rw [dirText_concat, components_append_slash, components_nil, List.append_nil, fileText,
      components_append_word (getLast?_dirText r names) hname.slash, if_neg hname.ne_nil,
      ih fun n hn => h n (by simp [hn])]

theorem components_fileText (h : ∀ n ∈ names, IsName n) (hname : IsName name) :
    components (fileText r names name) = names ++ [name] := by
  rw [fileText, components_append_word (getLast?_dirText r names) hname.slash,
    if_neg hname.ne_nil, components_dirText h]

theorem IsName.head?_ne (h : IsName name) : name.head? ≠ some '/' := fun hhead =>
  h.slash (List.mem_of_mem_head? hhead)

/-- A path starts with a slash exactly if it starts from the root. -/
theorem head?_fileText (h : ∀ n ∈ names, IsName n) (hname : IsName name) :
    (fileText r names name).head? = some '/' ↔ r = true := by
  cases r with
  | true => simp [fileText, dirText]
  | false =>
    simp only [Bool.false_eq_true, iff_false]
    cases names with
    | nil => simpa [fileText, dirText] using hname.head?_ne
    | cons n names =>
      have hn := h n (by simp)
      obtain ⟨c, rest, rfl⟩ := List.exists_cons_of_ne_nil hn.ne_nil
      simpa [fileText, dirText] using hn.head?_ne

theorem dirOf_fileText (h : ∀ n ∈ names, IsName n) (hname : IsName name) :
    dirOf (fileText r names name) = ⟨r, names ++ [name]⟩ := by
  rw [dirOf, components_fileText h hname]
  congr 1
  rw [Bool.eq_iff_iff, decide_eq_true_iff]
  exact head?_fileText h hname

theorem nul_not_mem_fileText (h : ∀ n ∈ names, IsName n) (hname : IsName name) :
    '\x00' ∉ fileText r names name := by
  simp only [fileText, dirText, List.mem_append, List.mem_flatMap, not_or, not_exists, not_and]
  refine ⟨⟨by cases r <;> simp, fun n hn => ?_⟩, hname.nul⟩
  simpa using (h n hn).nul

end Text

end Directories
