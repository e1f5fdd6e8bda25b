import PosixTasks.MonitorDaemon.Disk

/-!
# What `search_files_in_dir` finds

A call of `search_files_in_dir` counts only the text files that lie in its directory itself, so
its callers see exactly the text files of the tree if and only if no text file lies deeper.

## Main results

* `length_searchFilesInDir`: the count is that of the text files in the directory itself;
* `searchFilesInDir_eq`: where no text file lies deeper, the array holds the text files, in order;
* `findsEachOnce_iff`: the array holds every text file of the tree once, and nothing else, if and
  only if no text file lies deeper.
-/

namespace MonitorDaemon

open CString

/-- A file that is looked for: a text file whose base name is not `debug.log`. -/
def isWanted (isText : Text → Bool) (f : Text × FileData) : Bool :=
  basename f.1 ≠ debugLog ∧ isText f.2.content = true

namespace Listing

/-- The paths of the files that are looked for, at any depth. -/
def wanted (isText : Text → Bool) (path : Text) (l : Listing) : List Text :=
  ((l.files path).filter (isWanted isText)).map Prod.fst

/-- The regular files in the directory itself. -/
def ownFiles (path : Text) : Listing → List (Text × FileData)
  | nil => []
  | file name data rest => (joinPath path name, data) :: rest.ownFiles path
  | dir _ _ rest => rest.ownFiles path
  | special _ rest => rest.ownFiles path

/-- The regular files in the directories below it. -/
def deeperFiles (path : Text) : Listing → List (Text × FileData)
  | nil => []
  | file _ _ rest => rest.deeperFiles path
  | dir name entries rest => entries.files (joinPath path name) ++ rest.deeperFiles path
  | special _ rest => rest.deeperFiles path

variable {isText : Text → Bool} {path : Text} {l : Listing}

/-- A file lies in the directory itself or deeper. -/
theorem files_perm (l : Listing) (path : Text) :
    (l.files path).Perm (l.ownFiles path ++ l.deeperFiles path) := by
  induction l with
  | nil => simp [files, ownFiles, deeperFiles]
  | file name data rest ih => simpa [files, ownFiles, deeperFiles] using ih
  | dir name entries rest _ ih =>
    have hswap : (entries.files (joinPath path name) ++ rest.ownFiles path).Perm
        (rest.ownFiles path ++ entries.files (joinPath path name)) := List.perm_append_comm
    have h := (ih.append_left (entries.files (joinPath path name))).trans
      ((List.append_assoc _ _ _).symm ▸ hswap.append_right (rest.deeperFiles path))
    simpa [files, ownFiles, deeperFiles] using h
  | special name rest ih => simpa [files, ownFiles, deeperFiles] using ih

/-! ## The loop -/

/-- The count goes up with each text file in the directory itself. -/
theorem count_search (hwf : l.WellFormed path) (found : List (Option Text) × ℕ) :
    (l.search isText path found).2 =
      found.2 + ((l.ownFiles path).filter (isWanted isText)).length := by
  induction l generalizing found with
  | nil => rfl
  | file name data rest ih =>
    obtain ⟨hgood, hrest⟩ := hwf
    obtain ⟨array, count⟩ := found
    simp only [search, snprintf_of_fits hgood.2.2.2, ownFiles, List.filter_cons, isWanted]
    by_cases hlog : basename (joinPath path name) = debugLog
    · simp [hlog, ih hrest]
    · by_cases htext : isText data.content = true
      · simp only [hlog, htext, ih hrest, if_true, if_false, ne_eq, not_false_eq_true,
          and_self, decide_true, List.length_cons]
        omega
      · simp [hlog, htext, ih hrest]
  | dir name entries rest _ ih => exact ih hwf.2.2 _
  | special name rest ih => exact ih hwf.2 found

/-- Where there is nothing to be found, the array and the count stay as they are. -/
theorem search_eq_of_wanted_eq_nil (hwf : l.WellFormed path)
    (hnone : ∀ f ∈ l.files path, isWanted isText f = false) (found : List (Option Text) × ℕ) :
    l.search isText path found = found := by
  induction l generalizing path found with
  | nil => rfl
  | file name data rest ih =>
    obtain ⟨hgood, hrest⟩ := hwf
    obtain ⟨array, count⟩ := found
    -- neither this file nor one behind it is stored
    have hfirst : isWanted isText (joinPath path name, data) = false :=
      hnone _ List.mem_cons_self
    have hmore := ih hrest (fun f hf => hnone f (List.mem_cons_of_mem _ hf)) (array, count)
    simp only [search, snprintf_of_fits hgood.2.2.2]
    split
    next => exact hmore
    next hlog =>
      split
      next htext => simp [isWanted, hlog, htext] at hfirst
      next => exact hmore
  | dir name entries rest ihEntries ih =>
    obtain ⟨hgood, hentries, hrest⟩ := hwf
    obtain ⟨array, count⟩ := found
    simp only [search, snprintf_of_fits hgood.2.2.2]
    rw [ihEntries hentries fun f hf => hnone f (List.mem_append_left _ hf)]
    exact ih hrest (fun f hf => hnone f (List.mem_append_right _ hf)) _
  | special name rest ih => exact ih hwf.2 hnone found

/-- Where nothing is to be found deeper, the loop appends what it finds to a full array. -/
theorem search_eq_of_deeper (hwf : l.WellFormed path)
    (hdeeper : ∀ f ∈ l.deeperFiles path, isWanted isText f = false) (array : List (Option Text)) :
    l.search isText path (array, array.length) =
      (array ++ (l.wanted isText path).map some,
        array.length + (l.wanted isText path).length) := by
  induction l generalizing array with
  | nil => simp [search, wanted, files]
  | file name data rest ih =>
    obtain ⟨hgood, hrest⟩ := hwf
    have hmore := ih hrest hdeeper
    simp only [search, snprintf_of_fits hgood.2.2.2]
    split
    next hlog => simpa [wanted, files, isWanted, hlog] using hmore array
    next hlog =>
      split
      next htext =>
        -- as long as nothing deeper was stored, `count` is the length of the array
        have hfull : reallocFiles array array.length = array := by simp [reallocFiles]
        have hnext := hmore (array ++ [some (joinPath path name)])
        rw [List.length_append, List.length_singleton] at hnext
        rw [hfull, hnext]
        simp [wanted, files, isWanted, hlog, htext]
        omega
      next htext => simpa [wanted, files, isWanted, hlog, htext] using hmore array
  | dir name entries rest _ ih =>
    obtain ⟨hgood, hentries, hrest⟩ := hwf
    -- no file in the subdirectory is wanted, so that the nested call stores nothing
    have hnone : ∀ f ∈ entries.files (joinPath path name), isWanted isText f = false :=
      fun f hf => hdeeper f (List.mem_append_left _ hf)
    have hmore := ih hrest (fun f hf => hdeeper f (List.mem_append_right _ hf)) array
    have hempty : (entries.files (joinPath path name)).filter (isWanted isText) = [] := by
      rw [List.filter_eq_nil_iff]
      simpa using hnone
    simp only [search, snprintf_of_fits hgood.2.2.2]
    rw [search_eq_of_wanted_eq_nil hentries hnone, hmore]
    simp [wanted, files, List.filter_append, hempty]
  | special name rest ih => exact ih hwf.2 hdeeper array

end Listing

/-! ## The result -/

variable {isText : Text → Bool} {path : Text} {l : Listing}

/-- The callers of `search_files_in_dir` see as many elements as there are text files in the
directory itself. -/
theorem length_searchFilesInDir (hwf : l.WellFormed path) :
    (searchFilesInDir isText path l).length =
      ((l.ownFiles path).filter (isWanted isText)).length := by
  have hcount : (l.search isText path ([], 0)).2 = _ := Listing.count_search hwf ([], 0)
  simp only [searchFilesInDir, reallocFiles, List.length_append, List.length_take,
    List.length_replicate]
  omega

/-- Where no text file lies deeper, the elements are the text files in the order of `readdir`. -/
theorem searchFilesInDir_eq (hwf : l.WellFormed path)
    (hdeeper : ∀ f ∈ l.deeperFiles path, isWanted isText f = false) :
    searchFilesInDir isText path l = (l.wanted isText path).map some := by
  have hsearch := Listing.search_eq_of_deeper hwf hdeeper []
  simp only [List.length_nil, List.nil_append, zero_add] at hsearch
  simp [searchFilesInDir, hsearch, reallocFiles]

/-- The array holds the text files if and only if no text file lies in a directory below. -/
theorem searchFilesInDir_perm_iff (hwf : l.WellFormed path) :
    (searchFilesInDir isText path l).Perm ((l.wanted isText path).map some) ↔
      ∀ f ∈ l.deeperFiles path, isWanted isText f = false := by
  constructor
  · intro hperm
    -- both lists have the text files of the directory itself, and one of them the deeper ones
    have hlength := hperm.length_eq
    have hsplit := ((l.files_perm path).filter (isWanted isText)).length_eq
    rw [length_searchFilesInDir hwf] at hlength
    simp only [Listing.wanted, List.length_map, List.filter_append, List.length_append]
      at hlength hsplit
    have hnil : (l.deeperFiles path).filter (isWanted isText) = [] := by
      apply List.eq_nil_of_length_eq_zero
      omega
    simpa using List.filter_eq_nil_iff.mp hnil
  · intro hdeeper
    rw [searchFilesInDir_eq hwf hdeeper]

/-- The elements of the array are the paths of the text files other than `debug.log`, at any
depth, each of them once. -/
def FindsEachOnce (isText : Text → Bool) (path : Text) (l : Listing) : Prop :=
  (searchFilesInDir isText path l).Nodup ∧
    ∀ element, element ∈ searchFilesInDir isText path l ↔
      ∃ p data, element = some p ∧ (p, data) ∈ l.files path ∧
        basename p ≠ debugLog ∧ isText data.content = true

theorem mem_map_wanted_iff {element : Option Text} :
    element ∈ (l.wanted isText path).map some ↔
      ∃ p data, element = some p ∧ (p, data) ∈ l.files path ∧
        basename p ≠ debugLog ∧ isText data.content = true := by
  simp only [Listing.wanted, List.mem_map, List.mem_filter, isWanted, decide_eq_true_eq,
    Prod.exists, exists_and_right, exists_eq_right]
  grind

theorem nodup_wanted (hwf : l.WellFormed path) : ((l.wanted isText path).map some).Nodup := by
  apply List.Nodup.map (Option.some_injective _)
  exact (Listing.nodup_files hwf).sublist (List.filter_sublist.map Prod.fst)

/-- `search_files_in_dir` finds every text file of the tree once, and nothing else, if and only if
no text file lies in a directory below the one it is called for. -/
theorem findsEachOnce_iff (hwf : l.WellFormed path) :
    FindsEachOnce isText path l ↔
      ∀ f ∈ l.deeperFiles path, basename f.1 = debugLog ∨ isText f.2.content = false := by
  have hcondition : (∀ f ∈ l.deeperFiles path, isWanted isText f = false) ↔
      ∀ f ∈ l.deeperFiles path, basename f.1 = debugLog ∨ isText f.2.content = false := by
    simp [isWanted, imp_iff_not_or]
  rw [← hcondition, ← searchFilesInDir_perm_iff hwf, FindsEachOnce]
  simp only [← mem_map_wanted_iff]
  constructor
  · rintro ⟨hnodup, hmem⟩
    exact (List.perm_ext_iff_of_nodup hnodup (nodup_wanted hwf)).mpr hmem
  · intro hperm
    exact ⟨hperm.nodup_iff.mpr (nodup_wanted hwf), fun _ => hperm.mem_iff⟩

/-- A text file beside an empty directory. -/
def flatTree : Listing :=
  .file ['a'] ⟨['r', 'e', 'd', '\n'], 0⟩ (.dir ['d'] .nil .nil)

/-- A text file in a directory. -/
def nestedTree : Listing :=
  .dir ['d'] (.file ['a'] ⟨['r', 'e', 'd', '\n'], 0⟩ .nil) .nil

/-- `findsEachOnce_iff` for a file beside an empty directory. -/
theorem findsEachOnce_flat : FindsEachOnce (fun _ => true) ['r'] flatTree := by
  apply (findsEachOnce_iff (by decide)).mpr
  simp [flatTree, Listing.deeperFiles, Listing.files]

/-- The text file in the directory `d` is stored in the array, but not counted. -/
theorem not_findsEachOnce_nested :
    nestedTree.WellFormed ['r'] ∧ searchFilesInDir (fun _ => true) ['r'] nestedTree = [] ∧
      ¬ FindsEachOnce (fun _ => true) ['r'] nestedTree := by
  have hempty : searchFilesInDir (fun _ => true) ['r'] nestedTree = [] := by decide
  refine ⟨by decide, hempty, fun ⟨_, hmem⟩ => ?_⟩
  have := (hmem (some ['r', '/', 'd', '/', 'a'])).mpr
    ⟨_, ⟨['r', 'e', 'd', '\n'], 0⟩, rfl, by decide, by decide, rfl⟩
  simp [hempty] at this

end MonitorDaemon
