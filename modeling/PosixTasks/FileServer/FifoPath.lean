import PosixTasks.Lib.Directories

/-!
# The directories of a FIFO

`create_fifo_with_path` copies the path, cuts it at its last slash, and then at one slash after
the other from the left, calling `mkdir` with what stands in front of the cut. It starts behind
the slashes at the start of the path.

## Main results

* `sublist_mkdirLoop`: the calls of the loop name the directories on the way, in order;
* `createFifo_ancestors`: `mkdir` is called for every directory above the FIFO but the root, and
  all of them exist when `mkfifo` is called.
-/

namespace FileServer

open CString Directories

/-- `sizeof(path_copy)`. -/
def pathCopyBytes : ℕ := 256

/-- `strncpy` into a buffer of `size` bytes. -/
def strncpy (size : ℕ) (s : Text) : Text :=
  s.take size ++ List.replicate (size - s.length) '\x00'

/-- `strchr`, as an index into the string. -/
def strchr (s : Text) (c : Char) : Option ℕ :=
  let front := s.takeWhile (· ≠ c)
  if front.length < s.length then some front.length else none

/-- `strrchr`, as an index into the string. -/
def strrchr (s : Text) (c : Char) : Option ℕ :=
  (splitLast c s).map (·.1.length)

theorem strchr_lt {s : Text} {c : Char} {i : ℕ} (h : strchr s c = some i) : i < s.length := by
  simp only [strchr] at h
  split at h
  next hlt => exact Option.some.inj h ▸ hlt
  next => cases h

/-- The loop, with `current` as an index into `path_copy`: the paths with which `mkdir` is
called. -/
def mkdirLoop (pathCopy : Text) (current : ℕ) : List Text :=
  match h : strchr (ofBuffer (pathCopy.drop current)) '/' with
  | some i =>
      let nextSlash := current + i
      let cut := pathCopy.set nextSlash '\x00'
      ofBuffer cut :: mkdirLoop (cut.set nextSlash '/') (nextSlash + 1)
  | none => [ofBuffer pathCopy]
termination_by pathCopy.length - current
decreasing_by
  have hlt := strchr_lt h
  have hle : (ofBuffer (pathCopy.drop current)).length ≤ (pathCopy.drop current).length :=
    (List.takeWhile_prefix _).length_le
  rw [List.length_drop] at hle
  simp only [List.length_set]
  omega

/-- The paths with which `create_fifo_with_path` calls `mkdir`. -/
def mkdirCalls (fifoPath : Text) : List Text :=
  let pathCopy := strncpy pathCopyBytes fifoPath
  match strrchr (ofBuffer pathCopy) '/' with
  | some lastSlash =>
      let pathCopy := pathCopy.set lastSlash '\x00'
      mkdirLoop pathCopy (pathCopy.takeWhile (· = '/')).length
  | none => []

/-- How `mkfifo` returns. -/
inductive MkfifoResult where
  | created
  | fileExists
  | failed
  deriving DecidableEq

/-- The file system when `create_fifo_with_path` calls `mkfifo`. -/
def beforeMkfifo {Fs : Type*} (mkdir : Fs → Text → Fs × MkdirResult) (fs : Fs) (fifoPath : Text) :
    Fs :=
  (mkdirCalls fifoPath).foldl (fun fs path => (mkdir fs path).1) fs

/-- `create_fifo_with_path`: the file system afterwards and what is returned. -/
def createFifoWithPath {Fs : Type*} (mkdir : Fs → Text → Fs × MkdirResult)
    (mkfifo : Fs → Text → Fs × MkfifoResult) (fs : Fs) (fifoPath : Text) : Fs × ℤ :=
  match mkfifo (beforeMkfifo mkdir fs fifoPath) fifoPath with
  | (fs, .failed) => (fs, -1)
  | (fs, .created) | (fs, .fileExists) => (fs, 0)

/-! ## The loop -/

theorem strchr_append {c : Char} {w : Text} (h : c ∉ w) (rest : Text) :
    strchr (w ++ c :: rest) c = some w.length := by
  rw [strchr, takeWhile_ne_append h, if_pos (by simp)]

theorem strchr_eq_none {c : Char} {w : Text} (h : c ∉ w) : strchr w c = none := by
  rw [strchr, takeWhile_ne_eq_self h, if_neg (lt_irrefl _)]

theorem set_length_append (front : Text) (c d : Char) (back : Text) :
    (front ++ c :: back).set front.length d = front ++ d :: back := by
  simp

/-- Where a slash follows, `mkdir` is called with what stands in front of it. -/
theorem mkdirLoop_slash {done w : Text} (hdone : '\x00' ∉ done) (hw : '\x00' ∉ w)
    (hslash : '/' ∉ w) (back : Text) :
    mkdirLoop (done ++ w ++ '/' :: back) done.length
      = (done ++ w) :: mkdirLoop (done ++ w ++ '/' :: back) (done ++ w ++ ['/']).length := by
  -- `strchr` searches up to the NUL, and the first slash is behind `w`
  have hstring : ofBuffer ((done ++ w ++ '/' :: back).drop done.length)
      = w ++ '/' :: ofBuffer back := by
    rw [List.append_assoc, List.drop_left, ofBuffer, List.takeWhile_append_of_pos]
    · simp [ofBuffer]
    · intro c hc
      simpa using fun heq : c = '\x00' => hw (heq ▸ hc)
  have hfirst := strchr_append hslash (ofBuffer back)
  rw [← hstring] at hfirst
  have hnext : done.length + w.length = (done ++ w).length := List.length_append.symm
  rw [mkdirLoop]
  split
  next i hi =>
    obtain rfl := Option.some.inj (hfirst.symm.trans hi)
    -- with the NUL in place of the slash the string is `done ++ w`
    have hnul : '\x00' ∉ done ++ w := by
      rw [List.mem_append, not_or]
      exact ⟨hdone, hw⟩
    have hlen : (done ++ w ++ ['/']).length = (done ++ w).length + 1 := List.length_append
    simp only [hnext, hlen, set_length_append, ofBuffer_append hnul]
  next hnone =>
    rw [hfirst] at hnone
    cases hnone

/-- At the end `mkdir` is called with the whole path. -/
theorem mkdirLoop_end {done w : Text} (hdone : '\x00' ∉ done) (hw : '\x00' ∉ w)
    (hslash : '/' ∉ w) (back : Text) :
    mkdirLoop (done ++ w ++ '\x00' :: back) done.length = [done ++ w] := by
  have hstring : ofBuffer ((done ++ w ++ '\x00' :: back).drop done.length) = w := by
    rw [List.append_assoc, List.drop_left, ofBuffer_append hw]
  have hnone := strchr_eq_none hslash
  rw [← hstring] at hnone
  rw [mkdirLoop]
  split
  next hsome =>
    rw [hnone] at hsome
    cases hsome
  next =>
    rw [ofBuffer_append]
    rw [List.mem_append, not_or]
    exact ⟨hdone, hw⟩

/-- A path does not lose its start. -/
theorem dirOf_append {done w : Text} (rest : Text) (hpath : done = [] ∨ done.getLast? = some '/')
    (hslash : '/' ∉ w) (hne : w ≠ []) :
    dirOf (done ++ w) = ⟨(dirOf (done ++ w ++ rest)).fromRoot, components done ++ [w]⟩ := by
  have hhead : (done ++ w ++ rest).head? = (done ++ w).head? := by
    rw [List.head?_append_of_ne_nil]
    simp [hne]
  rw [dirOf, dirOf, hhead, components_append_word hpath hslash, if_neg hne]

/-- The calls of the loop name the directories on the way, in order. -/
theorem sublist_mkdirLoop {done rest : Text} (hpath : done = [] ∨ done.getLast? = some '/')
    (hdone : '\x00' ∉ done) (hrest : '\x00' ∉ rest) (back : Text) :
    (onTheWay (dirOf (done ++ rest)).fromRoot (components done) (components rest)).Sublist
      ((mkdirLoop (done ++ rest ++ '\x00' :: back) done.length).map dirOf) := by
  induction hn : rest.length using Nat.strong_induction_on generalizing done rest with
  | _ n ih =>
    by_cases hmem : '/' ∈ rest
    · obtain ⟨w, q, rfl, hslash⟩ := List.eq_append_cons_of_mem hmem
      rw [List.mem_append, List.mem_cons, not_or, not_or] at hrest
      obtain ⟨hw, -, hq⟩ := hrest
      have hdone' : '\x00' ∉ done ++ w ++ ['/'] := by simp [hdone, hw]
      have hbuf : done ++ (w ++ '/' :: q) = done ++ w ++ ['/'] ++ q := by simp
      -- the loop calls `mkdir` at the first slash and goes on behind it
      have hloop : mkdirLoop (done ++ (w ++ '/' :: q) ++ '\x00' :: back) done.length
          = (done ++ w) :: mkdirLoop (done ++ (w ++ '/' :: q) ++ '\x00' :: back)
              (done ++ w ++ ['/']).length := by
        simpa using mkdirLoop_slash hdone hw hslash (q ++ '\x00' :: back)
      have hnames : components (done ++ w ++ ['/'])
          = components done ++ if w = [] then [] else [w] := by
        rw [components_append_slash, components_nil, List.append_nil,
          components_append_word hpath hslash]
      have hsub := ih q.length (by simp at hn; omega) (Or.inr (by simp)) hdone' hq rfl
      rw [hnames, ← hbuf] at hsub
      rw [hloop, List.map_cons, components_append_slash, components_word hslash]
      split_ifs at hsub ⊢ with hempty
      · -- a slash behind a slash: `mkdir` is called for the same directory again
        rw [List.append_nil] at hsub
        exact hsub.cons _
      · have hdir := dirOf_append ('/' :: q) hpath hslash hempty
        rw [List.append_assoc] at hdir
        rw [List.singleton_append, onTheWay, hdir]
        exact hsub.cons_cons _
    -- without another slash the last call is the one at the end of the string
    · rw [mkdirLoop_end hdone hrest hmem, components_word hmem]
      split
      next => exact List.nil_sublist _
      next hne =>
        rw [onTheWay, onTheWay, List.map_singleton, dirOf_append [] hpath hmem hne,
          List.append_nil]

/-! ## The whole path -/

/-- A path that fits in the buffer is copied with a NUL behind it. -/
theorem strncpy_of_fits {size : ℕ} {s : Text} (h : s.length < size) :
    ∃ back, strncpy size s = s ++ '\x00' :: back := by
  obtain ⟨k, hk⟩ : ∃ k, size - s.length = k + 1 := ⟨size - s.length - 1, by omega⟩
  exact ⟨List.replicate k '\x00', by
    rw [strncpy, List.take_of_length_le h.le, hk, List.replicate_succ]⟩

/-- Slashes at the start of a path name nothing. -/
theorem components_slashes_append {done : Text} (h : ∀ c ∈ done, c = '/') (rest : Text) :
    components (done ++ rest) = components rest := by
  induction done with
  | nil => rfl
  | cons c done ih =>
    obtain ⟨rfl, hdone⟩ := List.forall_mem_cons.mp h
    rw [List.cons_append, ← List.nil_append ('/' :: _), components_append_slash, ih hdone,
      components_nil, List.nil_append]

theorem getLast?_slashes {done : Text} (h : ∀ c ∈ done, c = '/') :
    done = [] ∨ done.getLast? = some '/' := by
  rcases List.eq_nil_or_concat done with rfl | ⟨done, c, rfl⟩
  · exact Or.inl rfl
  · rw [List.concat_eq_append] at h ⊢
    obtain rfl := h c (by simp)
    exact Or.inr List.getLast?_concat

/-- The slashes at the start end where the string ends. -/
theorem takeWhile_append_nul (front back : Text) :
    (front ++ '\x00' :: back).takeWhile (· = '/') = front.takeWhile (· = '/') := by
  induction front with
  | nil => rfl
  | cons c front ih =>
    by_cases hc : c = '/'
    · simp [hc, ih]
    · simp [hc]

/-- What stands behind the last slash names no directory above. -/
theorem sublist_onTheWay_front {front last : Text} (hlast : '/' ∉ last) :
    (onTheWay (dirOf (front ++ '/' :: last)).fromRoot []
        (components (front ++ '/' :: last)).dropLast).Sublist
      (onTheWay (dirOf front).fromRoot [] (components front)) := by
  rw [components_append_slash, components_word hlast]
  by_cases hnames : components front = []
  · rw [hnames]
    split <;> exact List.nil_sublist _
  · have hfront : front ≠ [] := fun hnil => hnames (by rw [hnil, components_nil])
    have hroot : (dirOf (front ++ '/' :: last)).fromRoot = (dirOf front).fromRoot := by
      rw [dirOf, dirOf, List.head?_append_of_ne_nil _ hfront]
    rw [hroot]
    split
    next =>
      obtain ⟨names, name, heq⟩ := (List.eq_nil_or_concat _).resolve_left hnames
      rw [heq, List.append_nil, List.concat_eq_append, List.dropLast_concat, onTheWay_append]
      exact List.sublist_append_left _ _
    next => rw [List.dropLast_concat]

/-- The loop runs on what stands in front of the last slash. -/
theorem mkdirCalls_append {front last : Text} (hnul : '\x00' ∉ front ++ '/' :: last)
    (hfits : (front ++ '/' :: last).length < pathCopyBytes) (hlast : '/' ∉ last) :
    ∃ back, mkdirCalls (front ++ '/' :: last)
      = mkdirLoop (front ++ '\x00' :: back) (front.takeWhile (· = '/')).length := by
  obtain ⟨back, hcopy⟩ := strncpy_of_fits hfits
  have hcut : strrchr (ofBuffer (strncpy pathCopyBytes (front ++ '/' :: last))) '/'
      = some front.length := by
    rw [hcopy, ofBuffer_append hnul, strrchr, splitLast_append hlast, Option.map_some]
  refine ⟨last ++ '\x00' :: back, ?_⟩
  simp only [mkdirCalls, hcut]
  rw [hcopy, List.append_assoc, List.cons_append, set_length_append, takeWhile_append_nul]

/-- `mkdir` is called for the directories above the FIFO but the root, in order. -/
theorem sublist_mkdirCalls {path : Text} (hnul : '\x00' ∉ path)
    (hfits : path.length < pathCopyBytes) :
    (namedAncestors path).Sublist ((mkdirCalls path).map dirOf) := by
  rw [namedAncestors_eq]
  by_cases hmem : '/' ∈ path
  · obtain ⟨front, last, rfl, hlast⟩ := exists_last_of_mem hmem
    obtain ⟨back, hcalls⟩ := mkdirCalls_append hnul hfits hlast
    rw [List.mem_append, not_or] at hnul
    have hslashes : ∀ c ∈ front.takeWhile (· = '/'), c = '/' := fun c hc => by
      simpa using List.mem_takeWhile_imp hc
    have hnames : components (front.takeWhile (· = '/')) = [] := by
      simpa using components_slashes_append hslashes []
    have hrest : components (front.dropWhile (· = '/')) = components front := by
      rw [← components_slashes_append hslashes, List.takeWhile_append_dropWhile]
    have hbehind : '\x00' ∉ front.dropWhile (· = '/') :=
      fun hmem => hnul.1 ((List.dropWhile_sublist _).subset hmem)
    have hsub := sublist_mkdirLoop (getLast?_slashes hslashes)
      (fun hmem => by simpa using hslashes _ hmem) hbehind back
    rw [List.takeWhile_append_dropWhile, ← hcalls, hnames, hrest] at hsub
    exact (sublist_onTheWay_front hlast).trans hsub
  · -- a name in the current directory
    rw [components_word hmem]
    split <;> exact List.nil_sublist _

/-! ## The file system -/

/-- `mkdir` is called for every directory above the FIFO but the root, from the outermost to the
innermost, and all directories above the FIFO exist when `mkfifo` is called. -/
theorem createFifo_ancestors {Fs : Type*} {mkdir : Fs → Text → Fs × MkdirResult}
    {Exists : Fs → Dir → Prop} (spec : MkdirSpec mkdir Exists) {path : Text}
    (hnul : '\x00' ∉ path) (hfits : path.length < pathCopyBytes) :
    (namedAncestors path).Sublist ((mkdirCalls path).map dirOf) ∧
      ∀ fs, ∀ d ∈ properAncestors path, Exists (beforeMkfifo mkdir fs path) d := by
  have hsub := sublist_mkdirCalls hnul hfits
  refine ⟨hsub, fun fs d hd => ?_⟩
  by_cases hroot : d.names = []
  · obtain ⟨fromRoot, names⟩ := d
    obtain rfl : names = [] := hroot
    exact spec.start _ fromRoot
  · have hnamed : d ∈ namedAncestors path := List.mem_filter.mpr ⟨hd, by simpa using hroot⟩
    rw [namedAncestors_eq] at hsub hnamed
    exact spec.exists_foldl (spec.start fs _) hsub d hnamed

/-- A file system of directories, without the root and the current one. -/
abbrev DirList := List Dir

/-- `mkdir` where nothing but an empty path or a missing directory above stands in the way. -/
def DirList.mkdir (fs : DirList) (path : Text) : DirList × MkdirResult :=
  let d := dirOf path
  if path = [] then (fs, .failed)
  else if d.names = [] ∨ d ∈ fs then (fs, .fileExists)
  else if d.parent.names = [] ∨ d.parent ∈ fs then (d :: fs, .created)
  else (fs, .failed)

theorem DirList.mkdirSpec : MkdirSpec DirList.mkdir fun fs d => d.names = [] ∨ d ∈ fs where
  start _ _ := Or.inl rfl
  succeeds fs path hne hparent := by
    have hpath : path ≠ [] := fun hnil => hne (by rw [hnil, components_nil])
    simp only [DirList.mkdir, if_neg hpath, if_pos hparent]
    split_ifs <;> simp
  made fs path hok := by
    simp only [DirList.mkdir] at hok ⊢
    split_ifs at hok ⊢ with hpath hexists hparent
    · exact absurd rfl hok
    · exact hexists
    · exact Or.inr List.mem_cons_self
    · exact absurd rfl hok
  kept fs path d hd := by
    simp only [DirList.mkdir]
    split_ifs
    · exact hd
    · exact hd
    · exact hd.imp_right (List.mem_cons_of_mem _)
    · exact hd

/-- `a//b/tx`. -/
def doubledPath : Text := ['a', '/', '/', 'b', '/', 't', 'x']

/-- `createFifo_ancestors` for a path with a doubled slash. -/
theorem createFifo_ancestors_doubledPath :
    [⟨false, [['a']]⟩, ⟨false, [['a'], ['b']]⟩].Sublist ((mkdirCalls doubledPath).map dirOf) ∧
      ⟨false, [['a'], ['b']]⟩ ∈ beforeMkfifo DirList.mkdir [] doubledPath := by
  have hnul : '\x00' ∉ doubledPath := by decide
  have hfits : doubledPath.length < pathCopyBytes := by simp [doubledPath, pathCopyBytes]
  obtain ⟨hsub, hmade⟩ := createFifo_ancestors DirList.mkdirSpec hnul hfits
  refine ⟨hsub, ?_⟩
  have hmem : (⟨false, [['a'], ['b']]⟩ : Dir) ∈ properAncestors doubledPath := by decide
  exact (hmade [] _ hmem).resolve_left (by simp)

/-- `/a/tx`. -/
def absolutePath : Text := ['/', 'a', '/', 't', 'x']

/-- For `/a/tx` `mkdir` is called with `/a` only, and not for the root above it. -/
theorem not_sublist_absolutePath :
    ¬ ∀ path : Text, '\x00' ∉ path → path.length < pathCopyBytes →
      (properAncestors path).Sublist ((mkdirCalls path).map dirOf) := by
  intro h
  have hnul : '\x00' ∉ ['/', 'a'] ++ '/' :: ['t', 'x'] := by decide
  have hfits : (['/', 'a'] ++ '/' :: ['t', 'x']).length < pathCopyBytes := by simp [pathCopyBytes]
  have hlast : '/' ∉ ['t', 'x'] := by decide
  obtain ⟨back, hcalls⟩ : ∃ back, mkdirCalls absolutePath
      = mkdirLoop (['/', 'a'] ++ '\x00' :: back) 1 := mkdirCalls_append hnul hfits hlast
  have hend : mkdirLoop (['/'] ++ ['a'] ++ '\x00' :: back) 1 = [['/'] ++ ['a']] :=
    mkdirLoop_end (by decide) (by decide) (by decide) back
  have hsub := h absolutePath hnul hfits
  rw [show mkdirCalls absolutePath = [['/', 'a']] from hcalls.trans hend] at hsub
  exact absurd hsub (by decide)

end FileServer
