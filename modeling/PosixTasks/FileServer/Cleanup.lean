import PosixTasks.FileServer.FifoPath
import PosixTasks.Lib.FileTree

/-!
# Removing a FIFO and its directories

`cleanup_fifo` removes the FIFO. Then it cuts its copy of the path at the last slash, again and
again, and removes the directory that is left as long as there is nothing in it. It does not know
which of the directories `create_fifo_with_path` has made.

## Main results

* `mem_cleanupLoop`: what the loop removes;
* `mem_createFifo`: what `create_fifo_with_path` makes;
* `cleanup_create`: the one after the other leaves nothing behind, and takes the directories on the
  way that held nothing before.
-/

namespace FileServer

open CString Directories

/-- `mkfifo` in a tree of directories and FIFOs. -/
def mkfifo (fs : FileTree) (path : Text) : FileTree × MkfifoResult :=
  if path = [] then (fs, .failed)
  else if h : fs.Has (dirOf path) then (fs, .fileExists)
  else if hparent : fs.IsDir (dirOf path).parent then
    (fs.add (dirOf path) .fifo h hparent, .created)
  else (fs, .failed)

theorem strrchr_lt {s : Text} {c : Char} {i : ℕ} (h : strrchr s c = some i) : i < s.length := by
  obtain ⟨⟨before, after⟩, hsplit, rfl⟩ := Option.map_eq_some_iff.mp h
  by_cases hmem : c ∈ s
  · obtain ⟨before', after', rfl, hlast⟩ := exists_last_of_mem hmem
    rw [splitLast_append hlast] at hsplit
    obtain ⟨rfl, -⟩ := Prod.mk.inj (Option.some.inj hsplit)
    simp
  · rw [splitLast_eq_none hmem] at hsplit
    cases hsplit

/-- A string ends at the first NUL. -/
theorem length_ofBuffer_append_le (front back : Text) :
    (ofBuffer (front ++ '\x00' :: back)).length ≤ front.length := by
  induction front with
  | nil => simp [ofBuffer]
  | cons c front ih =>
    by_cases hc : c = '\x00'
    · simp [ofBuffer, hc]
    · simpa [ofBuffer, hc] using ih

theorem length_ofBuffer_set_le {s : Text} {i : ℕ} (h : i < s.length) :
    (ofBuffer (s.set i '\x00')).length ≤ i := by
  rw [List.set_eq_take_append_cons_drop, if_pos h]
  exact (length_ofBuffer_append_le _ _).trans (List.length_take_le i s)

/-- The loop: the directory is removed, and the next one looked at, as long as it is empty. -/
def cleanupLoop (fs : FileTree) (pathCopy : Text) : FileTree :=
  match _ : strrchr (ofBuffer pathCopy) '/' with
  | some lastSlash =>
      let pathCopy := pathCopy.set lastSlash '\x00'
      match fs.readdir (ofBuffer pathCopy) with
      | some names =>
          if names.all fun name => name = ['.'] ∨ name = ['.', '.'] then
            match fs.rmdir (ofBuffer pathCopy) with
            | (fs, true) => cleanupLoop fs pathCopy
            | (fs, false) => fs
          else fs
      | none => fs
  | none => fs
termination_by (ofBuffer pathCopy).length
decreasing_by
  have hlt := strrchr_lt ‹_›
  have hle := length_ofBuffer_set_le (hlt.trans_le (List.takeWhile_prefix _).length_le)
  exact hle.trans_lt hlt

/-- `cleanup_fifo`. A FIFO that is not there any more is not an error. -/
def cleanupFifo (fs : FileTree) (fifoPath : Text) : FileTree :=
  cleanupLoop (fs.unlink fifoPath) (strncpy (pathCopyBytes - 1) fifoPath ++ ['\x00'])

/-! ## What the loop removes -/

section Loop

variable {fs : FileTree} {r : Bool} {names : List Text} {name : Text} {e : Dir} {k : Kind}

/-- The directory `e` is on the way, and so is all that is in it. -/
structure HoldsOnly (fs : FileTree) (r : Bool) (names : List Text) (e : Dir) : Prop where
  fromRoot : e.fromRoot = r
  onWay : e.names <+: names
  below : ∀ x k, (x, k) ∈ fs.entries → x.fromRoot = r → e.names <+: x.names → x.names <+: names

theorem cleanupLoop_cut {front last : Text} (hnul : '\x00' ∉ front ++ '/' :: last)
    (hlast : '/' ∉ last) (fs : FileTree) (back : Text) :
    cleanupLoop fs (front ++ '/' :: last ++ '\x00' :: back) =
      match fs.readdir front with
      | some names =>
          if names.all fun name => name = ['.'] ∨ name = ['.', '.'] then
            match fs.rmdir front with
            | (fs, true) => cleanupLoop fs (front ++ '\x00' :: (last ++ '\x00' :: back))
            | (fs, false) => fs
          else fs
      | none => fs := by
  have hcut : strrchr (ofBuffer (front ++ '/' :: last ++ '\x00' :: back)) '/'
      = some front.length := by
    rw [ofBuffer_append hnul, strrchr, splitLast_append hlast, Option.map_some]
  have hset : (front ++ '/' :: last ++ '\x00' :: back).set front.length '\x00'
      = front ++ '\x00' :: (last ++ '\x00' :: back) := by
    rw [List.append_assoc, List.cons_append, set_length_append]
  have hfront : '\x00' ∉ front := fun h => hnul (List.mem_append_left _ h)
  rw [cleanupLoop]
  split
  next i hi =>
    obtain rfl := Option.some.inj (hcut.symm.trans hi)
    simp only [hset, ofBuffer_append hfront]
  next hnone =>
    rw [hcut] at hnone
    cases hnone

theorem cleanupLoop_name (hname : IsName name) (fs : FileTree) (back : Text) :
    cleanupLoop fs (name ++ '\x00' :: back) = fs := by
  rw [cleanupLoop]
  split
  next i hi =>
    rw [ofBuffer_append hname.nul, strrchr, splitLast_eq_none hname.slash] at hi
    cases hi
  next => rfl

/-- The loop stops at a directory with something in it, and otherwise goes on above it. -/
theorem cleanupLoop_fileText (hnames : ∀ n ∈ names, IsName n) {dir : Text} (hdir : IsName dir)
    (hname : IsName name) (hmem : (⟨r, names ++ [dir]⟩, .directory) ∈ fs.entries) (back : Text) :
    cleanupLoop fs (fileText r (names ++ [dir]) name ++ '\x00' :: back) =
      if hempty : fs.children ⟨r, names ++ [dir]⟩ = [] then
        cleanupLoop (fs.remove _ hempty)
          (fileText r names dir ++ '\x00' :: (name ++ '\x00' :: back))
      else fs := by
  have htext : fileText r (names ++ [dir]) name = fileText r names dir ++ '/' :: name := by
    simp [fileText, dirText_concat]
  have hall : ∀ n ∈ names ++ [dir], IsName n := by
    intro n hn
    rcases List.mem_append.mp hn with hn | hn
    · exact hnames n hn
    · exact List.mem_singleton.mp hn ▸ hdir
  have hnul := nul_not_mem_fileText (r := r) hall hname
  have hpath : fileText r names dir ≠ [] := by simp [fileText, hdir.ne_nil]
  have hdirOf : dirOf (fileText r names dir) = ⟨r, names ++ [dir]⟩ := dirOf_fileText hnames hdir
  rw [htext] at hnul ⊢
  rw [cleanupLoop_cut hnul hname.slash]
  -- the path left in the buffer is that of the directory
  generalize (⟨r, names ++ [dir]⟩ : Dir) = d at hmem hdirOf ⊢
  subst hdirOf
  rw [FileTree.readdir_eq hpath (.inr hmem)]
  split_ifs with hempty
  · simp [hempty, FileTree.rmdir_eq hpath hmem hempty]
  · have hfails : fs.rmdir (fileText r names dir) = (fs, false) := by
      rw [FileTree.rmdir, if_pos ⟨hpath, hmem⟩, dif_neg hempty]
    simp [hfails]

/-- The directory that has been emptied is removed, and with it those above it that held nothing
else. -/
theorem holdsOnly_remove {dir : Text} (hempty : fs.children ⟨r, names ++ [dir]⟩ = [])
    (he : e ≠ ⟨r, names ++ [dir]⟩) :
    HoldsOnly (fs.remove _ hempty) r names e ↔ HoldsOnly fs r (names ++ [dir]) e := by
  -- a path to another directory is below `dir` exactly if it is below what is above `dir`
  have hpre : ∀ d : Dir, d.fromRoot = r → d ≠ ⟨r, names ++ [dir]⟩ →
      (d.names <+: names ++ [dir] ↔ d.names <+: names) := by
    intro d hd hne
    rw [List.prefix_concat_iff]
    refine or_iff_right fun heq => hne ?_
    obtain ⟨fromRoot, way⟩ := d
    obtain rfl : fromRoot = r := hd
    obtain rfl : way = names ++ [dir] := heq
    rfl
  constructor
  · rintro ⟨hroot, hway, hbelow⟩
    refine ⟨hroot, (hpre e hroot he).mpr hway, fun x k hx hxroot hxway => ?_⟩
    by_cases hxdir : x = ⟨r, names ++ [dir]⟩
    · rw [hxdir]
    · exact (hpre x hxroot hxdir).mpr
        (hbelow x k (FileTree.mem_remove.mpr ⟨hx, hxdir⟩) hxroot hxway)
  · rintro ⟨hroot, hway, hbelow⟩
    refine ⟨hroot, (hpre e hroot he).mp hway, fun x k hx hxroot hxway => ?_⟩
    obtain ⟨hx, hxdir⟩ := FileTree.mem_remove.mp hx
    exact (hpre x hxroot hxdir).mp (hbelow x k hx hxroot hxway)

/-- The loop removes the directories on the way in which nothing is left but the way. -/
theorem mem_cleanupLoop (hnames : ∀ n ∈ names, IsName n) (hname : IsName name)
    (hdir : fs.IsDir ⟨r, names⟩) (back : Text) :
    (e, k) ∈ (cleanupLoop fs (fileText r names name ++ '\x00' :: back)).entries ↔
      (e, k) ∈ fs.entries ∧ ¬ HoldsOnly fs r names e := by
  induction names using List.reverseRecOn generalizing fs name back with
  | nil =>
    -- nothing is on the way above the first name but the root, which stays
    have hstays : ∀ {e : Dir} {k : Kind}, (e, k) ∈ fs.entries → ¬ HoldsOnly fs r [] e :=
      fun hmem h => fs.named _ _ hmem (List.prefix_nil.mp h.onWay)
    have hloop : cleanupLoop fs (fileText r [] name ++ '\x00' :: back) = fs := by
      cases r with
      | false => exact cleanupLoop_name hname fs back
      | true =>
        have hnul : '\x00' ∉ [] ++ '/' :: name := by simpa using hname.nul
        have hcut := cleanupLoop_cut hnul hname.slash fs back
        simpa [fileText, dirText, FileTree.readdir] using hcut
    rw [hloop]
    exact ⟨fun hmem => ⟨hmem, hstays hmem⟩, And.left⟩
  | append_singleton names dir ih =>
    have hdirName := hnames dir (by simp)
    have habove : ∀ n ∈ names, IsName n := fun n hn => hnames n (by simp [hn])
    have hmem : (⟨r, names ++ [dir]⟩, Kind.directory) ∈ fs.entries :=
      hdir.resolve_left (by simp)
    rw [cleanupLoop_fileText habove hdirName hname hmem]
    split_ifs with hempty
    · have hparent : (fs.remove _ hempty).IsDir ⟨r, names⟩ := by
        have hp := fs.parent_mem _ _ hmem
        simp only [Dir.parent, List.dropLast_concat] at hp
        exact hp.imp_right fun hp => FileTree.mem_remove.mpr ⟨hp, by simp⟩
      rw [ih habove hdirName hparent, FileTree.mem_remove, and_assoc]
      refine and_congr_right fun he => ?_
      by_cases heq : e = ⟨r, names ++ [dir]⟩
      · -- what has been removed was empty
        subst heq
        refine iff_of_false (fun h => h.1 rfl) (not_not.mpr ⟨rfl, List.prefix_rfl, ?_⟩)
        intro x l hx hxroot hxway
        rw [FileTree.eq_of_children_eq_nil hempty hx hxroot hxway]
      · rw [holdsOnly_remove hempty heq]
        simp [heq]
    · -- there is a child, which is not on the way
      refine ⟨fun he => ⟨he, fun honly => ?_⟩, And.left⟩
      rw [FileTree.children_eq_nil_iff] at hempty
      push Not at hempty
      obtain ⟨x, l, hx, hparent⟩ := hempty
      obtain ⟨hxroot, hxnames⟩ : x.fromRoot = r ∧ x.names.dropLast = names ++ [dir] :=
        Dir.mk.inj hparent
      have hlen := (honly.below x l hx hxroot
        (honly.onWay.trans (hxnames ▸ List.dropLast_prefix _))).length_le
      rw [← hxnames, List.length_dropLast] at hlen
      have := List.length_pos_of_ne_nil (fs.named x l hx)
      omega

/-- A path that fits is copied whole. -/
theorem strncpy_terminated {path : Text} (hfits : path.length < pathCopyBytes) :
    ∃ back, strncpy (pathCopyBytes - 1) path ++ ['\x00'] = path ++ '\x00' :: back := by
  refine ⟨List.replicate (pathCopyBytes - 1 - path.length) '\x00', ?_⟩
  rw [strncpy, List.take_of_length_le (by omega), List.append_assoc,
    ← List.replicate_succ', List.replicate_succ]

theorem mem_unlink (hnames : ∀ n ∈ names, IsName n) (hname : IsName name)
    (hfifo : (⟨r, names ++ [name]⟩, .fifo) ∈ fs.entries) :
    (e, k) ∈ (fs.unlink (fileText r names name)).entries ↔
      (e, k) ∈ fs.entries ∧ e ≠ ⟨r, names ++ [name]⟩ := by
  rw [← dirOf_fileText hnames hname] at hfifo ⊢
  rw [FileTree.unlink, dif_pos hfifo, FileTree.mem_remove]

/-- What `cleanup_fifo` removes: the FIFO, and the directories on the way to it that held nothing
else. -/
theorem mem_cleanupFifo (hnames : ∀ n ∈ names, IsName n) (hname : IsName name)
    (hfits : (fileText r names name).length < pathCopyBytes)
    (hfifo : (⟨r, names ++ [name]⟩, .fifo) ∈ fs.entries) :
    (e, k) ∈ (cleanupFifo fs (fileText r names name)).entries ↔
      ((e, k) ∈ fs.entries ∧ e ≠ ⟨r, names ++ [name]⟩) ∧
        ¬ HoldsOnly (fs.unlink (fileText r names name)) r names e := by
  obtain ⟨back, hcopy⟩ := strncpy_terminated hfits
  have hparent : (fs.unlink (fileText r names name)).IsDir ⟨r, names⟩ := by
    have hp := fs.parent_mem _ _ hfifo
    simp only [Dir.parent, List.dropLast_concat] at hp
    exact hp.imp_right fun hp => (mem_unlink hnames hname hfifo).mpr ⟨hp, by simp⟩
  rw [cleanupFifo, hcopy, mem_cleanupLoop hnames hname hparent, mem_unlink hnames hname hfifo]

end Loop

/-! ## What `create_fifo_with_path` makes -/

section Create

variable {fs : FileTree} {r : Bool} {names done rest : List Text} {name : Text} {e : Dir} {k : Kind}

/-- The paths of the directories on the way, from the outermost on. -/
def wayTexts (r : Bool) (done : List Text) : List Text → List Text
  | [] => []
  | name :: rest => fileText r done name :: wayTexts r (done ++ [name]) rest

/-- The loop calls `mkdir` for the directories on the way, each with its own text. -/
theorem mkdirLoop_eq (hdone : ∀ n ∈ done, IsName n) (hrest : ∀ n ∈ rest, IsName n)
    (hne : rest ≠ []) (back : Text) :
    mkdirLoop ((dirText r (done ++ rest)).dropLast ++ '\x00' :: back) (dirText r done).length
      = wayTexts r done rest := by
  have hnul : '\x00' ∉ dirText r done := by
    simp only [dirText, List.mem_append, List.mem_flatMap, not_or, not_exists, not_and]
    refine ⟨by cases r <;> simp, fun n hn => ?_⟩
    simpa using (hdone n hn).nul
  -- by induction on the names that the loop has still in front of it
  induction rest generalizing done with
  | nil => exact absurd rfl hne
  | cons name rest ih =>
    have hname := hrest name (by simp)
    by_cases hlast : rest = []
    · subst hlast
      have htext : (dirText r (done ++ [name])).dropLast = dirText r done ++ name := by
        rw [dirText_concat, List.dropLast_concat, fileText]
      rw [htext, mkdirLoop_end hnul hname.nul hname.slash]
      rfl
    · have hdone' : ∀ n ∈ done ++ [name], IsName n := by
        intro n hn
        rcases List.mem_append.mp hn with hn | hn
        · exact hdone n hn
        · exact List.mem_singleton.mp hn ▸ hname
      -- the loop cuts the text behind `name`, calls `mkdir` and puts the slash back
      have htext : (dirText r (done ++ name :: rest)).dropLast
          = dirText r done ++ name ++ '/' :: (rest.flatMap (· ++ ['/'])).dropLast := by
        have hsplit : dirText r (done ++ name :: rest)
            = dirText r done ++ name ++ '/' :: rest.flatMap (· ++ ['/']) := by
          simp [dirText]
        have hflat : rest.flatMap (· ++ ['/']) ≠ [] := by
          obtain ⟨n, rest, rfl⟩ := List.exists_cons_of_ne_nil hlast
          simp
        rw [hsplit, List.dropLast_append_of_ne_nil (by simp), List.dropLast_cons_of_ne_nil hflat]
      have hstep := mkdirLoop_slash hnul hname.nul hname.slash
        ((rest.flatMap (· ++ ['/'])).dropLast ++ '\x00' :: back)
      have hnext : dirText r (done ++ [name]) = dirText r done ++ name ++ ['/'] := by
        rw [dirText_concat, fileText]
      have hnul' : '\x00' ∉ dirText r (done ++ [name]) := by
        rw [hnext]
        simp [hnul, hname.nul]
      have hgo := ih hdone' (fun n hn => hrest n (by simp [hn])) hlast hnul'
      rw [List.append_assoc, List.singleton_append, htext, hnext] at hgo
      rw [htext, wayTexts, ← hgo]
      simpa [fileText] using hstep

/-- The loop starts behind the slash of the root. -/
theorem length_takeWhile_fileText (hnames : ∀ n ∈ names, IsName n) (hname : IsName name) :
    ((fileText r names name).takeWhile (· = '/')).length = (dirText r []).length := by
  have hhead : (fileText false names name).head? ≠ some '/' := by
    rw [ne_eq, head?_fileText hnames hname]
    simp
  have hnone : (fileText false names name).takeWhile (· = '/') = [] := by
    cases htext : fileText false names name with
    | nil => rfl
    | cons c rest =>
      rw [htext] at hhead
      simpa using hhead
  have hsplit : fileText r names name = dirText r [] ++ fileText false names name := by
    simp [fileText, dirText]
  rw [hsplit]
  cases r
  · simpa [dirText] using hnone
  · simpa [dirText] using hnone

/-- `mkdir` is called for the directories on the way, and once in vain where there is only the
root. -/
theorem mkdirCalls_fileText (hnames : ∀ n ∈ names, IsName n) (hname : IsName name)
    (hfits : (fileText r names name).length < pathCopyBytes) :
    mkdirCalls (fileText r names name)
      = if names = [] then (if r then [[]] else []) else wayTexts r [] names := by
  have hnul := nul_not_mem_fileText (r := r) hnames hname
  rcases List.eq_nil_or_concat names with rfl | ⟨above, dir, rfl⟩
  · rw [if_pos rfl]
    cases r with
    | false =>
      -- a name alone has no slash, so that nothing is called
      obtain ⟨back, hcopy⟩ := strncpy_of_fits hfits
      have hnone :
          strrchr (ofBuffer (strncpy pathCopyBytes (fileText false [] name))) '/' = none := by
        rw [hcopy, ofBuffer_append hnul, strrchr]
        exact congrArg (Option.map _) (splitLast_eq_none hname.slash)
      simp [mkdirCalls, hnone]
    | true =>
      -- a name below the root leaves the empty text, for which `mkdir` fails
      obtain ⟨back, hcalls⟩ : ∃ back, mkdirCalls ([] ++ '/' :: name)
          = mkdirLoop ([] ++ '\x00' :: back) 0 := mkdirCalls_append hnul hfits hname.slash
      have hend : mkdirLoop ([] ++ [] ++ '\x00' :: back) 0 = [[] ++ []] :=
        mkdirLoop_end (by simp) (by simp) (by simp) back
      exact hcalls.trans hend
  · rw [List.concat_eq_append] at hnames hfits hnul ⊢
    have hdir := hnames dir (by simp)
    have habove : ∀ n ∈ above, IsName n := fun n hn => hnames n (by simp [hn])
    have htext : fileText r (above ++ [dir]) name = fileText r above dir ++ '/' :: name := by
      simp [fileText, dirText_concat]
    have hfront : fileText r above dir = (dirText r ([] ++ (above ++ [dir]))).dropLast := by
      rw [List.nil_append, dirText_concat, List.dropLast_concat]
    rw [htext] at hnul hfits ⊢
    obtain ⟨back, hcalls⟩ := mkdirCalls_append hnul hfits hname.slash
    rw [hcalls, length_takeWhile_fileText habove hdir, hfront,
      mkdirLoop_eq (by simp) hnames (by simp), if_neg (by simp)]

theorem mem_mkdir (hdone : ∀ n ∈ done, IsName n) (hname : IsName name)
    (hparent : fs.IsDir ⟨r, done⟩) (hfifo : (⟨r, done ++ [name]⟩, .fifo) ∉ fs.entries) :
    (e, k) ∈ (fs.mkdir (fileText r done name)).1.entries ↔
      (e, k) ∈ fs.entries ∨ (e = ⟨r, done ++ [name]⟩ ∧ k = .directory) := by
  have hdirOf : dirOf (fileText r done name) = ⟨r, done ++ [name]⟩ := dirOf_fileText hdone hname
  have hpath : fileText r done name ≠ [] := by simp [fileText, hname.ne_nil]
  have hparent' : fs.IsDir (dirOf (fileText r done name)).parent := by
    rw [hdirOf, Dir.parent, List.dropLast_concat]
    exact hparent
  rw [FileTree.mkdir, if_neg hpath, ← hdirOf]
  rw [← hdirOf] at hfifo
  split_ifs with hhas
  · -- a directory is there
    refine ⟨.inl, ?_⟩
    rintro (hmem | ⟨rfl, rfl⟩)
    · exact hmem
    · obtain ⟨⟨d, l⟩, hmem, hd⟩ := List.mem_map.mp (hhas.resolve_left (by simp [hdirOf]))
      obtain rfl : d = dirOf (fileText r done name) := hd
      cases l with
      | directory => exact hmem
      | fifo => exact absurd hmem hfifo
  · simp only [FileTree.add, List.mem_cons, Prod.mk.injEq]
    exact or_comm

/-- The directories on the way are there after the calls, and nothing else is new. -/
theorem mem_foldl_mkdir (hdone : ∀ n ∈ done, IsName n) (hrest : ∀ n ∈ rest, IsName n)
    (hdir : fs.IsDir ⟨r, done⟩)
    (hfifo : ∀ p, p <+: rest → (⟨r, done ++ p⟩, .fifo) ∉ fs.entries) :
    ((wayTexts r done rest).foldl (fun fs path => (fs.mkdir path).1) fs).IsDir ⟨r, done ++ rest⟩ ∧
      ∀ e k, (e, k) ∈ ((wayTexts r done rest).foldl (fun fs path => (fs.mkdir path).1) fs).entries ↔
        (e, k) ∈ fs.entries ∨
          (k = .directory ∧ ∃ p, p ≠ [] ∧ p <+: rest ∧ e = ⟨r, done ++ p⟩) := by
  induction rest generalizing fs done with
  | nil =>
    rw [wayTexts, List.foldl_nil, List.append_nil]
    refine ⟨hdir, fun e k => ⟨.inl, ?_⟩⟩
    rintro (hmem | ⟨-, p, hne, hpre, -⟩)
    · exact hmem
    · exact absurd (List.prefix_nil.mp hpre) hne
  | cons name rest ih =>
    have hname := hrest name (by simp)
    have hmem : ∀ {e : Dir} {k : Kind}, (e, k) ∈ (fs.mkdir (fileText r done name)).1.entries ↔
        (e, k) ∈ fs.entries ∨ (e = ⟨r, done ++ [name]⟩ ∧ k = .directory) :=
      mem_mkdir hdone hname hdir (hfifo [name] (by simp))
    have hdone' : ∀ n ∈ done ++ [name], IsName n := by
      intro n hn
      rcases List.mem_append.mp hn with hn | hn
      · exact hdone n hn
      · exact List.mem_singleton.mp hn ▸ hname
    -- the directory that `mkdir` makes is no FIFO
    have hfifo' : ∀ p, p <+: rest →
        (⟨r, done ++ [name] ++ p⟩, Kind.fifo) ∉ (fs.mkdir (fileText r done name)).1.entries := by
      intro p hp hin
      rcases hmem.mp hin with hin | ⟨-, hkind⟩
      · refine hfifo (name :: p) ((List.prefix_cons_inj name).mpr hp) ?_
        simpa using hin
      · cases hkind
    obtain ⟨hlast, hall⟩ := ih hdone' (fun n hn => hrest n (by simp [hn]))
      (.inr (hmem.mpr (.inr ⟨rfl, rfl⟩))) hfifo'
    rw [wayTexts, List.foldl_cons]
    refine ⟨by simpa using hlast, fun e k => ?_⟩
    rw [hall, hmem, or_assoc]
    -- a path below `done` is `done ++ [name]` or one below that
    refine or_congr_right ⟨?_, ?_⟩
    · rintro (⟨rfl, rfl⟩ | ⟨rfl, p, hne, hpre, rfl⟩)
      · exact ⟨rfl, [name], by simp, by simp, rfl⟩
      · exact ⟨rfl, name :: p, by simp, (List.prefix_cons_inj name).mpr hpre, by simp⟩
    · rintro ⟨rfl, p, hne, hpre, rfl⟩
      obtain ⟨n, p, rfl⟩ := List.exists_cons_of_ne_nil hne
      obtain ⟨rfl, hp⟩ := List.cons_prefix_cons.mp hpre
      by_cases hnil : p = []
      · exact .inl ⟨by rw [hnil], rfl⟩
      · exact .inr ⟨rfl, p, hnil, hp, by simp⟩

/-- `create_fifo_with_path` makes the FIFO and the directories on the way, and nothing else. -/
theorem mem_createFifo (hnames : ∀ n ∈ names, IsName n) (hname : IsName name)
    (hfits : (fileText r names name).length < pathCopyBytes)
    (hfree : ¬ fs.Has ⟨r, names ++ [name]⟩)
    (hway : ∀ p, p <+: names → (⟨r, p⟩, .fifo) ∉ fs.entries) :
    (createFifoWithPath FileTree.mkdir mkfifo fs (fileText r names name)).2 = 0 ∧
      ∀ e k, (e, k) ∈
          (createFifoWithPath FileTree.mkdir mkfifo fs (fileText r names name)).1.entries ↔
        (e, k) ∈ fs.entries ∨ (k = .directory ∧ e.fromRoot = r ∧ e.names ≠ [] ∧ e.names <+: names) ∨
          (k = .fifo ∧ e = ⟨r, names ++ [name]⟩) := by
  obtain ⟨hparent, hall⟩ :
      (beforeMkfifo FileTree.mkdir fs (fileText r names name)).IsDir ⟨r, names⟩ ∧
      ∀ e k, (e, k) ∈ (beforeMkfifo FileTree.mkdir fs (fileText r names name)).entries ↔
        (e, k) ∈ fs.entries ∨
          (k = .directory ∧ e.fromRoot = r ∧ e.names ≠ [] ∧ e.names <+: names) := by
    rw [beforeMkfifo, mkdirCalls_fileText hnames hname hfits]
    by_cases hroot : names = []
    · have hsame : (if r then [[]] else []).foldl (fun fs path => (fs.mkdir path).1) fs = fs := by
        cases r <;> rfl
      rw [if_pos hroot, hsame]
      refine ⟨.inl hroot, fun e k => ⟨.inl, ?_⟩⟩
      rintro (hmem | ⟨-, -, hne, hpre⟩)
      · exact hmem
      · rw [hroot, List.prefix_nil] at hpre
        exact absurd hpre hne
    · rw [if_neg hroot]
      obtain ⟨hlast, hmem⟩ := mem_foldl_mkdir (r := r) (by simp) hnames (.inl rfl)
        (fun p hp => by simpa using hway p hp)
      refine ⟨by simpa using hlast, fun e k => (hmem e k).trans (or_congr_right ?_)⟩
      constructor
      · rintro ⟨rfl, p, hne, hpre, rfl⟩
        exact ⟨rfl, rfl, hne, hpre⟩
      · rintro ⟨rfl, rfl, hne, hpre⟩
        exact ⟨rfl, e.names, hne, hpre, rfl⟩
  have hdirOf : dirOf (fileText r names name) = ⟨r, names ++ [name]⟩ := dirOf_fileText hnames hname
  have hpath : fileText r names name ≠ [] := by simp [fileText, hname.ne_nil]
  -- the calls of `mkdir` have not made anything at the place of the FIFO
  have hnew : ¬ (beforeMkfifo FileTree.mkdir fs (fileText r names name)).Has
      (dirOf (fileText r names name)) := by
    rw [hdirOf]
    rintro (hnil | hhas)
    · simp at hnil
    · obtain ⟨⟨d, l⟩, hmem, hd⟩ := List.mem_map.mp hhas
      obtain rfl : d = ⟨r, names ++ [name]⟩ := hd
      rcases (hall _ l).mp hmem with hmem | ⟨-, -, -, hpre⟩
      · exact hfree (FileTree.has_of_mem hmem)
      · simpa using hpre.length_le
  have hparent' : (beforeMkfifo FileTree.mkdir fs (fileText r names name)).IsDir
      (dirOf (fileText r names name)).parent := by
    rw [hdirOf, Dir.parent, List.dropLast_concat]
    exact hparent
  rw [createFifoWithPath, mkfifo, if_neg hpath, dif_neg hnew, dif_pos hparent']
  refine ⟨rfl, fun e k => ?_⟩
  simp only [FileTree.add, List.mem_cons, Prod.mk.injEq, hall, hdirOf]
  tauto

end Create

/-- `cleanup_fifo` after `create_fifo_with_path`: nothing new is left, and of what there was before
the directories on the way are gone that held nothing but the way. -/
theorem cleanup_create {fs : FileTree} {r : Bool} {names : List Text} {name : Text}
    (hnames : ∀ n ∈ names, IsName n) (hname : IsName name)
    (hfits : (fileText r names name).length < pathCopyBytes)
    (hfree : ¬ fs.Has ⟨r, names ++ [name]⟩)
    (hway : ∀ p, p <+: names → (⟨r, p⟩, .fifo) ∉ fs.entries) :
    (createFifoWithPath FileTree.mkdir mkfifo fs (fileText r names name)).2 = 0 ∧
      ∀ e k, (e, k) ∈ (cleanupFifo
          (createFifoWithPath FileTree.mkdir mkfifo fs (fileText r names name)).1
          (fileText r names name)).entries ↔
        (e, k) ∈ fs.entries ∧ ¬ HoldsOnly fs r names e := by
  obtain ⟨hok, hmade⟩ := mem_createFifo hnames hname hfits hfree hway
  refine ⟨hok, fun e k => ?_⟩
  generalize createFifoWithPath FileTree.mkdir mkfifo fs (fileText r names name) = made at hmade ⊢
  have hfifo : (⟨r, names ++ [name]⟩, Kind.fifo) ∈ made.1.entries :=
    (hmade _ _).mpr (.inr (.inr ⟨rfl, rfl⟩))
  have hold : ∀ {x : Dir} {l : Kind}, (x, l) ∈ fs.entries → x ≠ ⟨r, names ++ [name]⟩ :=
    fun hx heq => hfree (heq ▸ FileTree.has_of_mem hx)
  -- the FIFO apart, there is what there was and the way
  have hrest : ∀ x l, ((x, l) ∈ made.1.entries ∧ x ≠ ⟨r, names ++ [name]⟩) ↔
      (x, l) ∈ fs.entries ∨
        (l = .directory ∧ x.fromRoot = r ∧ x.names ≠ [] ∧ x.names <+: names) := by
    intro x l
    rw [hmade]
    constructor
    · rintro ⟨hx | hx | ⟨-, heq⟩, hne⟩
      · exact .inl hx
      · exact .inr hx
      · exact absurd heq hne
    · rintro (hx | hx)
      · exact ⟨.inl hx, hold hx⟩
      · refine ⟨.inr (.inl hx), fun heq => ?_⟩
        rw [heq] at hx
        simpa using hx.2.2.2.length_le
  have honly : HoldsOnly (made.1.unlink (fileText r names name)) r names e ↔
      HoldsOnly fs r names e := by
    constructor
    · rintro ⟨hroot, hpre, hbelow⟩
      refine ⟨hroot, hpre, fun x l hx => hbelow x l ?_⟩
      exact (mem_unlink hnames hname hfifo).mpr ((hrest x l).mpr (.inl hx))
    · rintro ⟨hroot, hpre, hbelow⟩
      refine ⟨hroot, hpre, fun x l hx hxroot hxway => ?_⟩
      rcases (hrest x l).mp ((mem_unlink hnames hname hfifo).mp hx) with hx | ⟨-, -, -, hxpre⟩
      · exact hbelow x l hx hxroot hxway
      · exact hxpre
  rw [mem_cleanupFifo hnames hname hfits hfifo, hrest, honly]
  refine ⟨?_, fun ⟨hin, hno⟩ => ⟨.inl hin, hno⟩⟩
  rintro ⟨hin | ⟨rfl, hroot, hne, hpre⟩, hno⟩
  · exact ⟨hin, hno⟩
  · -- a directory that is new held nothing before
    refine ⟨?_, hno⟩
    by_contra hnew
    refine hno ⟨hroot, hpre, fun x l hx hxroot hxway => ?_⟩
    by_cases heq : e.names = x.names
    · exact heq ▸ hpre
    · have hdir := FileTree.isDir_of_prefix hx hxway heq
      rw [hxroot, ← hroot] at hdir
      exact absurd (hdir.resolve_left hne) hnew

/-- `tmp`, with nothing in it. -/
def emptyTmp : FileTree where
  entries := [(⟨false, [['t', 'm', 'p']]⟩, .directory)]
  nodup := by decide
  named := by simp
  parent_mem d k h := by
    obtain ⟨rfl, -⟩ : d = ⟨false, [['t', 'm', 'p']]⟩ ∧ k = .directory := by simpa using h
    exact .inl rfl

/-- The directories of `tmp/client_7/tx`. -/
def clientDirs : List Text := [['t', 'm', 'p'], ['c', 'l', 'i', 'e', 'n', 't', '_', '7']]

/-- A client that has the server's directory `tmp` for itself removes it when it ends. -/
theorem cleanup_create_emptyTmp :
    (cleanupFifo (createFifoWithPath FileTree.mkdir mkfifo emptyTmp
        (fileText false clientDirs ['t', 'x'])).1
      (fileText false clientDirs ['t', 'x'])).entries = [] := by
  have hnames : ∀ n ∈ clientDirs, IsName n := by
    simp only [clientDirs, List.forall_mem_cons]
    exact ⟨⟨by decide, by decide, by decide, by decide, by decide⟩,
      ⟨by decide, by decide, by decide, by decide, by decide⟩, by simp⟩
  have hname : IsName ['t', 'x'] := ⟨by decide, by decide, by decide, by decide, by decide⟩
  have hfits : (fileText false clientDirs ['t', 'x']).length < pathCopyBytes := by decide
  obtain ⟨-, hleft⟩ := @cleanup_create emptyTmp false clientDirs _ hnames hname hfits (by decide)
    (fun p _ hmem => by simp [emptyTmp] at hmem)
  refine List.eq_nil_iff_forall_not_mem.mpr ?_
  rintro ⟨e, k⟩ hmem
  obtain ⟨hin, hno⟩ := (hleft e k).mp hmem
  obtain ⟨rfl, -⟩ : e = ⟨false, [['t', 'm', 'p']]⟩ ∧ k = .directory := by
    simpa [emptyTmp] using hin
  refine hno ⟨rfl, ⟨_, rfl⟩, fun x l hx _ _ => ?_⟩
  obtain ⟨rfl, -⟩ : x = ⟨false, [['t', 'm', 'p']]⟩ ∧ l = .directory := by
    simpa [emptyTmp] using hx
  exact ⟨_, rfl⟩

end FileServer
