import PosixTasks.Lib.CString
import PosixTasks.Lib.Lines

/-!
# Paths and the directories above them

A path is read as the names between its slashes, from the root or from the current directory.
Slashes that follow each other count as one.

## Main results

* `components_append_slash`: the names of a path are those on both sides of any of its slashes;
* `namedAncestors_eq`: the directories above a path are those on the way along its names;
* `MkdirSpec.exists_foldl`: calls of `mkdir` that name these directories in order make them all.
-/

namespace Directories

open CString Lines

/-- The names between the slashes of a path. -/
def components (path : Text) : List Text :=
  ((split '/' path).1 ++ [(split '/' path).2]).filter (· ≠ [])

/-- A directory, as a path names it: the names on the way from the root or from the current
directory. -/
structure Dir where
  fromRoot : Bool
  names : List Text
  deriving DecidableEq

/-- The directory that a path names. -/
def dirOf (path : Text) : Dir where
  fromRoot := path.head? = some '/'
  names := components path

/-- The directory in which a directory stands. -/
def Dir.parent (d : Dir) : Dir :=
  { d with names := d.names.dropLast }

/-- The directories above what a path names, from the outermost to the innermost. A relative path
does not name the directory that it starts from. -/
def properAncestors (path : Text) : List Dir :=
  ((components path).inits.dropLast.map (Dir.mk (dirOf path).fromRoot)).filter
    fun d => d.fromRoot ∨ d.names ≠ []

/-- The directories above what a path names, without the root. -/
def namedAncestors (path : Text) : List Dir :=
  (properAncestors path).filter (·.names ≠ [])

/-! ## The names in a path -/

@[simp]
theorem components_nil : components [] = [] := rfl

theorem components_word {w : Text} (h : '/' ∉ w) : components w = if w = [] then [] else [w] := by
  rw [components, split_of_not_mem h]
  split <;> simp_all

/-- The names of a path are those on both sides of a slash. -/
theorem components_append_slash (p q : Text) :
    components (p ++ '/' :: q) = components p ++ components q := by
  rw [components, components, components, split_append, ← List.filter_append]
  simp only [List.append_assoc, List.cons_append, List.nil_append]

theorem components_append_word {p w : Text} (hp : p = [] ∨ p.getLast? = some '/') (hw : '/' ∉ w) :
    components (p ++ w) = components p ++ if w = [] then [] else [w] := by
  rcases hp with rfl | hp
  · rw [List.nil_append, components_word hw, components_nil, List.nil_append]
  · obtain ⟨p, rfl⟩ := List.getLast?_eq_some_iff.mp hp
    rw [List.append_assoc, List.singleton_append, components_append_slash,
      components_append_slash, components_word hw, components_nil, List.append_nil]

/-! ## The directories above a path -/

/-- The directories on the way from one directory along the given names. -/
def onTheWay (fromRoot : Bool) (done : List Text) : List Text → List Dir
  | [] => []
  | name :: names => ⟨fromRoot, done ++ [name]⟩ :: onTheWay fromRoot (done ++ [name]) names

theorem onTheWay_append (fromRoot : Bool) (done names names' : List Text) :
    onTheWay fromRoot done (names ++ names')
      = onTheWay fromRoot done names ++ onTheWay fromRoot (done ++ names) names' := by
  induction names generalizing done with
  | nil => simp [onTheWay]
  | cons name names ih => simp [onTheWay, ih]

/-- The directories on the way are the longer initial parts of the whole way. -/
theorem onTheWay_eq (fromRoot : Bool) (done names : List Text) :
    onTheWay fromRoot done names
      = names.inits.tail.map fun way => Dir.mk fromRoot (done ++ way) := by
  induction names generalizing done with
  | nil => simp [onTheWay]
  | cons name names ih =>
    have hinits : names.inits = [] :: names.inits.tail := by cases names <;> simp
    rw [List.inits_cons, List.tail_cons, List.map_map, hinits, List.map_cons, onTheWay, ih]
    congr 1
    refine List.map_congr_left fun way _ => ?_
    simp

theorem names_ne_nil_of_mem_onTheWay {fromRoot : Bool} {done names : List Text} {d : Dir}
    (h : d ∈ onTheWay fromRoot done names) : d.names ≠ [] := by
  induction names generalizing done with
  | nil => cases h
  | cons name names ih =>
    rcases List.mem_cons.mp h with rfl | h
    · simp
    · exact ih h

/-- The directories above a path are those on the way along its names, without the last one. -/
theorem properAncestors_eq (path : Text) :
    properAncestors path
      = if components path = [] then [] else
        (if (dirOf path).fromRoot then [⟨true, []⟩] else [])
          ++ onTheWay (dirOf path).fromRoot [] (components path).dropLast := by
  rw [properAncestors]
  split
  next hnil => simp [hnil]
  next hne =>
    obtain ⟨front, last, hlast⟩ := (List.eq_nil_or_concat _).resolve_left hne
    have hinits : (components path).inits.dropLast = [] :: front.inits.tail := by
      have hone : [last].inits.tail.map (front ++ ·) = [front ++ [last]] := by simp
      rw [hlast, List.concat_eq_append, List.inits_append, hone, List.dropLast_concat]
      cases front <;> simp
    have hbelow : (onTheWay (dirOf path).fromRoot [] front).filter
        (fun d => d.fromRoot ∨ d.names ≠ []) = onTheWay (dirOf path).fromRoot [] front := by
      rw [List.filter_eq_self]
      intro d hd
      simp [names_ne_nil_of_mem_onTheWay hd]
    have hway := onTheWay_eq (dirOf path).fromRoot [] front
    simp only [List.nil_append] at hway
    rw [hinits, List.map_cons, ← hway, List.filter_cons, hbelow, hlast, List.concat_eq_append,
      List.dropLast_concat]
    cases (dirOf path).fromRoot <;> simp

theorem namedAncestors_eq (path : Text) :
    namedAncestors path = onTheWay (dirOf path).fromRoot [] (components path).dropLast := by
  have hnamed : (onTheWay (dirOf path).fromRoot [] (components path).dropLast).filter
      (·.names ≠ []) = onTheWay (dirOf path).fromRoot [] (components path).dropLast := by
    rw [List.filter_eq_self]
    intro d hd
    simpa using names_ne_nil_of_mem_onTheWay hd
  rw [namedAncestors, properAncestors_eq]
  split
  next hnil => simp [hnil, onTheWay]
  next =>
    rw [List.filter_append, hnamed]
    split <;> simp

/-! ## Making directories -/

/-- How `mkdir` returns: it has made the directory, `errno` is `EEXIST`, or there is another
error. -/
inductive MkdirResult where
  | created
  | fileExists
  | failed
  deriving DecidableEq

/-- What is assumed of `mkdir`; `Exists fs d` says that the directory `d` exists. -/
structure MkdirSpec {Fs : Type*} (mkdir : Fs → Text → Fs × MkdirResult)
    (Exists : Fs → Dir → Prop) : Prop where
  /-- The root and the current directory exist. -/
  start : ∀ fs fromRoot, Exists fs ⟨fromRoot, []⟩
  /-- Where the directory above exists, `mkdir` succeeds or reports that the directory exists. -/
  succeeds : ∀ fs path, components path ≠ [] → Exists fs (dirOf path).parent →
    (mkdir fs path).2 ≠ .failed
  /-- Then the directory exists. -/
  made : ∀ fs path, (mkdir fs path).2 ≠ .failed → Exists (mkdir fs path).1 (dirOf path)
  /-- No directory goes away. -/
  kept : ∀ fs path d, Exists fs d → Exists (mkdir fs path).1 d

section Mkdir

variable {Fs : Type*} {mkdir : Fs → Text → Fs × MkdirResult} {Exists : Fs → Dir → Prop}

theorem MkdirSpec.kept_foldl (spec : MkdirSpec mkdir Exists) (paths : List Text) {fs : Fs} {d : Dir}
    (h : Exists fs d) : Exists (paths.foldl (fun fs path => (mkdir fs path).1) fs) d := by
  induction paths generalizing fs with
  | nil => exact h
  | cons path paths ih => exact ih (spec.kept fs path d h)

/-- Calls of `mkdir` that name the directories on the way to another one make them all. -/
theorem MkdirSpec.exists_foldl (spec : MkdirSpec mkdir Exists) {paths : List Text} {fs : Fs}
    {fromRoot : Bool} {done names : List Text} (hdone : Exists fs ⟨fromRoot, done⟩)
    (hsub : (onTheWay fromRoot done names).Sublist (paths.map dirOf)) :
    ∀ d ∈ onTheWay fromRoot done names,
      Exists (paths.foldl (fun fs path => (mkdir fs path).1) fs) d := by
  induction paths generalizing fs done names with
  | nil =>
    rw [List.map_nil, List.sublist_nil] at hsub
    simp [hsub]
  | cons path paths ih =>
    cases names with
    | nil => simp [onTheWay]
    | cons name names =>
      rw [onTheWay, List.map_cons, List.cons_sublist_cons'] at hsub
      rw [List.foldl_cons]
      rcases hsub with hsub | ⟨hdir, hsub⟩
      · exact ih (spec.kept fs path _ hdone) hsub
      · -- this call is for the next directory, and the one above it exists
        have hnames : components path ≠ [] := by
          rw [show components path = (dirOf path).names from rfl, ← hdir]
          simp
        have hparent : Exists fs (dirOf path).parent := by
          rw [← hdir]
          simpa [Dir.parent] using hdone
        have hmade := spec.made fs path (spec.succeeds fs path hnames hparent)
        rw [← hdir] at hmade
        intro d hd
        rw [onTheWay, List.mem_cons] at hd
        rcases hd with rfl | hd
        · exact spec.kept_foldl paths hmade
        · exact ih hmade hsub d hd

end Mkdir

end Directories
