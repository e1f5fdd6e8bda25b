import PosixTasks.Lib.Heap
import PosixTasks.MonitorDaemon.EventBuffer

/-!
# The change queue in memory

`changed_files_queue` is an array of pointers to paths, each path in a block of its own.
`process_inotify_events` extends it by `realloc` and `strdup`, `get_changed_files_from_queue` copies
it and frees it. Any of the allocations can fail; an access that is not defined ends the run
without a result. The watches are not in this heap: a failed allocation in
`add_inotify_watch_recursive` ends that call and shows in the watches that it adds.
-/

namespace MonitorDaemon

open CString

/-! ## Blocks -/

/-- A pointer; `none` is `NULL`. -/
abbrev Pointer := Option ℕ

/-- What is allocated. A cell of an array is `none` until something is stored in it. -/
inductive Block where
  | text (path : Text)
  | array (cells : List (Option Pointer))
  deriving DecidableEq

/-- The memory of the daemon. -/
abbrev Memory := Heap Block

namespace Memory

variable (memory : Memory)

/-- The string behind a pointer. -/
def text : Pointer → Option Text
  | none => none
  | some p =>
    match memory.block p with
    | some (.text path) => some path
    | _ => none

/-- The cells of the array behind a pointer; there are none behind `NULL`. -/
def cells : Pointer → Option (List (Option Pointer))
  | none => some []
  | some p =>
    match memory.block p with
    | some (.array cells) => some cells
    | _ => none

/-- `p[i]` -/
def load (p : Pointer) (i : ℕ) : Option Pointer :=
  (memory.cells p).bind fun cells => cells[i]?.join

/-- `p[i] = value` -/
def assign (p : Pointer) (i : ℕ) (value : Pointer) : Option Memory :=
  match p, memory.cells p with
  | some p, some cells =>
    if i < cells.length then memory.store p (.array (cells.set i (some value))) else none
  | _, _ => none

/-- `free`; nothing happens to `NULL`. -/
def release : Pointer → Option Memory
  | none => some memory
  | some p => memory.free p

/-- `strdup`; `ok` if there is memory for the copy. -/
def strdup (ok : Bool) (path : Text) : Pointer × Memory :=
  if ok then
    let (p, memory) := memory.alloc (.text path)
    (some p, memory)
  else (none, memory)

/-- `calloc` for `n` pointers. -/
def calloc (ok : Bool) (n : ℕ) : Pointer × Memory :=
  if ok then
    let (p, memory) := memory.alloc (.array (List.replicate n (some none)))
    (some p, memory)
  else (none, memory)

/-- `realloc` to `n` pointers. A call that fails leaves the array where it is. -/
def realloc (ok : Bool) (p : Pointer) (n : ℕ) : Option (Pointer × Memory) :=
  match memory.cells p with
  | none => none
  | some cells =>
    if ok then
      let (q, memory) :=
        memory.alloc (.array (cells.take n ++ List.replicate (n - cells.length) none))
      -- the old block is freed once its cells are copied
      (release memory p).map fun memory => (some q, memory)
    else some (none, memory)

end Memory

/-! ## Adding paths -/

/-- `changed_files_queue`, `changed_files_count`, and the memory. -/
structure ChangeQueue where
  memory : Memory
  queue : Pointer
  count : ℕ

/-- What happens to the allocations for a path, if there are any. -/
inductive Allocation where
  | reallocFails
  | strdupFails
  | succeeds
  deriving DecidableEq

namespace ChangeQueue

/-- The loop that looks for a path from `j` on; `n` elements are left. -/
def search (q : ChangeQueue) (filePath : Text) : ℕ → ℕ → Option Bool
  | 0, _ => some false
  | n + 1, j => do
    let path ← q.memory.text (← q.memory.load q.queue j)
    if path = filePath then some true else q.search filePath n (j + 1)

/-- What `process_inotify_events` does with the path of an event that it adds. -/
def add (q : ChangeQueue) (allocation : Allocation) (filePath : Text) : Option ChangeQueue := do
  let found ← q.search filePath q.count 0
  if found then return q
  let (queue, memory) ←
    q.memory.realloc (allocation ≠ .reallocFails) q.queue (q.count + 1)
  -- the pointer to the old array is overwritten with `NULL`
  if queue = none then return { q with memory, queue }
  let (copy, memory) := memory.strdup (allocation = .succeeds) filePath
  let memory ← memory.assign queue q.count copy
  -- the path counts only if its copy was made
  if (← memory.load queue q.count) ≠ none then
    return { memory, queue, count := q.count + 1 }
  return { q with memory, queue }

/-- Paths are added one after the other. -/
def addAll (q : ChangeQueue) (allocation : ℕ → Allocation) : List Text → Option ChangeQueue
  | [] => some q
  | path :: paths => do
    let q ← q.add (allocation 0) path
    q.addAll (fun k => allocation (k + 1)) paths

end ChangeQueue

/-- The watches after `add_inotify_watch_recursive`. -/
def watchesAdded (scan : List WatchInfo → Text → Option (ℤ × DirScan)) (path : Text)
    (watchList : List WatchInfo) : List WatchInfo :=
  match scan watchList path with
  | some (wd, entries) => entries.addWatches path (watchList ++ [{ wd, path }])
  | none => watchList

theorem addInotifyWatchRecursive_watches
    (scan : List WatchInfo → Text → Option (ℤ × DirScan)) (path : Text) (state : MonitorState) :
    addInotifyWatchRecursive scan path state =
      { state with watchList := watchesAdded scan path state.watchList } := by
  unfold addInotifyWatchRecursive watchesAdded
  cases scan state.watchList path <;> rfl

section

variable (isText : Text → Bool) (scan : List WatchInfo → Text → Option (ℤ × DirScan))

/-- The loop of `process_inotify_events` from the cursor `i` on; `allocation k` is for the `k`th
path that it adds from there. -/
def processEvents (allocation : ℕ → Allocation) (watchList : List WatchInfo) (q : ChangeQueue)
    (buffer : Text) (i : ℕ) : Option (List WatchInfo × ChangeQueue) :=
  if i < buffer.length then
    let next := eventStep isText watchList buffer i
    match next.1 with
    | .skip => processEvents allocation watchList q buffer next.2
    | .addWatch path => processEvents allocation (watchesAdded scan path watchList) q buffer next.2
    | .enqueue path =>
      (q.add (allocation 0) path).bind fun q =>
        processEvents (fun k => allocation (k + 1)) watchList q buffer next.2
  else some (watchList, q)
termination_by buffer.length - i
decreasing_by
  all_goals
    rw [eventStep_snd, inotifyEventSize]
    omega

/-- The paths of the events from the cursor `i` on that are to be added to the queue. -/
def eventPaths (watchList : List WatchInfo) (buffer : Text) (i : ℕ) : List Text :=
  if i < buffer.length then
    let next := eventStep isText watchList buffer i
    match next.1 with
    | .skip => eventPaths watchList buffer next.2
    | .addWatch path => eventPaths (watchesAdded scan path watchList) buffer next.2
    | .enqueue path => path :: eventPaths watchList buffer next.2
  else []
termination_by buffer.length - i
decreasing_by
  all_goals
    rw [eventStep_snd, inotifyEventSize]
    omega

end

/-! ## What the queue holds -/

/-- The blocks at `ptrs` are the strings `paths`, each in a block of its own. -/
structure Memory.Texts (memory : Memory) (ptrs : List ℕ) (paths : List Text) : Prop where
  nodup : ptrs.Nodup
  texts : List.Forall₂ (fun p path => memory.block p = some (.text path)) ptrs paths

/-- The cells of an array that points to these blocks. -/
def Memory.pointers (ptrs : List ℕ) : List (Option Pointer) :=
  ptrs.map fun a => some (some a)

/-- `changed_files_queue` holds `changed_files_count` paths, none of them `NULL`. -/
structure ChangeQueue.Holds (q : ChangeQueue) (paths : List Text) : Prop where
  count : q.count = paths.length
  array : ∃ ptrs cells, q.memory.Texts ptrs paths ∧ q.memory.cells q.queue = some cells ∧
    Memory.pointers ptrs <+: cells

/-- The pointer to the queue is gone, but not what was counted. -/
def ChangeQueue.Lost (q : ChangeQueue) : Prop :=
  q.queue = none ∧ 0 < q.count

namespace Memory

variable {memory memory' : Memory} {p : Pointer} {a i n : ℕ} {ptrs : List ℕ} {paths : List Text}
  {path : Text} {cells : List (Option Pointer)}

theorem cells_eq_some : memory.cells (some a) = some cells ↔
    memory.block a = some (.array cells) := by
  rw [Memory.cells]
  rcases memory.block a with _ | _ | cells' <;> simp

theorem text_eq_some : memory.text (some a) = some path ↔ memory.block a = some (.text path) := by
  rw [Memory.text]
  rcases memory.block a with _ | path' | _ <;> simp

/-- A string is not behind the pointer to an array. -/
theorem ne_of_text (hcells : memory.cells p = some cells)
    (htext : memory.block a = some (.text path)) : some a ≠ p := by
  rintro rfl
  rw [cells_eq_some, htext] at hcells
  cases hcells

theorem Texts.nil (memory : Memory) : memory.Texts [] [] :=
  ⟨List.nodup_nil, List.Forall₂.nil⟩

theorem Texts.text (h : memory.Texts ptrs paths) (ha : ptrs[i]? = some a)
    (hpath : paths[i]? = some path) : memory.block a = some (.text path) := by
  obtain ⟨hi, rfl⟩ := List.getElem?_eq_some_iff.mp ha
  obtain ⟨hi', rfl⟩ := List.getElem?_eq_some_iff.mp hpath
  exact h.texts.get hi hi'

theorem Texts.length_eq (h : memory.Texts ptrs paths) : ptrs.length = paths.length :=
  h.texts.length_eq

/-- Each of the blocks is one of the strings. -/
theorem Texts.exists_text (h : memory.Texts ptrs paths) (ha : a ∈ ptrs) :
    ∃ path, memory.block a = some (.text path) := by
  obtain ⟨i, hi, rfl⟩ := List.mem_iff_getElem.mp ha
  exact ⟨_, h.texts.get hi (h.length_eq ▸ hi)⟩

/-- Strings stay as long as their blocks do. -/
theorem Texts.mono (h : memory.Texts ptrs paths)
    (hkept : ∀ a ∈ ptrs, ∀ path, memory.block a = some (.text path) →
      memory'.block a = some (.text path)) : memory'.Texts ptrs paths := by
  refine ⟨h.nodup, List.forall₂_iff_get.mpr ⟨h.length_eq, fun i hi hi' => ?_⟩⟩
  exact hkept _ (List.get_mem ptrs ⟨i, hi⟩) _ (h.texts.get hi hi')

theorem Texts.concat (h : memory.Texts ptrs paths) (ha : a ∉ ptrs)
    (htext : memory.block a = some (.text path)) :
    memory.Texts (ptrs ++ [a]) (paths ++ [path]) := by
  refine ⟨?_, List.rel_append h.texts (List.Forall₂.cons htext List.Forall₂.nil)⟩
  exact List.Nodup.append h.nodup (List.nodup_singleton a) (by simpa using ha)

theorem load_eq {front : List (Option Pointer)} {value : Pointer}
    (hcells : memory.cells p = some cells) (hfront : front <+: cells)
    (hi : front[i]? = some (some value)) : memory.load p i = some value := by
  obtain ⟨rest, rfl⟩ := hfront
  rw [load, hcells, Option.bind_some,
    List.getElem?_append_left (List.getElem?_eq_some_iff.mp hi).1, hi, Option.join_some]

theorem load_pointers (hcells : memory.cells p = some cells) (hptrs : pointers ptrs <+: cells)
    (ha : ptrs[i]? = some a) : memory.load p i = some (some a) := by
  refine load_eq hcells hptrs ?_
  rw [pointers, List.getElem?_map, ha, Option.map_some]

/-- The first cell behind some others can be assigned. -/
theorem exists_assign {front : List (Option Pointer)}
    (hcells : memory.block a = some (.array cells)) (hfront : front <+: cells)
    (hroom : front.length < cells.length) (value : Pointer) :
    ∃ memory' cells', memory.assign (some a) front.length value = some memory' ∧
      memory'.block a = some (.array cells') ∧ cells'.length = cells.length ∧
      front ++ [some value] <+: cells' ∧ ∀ b, b ≠ a → memory'.block b = memory.block b := by
  obtain ⟨memory', hstore, hblock⟩ :=
    Heap.exists_store hcells (.array (cells.set front.length (some value)))
  refine ⟨memory', cells.set front.length (some value), ?_, ?_, List.length_set, ?_, ?_⟩
  · simp only [assign, cells_eq_some.mpr hcells, if_pos hroom, hstore]
  · rw [hblock, if_pos rfl]
  · obtain ⟨rest, rfl⟩ := hfront
    have hrest : rest ≠ [] := by
      rintro rfl
      simp at hroom
    obtain ⟨cell, rest, rfl⟩ := List.exists_cons_of_ne_nil hrest
    exact ⟨rest, by simp⟩
  · intro b hb
    rw [hblock, if_neg hb]

/-- A `realloc` that succeeds moves the array; the strings stay. -/
theorem exists_realloc (hcells : memory.cells p = some cells) (n : ℕ) :
    ∃ a memory', memory.realloc true p n = some (some a, memory') ∧ memory.block a = none ∧
      memory'.block a =
        some (.array (cells.take n ++ List.replicate (n - cells.length) none)) ∧
      ∀ b path, memory.block b = some (.text path) → memory'.block b = some (.text path) := by
  set resized := Block.array (cells.take n ++ List.replicate (n - cells.length) none) with hresized
  have hfresh := Heap.block_alloc_fst memory resized
  -- `NULL` has no block to free
  cases p with
  | none =>
    refine ⟨_, _, ?_, hfresh, Heap.block_alloc_self memory resized,
      fun b path hb => Heap.block_alloc_of_live hb resized⟩
    simp only [realloc, hcells, if_true, release, Option.map_some, ← hresized]
  | some p =>
    have hp := cells_eq_some.mp hcells
    obtain ⟨memory', hfree, hblock⟩ := Heap.exists_free (Heap.block_alloc_of_live hp resized)
    refine ⟨_, memory', ?_, hfresh, ?_, fun b path hb => ?_⟩
    · simp only [realloc, hcells, if_true, release, hfree, Option.map_some, ← hresized]
    · rw [hblock, if_neg (Heap.ne_alloc hp resized).symm, Heap.block_alloc_self]
    · have hne : b ≠ p := by simpa using ne_of_text hcells hb
      rw [hblock, if_neg hne, Heap.block_alloc_of_live hb]

end Memory

/-! ## Adding a path -/

/-- The paths in the queue after a path has been added, if the queue is not lost. -/
def keep (allocation : Allocation) (paths : List Text) (path : Text) : List Text :=
  if allocation = .succeeds then enqueue paths path else paths

namespace ChangeQueue

variable {q : ChangeQueue} {paths : List Text} {path : Text} {allocation : Allocation}

theorem search_eq {ptrs : List ℕ} {cells : List (Option Pointer)}
    (htexts : q.memory.Texts ptrs paths) (hcells : q.memory.cells q.queue = some cells)
    (hptrs : Memory.pointers ptrs <+: cells) {n j : ℕ}
    (hn : n + j = paths.length) : q.search path n j = some (decide (path ∈ paths.drop j)) := by
  induction n generalizing j with
  | zero =>
    have hdrop : paths.drop j = [] := List.drop_eq_nil_of_le (by omega)
    simp [search, hdrop]
  | succ n ih =>
    have hj : j < paths.length := by omega
    have hjptrs : j < ptrs.length := htexts.length_eq ▸ hj
    have hload := Memory.load_pointers hcells hptrs (List.getElem?_eq_getElem hjptrs)
    have htext := htexts.text (List.getElem?_eq_getElem hjptrs) (List.getElem?_eq_getElem hj)
    rw [List.drop_eq_getElem_cons hj, search, hload, Option.bind_eq_bind, Option.bind_some,
      Memory.text_eq_some.mpr htext, Option.bind_eq_bind, Option.bind_some, ih (by omega)]
    by_cases hpath : paths[j] = path
    · simp [hpath]
    · have hne : path ≠ paths[j] := Ne.symm hpath
      simp only [if_neg hpath, List.mem_cons, hne, false_or]

/-- The search finds the paths of the queue. -/
theorem Holds.search (h : q.Holds paths) (path : Text) :
    q.search path q.count 0 = some (decide (path ∈ paths)) := by
  obtain ⟨ptrs, cells, htexts, hcells, hptrs⟩ := h.array
  rw [search_eq htexts hcells hptrs (by rw [h.count, Nat.add_zero]), List.drop_zero]

/-- A queue with a path is not `NULL`. -/
theorem Holds.queue_eq_some (h : q.Holds paths) (hpaths : paths ≠ []) :
    ∃ p, q.queue = some p := by
  obtain ⟨ptrs, cells, htexts, hcells, hptrs⟩ := h.array
  rw [← Option.ne_none_iff_exists']
  intro hnull
  obtain rfl : [] = cells := by simpa [hnull, Memory.cells] using hcells
  obtain rfl : ptrs = [] := by simpa [Memory.pointers] using hptrs
  exact hpaths (List.length_eq_zero_iff.mp htexts.length_eq.symm)

theorem Holds.not_lost (h : q.Holds paths) : ¬ q.Lost := by
  rintro ⟨hnull, hcount⟩
  rw [h.count, List.length_pos_iff] at hcount
  obtain ⟨p, hp⟩ := h.queue_eq_some hcount
  rw [hnull] at hp
  cases hp

/-- The search of a lost queue goes through `NULL`. -/
theorem Lost.add (h : q.Lost) (allocation : Allocation) (path : Text) :
    q.add allocation path = none := by
  obtain ⟨n, hn⟩ := Nat.exists_eq_succ_of_ne_zero h.2.ne'
  have hsearch : q.search path q.count 0 = none := by
    rw [hn, ChangeQueue.search, Memory.load, h.1]
    rfl
  rw [ChangeQueue.add, hsearch]
  rfl

theorem Holds.add_of_mem (h : q.Holds paths) (hmem : path ∈ paths) :
    q.add allocation path = some q := by
  rw [ChangeQueue.add, h.search, decide_eq_true hmem]
  rfl

/-- Where `realloc` fails, its result takes the place of the pointer to the queue. -/
theorem Holds.add_of_reallocFails (h : q.Holds paths) (hnew : path ∉ paths) :
    q.add .reallocFails path = some { q with queue := none } := by
  obtain ⟨ptrs, cells, -, hcells, -⟩ := h.array
  rw [ChangeQueue.add, h.search, decide_eq_false hnew]
  simp [Memory.realloc, hcells]

/-- Where `realloc` succeeds, the queue holds the old paths, and the new one if it could be
copied. -/
theorem Holds.add_of_new (h : q.Holds paths) (hnew : path ∉ paths)
    (halloc : allocation ≠ .reallocFails) :
    ∃ q', q.add allocation path = some q' ∧ q'.Holds (keep allocation paths path) := by
  obtain ⟨ptrs, cells, htexts, hcells, hptrs⟩ := h.array
  have hlength : (Memory.pointers ptrs).length = q.count := by
    rw [Memory.pointers, List.length_map, htexts.length_eq, h.count]
  obtain ⟨a, memory₁, hrealloc, hfresh, harray, hkept⟩ :=
    Memory.exists_realloc hcells (q.count + 1)
  set resized := cells.take (q.count + 1) ++ List.replicate (q.count + 1 - cells.length) none
    with hresized
  have hroom : (Memory.pointers ptrs).length < resized.length := by
    rw [hlength, hresized, List.length_append, List.length_take, List.length_replicate]
    omega
  have hfront : Memory.pointers ptrs <+: resized := by
    refine List.IsPrefix.trans ?_ (List.prefix_append _ _)
    rw [List.prefix_take_iff]
    exact ⟨hptrs, by omega⟩
  -- the array is not where a string was
  have hne : ∀ b path', q.memory.block b = some (.text path') → b ≠ a := by
    rintro b path' hb rfl
    rw [hfresh] at hb
    cases hb
  cases allocation with
  | reallocFails => exact absurd rfl halloc
  | strdupFails =>
    obtain ⟨memory₂, cells₂, hassign, harray₂, -, hfront₂, hother⟩ :=
      Memory.exists_assign harray hfront hroom none
    have hload := Memory.load_eq (i := q.count) (Memory.cells_eq_some.mpr harray₂) hfront₂
      (by rw [← hlength, List.getElem?_concat_length])
    refine ⟨⟨memory₂, some a, q.count⟩, ?_, h.count, ptrs, cells₂, htexts.mono ?_,
      Memory.cells_eq_some.mpr harray₂, (List.prefix_append _ _).trans hfront₂⟩
    · rw [ChangeQueue.add, h.search, decide_eq_false hnew]
      rw [hlength] at hassign
      simp [hrealloc, Memory.strdup, hassign, hload]
    · intro b _ path' hb
      rw [hother b (hne b path' hb), hkept b path' hb]
  | succeeds =>
    set c := (memory₁.alloc (.text path)).1
    have harray₁ := Heap.block_alloc_of_live harray (.text path)
    have hca : c ≠ a := (Heap.ne_alloc harray (.text path)).symm
    obtain ⟨memory₂, cells₂, hassign, harray₂, -, hfront₂, hother⟩ :=
      Memory.exists_assign harray₁ hfront hroom (some c)
    have hload := Memory.load_eq (i := q.count) (Memory.cells_eq_some.mpr harray₂) hfront₂
      (by rw [← hlength, List.getElem?_concat_length])
    have htexts₂ : Memory.Texts memory₂ ptrs paths := htexts.mono fun b _ path' hb => by
      rw [hother b (hne b path' hb), Heap.block_alloc_of_live (hkept b path' hb)]
    have hcopy : memory₂.block c = some (.text path) := by
      rw [hother c hca, Heap.block_alloc_self]
    have hc : c ∉ ptrs := by
      intro hmem
      obtain ⟨path', hb⟩ := htexts.exists_text hmem
      exact Heap.ne_alloc (hkept c path' hb) (.text path) rfl
    refine ⟨⟨memory₂, some a, q.count + 1⟩, ?_, ?_⟩
    · rw [ChangeQueue.add, h.search, decide_eq_false hnew]
      rw [hlength] at hassign
      simp [hrealloc, Memory.strdup, c, hassign, hload]
    · rw [keep, if_pos rfl, enqueue_of_not_mem hnew]
      refine ⟨by simp [h.count], ptrs ++ [c], cells₂, htexts₂.concat hc hcopy,
        Memory.cells_eq_some.mpr harray₂, ?_⟩
      rw [Memory.pointers, List.map_append]
      exact hfront₂

/-- A path is added without loss unless `realloc` fails for a new path while others are queued. -/
theorem Holds.add (h : q.Holds paths)
    (hsafe : allocation = .reallocFails → path ∈ paths ∨ paths = []) :
    ∃ q', q.add allocation path = some q' ∧ q'.Holds (keep allocation paths path) := by
  by_cases hmem : path ∈ paths
  · refine ⟨q, h.add_of_mem hmem, ?_⟩
    rw [keep, enqueue_of_mem hmem, ite_self]
    exact h
  by_cases halloc : allocation = .reallocFails
  · subst halloc
    obtain rfl := (hsafe rfl).resolve_left hmem
    exact ⟨_, h.add_of_reallocFails hmem, h.count, [], [], .nil _, rfl, List.nil_prefix⟩
  · exact h.add_of_new hmem halloc

theorem Holds.lost_add (h : q.Holds paths) (hmem : path ∉ paths) (hpaths : paths ≠ []) :
    ∃ q', q.add .reallocFails path = some q' ∧ q'.Lost :=
  ⟨_, h.add_of_reallocFails hmem, rfl, by simpa [h.count, List.length_pos_iff] using hpaths⟩

end ChangeQueue

/-! ## A run of the loop -/

/-- The paths in the queue after some paths have been added, if the queue is not lost. -/
def keepAll (queue : List Text) : List Text → (ℕ → Allocation) → List Text
  | [], _ => queue
  | path :: paths, allocation =>
    keepAll (keep (allocation 0) queue path) paths fun k => allocation (k + 1)

section

variable (queue paths : List Text) (allocation : ℕ → Allocation)

/-- When the `k`th path is added, the path is queued: it was before, or both allocations for an
earlier path that is the same have succeeded. -/
def QueuedBefore (k : ℕ) (path : Text) : Prop :=
  path ∈ queue ∨ ∃ j < k, paths[j]? = some path ∧ allocation j = .succeeds

/-- Where `realloc` would fail, the path is queued already, or no path is. -/
def ReallocsHarmless : Prop :=
  ∀ k path, paths[k]? = some path → allocation k = .reallocFails →
    QueuedBefore queue paths allocation k path ∨
      ∀ other, ¬ QueuedBefore queue paths allocation k other

end

section

variable {queue paths : List Text} {path : Text} {allocation : ℕ → Allocation}

theorem mem_keep {allocation : Allocation} {other : Text} :
    other ∈ keep allocation queue path ↔
      other ∈ queue ∨ path = other ∧ allocation = .succeeds := by
  rw [keep]
  split
  next h => rw [mem_enqueue, eq_comm (a := other), h, eq_self_iff_true, and_true]
  next h => simp [h]

theorem queuedBefore_succ (k : ℕ) (other : Text) :
    QueuedBefore queue (path :: paths) allocation (k + 1) other ↔
      QueuedBefore (keep (allocation 0) queue path) paths (fun k => allocation (k + 1)) k
        other := by
  rw [QueuedBefore, QueuedBefore, mem_keep, or_assoc]
  refine or_congr_right ?_
  constructor
  · rintro ⟨_ | j, hj, hpath, hsucceeds⟩
    · exact Or.inl ⟨Option.some.inj hpath, hsucceeds⟩
    · exact Or.inr ⟨j, by omega, hpath, hsucceeds⟩
  · rintro (⟨hpath, hsucceeds⟩ | ⟨j, hj, hpath, hsucceeds⟩)
    · exact ⟨0, by omega, congrArg some hpath, hsucceeds⟩
    · exact ⟨j + 1, by omega, hpath, hsucceeds⟩

theorem reallocsHarmless_cons :
    ReallocsHarmless queue (path :: paths) allocation ↔
      (allocation 0 = .reallocFails → path ∈ queue ∨ queue = []) ∧
        ReallocsHarmless (keep (allocation 0) queue path) paths fun k => allocation (k + 1) := by
  -- before the first path the queue is as it was
  have hzero : ∀ other, QueuedBefore queue (path :: paths) allocation 0 other ↔ other ∈ queue := by
    intro other
    simp [QueuedBefore]
  constructor
  · intro h
    refine ⟨fun hfails => ?_, fun k other hother hfails => ?_⟩
    · have := h 0 path rfl hfails
      simpa only [hzero, ← List.eq_nil_iff_forall_not_mem] using this
    · have := h (k + 1) other hother hfails
      simpa only [queuedBefore_succ] using this
  · rintro ⟨hfirst, hrest⟩ k other hother hfails
    cases k with
    | zero =>
      obtain rfl : path = other := Option.some.inj hother
      simpa only [hzero, ← List.eq_nil_iff_forall_not_mem] using hfirst hfails
    | succ k =>
      simp only [queuedBefore_succ]
      exact hrest k other hother hfails

/-- What was queued stays queued. -/
theorem subset_keepAll : queue ⊆ keepAll queue paths allocation := by
  induction paths generalizing queue allocation with
  | nil => exact List.Subset.refl _
  | cons path paths ih => exact List.Subset.trans (fun p hp => mem_keep.mpr (Or.inl hp)) ih

end

namespace ChangeQueue

variable {q q' : ChangeQueue} {queue paths : List Text} {allocation : ℕ → Allocation}

theorem Holds.addAll (h : q.Holds queue) (hsafe : ReallocsHarmless queue paths allocation) :
    ∃ q', q.addAll allocation paths = some q' ∧ q'.Holds (keepAll queue paths allocation) := by
  induction paths generalizing q queue allocation with
  | nil => exact ⟨q, rfl, h⟩
  | cons path paths ih =>
    obtain ⟨hfirst, hrest⟩ := reallocsHarmless_cons.mp hsafe
    obtain ⟨q₁, hadd, h₁⟩ := h.add hfirst
    obtain ⟨q', hall, h'⟩ := ih h₁ hrest
    refine ⟨q', ?_, h'⟩
    rw [ChangeQueue.addAll, hadd]
    exact hall

/-- A lost queue stays lost as long as the loop runs on. -/
theorem Lost.addAll (h : q.Lost) (hall : q.addAll allocation paths = some q') : q'.Lost := by
  cases paths with
  | nil =>
    obtain rfl : q = q' := Option.some.inj hall
    exact h
  | cons path paths =>
    rw [ChangeQueue.addAll, h.add] at hall
    cases hall

/-- A `realloc` that fails for a new path loses the paths that are queued. -/
theorem Holds.lost_addAll (h : q.Holds queue) (hnot : ¬ ReallocsHarmless queue paths allocation)
    (hall : q.addAll allocation paths = some q') : q'.Lost := by
  induction paths generalizing q queue allocation with
  | nil => exact absurd (fun k path hpath => by simp at hpath) hnot
  | cons path paths ih =>
    rw [reallocsHarmless_cons, not_and] at hnot
    by_cases hfirst : allocation 0 = .reallocFails → path ∈ queue ∨ queue = []
    · obtain ⟨q₁, hadd, h₁⟩ := h.add hfirst
      rw [ChangeQueue.addAll, hadd] at hall
      exact ih h₁ (hnot hfirst) hall
    · push Not at hfirst
      obtain ⟨hfails, hnew, hqueue⟩ := hfirst
      obtain ⟨q₁, hadd, hlost⟩ := h.lost_add hnew hqueue
      rw [ChangeQueue.addAll, hfails, hadd] at hall
      exact hlost.addAll hall

end ChangeQueue

section

variable {isText : Text → Bool} {scan : List WatchInfo → Text → Option (ℤ × DirScan)}
  {q : ChangeQueue} {queue : List Text}

/-- The loop adds the paths of the events in order. -/
theorem processEvents_eq (isText : Text → Bool)
    (scan : List WatchInfo → Text → Option (ℤ × DirScan)) (allocation : ℕ → Allocation)
    (watchList : List WatchInfo) (q : ChangeQueue) (buffer : Text) (i : ℕ) :
    (processEvents isText scan allocation watchList q buffer i).map Prod.snd =
      q.addAll allocation (eventPaths isText scan watchList buffer i) := by
  fun_induction eventPaths isText scan watchList buffer i generalizing q allocation with
  | case1 watchList i hi next hnext ih =>
    rw [processEvents, if_pos hi]
    simp only [show (eventStep isText watchList buffer i).1 = .skip from hnext]
    exact ih allocation q
  | case2 watchList i hi next path hnext ih =>
    rw [processEvents, if_pos hi]
    simp only [show (eventStep isText watchList buffer i).1 = .addWatch path from hnext]
    exact ih allocation q
  | case3 watchList i hi next path hnext ih =>
    rw [processEvents, if_pos hi, ChangeQueue.addAll]
    simp only [show (eventStep isText watchList buffer i).1 = .enqueue path from hnext]
    cases q.add (allocation 0) path with
    | none => rfl
    | some q => exact ih _ q
  | case4 watchList i hi =>
    rw [processEvents, if_neg hi]
    rfl

/-- While no allocation fails, the queue in memory holds the queue of `processBuffer`. -/
theorem processEvents_refines {state : MonitorState} (h : q.Holds state.changedFilesQueue)
    (buffer : Text) (i : ℕ) :
    ∃ q', processEvents isText scan (fun _ => .succeeds) state.watchList q buffer i =
        some ((processBuffer isText (addInotifyWatchRecursive scan) state buffer i).1.watchList,
          q') ∧
      q'.Holds
        (processBuffer isText (addInotifyWatchRecursive scan) state buffer i).1.changedFilesQueue
      := by
  induction state, i using processBuffer.induct isText (addInotifyWatchRecursive scan) buffer
    generalizing q with
  | case1 state i hi next =>
    rename_i ih
    have hstep : eventStep isText state.watchList buffer i = next := rfl
    rw [processBuffer, if_pos hi, processEvents, if_pos hi]
    simp only [hstep]
    cases hnext : next.1 with
    | skip =>
      rw [hnext] at ih
      exact ih h
    | addWatch path =>
      rw [hnext] at ih
      rw [applyEffect, addInotifyWatchRecursive_watches] at ih ⊢
      exact ih h
    | enqueue path =>
      rw [hnext] at ih
      -- no allocation fails, so that the queue is not lost
      have hsafe : Allocation.succeeds = .reallocFails →
          path ∈ state.changedFilesQueue ∨ state.changedFilesQueue = [] := nofun
      obtain ⟨q₁, hadd, h₁⟩ := h.add hsafe
      simp only [hadd, Option.bind_some]
      exact ih h₁
  | case2 state i hi =>
    rw [processBuffer, if_neg hi, processEvents, if_neg hi]
    exact ⟨q, rfl, h⟩

/-- After `process_inotify_events` the queue again holds what is counted, and every path that was
queued is still queued, if and only if each `realloc` that would fail is for a path that is queued
already, or comes while no path is. -/
theorem holds_processEvents_iff (h : q.Holds queue) (isText : Text → Bool)
    (scan : List WatchInfo → Text → Option (ℤ × DirScan)) (allocation : ℕ → Allocation)
    (watchList : List WatchInfo) (buffer : Text) :
    (∃ watchList' q' queue',
      processEvents isText scan allocation watchList q buffer 0 = some (watchList', q') ∧
        q'.Holds queue' ∧ queue ⊆ queue') ↔
      ReallocsHarmless queue (eventPaths isText scan watchList buffer 0) allocation := by
  have heq := processEvents_eq isText scan allocation watchList q buffer 0
  constructor
  · rintro ⟨watchList', q', queue', hrun, hholds, -⟩
    by_contra hnot
    rw [hrun, Option.map_some] at heq
    exact hholds.not_lost (h.lost_addAll hnot heq.symm)
  · intro hsafe
    obtain ⟨q', hall, hholds⟩ := h.addAll hsafe
    rw [hall, Option.map_eq_some_iff] at heq
    obtain ⟨⟨watchList', _⟩, hrun, rfl⟩ := heq
    exact ⟨watchList', _, _, hrun, hholds, subset_keepAll⟩

end

/-- The queue of one path. -/
def onePathQueue : ChangeQueue where
  memory := ⟨[some (.text ['m', '/', 'a']), some (.array [some (some 0)])]⟩
  queue := some 1
  count := 1

theorem onePathQueue_holds : onePathQueue.Holds [['m', '/', 'a']] := by
  refine ⟨rfl, [0], [some (some 0)], ⟨List.nodup_singleton 0, ?_⟩, rfl, List.prefix_rfl⟩
  exact List.Forall₂.cons rfl List.Forall₂.nil

/-- A file is modified. -/
def modified : List RawEvent :=
  [namedEvent rootWd inModify oneType_inModify 'b' (by decide)]

theorem eventPaths_modified (scan : List WatchInfo → Text → Option (ℤ × DirScan)) :
    eventPaths (fun _ => true) scan [{ wd := 1, path := ['m'] }]
      (modified.flatMap RawEvent.bytes) 0 = [['m', '/', 'b']] := by
  let e := namedEvent rootWd inModify oneType_inModify 'b' (by decide)
  have hstep : eventStep (fun _ => true) [{ wd := 1, path := ['m'] }]
      (modified.flatMap RawEvent.bytes) 0 =
        (.enqueue ['m', '/', 'b'], (modified.flatMap RawEvent.bytes).length) := by
    have heffect : eventEffect (fun _ => true) [{ wd := 1, path := ['m'] }] e.event =
        .enqueue ['m', '/', 'b'] := by
      decide
    have hbytes := eventStep_bytes (fun _ => true) [{ wd := 1, path := ['m'] }] [] e []
    rw [heffect] at hbytes
    simpa [modified] using hbytes
  have hpos : 0 < (modified.flatMap RawEvent.bytes).length := by
    simp [modified, length_bytes, inotifyEventSize]
  rw [eventPaths, if_pos hpos]
  simp only [hstep]
  rw [eventPaths, if_neg (lt_irrefl _)]

/-- Without memory for it, the path of another file takes the queue with it. -/
theorem not_holds_modified :
    onePathQueue.Holds [['m', '/', 'a']] ∧
      ¬ ∃ watchList' q' queue',
        processEvents (fun _ => true) (fun _ _ => none) (fun _ => .reallocFails)
          [{ wd := 1, path := ['m'] }] onePathQueue (modified.flatMap RawEvent.bytes) 0 =
            some (watchList', q') ∧
          q'.Holds queue' ∧ [['m', '/', 'a']] ⊆ queue' := by
  refine ⟨onePathQueue_holds, ?_⟩
  rintro ⟨watchList', q', queue', hrun, hholds, -⟩
  have hall := processEvents_eq (fun _ => true) (fun _ _ => none)
    (fun _ => .reallocFails) [{ wd := 1, path := ['m'] }] onePathQueue
    (modified.flatMap RawEvent.bytes) 0
  rw [hrun, eventPaths_modified] at hall
  have hq : { onePathQueue with queue := none } = q' := Option.some.inj hall.symm
  exact hholds.not_lost (hq ▸ ⟨rfl, Nat.one_pos⟩)

/-- `holds_processEvents_iff` where the path of the other file cannot be copied. -/
theorem holds_modified :
    ∃ watchList' q' queue',
      processEvents (fun _ => true) (fun _ _ => none) (fun _ => .strdupFails)
        [{ wd := 1, path := ['m'] }] onePathQueue (modified.flatMap RawEvent.bytes) 0 =
          some (watchList', q') ∧
        q'.Holds queue' ∧ [['m', '/', 'a']] ⊆ queue' :=
  (holds_processEvents_iff onePathQueue_holds _ _ _ _ _).mpr fun _ _ _ hfails => nomatch hfails

end MonitorDaemon
