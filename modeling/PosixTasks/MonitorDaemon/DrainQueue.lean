import PosixTasks.MonitorDaemon.ChangeQueue

/-!
# Draining the change queue

`get_changed_files_from_queue` copies the paths of the queue into a new array and frees the queue.
Where an allocation fails, it frees what it has allocated and leaves the queue as it is.

## Main results

* `copyPaths_spec`: the loop copies all paths, or it stops at the first `strdup` that fails;
* `freeArray_eq`: the loops that free the elements of an array, and the array, free each block once;
* `drain_all_or_nothing`: the call hands over copies of all paths and empties the queue, or it
  changes nothing;
* `drain_refines`: where it succeeds, it does what the function on lists of paths does.
-/

namespace MonitorDaemon

open CString

/-! ## The function -/

/-- The loop of `get_changed_files_from_queue` that copies paths, from `i` on; `n` are left. The
result is the index at which `strdup` failed, if it did, and the memory. -/
def copyPaths (strdupOk : ℕ → Bool) (queue changedFiles : Pointer) :
    Memory → ℕ → ℕ → Option (Option ℕ × Memory)
  | memory, 0, _ => some (none, memory)
  | memory, n + 1, i => do
    let path ← memory.text (← memory.load queue i)
    let (copy, memory) := memory.strdup (strdupOk i) path
    let memory ← memory.assign changedFiles i copy
    if (← memory.load changedFiles i) = none then return (some i, memory)
    copyPaths strdupOk queue changedFiles memory n (i + 1)

/-- A loop that frees the elements of an array from `j` on; `n` are left. -/
def freeElements (p : Pointer) : Memory → ℕ → ℕ → Option Memory
  | memory, 0, _ => some memory
  | memory, n + 1, j => do
    let memory ← memory.release (← memory.load p j)
    freeElements p memory n (j + 1)

/-- Free the first `n` elements of an array, and the array. -/
def freeArray (p : Pointer) (memory : Memory) (n : ℕ) : Option Memory := do
  let memory ← freeElements p memory n 0
  memory.release p

/-- What `get_changed_files_from_queue` leaves: its result, `*changed_files`, `*count`, and the
queue with the memory. -/
structure Drained where
  result : ℤ
  changedFiles : Pointer
  count : ℕ
  queue : ChangeQueue

/-- `get_changed_files_from_queue`; `callocOk` and `strdupOk` say which allocations succeed. -/
def ChangeQueue.drain (q : ChangeQueue) (callocOk : Bool) (strdupOk : ℕ → Bool)
    (changedFiles : Pointer) : Option Drained := do
  if q.count = 0 then return { result := 0, changedFiles, count := q.count, queue := q }
  let (files, memory) := q.memory.calloc callocOk q.count
  if files = none then
    return { result := -1, changedFiles := files, count := q.count, queue := { q with memory } }
  let (failed, memory) ← copyPaths strdupOk q.queue files memory q.count 0
  match failed with
  | some i =>
    let memory ← freeArray files memory i
    return { result := -1, changedFiles := none, count := q.count, queue := { q with memory } }
  | none =>
    let memory ← freeArray q.queue memory q.count
    return { result := 0, changedFiles := files, count := q.count,
             queue := { memory, queue := none, count := 0 } }

/-! ## Freeing an array -/

variable {memory memory' : Memory} {p : Pointer} {a : ℕ} {ptrs copies : List ℕ}
  {cells : List (Option Pointer)} {paths : List Text}

/-- The blocks that an array points to are freed in order. -/
theorem freeElements_eq (hcells : memory.cells p = some cells)
    (hptrs : Memory.pointers ptrs <+: cells) (hp : ∀ b ∈ ptrs, p ≠ some b) {n j : ℕ}
    (hn : n + j = ptrs.length) : freeElements p memory n j = memory.freeAll (ptrs.drop j) := by
  induction n generalizing memory j with
  | zero =>
    rw [List.drop_eq_nil_of_le (by omega)]
    rfl
  | succ n ih =>
    have hj : j < ptrs.length := by omega
    have hload := Memory.load_pointers hcells hptrs (List.getElem?_eq_getElem hj)
    rw [List.drop_eq_getElem_cons hj, freeElements, hload, Option.bind_eq_bind, Option.bind_some,
      Memory.release, Heap.freeAll, List.foldlM_cons]
    cases hfree : memory.free ptrs[j] with
    | none => rfl
    | some memory' =>
      -- the array itself is still there
      have hcells' : Memory.cells memory' p = some cells := by
        cases p with
        | none => exact hcells
        | some b =>
          have hne : b ≠ ptrs[j] := fun heq => hp _ (List.getElem_mem hj) (congrArg some heq)
          rw [Memory.cells_eq_some] at hcells ⊢
          rw [Heap.block_of_free hfree, if_neg hne, hcells]
      exact ih hcells' (by omega)

theorem freeArray_eq (harray : memory.block a = some (.array cells))
    (hptrs : Memory.pointers ptrs <+: cells) (ha : a ∉ ptrs) :
    freeArray (some a) memory ptrs.length = memory.freeAll (ptrs ++ [a]) := by
  have hne : ∀ b ∈ ptrs, some a ≠ some b := by
    rintro b hb heq
    exact ha (Option.some.inj heq ▸ hb)
  rw [freeArray, freeElements_eq (Memory.cells_eq_some.mpr harray) hptrs hne (Nat.add_zero _),
    List.drop_zero, Heap.freeAll_concat]
  rfl

/-! ## Copying the paths -/

/-- While the paths are copied: since `memory` an array of `n` pointers has been allocated at `a`,
and it starts with pointers to new copies of the paths. -/
structure Copying (memory memory' : Memory) (a n : ℕ) (copies : List ℕ) (paths : List Text) :
    Prop where
  adds : memory.Adds memory' ([a] ++ copies)
  texts : memory'.Texts copies paths
  array : ∃ cells, memory'.block a = some (.array cells) ∧ cells.length = n ∧
    Memory.pointers copies <+: cells

theorem Copying.not_mem {n : ℕ} (h : Copying memory memory' a n copies paths) : a ∉ copies := by
  have hnodup := h.adds.nodup
  rw [List.singleton_append, List.nodup_cons] at hnodup
  exact hnodup.1

theorem Copying.length_pointers {n : ℕ} (h : Copying memory memory' a n copies paths) :
    (Memory.pointers copies).length = paths.length := by
  rw [Memory.pointers, List.length_map, h.texts.length_eq]

/-- A copy of one more path goes into the next cell. -/
theorem Copying.concat {n : ℕ} (h : Copying memory memory' a n copies paths) (path : Text)
    (hroom : paths.length < n) :
    ∃ c memory₁ memory₂, memory'.strdup true path = (some c, memory₁) ∧
      memory₁.assign (some a) paths.length (some c) = some memory₂ ∧
      memory₂.load (some a) paths.length = some (some c) ∧
      Copying memory memory₂ a n (copies ++ [c]) (paths ++ [path]) := by
  obtain ⟨cells, harray, hlength, hfront⟩ := h.array
  have hpaths := h.length_pointers
  set c := (memory'.alloc (.text path)).1 with hc
  have harray₁ := Heap.block_alloc_of_live harray (.text path)
  have hca : c ≠ a := (Heap.ne_alloc harray (.text path)).symm
  obtain ⟨memory₂, cells₂, hassign, harray₂, hlength₂, hfront₂, hother⟩ :=
    Memory.exists_assign harray₁ hfront (by omega) (some c)
  rw [hpaths] at hassign
  refine ⟨c, _, memory₂, rfl, hassign, ?_, ?_, ?_, cells₂, harray₂, by omega, ?_⟩
  · refine Memory.load_eq (Memory.cells_eq_some.mpr harray₂) hfront₂ ?_
    rw [← hpaths, List.getElem?_concat_length]
  · rw [← List.append_assoc]
    exact (h.adds.alloc (.text path)).store (by simp) harray₂ hother
  · have hkept : Memory.Texts memory₂ copies paths := h.texts.mono fun b hb path' htext => by
      rw [hother b (ne_of_mem_of_not_mem hb h.not_mem), Heap.block_alloc_of_live htext]
    refine hkept.concat ?_ ?_
    · intro hmem
      obtain ⟨path', hb⟩ := h.texts.exists_text hmem
      exact Heap.ne_alloc hb (.text path) hc
    · rw [hother c hca, hc, Heap.block_alloc_self]
  · rw [Memory.pointers, List.map_append]
    exact hfront₂

/-- Without memory for a copy the next cell is `NULL`. -/
theorem Copying.fail {n : ℕ} (h : Copying memory memory' a n copies paths) (path : Text)
    (hroom : paths.length < n) :
    ∃ memory₂, memory'.strdup false path = (none, memory') ∧
      memory'.assign (some a) paths.length none = some memory₂ ∧
      memory₂.load (some a) paths.length = some none ∧
      Copying memory memory₂ a n copies paths := by
  obtain ⟨cells, harray, hlength, hfront⟩ := h.array
  have hpaths := h.length_pointers
  obtain ⟨memory₂, cells₂, hassign, harray₂, hlength₂, hfront₂, hother⟩ :=
    Memory.exists_assign harray hfront (by omega) none
  rw [hpaths] at hassign
  refine ⟨memory₂, rfl, hassign, ?_, ?_, ?_, cells₂, harray₂, by omega,
    (List.prefix_append _ _).trans hfront₂⟩
  · refine Memory.load_eq (Memory.cells_eq_some.mpr harray₂) hfront₂ ?_
    rw [← hpaths, List.getElem?_concat_length]
  · exact h.adds.store (by simp) harray₂ hother
  · refine h.texts.mono fun b hb path' htext => ?_
    rw [hother b (ne_of_mem_of_not_mem hb h.not_mem), htext]

theorem cells_of_adds {ps : List ℕ} (h : memory.Adds memory' ps)
    (hcells : memory.cells p = some cells) : Memory.cells memory' p = some cells := by
  cases p with
  | none => exact hcells
  | some a => exact Memory.cells_eq_some.mpr (h.block (Memory.cells_eq_some.mp hcells))

/-- All of the `n` calls of `strdup` succeed, or that at some index fails. -/
def EndsAt (strdupOk : ℕ → Bool) (n : ℕ) : Option ℕ → Prop
  | none => ∀ k < n, strdupOk k = true
  | some k => k < n ∧ strdupOk k = false

/-- The loop copies all paths, or it stops at a `strdup` that fails. -/
theorem copyPaths_spec (strdupOk : ℕ → Bool) {queue : Pointer}
    (htexts : memory.Texts ptrs paths) (hcells : memory.cells queue = some cells)
    (hptrs : Memory.pointers ptrs <+: cells) {n i : ℕ} (hn : n + i = paths.length)
    (hok : ∀ k < i, strdupOk k = true)
    (h : Copying memory memory' a paths.length copies (paths.take i)) :
    ∃ failed memory₂ copies₂,
      copyPaths strdupOk queue (some a) memory' n i = some (failed, memory₂) ∧
        EndsAt strdupOk paths.length failed ∧
        Copying memory memory₂ a paths.length copies₂
          (paths.take (failed.getD paths.length)) := by
  induction n generalizing memory' copies i with
  | zero =>
    obtain rfl : i = paths.length := by omega
    exact ⟨none, memory', copies, rfl, hok, h⟩
  | succ n ih =>
    have hi : i < paths.length := by omega
    have hiptrs : i < ptrs.length := htexts.length_eq ▸ hi
    have htake : (paths.take i).length = i := by simp [hi.le]
    -- the queue is read where it was before the call
    have hload := Memory.load_pointers (cells_of_adds h.adds hcells) hptrs
      (List.getElem?_eq_getElem hiptrs)
    have htext : Memory.text memory' (some ptrs[i]) = some paths[i] := by
      rw [Memory.text_eq_some]
      exact h.adds.block
        (htexts.text (List.getElem?_eq_getElem hiptrs) (List.getElem?_eq_getElem hi))
    rw [copyPaths, hload, Option.bind_eq_bind, Option.bind_some, htext, Option.bind_eq_bind,
      Option.bind_some]
    cases hcase : strdupOk i with
    | true =>
      obtain ⟨c, memory₁, memory₂, hdup, hassign, hloadc, hcopying⟩ :=
        h.concat paths[i] (by omega)
      rw [htake] at hassign hloadc
      rw [List.take_concat_get' paths i hi] at hcopying
      have hok' : ∀ k < i + 1, strdupOk k = true := by
        intro k hk
        rcases Nat.lt_succ_iff_lt_or_eq.mp hk with hlt | rfl
        · exact hok k hlt
        · exact hcase
      obtain ⟨failed, memory₃, copies₃, hrun, hends, hcopying₃⟩ := ih (by omega) hok' hcopying
      refine ⟨failed, memory₃, copies₃, ?_, hends, hcopying₃⟩
      simpa [hdup, hassign, hloadc] using hrun
    | false =>
      obtain ⟨memory₂, hdup, hassign, hloadc, hcopying⟩ := h.fail paths[i] (by omega)
      rw [htake] at hassign hloadc
      refine ⟨some i, memory₂, copies, ?_, ⟨hi, hcase⟩, hcopying⟩
      simp [hdup, hassign, hloadc]

/-- The array that `calloc` returns has no copies yet. -/
theorem copying_calloc (memory : Memory) (n : ℕ) :
    ∃ a memory', memory.calloc true n = (some a, memory') ∧
      Copying memory memory' a n [] [] := by
  set array := Block.array (List.replicate n (some none))
  have hadds := (Heap.Adds.refl memory).alloc array
  exact ⟨_, _, rfl, hadds, .nil _, _, Heap.block_alloc_self memory array,
    List.length_replicate, List.nil_prefix⟩

/-! ## All or nothing -/

/-- At `p` there is an array of pointers to copies of the paths; the array and the copies are new
since `memory`. -/
def HandsOver (memory memory' : Memory) (p : Pointer) (paths : List Text) : Prop :=
  ∃ a copies, p = some a ∧ memory'.block a = some (.array (Memory.pointers copies)) ∧
    memory'.Texts copies paths ∧ ∀ b ∈ a :: copies, memory.block b = none

/-- An array of `n` pointers has been filled. -/
theorem Copying.array_eq (h : Copying memory memory' a paths.length copies paths) :
    memory'.block a = some (.array (Memory.pointers copies)) := by
  obtain ⟨cells, harray, hlength, hfront⟩ := h.array
  rw [harray, hfront.eq_of_length (by rw [h.length_pointers, hlength])]

/-- What was new before the blocks of the queue were freed is still there. -/
theorem Copying.handsOver {memory₂ : Memory} {freed : List ℕ}
    (h : Copying memory memory' a paths.length copies paths)
    (hfreed : ∀ b ∈ freed, memory.block b ≠ none)
    (hblock : ∀ b, memory₂.block b = if b ∈ freed then none else memory'.block b) :
    HandsOver memory memory₂ (some a) paths := by
  have hnew : ∀ b ∈ a :: copies, memory.block b = none := fun b hb => (h.adds.new b hb).1
  have hkept : ∀ b ∈ a :: copies, memory₂.block b = memory'.block b := by
    intro b hb
    rw [hblock, if_neg fun hmem => hfreed b hmem (hnew b hb)]
  refine ⟨a, copies, rfl, ?_, ?_, hnew⟩
  · rw [hkept a List.mem_cons_self, h.array_eq]
  · refine h.texts.mono fun b hb path htext => ?_
    rw [hkept b (List.mem_cons_of_mem a hb), htext]

/-- A call that fails frees what it has allocated. -/
theorem Copying.freeArray {n : ℕ} (h : Copying memory memory' a n copies paths) :
    ∃ memory₂, freeArray (some a) memory' paths.length = some memory₂ ∧
      ∀ p, memory₂.block p = memory.block p := by
  obtain ⟨cells, harray, -, hfront⟩ := h.array
  obtain ⟨memory₂, hfree, hblock⟩ := h.adds.freeAll (copies ++ [a]) List.perm_append_comm
  refine ⟨memory₂, ?_, hblock⟩
  rw [← hfree, ← h.texts.length_eq]
  exact freeArray_eq harray hfront h.not_mem

/-- A call that succeeds frees the queue. -/
theorem freeArray_queue (htexts : memory.Texts ptrs paths)
    (harray : memory.block a = some (.array cells)) (hptrs : Memory.pointers ptrs <+: cells)
    {new : List ℕ} (hadds : memory.Adds memory' new) :
    ∃ memory₂, freeArray (some a) memory' paths.length = some memory₂ ∧
      (∀ b ∈ ptrs ++ [a], memory.block b ≠ none) ∧
      ∀ b, memory₂.block b = if b ∈ ptrs ++ [a] then none else memory'.block b := by
  have ha : a ∉ ptrs := by
    intro hmem
    obtain ⟨path, htext⟩ := htexts.exists_text hmem
    rw [harray] at htext
    cases htext
  have hlive : ∀ b ∈ ptrs ++ [a], memory.block b ≠ none := by
    intro b hb
    rcases List.mem_append.mp hb with hb | hb
    · obtain ⟨path, htext⟩ := htexts.exists_text hb
      simp [htext]
    · simp [List.mem_singleton.mp hb, harray]
  have hlive' : ∀ b ∈ ptrs ++ [a], memory'.block b ≠ none := by
    intro b hb
    obtain ⟨block, hblock⟩ := Option.ne_none_iff_exists'.mp (hlive b hb)
    simp [hadds.block hblock]
  have hnodup : (ptrs ++ [a]).Nodup :=
    List.Nodup.append htexts.nodup (List.nodup_singleton a) (by simpa using ha)
  obtain ⟨memory₂, hfree, hblock⟩ := Heap.freeAll_eq memory' hnodup hlive'
  refine ⟨memory₂, ?_, hlive, hblock⟩
  rw [← htexts.length_eq, ← hfree]
  exact freeArray_eq (hadds.block harray) hptrs ha

variable {q : ChangeQueue}

theorem ChangeQueue.Holds.count_ne (h : q.Holds paths) (hpaths : paths ≠ []) : q.count ≠ 0 := by
  rw [h.count]
  exact fun hzero => hpaths (List.length_eq_zero_iff.mp hzero)

/-- The loop that copies runs to its end or to a failure. -/
theorem ChangeQueue.Holds.copyPaths (h : q.Holds paths) (strdupOk : ℕ → Bool) :
    ∃ a memory₁ failed memory₂ copies,
      q.memory.calloc true q.count = (some a, memory₁) ∧
      copyPaths strdupOk q.queue (some a) memory₁ q.count 0 = some (failed, memory₂) ∧
      EndsAt strdupOk paths.length failed ∧
      Copying q.memory memory₂ a paths.length copies (paths.take (failed.getD paths.length)) := by
  obtain ⟨ptrs, cells, htexts, hcells, hptrs⟩ := h.array
  obtain ⟨a, memory₁, hcalloc, hcopying₁⟩ := copying_calloc q.memory paths.length
  obtain ⟨failed, memory₂, copies, hrun, hends, hcopying₂⟩ :=
    copyPaths_spec strdupOk (n := q.count) (i := 0) htexts hcells hptrs
      (by rw [h.count, Nat.add_zero]) (fun k hk => absurd hk (Nat.not_lt_zero k))
      (by simpa using hcopying₁)
  rw [← h.count] at hcalloc
  exact ⟨a, memory₁, failed, memory₂, copies, hcalloc, hrun, hends, hcopying₂⟩

/-- While all allocations succeed, copies of all paths are handed over and the queue is freed. -/
theorem ChangeQueue.Holds.drain_of_ok (h : q.Holds paths) (hpaths : paths ≠ [])
    {strdupOk : ℕ → Bool} (hok : ∀ k < paths.length, strdupOk k = true) (changedFiles : Pointer) :
    ∃ files memory, q.drain true strdupOk changedFiles =
        some ⟨0, files, paths.length, ⟨memory, none, 0⟩⟩ ∧
      HandsOver q.memory memory files paths := by
  obtain ⟨a, memory₁, failed, memory₂, copies, hcalloc, hrun, hends, hcopying⟩ :=
    h.copyPaths strdupOk
  obtain rfl : failed = none := by
    rcases failed with _ | k
    · rfl
    · obtain ⟨hk, hfails⟩ := hends
      rw [hok k hk] at hfails
      cases hfails
  rw [Option.getD_none, List.take_length] at hcopying
  obtain ⟨ptrs, cells, htexts, hcells, hptrs⟩ := h.array
  obtain ⟨b, hb⟩ := h.queue_eq_some hpaths
  rw [hb, Memory.cells_eq_some] at hcells
  obtain ⟨memory₃, hfreed, hlive, hblock⟩ := freeArray_queue htexts hcells hptrs hcopying.adds
  rw [← hb, ← h.count] at hfreed
  refine ⟨some a, memory₃, ?_, hcopying.handsOver hlive hblock⟩
  rw [ChangeQueue.drain, if_neg (h.count_ne hpaths), hcalloc, ← h.count]
  simp [hrun, hfreed]

/-- Where an allocation fails, nothing is handed over and the blocks are those of before. -/
theorem ChangeQueue.Holds.drain_of_fails (h : q.Holds paths) (hpaths : paths ≠ []) {callocOk : Bool}
    {strdupOk : ℕ → Bool}
    (hfails : ¬ (callocOk = true ∧ ∀ k < paths.length, strdupOk k = true))
    (changedFiles : Pointer) :
    ∃ memory, q.drain callocOk strdupOk changedFiles =
        some ⟨-1, none, paths.length, { q with memory }⟩ ∧
      ∀ p, memory.block p = q.memory.block p := by
  have hcount := h.count_ne hpaths
  cases callocOk with
  | false =>
    refine ⟨q.memory, ?_, fun _ => rfl⟩
    rw [ChangeQueue.drain, if_neg hcount, ← h.count]
    rfl
  | true =>
    obtain ⟨a, memory₁, failed, memory₂, copies, hcalloc, hrun, hends, hcopying⟩ :=
      h.copyPaths strdupOk
    rcases failed with _ | k
    · exact absurd ⟨rfl, hends⟩ hfails
    obtain ⟨memory₃, hfreed, hblock⟩ := hcopying.freeArray
    rw [Option.getD_some, List.length_take_of_le hends.1.le] at hfreed
    refine ⟨memory₃, ?_, hblock⟩
    rw [ChangeQueue.drain, if_neg hcount, hcalloc, ← h.count]
    simp [hrun, hfreed]

/-- The queue holds what it held, if the blocks are the same. -/
theorem ChangeQueue.Holds.of_block (h : q.Holds paths)
    (hblock : ∀ p, memory.block p = q.memory.block p) :
    ({ q with memory } : ChangeQueue).Holds paths := by
  obtain ⟨ptrs, cells, htexts, hcells, hptrs⟩ := h.array
  have hcells' : Memory.cells memory q.queue = some cells := by
    cases hq : q.queue with
    | none => simpa [hq, Memory.cells] using hcells
    | some a =>
      rw [hq, Memory.cells_eq_some] at hcells
      rw [Memory.cells_eq_some, hblock, hcells]
  exact ⟨h.count, ptrs, cells, htexts.mono fun a _ path ha => by rw [hblock, ha], hcells', hptrs⟩

/-- Where no allocation fails, the list that `getChangedFilesFromQueue` reports is handed over, and
the queue holds what it leaves. -/
theorem drain_refines {state : MonitorState} (h : q.Holds state.changedFilesQueue)
    (hne : state.changedFilesQueue ≠ []) (changedFiles : Pointer) :
    ∃ r, q.drain true (fun _ => true) changedFiles = some r ∧
      HandsOver q.memory r.queue.memory r.changedFiles (getChangedFilesFromQueue state).1 ∧
      r.queue.Holds (getChangedFilesFromQueue state).2.changedFilesQueue := by
  obtain ⟨files, memory, hdrain, hhands⟩ := h.drain_of_ok hne (fun _ _ => rfl) changedFiles
  exact ⟨_, hdrain, hhands, rfl, [], [], .nil _, rfl, List.nil_prefix⟩

/-- `get_changed_files_from_queue` returns 0, hands over copies of all paths in order and leaves
the queue empty, or it returns -1, hands over nothing and leaves the queue as it was. The first is
the case if and only if all allocations succeed. -/
theorem drain_all_or_nothing (h : q.Holds paths) (hpaths : paths ≠ []) (callocOk : Bool)
    (strdupOk : ℕ → Bool) (changedFiles : Pointer) :
    ∃ r, q.drain callocOk strdupOk changedFiles = some r ∧
      (r.result = 0 ∧ (callocOk = true ∧ ∀ k < paths.length, strdupOk k = true) ∧
          HandsOver q.memory r.queue.memory r.changedFiles paths ∧ r.count = paths.length ∧
          r.queue.queue = none ∧ r.queue.count = 0 ∨
        r.result = -1 ∧ ¬ (callocOk = true ∧ ∀ k < paths.length, strdupOk k = true) ∧
          r.changedFiles = none ∧ r.queue.queue = q.queue ∧ r.queue.count = q.count ∧
          (∀ p, r.queue.memory.block p = q.memory.block p) ∧ r.queue.Holds paths) := by
  by_cases hok : callocOk = true ∧ ∀ k < paths.length, strdupOk k = true
  · obtain ⟨rfl, hstrdup⟩ := hok
    obtain ⟨files, memory, hdrain, hhands⟩ := h.drain_of_ok hpaths hstrdup changedFiles
    exact ⟨_, hdrain, Or.inl ⟨rfl, ⟨rfl, hstrdup⟩, hhands, rfl, rfl, rfl⟩⟩
  · obtain ⟨memory, hdrain, hblock⟩ := h.drain_of_fails hpaths hok changedFiles
    exact ⟨_, hdrain, Or.inr ⟨rfl, hok, rfl, rfl, rfl, hblock, h.of_block hblock⟩⟩

/-- `drain_all_or_nothing` for a queue of one path whose copy fails. -/
theorem drain_onePathQueue :
    ∃ r, onePathQueue.drain true (fun _ => false) none = some r ∧ r.result = -1 ∧
      r.changedFiles = none ∧ r.queue.Holds [['m', '/', 'a']] := by
  obtain ⟨r, hdrain, hcase⟩ := drain_all_or_nothing onePathQueue_holds (List.cons_ne_nil _ _) true
    (fun _ => false) none
  rcases hcase with ⟨-, ⟨-, hok⟩, -⟩ | ⟨hresult, -, hfiles, -, -, -, hholds⟩
  · exact absurd (hok 0 Nat.one_pos) Bool.false_ne_true
  · exact ⟨r, hdrain, hresult, hfiles, hholds⟩

end MonitorDaemon
