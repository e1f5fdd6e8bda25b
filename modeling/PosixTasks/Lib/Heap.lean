import Mathlib

/-!
# Heaps

A heap maps addresses to the blocks that are allocated there. A block that is not live can be
neither overwritten nor freed: such an access is undefined. A new block gets an address that no
block had before.

## Main results

* `block_alloc`, `block_of_store`, `block_of_free`: what is at each address after an operation;
* `freeAll_eq`: live blocks at distinct addresses can be freed, and nothing else changes;
* `Adds.freeAll`: freeing what was allocated since leads back to the blocks of before.
-/

/-- A heap: what was allocated at each address so far, `none` where it was freed. -/
structure Heap (β : Type*) where
  slots : List (Option β)

namespace Heap

variable {β : Type*} {heap heap' : Heap β} {b b' : β} {p q : ℕ} {ps qs : List ℕ}

/-- The block at an address; `none` if there is no live one. -/
def block (heap : Heap β) (p : ℕ) : Option β :=
  heap.slots[p]?.join

/-- Allocate a block. The result is its address and the new heap. -/
def alloc (heap : Heap β) (b : β) : ℕ × Heap β :=
  (heap.slots.length, ⟨heap.slots ++ [some b]⟩)

/-- Overwrite a live block. -/
def store (heap : Heap β) (p : ℕ) (b : β) : Option (Heap β) :=
  if (heap.block p).isSome then some ⟨heap.slots.set p (some b)⟩ else none

/-- Free a live block. -/
def free (heap : Heap β) (p : ℕ) : Option (Heap β) :=
  if (heap.block p).isSome then some ⟨heap.slots.set p none⟩ else none

/-- Free several blocks, one after the other. -/
def freeAll (heap : Heap β) (ps : List ℕ) : Option (Heap β) :=
  ps.foldlM free heap

/-! ## One operation -/

theorem block_eq_some : heap.block p = some b ↔ heap.slots[p]? = some (some b) := by
  rw [block]
  rcases heap.slots[p]? with _ | _ | b' <;> simp

theorem lt_of_block (h : heap.block p = some b) : p < heap.slots.length :=
  (List.getElem?_eq_some_iff.mp (block_eq_some.mp h)).1

theorem block_alloc (heap : Heap β) (b : β) (p : ℕ) :
    (heap.alloc b).2.block p = if p = (heap.alloc b).1 then some b else heap.block p := by
  by_cases hp : p = (heap.alloc b).1
  · rw [if_pos hp, hp]
    simp [block, alloc]
  · rw [if_neg hp, block, block, alloc]
    rcases lt_or_gt_of_ne (show p ≠ heap.slots.length from hp) with hlt | hgt
    · rw [List.getElem?_append_left hlt]
    · rw [List.getElem?_eq_none (by simp; omega), List.getElem?_eq_none (by omega)]

@[simp]
theorem block_alloc_self (heap : Heap β) (b : β) :
    (heap.alloc b).2.block (heap.alloc b).1 = some b := by
  rw [block_alloc, if_pos rfl]

/-- The address of a new block is not in use. -/
@[simp]
theorem block_alloc_fst (heap : Heap β) (b : β) : heap.block (heap.alloc b).1 = none := by
  simp [alloc, block]

/-- A live block is not the one that is allocated next. -/
theorem ne_alloc (h : heap.block p = some b) (b' : β) : p ≠ (heap.alloc b').1 := by
  rintro rfl
  rw [block_alloc_fst] at h
  cases h

theorem block_alloc_of_live (h : heap.block p = some b) (b' : β) :
    (heap.alloc b').2.block p = some b := by
  rw [block_alloc, if_neg (ne_alloc h b'), h]

private theorem block_set (h : heap.block p = some b) (o : Option β) (q : ℕ) :
    (⟨heap.slots.set p o⟩ : Heap β).block q = if q = p then o else heap.block q := by
  simp only [block, List.getElem?_set]
  by_cases hq : q = p
  · rw [if_pos hq.symm, if_pos (lt_of_block h), if_pos hq, Option.join_some]
  · rw [if_neg (Ne.symm hq), if_neg hq]

/-- A live block can be overwritten. -/
theorem exists_store (h : heap.block p = some b) (b' : β) :
    ∃ heap', heap.store p b' = some heap' ∧
      ∀ q, heap'.block q = if q = p then some b' else heap.block q := by
  refine ⟨_, by rw [store, if_pos (by simp [h])], block_set h (some b')⟩

/-- A live block can be freed. -/
theorem exists_free (h : heap.block p = some b) :
    ∃ heap', heap.free p = some heap' ∧
      ∀ q, heap'.block q = if q = p then none else heap.block q := by
  refine ⟨_, by rw [free, if_pos (by simp [h])], block_set h none⟩

theorem block_of_free (h : heap.free p = some heap') (q : ℕ) :
    heap'.block q = if q = p then none else heap.block q := by
  rcases hb : heap.block p with _ | b
  · simp [free, hb] at h
  · obtain ⟨heap'', hfree, hblock⟩ := exists_free hb
    obtain rfl : heap'' = heap' := Option.some.inj (hfree.symm.trans h)
    exact hblock q

/-! ## Several blocks -/

theorem freeAll_concat (heap : Heap β) (ps : List ℕ) (p : ℕ) :
    heap.freeAll (ps ++ [p]) = (heap.freeAll ps).bind fun heap => heap.free p := by
  simp [freeAll, List.foldlM_append]

/-- Live blocks at distinct addresses can be freed, and nothing else changes. -/
theorem freeAll_eq (heap : Heap β) (hnodup : ps.Nodup) (hlive : ∀ p ∈ ps, heap.block p ≠ none) :
    ∃ heap', heap.freeAll ps = some heap' ∧
      ∀ q, heap'.block q = if q ∈ ps then none else heap.block q := by
  induction ps generalizing heap with
  | nil => exact ⟨heap, rfl, fun q => by simp⟩
  | cons p ps ih =>
    obtain ⟨hp, hnodup⟩ := List.nodup_cons.mp hnodup
    obtain ⟨b, hb⟩ := Option.ne_none_iff_exists'.mp (hlive p List.mem_cons_self)
    obtain ⟨heap₁, hfree, hblock₁⟩ := exists_free hb
    have hlive₁ : ∀ q ∈ ps, heap₁.block q ≠ none := by
      intro q hq
      rw [hblock₁, if_neg (ne_of_mem_of_not_mem hq hp)]
      exact hlive q (List.mem_cons_of_mem _ hq)
    obtain ⟨heap', hall, hblock⟩ := ih heap₁ hnodup hlive₁
    refine ⟨heap', ?_, fun q => ?_⟩
    · rw [freeAll, List.foldlM_cons, hfree]
      exact hall
    · rw [hblock, hblock₁]
      by_cases hq : q = p <;> simp [hq]

/-- `heap'` has the blocks of `heap`, and new ones at the addresses `ps`. -/
structure Adds (heap heap' : Heap β) (ps : List ℕ) : Prop where
  nodup : ps.Nodup
  new : ∀ p ∈ ps, heap.block p = none ∧ heap'.block p ≠ none
  old : ∀ p, p ∉ ps → heap'.block p = heap.block p

theorem Adds.refl (heap : Heap β) : heap.Adds heap [] :=
  ⟨List.nodup_nil, fun _ hp => absurd hp List.not_mem_nil, fun _ _ => rfl⟩

/-- Live blocks stay. -/
theorem Adds.block (h : heap.Adds heap' ps) (hp : heap.block p = some b) :
    heap'.block p = some b := by
  have hold : p ∉ ps := by
    intro hmem
    rw [(h.new p hmem).1] at hp
    cases hp
  rw [h.old p hold, hp]

theorem Adds.alloc (h : heap.Adds heap' ps) (b : β) :
    heap.Adds (heap'.alloc b).2 (ps ++ [(heap'.alloc b).1]) := by
  have hfresh := block_alloc_fst heap' b
  have hnew : (heap'.alloc b).1 ∉ ps := fun hmem => (h.new _ hmem).2 hfresh
  refine ⟨?_, ?_, ?_⟩
  · exact List.Nodup.append h.nodup (List.nodup_singleton _) (by simpa using hnew)
  · intro p hp
    rcases List.mem_append.mp hp with hp | hp
    · rw [block_alloc]
      refine ⟨(h.new p hp).1, ?_⟩
      split
      · exact Option.some_ne_none b
      · exact (h.new p hp).2
    · obtain rfl := List.mem_singleton.mp hp
      rw [← h.old _ hnew, block_alloc_self]
      exact ⟨hfresh, Option.some_ne_none b⟩
  · intro p hp
    obtain ⟨hps, hne⟩ := by simpa using hp
    rw [block_alloc, if_neg hne, h.old p hps]

/-- A new block may be overwritten. -/
theorem Adds.store (h : heap.Adds heap' ps) {heap'' : Heap β} (hp : p ∈ ps)
    (hself : heap''.block p = some b) (hother : ∀ q, q ≠ p → heap''.block q = heap'.block q) :
    heap.Adds heap'' ps := by
  refine ⟨h.nodup, ?_, ?_⟩
  · intro q hq
    refine ⟨(h.new q hq).1, ?_⟩
    by_cases hqp : q = p
    · rw [hqp, hself]
      exact Option.some_ne_none b
    · rw [hother q hqp]
      exact (h.new q hq).2
  · intro q hq
    rw [hother q (ne_of_mem_of_not_mem hp hq).symm, h.old q hq]

/-- Freeing what was allocated since, in any order, leads back to the blocks of before. -/
theorem Adds.freeAll (h : heap.Adds heap' ps) (qs : List ℕ) (hperm : qs.Perm ps) :
    ∃ heap'', heap'.freeAll qs = some heap'' ∧ ∀ p, heap''.block p = heap.block p := by
  obtain ⟨heap'', hfree, hblock⟩ := freeAll_eq heap' (hperm.nodup_iff.mpr h.nodup)
    fun p hp => (h.new p (hperm.mem_iff.mp hp)).2
  refine ⟨heap'', hfree, fun p => ?_⟩
  rw [hblock]
  split
  next hp => exact (h.new p (hperm.mem_iff.mp hp)).1.symm
  next hp => exact h.old p fun hmem => hp (hperm.mem_iff.mpr hmem)

end Heap
