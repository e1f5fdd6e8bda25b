import PosixTasks.SemaphoreCopy.Complete

/-!
# The copy with two semaphores always ends

At every moment one of the two processes has the token, or can take it. A round of the token
copies at least one byte or is the last one, behind which the producer removes the semaphores and
the consumer finds the end of the file, or its `sem_wait` fails. Either way it has written
everything.

## Main results

* `work_lt`: what is still to be done gets less with every step;
* `endsCopied_of_init`: every schedule ends, with the whole file copied.
-/

namespace SemaphoreCopy

open Transition

variable {input : List Byte} {o₀ : Option (List Byte)} {s u : State} {a : Action}

/-! ## How long it takes -/

/-- The steps of the producer, and what it makes of the bytes that are left. -/
def ParentPc.work (left bufSize : ℕ) : ParentPc → ℕ
  | .waiting => 20 * left + 12
  | .reading => 20 * left + 11
  | .storing n => 20 * left + if 0 < n then n + 19 else 10
  | .halfStored n => 20 * left + if 0 < n then n + 18 else 9
  | .signalling last => 20 * left + if last then 8 else bufSize + 17
  | .left _ => 1
  | .removed _ => 0

/-- The steps of the consumer. -/
def ChildPc.work (bufSize : ℕ) : ChildPc → ℕ
  | .opening => 2
  | .waiting => 1
  | .checking => bufSize + 4
  | .sizing => bufSize + 3
  | .writing total w => total - w + 2
  | .signalling _ => 2
  | .ended => 0

/-- What the consumer will do with the chunk that it has not yet taken. -/
def tokenWork (bufSize : ℕ) : Option (ℕ × ℕ) → ℕ
  | some (_, w) => w * (bufSize + 4)
  | none => 0

/-- What is still to be done. -/
def State.work (input : List Byte) (s : State) : ℕ :=
  s.parent.work (input.length - s.offset) s.shd.bufSize + s.child.work s.shd.bufSize +
    tokenWork s.shd.bufSize s.sems

theorem work_writeLoop_le (bufSize total w : ℕ) :
    (writeLoop total w).work bufSize ≤ total - w + 2 := by
  rw [writeLoop]
  split <;> simp [ChildPc.work]

/-- A consumer that does not have the token does not depend on the chunk. -/
theorem ChildPc.Idle.work_eq {child : ChildPc} (h : child.Idle) (n m : ℕ) :
    child.work n = child.work m := by
  cases child <;> first | rfl | exact h.elim

/-- The producer stores a block, or the end. -/
theorem work_parentStore_lt (hs : Stage input o₀ s) (h : step input s .parentStore = some u) :
    u.work input < s.work input := by
  cases hs with
  | storing n hsems hparent hchild =>
    have hidle := hchild.work_eq n s.shd.bufSize
    simp only [step, hparent] at h
    split at h <;> cases h
    next hn =>
      simp only [State.work, hparent, hsems, ParentPc.work, tokenWork, hn, hidle, ↓reduceIte]
      omega
    next hn =>
      simp only [State.work, hparent, hsems, ParentPc.work, tokenWork, hn, ↓reduceIte]
      omega
  | halfStored n hsems hparent hchild _ hhalf =>
    have hidle := hchild.work_eq 0 s.shd.bufSize
    simp only [step, hparent] at h
    split at h <;> cases h
    next hn =>
      rw [if_pos hn] at hhalf
      simp only [State.work, hparent, hsems, ParentPc.work, tokenWork, hn, ↓reduceIte]
      simp
      omega
    next hn =>
      simp only [State.work, hparent, hsems, ParentPc.work, tokenWork, hn, hidle, ↓reduceIte]
      omega
  | handed _ hparent | checking _ hparent | flushed _ _ hparent =>
    -- the producer is behind its signal there
    simp [(step_afterSignal hparent).2.1] at h
  | _ => simp_all [step]

/-- The producer hands the memory over. -/
theorem work_parentSignal_lt (hs : Stage input o₀ s) (h : step input s .parentSignal = some u) :
    u.work input < s.work input := by
  cases hs with
  | signalling hsems hparent hchild hfilled =>
    simp only [step, hparent, hsems, semSignal, Option.some.injEq] at h
    subst h
    cases heof : s.shd.eof with
    | true =>
      simp only [State.work, hparent, hsems, heof, ParentPc.work, tokenWork, ↓reduceIte,
        hfilled.eof_iff.mp heof]
      omega
    | false =>
      simp [State.work, hparent, hsems, heof, ParentPc.work, tokenWork]
      omega
  | handed _ hparent | checking _ hparent | flushed _ _ hparent =>
    simp [(step_afterSignal hparent).2.2] at h
  | _ => simp_all [step, semSignal]

/-- What is still to be done gets less with every step. -/
theorem work_lt (hs : Stage input o₀ s) (h : step input s a = some u) :
    u.work input < s.work input := by
  cases a with
  | parentWait =>
    cases hs with
    | free hsems hparent =>
      simp only [step, hparent, hsems, semWait, Option.some.injEq] at h
      subst h
      simp [State.work, hparent, hsems, ParentPc.work, tokenWork]
    | handed hsems | checking hsems | flushed _ hsems => simp [step, hsems, semWait] at h
    | _ => simp_all [step, semWait]
  | parentRead n =>
    simp only [step, Option.ite_none_right_eq_some, Option.some.injEq] at h
    obtain ⟨⟨hpc, hread⟩, rfl⟩ := h
    -- the bytes read leave the input and are paid for as a block
    have hleft := hread.2.1
    simp only [State.work, hpc, ParentPc.work]
    split <;> omega
  | parentStore => exact work_parentStore_lt hs h
  | parentSignal => exact work_parentSignal_lt hs h
  | parentRemove =>
    simp only [step] at h
    split at h <;> cases h
    next hpc =>
      simp only [State.work, hpc, ParentPc.work, tokenWork]
      omega
  | childOpen =>
    simp only [step, Option.ite_none_right_eq_some, Option.some.injEq] at h
    obtain ⟨hpc, rfl⟩ := h
    simp [State.work, hpc, ChildPc.work]
  | childWait =>
    simp only [step] at h
    split at h <;> cases h
    next sems hpc hsem =>
      -- the token goes from the semaphore to the consumer
      rcases hsems : s.sems with _ | ⟨v, w⟩
      · simp [hsems, semWait] at hsem
      · cases w with
        | zero => simp [hsems, semWait] at hsem
        | succ w =>
          simp only [hsems, semWait, SemResult.succeeds.injEq] at hsem
          subst hsem
          simp only [State.work, hpc, hsems, ChildPc.work, tokenWork, Nat.add_mul]
          omega
    -- without the semaphores the call fails, and the consumer ends
    next hpc hsem => simp [State.work, hpc, ChildPc.work]
  | childCheck =>
    simp only [step, Option.ite_none_right_eq_some, Option.some.injEq] at h
    obtain ⟨hpc, rfl⟩ := h
    cases heof : s.shd.eof <;> simp [State.work, hpc, ChildPc.work]
  | childSize =>
    simp only [step, Option.ite_none_right_eq_some, Option.some.injEq] at h
    obtain ⟨hpc, rfl⟩ := h
    have hloop := work_writeLoop_le s.shd.bufSize s.shd.bufSize 0
    have hchild : s.child.work s.shd.bufSize = s.shd.bufSize + 3 := by rw [hpc]; rfl
    simp only [State.work, hchild]
    omega
  | childWrite n =>
    simp only [step] at h
    split at h
    next total w hpc =>
      simp only [Option.ite_none_right_eq_some, Option.some.injEq] at h
      obtain ⟨hn, rfl⟩ := h
      have hloop := work_writeLoop_le s.shd.bufSize total (w + n)
      have hchild : s.child.work s.shd.bufSize = total - w + 2 := by rw [hpc]; rfl
      simp only [State.work, hchild]
      omega
    next => cases h
  | childSignal =>
    simp only [step] at h
    split at h <;> cases h
    next last sems hpc hsem =>
      rcases hsems : s.sems with _ | ⟨v, w⟩
      · simp [hsems, semSignal] at hsem
      · simp only [hsems, semSignal, SemResult.succeeds.injEq] at hsem
        subst hsem
        -- behind the last block the consumer ends, else it opens its next turn
        cases last <;> simp [State.work, hpc, hsems, ChildPc.work, tokenWork]
    next last hpc hsem => simp [State.work, hpc, ChildPc.work]

/-! ## Nobody waits for ever -/

theorem exists_readReturns (input : List Byte) (offset : ℕ) : ∃ n, ReadReturns input offset n := by
  refine ⟨min shmSize (input.length - offset), min_le_left .., min_le_right .., ?_⟩
  have hsize : 0 < shmSize := by decide
  omega

/-- Unless both processes have ended, one of them can go on. -/
theorem exists_step (hs : Stage input o₀ s)
    (hend : ¬ (s.parent = .removed true ∧ s.child = .ended)) : ∃ a, step input s a ≠ none := by
  cases hs with
  | free hsems hparent => exact ⟨.parentWait, by simp [step, hparent, hsems, semWait]⟩
  | reading hsems hparent =>
    obtain ⟨n, hn⟩ := exists_readReturns input s.offset
    exact ⟨.parentRead n, by simp [step, hparent, hn]⟩
  | storing n hsems hparent =>
    refine ⟨.parentStore, ?_⟩
    simp only [step, hparent]
    split <;> simp
  | halfStored n hsems hparent =>
    refine ⟨.parentStore, ?_⟩
    simp only [step, hparent]
    split <;> simp
  | signalling hsems hparent => exact ⟨.parentSignal, by simp [step, hparent, hsems, semSignal]⟩
  | handed hsems hparent hchild =>
    cases hpc : s.child <;> rw [hpc] at hchild
    case opening => exact ⟨.childOpen, by simp [step, hpc]⟩
    case waiting => exact ⟨.childWait, by simp [step, hpc, hsems, semWait]⟩
    all_goals exact hchild.elim
  | checking hsems hparent hchild => exact ⟨.childCheck, by simp [step, hchild]⟩
  | sizing hsems hparent hchild => exact ⟨.childSize, by simp [step, hchild]⟩
  | writing total w hsems hparent hchild hlt =>
    have hone : 0 < 1 ∧ 1 ≤ total - w := by omega
    exact ⟨.childWrite 1, by simp [step, hchild, hone]⟩
  | flushed last hsems hparent hchild =>
    exact ⟨.childSignal, by simp [step, hchild, hsems, semSignal]⟩
  | finished hsems hparent => exact ⟨.parentRemove, by simp [step, hparent]⟩
  | removed hsems hparent hchild =>
    -- without the semaphores every call on them returns
    cases hpc : s.child <;> rw [hpc] at hchild
    case opening => exact ⟨.childOpen, by simp [step, hpc]⟩
    case waiting => exact ⟨.childWait, by simp [step, hpc, hsems, semWait]⟩
    case checking => exact ⟨.childCheck, by simp [step, hpc]⟩
    case signalling last => exact ⟨.childSignal, by simp [step, hpc, hsems, semSignal]⟩
    case ended => exact absurd ⟨hparent, hpc⟩ hend
    all_goals exact hchild.elim

/-- Where no step is left, both processes have ended and the file is copied. -/
theorem copied_of_stuck (hs : Stage input o₀ s) (hstuck : ∀ a, step input s a = none) :
    s.parent = .removed true ∧ s.child = .ended ∧ s.output = some input := by
  have hend : s.parent = .removed true ∧ s.child = .ended := by
    by_contra hgoing
    obtain ⟨a, ha⟩ := exists_step hs hgoing
    exact ha (hstuck a)
  have hout := hs.outputAt_end (by rw [hend.1]; rfl)
  rw [outputAt_of_ne (by simp [hend.2]), List.take_length] at hout
  exact ⟨hend.1, hend.2, hout⟩

/-- Every schedule of the two processes ends after a number of steps that the length of `input.txt`
bounds. Both have ended then, the semaphores are gone, and `output.txt` is `input.txt`, also where
the consumer has ended because a call on a semaphore failed. -/
theorem endsCopied_of_init (input : List Byte) (o₀ : Option (List Byte)) (shd : SharedData) :
    EndsWithin (step input) (20 * input.length + 14)
      (fun s => s.parent = .removed true ∧ s.child = .ended ∧ s.output = some input)
      (init o₀ shd) := by
  have hwork : (init o₀ shd).work input = 20 * input.length + 14 := by
    simp [State.work, init, ParentPc.work, ChildPc.work, tokenWork]
  rw [← hwork]
  exact EndsWithin.of_invariant (stage_init shd) (fun _ _ _ => stage_step) (fun _ _ _ => work_lt)
    fun _ => copied_of_stuck

end SemaphoreCopy
