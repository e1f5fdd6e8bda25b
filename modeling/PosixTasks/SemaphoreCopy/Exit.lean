import PosixTasks.SemaphoreCopy.Complete

/-!
# With which status the consumer ends

The consumer ends with status 0 when it has found `eof` set, and with status 1 when a call on a
semaphore fails. The producer removes the semaphores as soon as it has handed over the end of the
file, whatever the consumer is doing then: if that one is still in front of the `sem_wait` that
would show it the end, this call fails.

## Main results

* `ended_iff_exitStatus`: the consumer ends in the steps that have a status, and in no others;
* `removedLate_step`: semaphores that are removed behind the last `sem_wait` are not missed;
* `doomed_step`: without the semaphores a consumer in front of `sem_wait` can only fail;
* `cleanExit_of_run`: the consumer does not fail if the semaphores are removed late enough, and a
  consumer that has ended has not failed only if they were.
-/

namespace SemaphoreCopy

open Transition

variable {input : List Byte} {o₀ : Option (List Byte)} {s u : State} {a : Action}

/-! ## Exit statuses -/

/-- The status the consumer exits with in this step; `none` if it goes on. -/
def exitStatus (s : State) : Action → Option ℕ
  | .childWait =>
      match s.child, semWait .consumer s.sems with
      | .waiting, .fails => some 1
      | _, _ => none
  | .childSignal =>
      match s.child, semSignal .producer s.sems with
      -- the loop is left through the flag, and the result of `sem_signal` is ignored
      | .signalling true, _ => some 0
      | .signalling false, .fails => some 1
      | _, _ => none
  | _ => none

/-- The consumer does not exit with a failure in this step. -/
def CleanExit (s : State) (a : Action) : Prop :=
  ∀ status, exitStatus s a = some status → status = 0

/-- When the semaphores are removed, the consumer is behind its last `sem_wait`. -/
def RemovedLate (s : State) : Action → Prop
  | .parentRemove => ¬ s.child.Idle
  | _ => True

instance : DecidablePred ChildPc.Idle
  | .opening | .waiting => isTrue trivial
  | .checking | .sizing | .writing _ _ | .signalling _ | .ended => isFalse id

instance (s : State) : DecidablePred (RemovedLate s)
  | .parentRemove => inferInstanceAs (Decidable (¬ _))
  | .parentWait | .parentRead _ | .parentStore | .parentSignal | .childOpen | .childWait
  | .childCheck | .childSize | .childWrite _ | .childSignal => isTrue trivial

theorem writeLoop_ne_ended (total w : ℕ) : writeLoop total w ≠ .ended := by
  rw [writeLoop]
  split <;> simp

/-- The consumer ends in the steps that have a status, and in no others. -/
theorem ended_iff_exitStatus (hs : step input s a = some u) (hchild : s.child ≠ .ended) :
    u.child = .ended ↔ (exitStatus s a).isSome := by
  by_cases ha : a.OfParent
  · rw [(frame_parent ha hs).1]
    have hnone : exitStatus s a = none := by
      cases a <;> first | rfl | exact ha.elim
    simp [hnone, hchild]
  · cases a with
    | childOpen =>
      simp only [step, Option.ite_none_right_eq_some, Option.some.injEq] at hs
      obtain ⟨-, rfl⟩ := hs
      simp [exitStatus]
    | childSize =>
      simp only [step, Option.ite_none_right_eq_some, Option.some.injEq] at hs
      obtain ⟨-, rfl⟩ := hs
      simp [exitStatus, writeLoop_ne_ended]
    | childCheck =>
      simp only [step, Option.ite_none_right_eq_some, Option.some.injEq] at hs
      obtain ⟨-, rfl⟩ := hs
      cases heof : s.shd.eof <;> simp [exitStatus]
    | childWrite n =>
      simp only [step] at hs
      split at hs
      · simp only [Option.ite_none_right_eq_some, Option.some.injEq] at hs
        obtain ⟨-, rfl⟩ := hs
        simp [exitStatus, writeLoop_ne_ended]
      · cases hs
    | childWait =>
      simp only [step] at hs
      split at hs <;> cases hs <;> simp_all [exitStatus]
    | childSignal =>
      simp only [step] at hs
      split at hs
      next last sems hc hsig =>
        cases hs
        cases last <;> simp [exitStatus, hc, hsig]
      next last hc hsig =>
        cases hs
        cases last <;> simp [exitStatus, hc, hsig]
      next => cases hs
    | _ => exact (ha trivial).elim
/-! ## Semaphores that are removed late -/

/-- Only the producer removes the semaphores, and nobody creates them anew. -/
theorem sems_eq_none_iff (hs : step input s a = some u) :
    u.sems = none ↔ s.sems = none ∨ a = .parentRemove := by
  cases a with
  | parentRemove =>
    simp only [step] at hs
    split at hs <;> cases hs
    simp
  | parentWait | parentSignal | childWait | childSignal =>
    simp only [step] at hs
    split at hs <;> cases hs
    next hsem => cases hsems : s.sems <;> simp [hsems, semWait, semSignal] at hsem ⊢
    next => simp
  | parentStore =>
    simp only [step] at hs
    split at hs
    · split at hs <;> cases hs <;> simp
    · split at hs <;> cases hs <;> simp
    · cases hs
  | childWrite n =>
    simp only [step] at hs
    split at hs
    · simp only [Option.ite_none_right_eq_some, Option.some.injEq] at hs
      obtain ⟨-, rfl⟩ := hs
      simp
    · cases hs
  | parentRead | childOpen | childCheck | childSize =>
    simp only [step, Option.ite_none_right_eq_some, Option.some.injEq] at hs
    obtain ⟨-, rfl⟩ := hs
    simp

/-- Without the semaphores the consumer is about to find `eof` set, or has found it. -/
theorem Stage.finishing (hstage : Stage input o₀ s) (hsems : s.sems = none) :
    s.child.Finishing ∧ s.shd.eof = true := by
  cases hstage with
  | removed _ _ hchild heof => exact ⟨hchild, heof⟩
  | _ => simp_all

/-- The consumer is in front of a `sem_wait` that is going to fail. -/
def Doomed (s : State) : Prop :=
  s.sems = none ∧ s.child.Idle

/-- A consumer that was behind its last `sem_wait` when the semaphores were removed does not come
back to it. -/
theorem removedLate_step (hstage : Stage input o₀ s) (hlate : RemovedLate s a)
    (hs : step input s a = some u) (h : ¬ Doomed s) : ¬ Doomed u := by
  rintro ⟨hsems, hidle⟩
  by_cases ha : a.OfParent
  · rw [(frame_parent ha hs).1] at hidle
    -- the semaphores were gone before, or the parent removes them now
    rcases (sems_eq_none_iff hs).mp hsems with hnone | hremove
    · exact h ⟨hnone, hidle⟩
    · subst hremove
      exact hlate hidle
  · have hnone : s.sems = none := by
      apply ((sems_eq_none_iff hs).mp hsems).resolve_right
      rintro rfl
      exact ha trivial
    -- the child has been given its last token
    have hbusy : ¬ s.child.Idle := fun hi => h ⟨hnone, hi⟩
    obtain ⟨hfinishing, heof⟩ := hstage.finishing hnone
    cases a with
    | childCheck =>
      simp only [step, heof, Option.ite_none_right_eq_some, Option.some.injEq] at hs
      obtain ⟨-, rfl⟩ := hs
      exact hidle
    | childSignal =>
      cases hc : s.child <;> simp only [step, hc, hnone, semSignal] at hs <;> cases hs
      exact hidle
    | childOpen | childSize =>
      simp only [step, Option.ite_none_right_eq_some, Option.some.injEq] at hs
      obtain ⟨hc, -⟩ := hs
      simp [hc, ChildPc.Idle, ChildPc.Finishing] at hbusy hfinishing
    | childWait | childWrite n =>
      cases hc : s.child <;> simp_all [step, ChildPc.Idle, ChildPc.Finishing]
    | _ => exact ha trivial

/-- A consumer that is not in front of a failing `sem_wait` does not fail. -/
theorem cleanExit_of_not_doomed (hstage : Stage input o₀ s) (h : ¬ Doomed s) :
    CleanExit s a := by
  intro status hstatus
  cases a with
  | childWait =>
    -- `sem_wait` fails without the semaphores only
    simp only [exitStatus] at hstatus
    split at hstatus
    next hc hfails =>
      cases hsems : s.sems with
      | none => exact absurd ⟨hsems, by rw [hc]; trivial⟩ h
      | some sems => rcases sems with ⟨v, _ | w⟩ <;> simp [hsems, semWait] at hfails
    next => cases hstatus
  | childSignal =>
    simp only [exitStatus] at hstatus
    split at hstatus
    next => exact (Option.some.inj hstatus).symm
    next hc hfails =>
      -- by the time `sem_signal` can fail there is no more data
      cases hsems : s.sems with
      | none => exact absurd (hstage.finishing hsems).1 (by simp [hc, ChildPc.Finishing])
      | some sems => simp [hsems, semSignal] at hfails
    next => cases hstatus
  | _ => cases hstatus

/-- Without the semaphores a consumer in front of `sem_wait` can only fail. -/
theorem doomed_step (h : Doomed s) (hs : step input s a = some u) :
    Doomed u ∨ ¬ CleanExit s a := by
  obtain ⟨hsems, hidle⟩ := h
  by_cases ha : a.OfParent
  · left
    have hchild := (frame_parent ha hs).1
    exact ⟨(sems_eq_none_iff hs).mpr (.inl hsems), hchild ▸ hidle⟩
  · cases a with
    | childOpen =>
      simp only [step, Option.ite_none_right_eq_some, Option.some.injEq] at hs
      obtain ⟨-, rfl⟩ := hs
      exact .inl ⟨hsems, trivial⟩
    -- the wait fails without the semaphores, and the child exits with 1
    | childWait =>
      right
      intro hclean
      have hstatus : exitStatus s .childWait = some 1 := by
        cases hc : s.child <;> simp_all [step, exitStatus, semWait, ChildPc.Idle]
      exact absurd (hclean 1 hstatus) (by decide)
    | childCheck | childSize | childWrite n | childSignal =>
      cases hc : s.child <;> simp_all [step, ChildPc.Idle]
    | _ => exact (ha trivial).elim

/-- The step that removes the semaphores too early dooms the consumer. -/
theorem doomed_of_step (hs : step input s a = some u) (hearly : ¬ RemovedLate s a) :
    Doomed u := by
  cases a with
  | parentRemove =>
    have hidle : s.child.Idle := not_not.mp hearly
    have hchild : u.child = s.child := (frame_parent (a := .parentRemove) trivial hs).1
    exact ⟨(sems_eq_none_iff hs).mpr (.inr rfl), hchild ▸ hidle⟩
  | _ => exact absurd trivial hearly

/-! ## Runs -/

/-- A run whose semaphores are removed late enough does not doom the consumer, and one whose
semaphores are removed too early has it doomed or failed. -/
theorem outcome_of_run {shd : SharedData} {tr : List (State × Action)}
    (hrun : Run (step input) (init o₀ shd) tr s) :
    (StepsMeet RemovedLate tr → ¬ Doomed s ∧ StepsMeet CleanExit tr) ∧
      (¬ StepsMeet RemovedLate tr → Doomed s ∨ ¬ StepsMeet CleanExit tr) := by
  induction hrun with
  | nil => simp [Doomed, init]
  | @snoc tr t u a hrun hlast ih =>
    obtain ⟨hlate, hearly⟩ := ih
    have hstage : Stage input o₀ t := stage_of_run hrun
    simp only [stepsMeet_snoc]
    refine ⟨fun ⟨htr, ha⟩ => ?_, fun hnot => ?_⟩
    · obtain ⟨hdoomed, hclean⟩ := hlate htr
      exact ⟨removedLate_step hstage ha hlast hdoomed, hclean,
        cleanExit_of_not_doomed hstage hdoomed⟩
    · by_cases htr : StepsMeet RemovedLate tr
      · exact .inl (doomed_of_step hlast fun ha => hnot ⟨htr, ha⟩)
      · rcases hearly htr with hdoomed | hfailed
        · exact (doomed_step hdoomed hlast).imp_right fun h hclean => h hclean.2
        · exact .inr fun hclean => hfailed hclean.1

/-- The consumer never fails in a run that removes the semaphores when the consumer is behind its
last `sem_wait`; and where the consumer has ended without a failure, they were removed then. -/
theorem cleanExit_of_run {shd : SharedData} {tr : List (State × Action)}
    (hrun : Run (step input) (init o₀ shd) tr s) :
    (StepsMeet RemovedLate tr → StepsMeet CleanExit tr) ∧
      (s.child = .ended → StepsMeet CleanExit tr → StepsMeet RemovedLate tr) := by
  obtain ⟨hlate, hearly⟩ := outcome_of_run hrun
  refine ⟨fun h => (hlate h).2, fun hended hclean => ?_⟩
  by_contra hnot
  rcases hearly hnot with ⟨-, hidle⟩ | hfailed
  · simp [hended, ChildPc.Idle] at hidle
  · exact hfailed hclean

/-- Nothing is copied; the child has come through its `sem_wait` when the semaphores go, and only
its last `sem_signal` fails. -/
def removedBehindWait : List Action :=
  [.childOpen, .parentWait, .parentRead 0, .parentStore, .parentStore, .parentSignal, .childWait,
    .parentRemove, .childCheck, .childSignal]

private theorem removed_behind_wait_executes :
    (execute (step []) (fun t a => decide (RemovedLate t a)) (init none oldSegment)
      removedBehindWait).isSome = true := by
  decide +kernel

/-- `cleanExit_of_run` on a run that removes the semaphores behind the last `sem_wait`. -/
theorem cleanExit_removed_behind_wait :
    ∃ tr s, Run (step []) (init none oldSegment) tr s ∧ s.child = .ended ∧
      StepsMeet RemovedLate tr ∧ StepsMeet CleanExit tr := by
  obtain ⟨tr, h, hmeet⟩ := exists_run_of_isSome removed_behind_wait_executes
  have hlate : StepsMeet RemovedLate tr := hmeet.mono fun t a => of_decide_eq_true
  exact ⟨tr, _, h, by decide +kernel, hlate, (cleanExit_of_run h).1 hlate⟩

private theorem removed_in_front_executes :
    (execute (step []) (fun _ _ => true) (init none oldSegment)
      [.childOpen, .parentWait, .parentRead 0, .parentStore, .parentStore, .parentSignal,
        .parentRemove]).isSome = true := by
  decide +kernel

/-- The same run with a child that is still in front of its `sem_wait`: the call fails, and the
child exits with status 1. -/
theorem failing_exit_in_front :
    ∃ tr t, Run (step []) (init none oldSegment) tr t ∧ (step [] t .childWait).isSome = true ∧
      exitStatus t .childWait = some 1 := by
  obtain ⟨tr, h, -⟩ := exists_run_of_isSome removed_in_front_executes
  exact ⟨tr, _, h, by decide +kernel, by decide +kernel⟩

end SemaphoreCopy
