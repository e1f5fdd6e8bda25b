import Mathlib

/-!
# Runs of a labelled transition system

A system is a partial step function `step : σ → α → Option σ`: the action carries every
outcome the system does not choose itself, so a step is determined by its state and its
action, and `none` means that the action is not enabled. A run lists each action with the
state it is taken in, so that a condition on the steps of a run is a condition on the
entries of that list.

## Main results

* `Run.invariant`: a predicate that holds initially and is kept by every step that meets
  the guard holds at the end of every run whose steps all meet the guard;
* `Run.invariant_all`: the same, with no guard;
* `Run.stepsMeet_iff`: guards that agree on the states with an invariant are met by the same runs;
* `Run.invariant_states`, `Run.stepsMeet_of_states`: the same for all states of a run, and back
  from its states to its steps;
* `Run.length_add_le`: a run is no longer than a measure that every step decreases;
* `exists_run_stuck`: with such a measure some run goes on until no step is left;
* `EndsWithin.of_invariant`, `EndsWithin.of_bound`: the rules for "every run ends, and ends well";
* `CanReach.of_step`: the rule for "some continuation leads to `P`";
* `exists_run_of_execute`: an action list that executes is the action list of a run.
-/

namespace Transition

variable {σ α : Type*}

/-- `Run step s tr t`: the steps of `tr` lead from `s` to `t`. Each entry of `tr` is a state
and the action taken in it. -/
inductive Run (step : σ → α → Option σ) (s : σ) : List (σ × α) → σ → Prop
  | nil : Run step s [] s
  | snoc {tr : List (σ × α)} {t u : σ} {a : α} :
      Run step s tr t → step t a = some u → Run step s (tr ++ [(t, a)]) u

/-- `u` is reached from `s` by some run. -/
def Reachable (step : σ → α → Option σ) (s u : σ) : Prop :=
  ∃ tr, Run step s tr u

variable {step : σ → α → Option σ} {s t u : σ} {tr tr' : List (σ × α)} {a : α}

/-- Every step of the run meets `guard`. -/
def StepsMeet (guard : σ → α → Prop) (tr : List (σ × α)) : Prop :=
  ∀ x ∈ tr, guard x.1 x.2

@[simp]
theorem stepsMeet_nil (guard : σ → α → Prop) : StepsMeet guard [] := by
  simp [StepsMeet]

@[simp]
theorem stepsMeet_snoc (guard : σ → α → Prop) (tr : List (σ × α)) (t : σ) (a : α) :
    StepsMeet guard (tr ++ [(t, a)]) ↔ StepsMeet guard tr ∧ guard t a := by
  simp only [StepsMeet, List.mem_append, List.mem_singleton, or_imp, forall_and, forall_eq]

@[simp]
theorem stepsMeet_cons (guard : σ → α → Prop) (x : σ × α) (tr : List (σ × α)) :
    StepsMeet guard (x :: tr) ↔ guard x.1 x.2 ∧ StepsMeet guard tr :=
  List.forall_mem_cons

/-- A guard implied by another one is met wherever that one is. -/
theorem StepsMeet.mono {guard guard' : σ → α → Prop} (h : StepsMeet guard tr)
    (himp : ∀ t a, guard t a → guard' t a) : StepsMeet guard' tr :=
  fun x hx => himp _ _ (h x hx)

/-- A predicate kept by every step that meets the guard holds at the end of every run whose
steps all meet the guard. -/
theorem Run.invariant {guard : σ → α → Prop} {I : σ → Prop} (hinit : I s)
    (hstep : ∀ t a u, I t → guard t a → step t a = some u → I u)
    (hrun : Run step s tr u) (hguard : StepsMeet guard tr) : I u := by
  induction hrun with
  | nil => exact hinit
  | snoc hrun hlast ih =>
    rw [stepsMeet_snoc] at hguard
    exact hstep _ _ _ (ih hguard.1) hguard.2 hlast

/-- A predicate kept by every step holds at the end of every run. -/
theorem Run.invariant_all {I : σ → Prop} (hinit : I s)
    (hstep : ∀ t a u, I t → step t a = some u → I u) (hrun : Run step s tr u) : I u :=
  hrun.invariant hinit (fun t a u ht (_ : True) hlast => hstep t a u ht hlast)
    (fun _ _ => trivial)

/-- Two guards that agree on the steps from states with an invariant are met by the same runs. -/
theorem Run.stepsMeet_iff {guard guard' : σ → α → Prop} {I : σ → Prop} (hinit : I s)
    (hkeep : ∀ t a u, I t → step t a = some u → I u)
    (hiff : ∀ t a u, I t → step t a = some u → (guard t a ↔ guard' t a))
    (hrun : Run step s tr u) : StepsMeet guard tr ↔ StepsMeet guard' tr := by
  induction hrun with
  | nil => simp
  | snoc hrun hlast ih =>
    rw [stepsMeet_snoc, stepsMeet_snoc, ih,
      hiff _ _ _ (hrun.invariant_all hinit hkeep) hlast]

/-- The states of a run, the last one included. -/
def states (tr : List (σ × α)) (s : σ) : List σ :=
  tr.map Prod.fst ++ [s]

theorem states_snoc (tr : List (σ × α)) (t u : σ) (a : α) :
    states (tr ++ [(t, a)]) u = states tr t ++ [u] := by
  simp [states]

theorem mem_states_last (tr : List (σ × α)) (s : σ) : s ∈ states tr s := by
  simp [states]

/-- The first state of a run is one of its states. -/
theorem Run.mem_states_first (hrun : Run step s tr u) : s ∈ states tr u := by
  induction hrun with
  | nil => exact mem_states_last [] s
  | snoc _ _ ih =>
    rw [states_snoc]
    exact List.mem_append_left _ ih

/-- A predicate kept by every step that meets the guard holds in all states of every run whose
steps all meet the guard. -/
theorem Run.invariant_states {guard : σ → α → Prop} {I : σ → Prop} (hinit : I s)
    (hstep : ∀ t a u, I t → guard t a → step t a = some u → I u)
    (hrun : Run step s tr u) (hguard : StepsMeet guard tr) : ∀ t ∈ states tr u, I t := by
  induction hrun with
  | nil => simpa [states] using hinit
  | snoc hrun hlast ih =>
    rw [stepsMeet_snoc] at hguard
    have hprev := ih hguard.1
    rw [states_snoc, List.forall_mem_append]
    refine ⟨hprev, fun v hv => ?_⟩
    rw [List.mem_singleton.mp hv]
    exact hstep _ _ _ (hprev _ (mem_states_last _ _)) hguard.2 hlast

/-- A predicate kept by every step holds in all states of every run. -/
theorem Run.invariant_all_states {I : σ → Prop} (hinit : I s)
    (hstep : ∀ t a u, I t → step t a = some u → I u) (hrun : Run step s tr u) :
    ∀ t ∈ states tr u, I t :=
  hrun.invariant_states hinit (fun t a u ht (_ : True) hlast => hstep t a u ht hlast)
    (fun _ _ => trivial)

/-- A guard met by every step between two states with `P` is met by a run whose states all have
`P`. -/
theorem Run.stepsMeet_of_states {guard : σ → α → Prop} {P : σ → Prop}
    (hstep : ∀ t a u, P t → P u → step t a = some u → guard t a)
    (hrun : Run step s tr u) (hP : ∀ t ∈ states tr u, P t) : StepsMeet guard tr := by
  induction hrun with
  | nil => exact stepsMeet_nil guard
  | snoc hrun hlast ih =>
    rw [states_snoc, List.forall_mem_append] at hP
    rw [stepsMeet_snoc]
    exact ⟨ih hP.1, hstep _ _ _ (hP.1 _ (mem_states_last _ _)) (hP.2 _ (by simp)) hlast⟩

/-- Runs compose. -/
theorem Run.append (h₁ : Run step s tr t) (h₂ : Run step t tr' u) :
    Run step s (tr ++ tr') u := by
  induction h₂ with
  | nil => simpa using h₁
  | snoc _ hlast ih =>
    rw [← List.append_assoc]
    exact ih.snoc hlast

/-- A single enabled action is a run. -/
theorem Run.single (h : step s a = some u) : Run step s [(s, a)] u := by
  simpa using (Run.nil : Run step s [] s).snoc h

/-- An enabled action in front of a run is a run. -/
theorem Run.cons (h : step s a = some t) (hrun : Run step t tr u) :
    Run step s ((s, a) :: tr) u :=
  (Run.single h).append hrun

/-! ## Measures -/

/-- Every step from a state with the invariant decreases the measure, so that a run is no longer
than it is at first. -/
theorem Run.length_add_le_of_invariant {work : σ → ℕ} {I : σ → Prop} (hinit : I s)
    (hkeep : ∀ t a u, I t → step t a = some u → I u)
    (hstep : ∀ t a u, I t → step t a = some u → work u < work t)
    (hrun : Run step s tr u) : tr.length + work u ≤ work s := by
  induction hrun with
  | nil => simp
  | snoc hrun hlast ih =>
    have := hstep _ _ _ (hrun.invariant_all hinit hkeep) hlast
    rw [List.length_append, List.length_singleton]
    omega

/-- Every step decreases the measure, so that a run is no longer than it is at first. -/
theorem Run.length_add_le {work : σ → ℕ} (hstep : ∀ t a u, step t a = some u → work u < work t)
    (hrun : Run step s tr u) : tr.length + work u ≤ work s :=
  hrun.length_add_le_of_invariant (I := fun _ => True) trivial (fun _ _ _ _ _ => trivial)
    fun t a u _ => hstep t a u

/-- With a measure that every step decreases, some run goes on to a state without a step. -/
theorem exists_run_stuck {work : σ → ℕ} {I : σ → Prop} (hinit : I s)
    (hkeep : ∀ t a u, I t → step t a = some u → I u)
    (hstep : ∀ t a u, I t → step t a = some u → work u < work t) :
    ∃ tr u, Run step s tr u ∧ ∀ a, step u a = none := by
  induction hn : work s using Nat.strong_induction_on generalizing s with
  | _ n ih =>
    by_cases hstuck : ∀ a, step s a = none
    · exact ⟨[], s, Run.nil, hstuck⟩
    · push Not at hstuck
      obtain ⟨a, ha⟩ := hstuck
      obtain ⟨t, ht⟩ := Option.ne_none_iff_exists'.mp ha
      obtain ⟨tr, u, hrun, hu⟩ :=
        ih (work t) (hn ▸ hstep s a t hinit ht) (hkeep s a t hinit ht) rfl
      exact ⟨(s, a) :: tr, u, hrun.cons ht, hu⟩

/-- Every run from `s` has at most `n` steps, and where a run cannot go on `P` holds. -/
structure EndsWithin (step : σ → α → Option σ) (n : ℕ) (P : σ → Prop) (s : σ) : Prop where
  bounded : ∀ tr u, Run step s tr u → tr.length ≤ n
  ended : ∀ tr u, Run step s tr u → (∀ a, step u a = none) → P u

/-- What follows from `P` holds at the end too. -/
theorem EndsWithin.mono {P Q : σ → Prop} {n : ℕ} (h : EndsWithin step n P s)
    (himp : ∀ t, P t → Q t) : EndsWithin step n Q s where
  bounded := h.bounded
  ended tr u hrun hstuck := himp u (h.ended tr u hrun hstuck)

/-- An invariant under which every step decreases a measure, and under which `P` holds where there
is no step. -/
theorem EndsWithin.of_invariant {work : σ → ℕ} {I P : σ → Prop} (hinit : I s)
    (hkeep : ∀ t a u, I t → step t a = some u → I u)
    (hstep : ∀ t a u, I t → step t a = some u → work u < work t)
    (hended : ∀ t, I t → (∀ a, step t a = none) → P t) : EndsWithin step (work s) P s where
  bounded tr u hrun := by
    have hle := hrun.length_add_le_of_invariant hinit hkeep hstep
    omega
  ended tr u hrun := hended u (hrun.invariant_all hinit hkeep)

/-- A bound on the steps that are left, of which every step takes one away. -/
theorem Run.exists_bound {R : ℕ → σ → Prop} {n : ℕ} (hinit : R n s)
    (hstep : ∀ m t a u, R m t → step t a = some u → ∃ m' < m, R m' u) (hrun : Run step s tr u) :
    ∃ m, R m u ∧ tr.length + m ≤ n := by
  induction hrun with
  | nil => exact ⟨n, hinit, by simp⟩
  | snoc _ hlast ih =>
    obtain ⟨m, hm, hle⟩ := ih
    obtain ⟨m', hless, hm'⟩ := hstep _ _ _ _ hm hlast
    refine ⟨m', hm', ?_⟩
    rw [List.length_append, List.length_singleton]
    omega

/-- `EndsWithin.of_invariant` with a bound that the state does not determine. -/
theorem EndsWithin.of_bound {R : ℕ → σ → Prop} {P : σ → Prop} {n : ℕ} (hinit : R n s)
    (hstep : ∀ m t a u, R m t → step t a = some u → ∃ m' < m, R m' u)
    (hended : ∀ m t, R m t → (∀ a, step t a = none) → P t) : EndsWithin step n P s where
  bounded tr u hrun := by
    obtain ⟨m, -, hle⟩ := hrun.exists_bound hinit hstep
    omega
  ended tr u hrun := by
    obtain ⟨m, hm, -⟩ := hrun.exists_bound hinit hstep
    exact hended m u hm

/-! ## Restricted steps -/

/-- The steps that `ok` allows. -/
def restrict (step : σ → α → Option σ) (ok : σ → α → Bool) (s : σ) (a : α) : Option σ :=
  if ok s a then step s a else none

@[simp]
theorem restrict_eq_some {ok : σ → α → Bool} :
    restrict step ok s a = some t ↔ ok s a = true ∧ step s a = some t := by
  simp [restrict]

/-- Where no allowed step is left, an allowed action is not enabled. -/
theorem eq_none_of_restrict {ok : σ → α → Bool} (hstuck : ∀ a, restrict step ok s a = none)
    (hok : ok s a = true) : step s a = none := by
  have hnone := hstuck a
  rwa [restrict, if_pos hok] at hnone

/-- Replacing an entry changes a sum by the difference. -/
theorem sum_map_set (w : α → ℕ) {l : List α} {k : ℕ} {x : α} (h : l[k]? = some x) (y : α) :
    ((l.set k y).map w).sum + w x = (l.map w).sum + w y := by
  induction l generalizing k with
  | nil => simp at h
  | cons z l ih =>
    cases k with
    | zero =>
      obtain rfl : z = x := by simpa using h
      simp only [List.set_cons_zero, List.map_cons, List.sum_cons]
      omega
    | succ k =>
      have := ih (by simpa using h)
      simp only [List.set_cons_succ, List.map_cons, List.sum_cons]
      omega

/-! ## Reachability -/

/-- Some run from `s` whose steps all meet the guard ends in a state with `P`. -/
def CanReach (step : σ → α → Option σ) (guard : σ → α → Prop) (P : σ → Prop) (s : σ) : Prop :=
  ∃ tr u, Run step s tr u ∧ StepsMeet guard tr ∧ P u

theorem CanReach.here {guard : σ → α → Prop} {P : σ → Prop} (h : P s) :
    CanReach step guard P s :=
  ⟨[], s, Run.nil, stepsMeet_nil _, h⟩

/-- What can be reached after an allowed step can be reached before it. -/
theorem CanReach.of_step {guard : σ → α → Prop} {P : σ → Prop} (hguard : guard s a)
    (hstep : step s a = some t) (h : CanReach step guard P t) : CanReach step guard P s := by
  obtain ⟨tr, u, hrun, hmeet, hP⟩ := h
  exact ⟨(s, a) :: tr, u, hrun.cons hstep, (stepsMeet_cons _ _ _).mpr ⟨hguard, hmeet⟩, hP⟩

/-- Execute a list of actions, giving up at an action that is not enabled or fails `ok`. -/
def execute (step : σ → α → Option σ) (ok : σ → α → Bool) : σ → List α → Option σ
  | s, [] => some s
  | s, a :: as =>
      if ok s a then
        match step s a with
        | some t => execute step ok t as
        | none => none
      else none

/-- An action list that executes is the action list of a run, all of whose steps are `ok`. -/
theorem exists_run_of_execute {ok : σ → α → Bool} {as : List α}
    (h : execute step ok s as = some u) :
    ∃ tr, Run step s tr u ∧ tr.map Prod.snd = as ∧ StepsMeet (fun t a => ok t a = true) tr := by
  induction as generalizing s with
  | nil =>
    simp only [execute, Option.some.injEq] at h
    subst h
    exact ⟨[], Run.nil, rfl, stepsMeet_nil _⟩
  | cons a as ih =>
    simp only [execute] at h
    split at h
    next hok =>
      split at h
      next t hstep =>
        obtain ⟨tr, hrun, hacts, hmeet⟩ := ih h
        refine ⟨(s, a) :: tr, ?_, by simp [hacts], ?_⟩
        · exact hrun.cons hstep
        · intro x hx
          rcases List.mem_cons.mp hx with rfl | hx
          · exact hok
          · exact hmeet x hx
      next => simp at h
    next => simp at h

/-- The run of an action list whose execution succeeds. -/
theorem exists_run_of_isSome {ok : σ → α → Bool} {as : List α}
    (h : (execute step ok s as).isSome = true) :
    ∃ tr, Run step s tr ((execute step ok s as).get h) ∧
      StepsMeet (fun t a => ok t a = true) tr := by
  obtain ⟨tr, hrun, -, hmeet⟩ := exists_run_of_execute (Option.some_get h).symm
  exact ⟨tr, hrun, hmeet⟩

/-- The run of an action list whose execution leads to a state with `p`. -/
theorem exists_run_of_any {ok : σ → α → Bool} {as : List α} {p : σ → Bool}
    (h : (execute step ok s as).any p = true) :
    ∃ tr u, Run step s tr u ∧ StepsMeet (fun t a => ok t a = true) tr ∧ p u = true := by
  obtain ⟨u, hu, hp⟩ := (Option.any_eq_true p _).mp h
  obtain ⟨tr, hrun, -, hmeet⟩ := exists_run_of_execute hu
  exact ⟨tr, u, hrun, hmeet, hp⟩

/-! ## Folds -/

/-- A fold in which one input alone acts on what is observed, always with the same idempotent
effect: what is observed at the end depends only on whether that input occurred. -/
theorem foldl_observe {β : Type*} (f : σ → α → σ) (observe : σ → β) (effect : β → β) {p : α}
    {l : List α} (hself : p ∈ l → ∀ s, observe (f s p) = effect (observe s))
    (hother : ∀ a ∈ l, a ≠ p → ∀ s, observe (f s a) = observe s)
    (hidem : ∀ x, effect (effect x) = effect x) (s : σ) :
    (p ∈ l → observe (l.foldl f s) = effect (observe s)) ∧
      (p ∉ l → observe (l.foldl f s) = observe s) := by
  induction l generalizing s with
  | nil => simp
  | cons a l ih =>
    obtain ⟨hin, hout⟩ := ih (fun hp => hself (List.mem_cons_of_mem a hp))
      (fun b hb => hother b (List.mem_cons_of_mem a hb)) (f s a)
    rw [List.foldl_cons]
    by_cases ha : a = p
    · subst ha
      refine ⟨fun _ => ?_, fun hnot => absurd List.mem_cons_self hnot⟩
      -- the effect is there already, so that it does not matter whether the input occurs again
      by_cases hmem : a ∈ l
      · rw [hin hmem, hself List.mem_cons_self, hidem]
      · rw [hout hmem, hself List.mem_cons_self]
    · have hkeep : observe (f s a) = observe s := hother a List.mem_cons_self ha s
      rw [hkeep] at hin hout
      refine ⟨fun hmem => hin ?_, fun hnot => hout fun hmem => hnot (List.mem_cons_of_mem a hmem)⟩
      exact (List.mem_cons.mp hmem).resolve_left (Ne.symm ha)

end Transition
