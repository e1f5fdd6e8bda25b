import Mathlib

/-!
# Messages in flight

A network that may lose messages, deliver them twice and in any order is a list of the messages
that are under way. A message is taken by its place in the list.

## Main results

* `eq_or_mem_rest`: what was under way is taken or left;
* `mem_of_mem_disturb`: a disturbance brings no new message.
-/

namespace Network

variable {μ : Type*} {net net' rest : List μ} {m m' : μ} {i : ℕ}

/-- Take a message out of the network. -/
def take (net : List μ) (i : ℕ) : Option (μ × List μ) :=
  net[i]?.map (·, net.eraseIdx i)

/-- What can happen to a message on its way. -/
inductive Disturbance where
  | lose
  | duplicate
  deriving DecidableEq

/-- Something happens to a message on its way. -/
def disturb (net : List μ) (i : ℕ) : Disturbance → Option (List μ)
  | .lose => (take net i).map Prod.snd
  | .duplicate => net[i]?.map fun m => net ++ [m]

theorem take_eq_some : take net i = some (m, rest) ↔ net[i]? = some m ∧ rest = net.eraseIdx i := by
  simp only [take, Option.map_eq_some_iff, Prod.mk.injEq]
  constructor
  · rintro ⟨m, hm, rfl, rfl⟩
    exact ⟨hm, rfl⟩
  · rintro ⟨hm, rfl⟩
    exact ⟨m, hm, rfl, rfl⟩

/-- A message that is taken was under way. -/
theorem mem_of_take (h : take net i = some (m, rest)) : m ∈ net :=
  List.mem_of_getElem? (take_eq_some.mp h).1

/-- What is left was under way. -/
theorem mem_of_mem_rest (h : take net i = some (m, rest)) (hm : m' ∈ rest) : m' ∈ net := by
  obtain ⟨-, rfl⟩ := take_eq_some.mp h
  exact List.mem_of_mem_eraseIdx hm

/-- What was under way is taken or left. -/
theorem eq_or_mem_rest (h : take net i = some (m, rest)) (hm : m' ∈ net) :
    m' = m ∨ m' ∈ rest := by
  obtain ⟨hi, rfl⟩ := take_eq_some.mp h
  obtain ⟨j, hj⟩ := List.mem_iff_getElem?.mp hm
  by_cases hij : j = i
  · subst hij
    exact Or.inl (Option.some.inj (hj.symm.trans hi))
  · refine Or.inr (List.mem_iff_getElem?.mpr ?_)
    rcases lt_or_gt_of_ne hij with hlt | hgt
    · exact ⟨j, by rw [List.getElem?_eraseIdx_of_lt hlt, hj]⟩
    · refine ⟨j - 1, ?_⟩
      rw [List.getElem?_eraseIdx_of_ge (by omega), Nat.sub_add_cancel (by omega), hj]

/-- A disturbance brings no new message. -/
theorem mem_of_mem_disturb {d : Disturbance} (h : disturb net i d = some net') (hm : m ∈ net') :
    m ∈ net := by
  cases d with
  | lose =>
    obtain ⟨⟨m', rest⟩, htake, rfl⟩ := Option.map_eq_some_iff.mp h
    exact mem_of_mem_rest htake hm
  | duplicate =>
    obtain ⟨m', hm', rfl⟩ := Option.map_eq_some_iff.mp h
    rcases List.mem_append.mp hm with hm | hm
    · exact hm
    · exact List.mem_singleton.mp hm ▸ List.mem_of_getElem? hm'

/-- A message that is duplicated stays. -/
theorem mem_duplicate (h : disturb net i .duplicate = some net') (hm : m ∈ net) : m ∈ net' := by
  obtain ⟨m', -, rfl⟩ := Option.map_eq_some_iff.mp h
  exact List.mem_append_left _ hm

end Network
