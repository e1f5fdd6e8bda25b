import Mathlib

/-!
# Collecting distinct elements

A list that is extended by each new element that comes, as long as there is room for it.

## Main results

* `foldl_insertNew`: without a bound these are the elements in the order of their first occurrence;
* `collect_eq`: with a bound they are the first ones of these;
* `perm_eraseDups`: lists with the same elements differ only in the order.
-/

namespace Distinct

variable {α : Type*} [DecidableEq α]

/-- Put an element at the end, unless it is there already. -/
def insertNew (acc : List α) (x : α) : List α :=
  if x ∈ acc then acc else acc ++ [x]

/-- Collect elements until there are `cap` of them. -/
def collect (cap : ℕ) : List α → List α → List α
  | acc, [] => acc
  | acc, x :: xs => if acc.length < cap then collect cap (insertNew acc x) xs else acc

theorem nodup_insertNew {acc : List α} (h : acc.Nodup) (x : α) : (insertNew acc x).Nodup := by
  rw [insertNew]
  split
  · exact h
  · next hnew => exact h.append (List.nodup_singleton x) (by simpa using hnew)

theorem prefix_insertNew (acc : List α) (x : α) : acc <+: insertNew acc x := by
  rw [insertNew]
  split
  · exact List.prefix_rfl
  · exact List.prefix_append _ _

theorem length_insertNew_le (acc : List α) (x : α) : (insertNew acc x).length ≤ acc.length + 1 := by
  rw [insertNew]
  split <;> simp

/-- What is there stays in front. -/
theorem prefix_foldl_insertNew (acc xs : List α) : acc <+: xs.foldl insertNew acc := by
  induction xs generalizing acc with
  | nil => exact List.prefix_rfl
  | cons x xs ih => exact (prefix_insertNew acc x).trans (ih _)

theorem nodup_foldl_insertNew {acc : List α} (h : acc.Nodup) (xs : List α) :
    (xs.foldl insertNew acc).Nodup := by
  induction xs generalizing acc with
  | nil => exact h
  | cons x xs ih => exact ih (nodup_insertNew h x)

section

variable [BEq α] [LawfulBEq α]

/-- The elements come in the order of their first occurrence, unless they are there already. -/
theorem foldl_insertNew (acc xs : List α) :
    xs.foldl insertNew acc = acc ++ (xs.filter (· ∉ acc)).eraseDups := by
  induction xs using List.reverseRecOn with
  | nil => simp
  | append_singleton xs x ih =>
    rw [List.foldl_append, ih, List.filter_append, List.eraseDups_append, List.foldl_cons,
      List.foldl_nil, insertNew]
    simp only [List.mem_append, List.mem_eraseDups, List.mem_filter, decide_eq_true_eq]
    by_cases hold : x ∈ acc
    · simp [hold]
    by_cases hnew : x ∈ xs
    · simp [hold, hnew, List.removeAll]
    · simp [hold, hnew, List.removeAll, List.eraseDups_cons]

theorem foldl_insertNew_nil (xs : List α) : xs.foldl insertNew [] = xs.eraseDups := by
  rw [foldl_insertNew]
  simp

theorem nodup_eraseDups (xs : List α) : xs.eraseDups.Nodup := by
  rw [← foldl_insertNew_nil]
  exact nodup_foldl_insertNew List.nodup_nil xs

end

/-- Nothing is added to a full list. -/
theorem collect_full {cap : ℕ} {acc : List α} (h : ¬ acc.length < cap) (xs : List α) :
    collect cap acc xs = acc := by
  cases xs with
  | nil => rfl
  | cons x xs => rw [collect, if_neg h]

/-- With a bound, the first ones are collected. -/
theorem collect_eq {cap : ℕ} {acc : List α} (h : acc.length ≤ cap) (xs : List α) :
    collect cap acc xs = (xs.foldl insertNew acc).take cap := by
  induction xs generalizing acc with
  | nil => exact (List.take_of_length_le h).symm
  | cons x xs ih =>
    rw [collect, List.foldl_cons]
    split
    next hroom =>
      have hlength := length_insertNew_le acc x
      exact ih (by omega)
    next hfull =>
      -- nothing that comes now is among the first ones
      obtain ⟨rest, hrest⟩ := prefix_foldl_insertNew (insertNew acc x) xs
      obtain ⟨tail, htail⟩ := prefix_insertNew acc x
      rw [← hrest, ← htail, List.append_assoc, List.take_append_of_le_length (by omega),
        List.take_of_length_le h]

/-- Two lists with the same elements have the same distinct elements, up to the order. -/
theorem perm_eraseDups [BEq α] [LawfulBEq α] {xs ys : List α} (h : ∀ x, x ∈ xs ↔ x ∈ ys) :
    xs.eraseDups.Perm ys.eraseDups := by
  rw [List.perm_ext_iff_of_nodup (nodup_eraseDups xs) (nodup_eraseDups ys)]
  intro x
  rw [List.mem_eraseDups, List.mem_eraseDups, h]

end Distinct
