import Mathlib

/-!
# Descriptor tables

A process names its open files by small numbers. A table lists what the numbers name, `none` for
a number that is free; all numbers behind its end are free too. A new descriptor gets the lowest
free number.

## Main results

* `get_alloc`, `get_close`, `get_dup2`: what the numbers name after each operation;
* `lowest_eq`: the lowest free number is the one below which every number is taken;
* `count_le`: as many descriptors are open as there are numbers that name something.
-/

namespace Descriptors

variable {ω : Type*}

/-- The open files of a process by their descriptors. -/
abbrev Table (ω : Type*) := List (Option ω)

variable {t : Table ω} {o : ω} {fd k : ℕ}

/-- What a descriptor names; `none` if it is not open. -/
def get (t : Table ω) (fd : ℕ) : Option ω :=
  t[fd]?.join

/-- Let a descriptor name `o`, whatever it named before. -/
def put (t : Table ω) (fd : ℕ) (o : ω) : Table ω :=
  (t ++ List.replicate (fd + 1 - t.length) none).set fd (some o)

/-- The lowest number that is free. -/
def lowest (t : Table ω) : ℕ :=
  t.findIdx Option.isNone

/-- Open `o` at the lowest free number. The result is the number and the new table. -/
def alloc (t : Table ω) (o : ω) : ℕ × Table ω :=
  (lowest t, put t (lowest t) o)

/-- `close`: nothing happens to a number that is free. -/
def close (t : Table ω) (fd : ℕ) : Table ω :=
  t.set fd none

/-- `dup2`: what `old` names is named by `new` too. It fails if `old` is free. -/
def dup2 (t : Table ω) (old new : ℕ) : Table ω :=
  match get t old with
  | some o => put t new o
  | none => t

/-- Some descriptor names `o`. -/
def Holds (t : Table ω) (o : ω) : Prop :=
  some o ∈ t

instance [DecidableEq ω] (t : Table ω) (o : ω) : Decidable (Holds t o) :=
  inferInstanceAs (Decidable (some o ∈ t))

theorem get_eq_some : get t fd = some o ↔ t[fd]? = some (some o) := by
  rw [get]
  rcases t[fd]? with _ | _ | o' <;> simp

theorem holds_iff : Holds t o ↔ ∃ fd, get t fd = some o := by
  simp only [Holds, List.mem_iff_getElem?, get_eq_some]

@[simp]
theorem get_nil (fd : ℕ) : get ([] : Table ω) fd = none := by
  simp [get]

/-- A number behind the end is free. -/
theorem get_of_length_le (h : t.length ≤ fd) : get t fd = none := by
  simp [get, List.getElem?_eq_none h]

/-- It does not matter how many free numbers are listed. -/
theorem get_append_replicate (t : Table ω) (n k : ℕ) :
    get (t ++ List.replicate n none) k = get t k := by
  rcases lt_or_ge k t.length with hk | hk
  · rw [get, List.getElem?_append_left hk, ← get]
  · rw [get_of_length_le hk, get, List.getElem?_append_right hk, List.getElem?_replicate]
    split <;> rfl

theorem get_put (t : Table ω) (fd : ℕ) (o : ω) (k : ℕ) :
    get (put t fd o) k = if k = fd then some o else get t k := by
  rw [put]
  split
  next hk =>
    have hlt : fd < (t ++ List.replicate (fd + 1 - t.length) none).length := by
      simp only [List.length_append, List.length_replicate]
      omega
    rw [get_eq_some, hk, List.getElem?_set_self hlt]
  next hk =>
    rw [get, List.getElem?_set_ne (Ne.symm hk), ← get, get_append_replicate]

theorem get_close (t : Table ω) (fd k : ℕ) :
    get (close t fd) k = if k = fd then none else get t k := by
  rw [close]
  split
  next hk =>
    rw [hk, get, List.getElem?_set_self']
    cases t[fd]? <;> rfl
  next hk => rw [get, List.getElem?_set_ne (Ne.symm hk), ← get]

theorem get_dup2 {old : ℕ} (h : get t old = some o) (new k : ℕ) :
    get (dup2 t old new) k = if k = new then some o else get t k := by
  rw [dup2, h]
  exact get_put t new o k

/-! ## The lowest free number -/

/-- The lowest free number is free. -/
theorem get_lowest (t : Table ω) : get t (lowest t) = none := by
  rcases lt_or_ge (lowest t) t.length with hlt | hge
  · have hnone : t[lowest t].isNone = true := List.findIdx_getElem
    rw [get, List.getElem?_eq_getElem hlt, Option.isNone_iff_eq_none.mp hnone]
    rfl
  · exact get_of_length_le hge

/-- Below the lowest free number every number is taken. -/
theorem get_of_lt_lowest (h : k < lowest t) : get t k ≠ none := by
  have hlt : k < t.length := h.trans_le List.findIdx_le_length
  have htaken : t[k].isNone = false := by simpa using List.not_of_lt_findIdx h
  obtain ⟨o, ho⟩ := Option.isSome_iff_exists.mp (Option.isNone_eq_false_iff.mp htaken)
  rw [get, List.getElem?_eq_getElem hlt, ho]
  simp

/-- The lowest free number is the one below which every number is taken. -/
theorem lowest_eq (hfree : get t fd = none) (htaken : ∀ k < fd, get t k ≠ none) :
    lowest t = fd := by
  rcases lt_trichotomy (lowest t) fd with hlt | heq | hgt
  · exact absurd (get_lowest t) (htaken _ hlt)
  · exact heq
  · exact absurd hfree (get_of_lt_lowest hgt)

theorem get_alloc (t : Table ω) (o : ω) (k : ℕ) :
    get (alloc t o).2 k = if k = (alloc t o).1 then some o else get t k :=
  get_put t (lowest t) o k

@[simp]
theorem get_alloc_self (t : Table ω) (o : ω) : get (alloc t o).2 (alloc t o).1 = some o := by
  simp [get_alloc]

/-- Descriptors are handed out in increasing order, as long as none is closed. -/
theorem alloc_lt_lowest (t : Table ω) (o : ω) : (alloc t o).1 < lowest (alloc t o).2 := by
  by_contra hle
  have hfree := get_lowest (alloc t o).2
  rw [get_alloc] at hfree
  split at hfree
  next => cases hfree
  next hne => exact get_of_lt_lowest (lt_of_le_of_ne (not_lt.mp hle) hne) hfree

/-- A number below the new one names what it named before. -/
theorem get_alloc_of_lt (h : k < lowest t) : get (alloc t o).2 k = get t k := by
  rw [get_alloc]
  exact if_neg (ne_of_lt h)

/-! ## How many descriptors are open -/

/-- How many descriptors name something with `P`. -/
def count (t : Table ω) (P : ω → Bool) : ℕ :=
  t.countP fun entry => entry.any P

theorem eq_map_get (t : Table ω) : t = (List.range t.length).map (get t) := by
  apply List.ext_getElem (by simp)
  intro k hk _
  simp [get, List.getElem?_eq_getElem hk]

/-- If everything with `P` is named by one of the given numbers, there are no more such
descriptors than numbers. -/
theorem count_le {P : ω → Bool} {fds : List ℕ}
    (h : ∀ k o, get t k = some o → P o = true → k ∈ fds) : count t P ≤ fds.length := by
  have hcount : count t P =
      ((List.range t.length).filter fun k => (get t k).any P).length := by
    conv_lhs => rw [count, eq_map_get t, List.countP_map, List.countP_eq_length_filter]
    rfl
  rw [hcount]
  have hnodup : ((List.range t.length).filter fun k => (get t k).any P).Nodup :=
    List.nodup_range.filter _
  apply List.Subperm.length_le
  apply hnodup.subperm
  intro k hk
  rw [List.mem_filter, Option.any_eq_true] at hk
  obtain ⟨-, o, ho, hP⟩ := hk
  exact h k o ho hP

end Descriptors
