import Mathlib

/-!
# Bounded buffers

A buffer of fixed size whose last element is for an end mark. Pieces are appended as far as they
fit, and how much fits is computed from the length of what is there.

## Main results

* `append_take`: a buffer with the start of a text gets the start of the longer text;
* `foldlM_take`: the same for a loop over steps that do this.
-/

namespace Truncation

variable {α β : Type*} {size : ℕ}

/-- How many elements still fit in front of the end mark; `none` where this would be negative. -/
def room (size : ℕ) (buffer : List α) : Option ℕ :=
  if buffer.length + 1 ≤ size then some (size - buffer.length - 1) else none

/-- Append as much of a piece as fits. -/
def append (size : ℕ) (buffer piece : List α) : Option (List α) :=
  (room size buffer).map fun n => buffer ++ piece.take n

/-- Append several pieces, one after the other. -/
def appendAll (size : ℕ) (buffer : List α) (pieces : List (List α)) : Option (List α) :=
  pieces.foldlM (append size) buffer

/-- A buffer with the start of a text gets the start of the longer text. -/
theorem append_take (hsize : 1 ≤ size) (text piece : List α) :
    append size (text.take (size - 1)) piece = some ((text ++ piece).take (size - 1)) := by
  have hlength : (text.take (size - 1)).length = min (size - 1) text.length := List.length_take
  rw [append, room, if_pos (by omega), Option.map_some, hlength, List.take_append]
  -- the room is what the text leaves of `size - 1`
  rw [show size - min (size - 1) text.length - 1 = size - 1 - text.length by omega]

/-- A loop of steps that each lengthen the text. -/
theorem foldlM_take {f : List α → β → Option (List α)} {g : β → List α} {n : ℕ} (xs : List β)
    (hstep : ∀ text, ∀ x ∈ xs, f (text.take n) x = some ((text ++ g x).take n))
    (text : List α) :
    xs.foldlM f (text.take n) = some ((text ++ xs.flatMap g).take n) := by
  induction xs generalizing text with
  | nil => simp
  | cons x xs ih =>
    rw [List.foldlM_cons, hstep text x List.mem_cons_self, Option.bind_eq_bind, Option.bind_some,
      ih (fun text y hy => hstep text y (List.mem_cons_of_mem x hy)), List.flatMap_cons,
      List.append_assoc]

theorem appendAll_take (hsize : 1 ≤ size) (text : List α) (pieces : List (List α)) :
    appendAll size (text.take (size - 1)) pieces =
      some ((text ++ pieces.flatten).take (size - 1)) := by
  rw [appendAll, foldlM_take (g := id) pieces fun text piece _ => append_take hsize text piece,
    List.flatMap_id]

end Truncation
