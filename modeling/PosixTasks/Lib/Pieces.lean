import Mathlib

/-!
# Moving a block in pieces

A block of bytes lies at the start of a buffer and is moved on by calls that take a piece each
and return how much they took. What a loop around such a call still has to move is the rest of
the block; a piece and the rest behind it are the rest before it.

## Main results

* `take_append_rest`: a piece moved on is taken off the rest;
* `rest_append`: the rest of a block that has just been read is the block;
* `take_append_drop_add`: the same for a file that is read from an offset on.
-/

namespace Pieces

variable {α : Type*}

/-- What is left of the block of `total` bytes in front of `buffer` once `moved` of them have
been moved on. -/
def rest (buffer : List α) (total moved : ℕ) : List α :=
  (buffer.take total).drop moved

/-- Nothing is left at the end. -/
theorem rest_eq_nil (buffer : List α) {total moved : ℕ} (h : total ≤ moved) :
    rest buffer total moved = [] := by
  apply List.drop_eq_nil_of_le
  exact (List.length_take_le _ _).trans h

/-- A block read over the start of a buffer is all that is to be moved. -/
theorem rest_append (block old : List α) : rest (block ++ old) block.length 0 = block := by
  simp [rest]

/-- A piece of the block and the rest behind it are the rest before it was moved. -/
theorem take_append_rest (buffer : List α) {total moved n : ℕ} (h : n ≤ total - moved) :
    (buffer.drop moved).take n ++ rest buffer total (moved + n) = rest buffer total moved := by
  have hpiece : (buffer.drop moved).take n = (rest buffer total moved).take n := by
    rw [rest, List.drop_take, List.take_take, Nat.min_eq_left h]
  rw [hpiece, show rest buffer total (moved + n) = (rest buffer total moved).drop n by
    rw [rest, rest, List.drop_drop]]
  exact List.take_append_drop n _

/-- A piece read from an offset and what is unread behind it are what was unread before. -/
theorem take_append_drop_add (file : List α) (offset n : ℕ) :
    (file.drop offset).take n ++ file.drop (offset + n) = file.drop offset := by
  rw [← List.drop_drop]
  exact List.take_append_drop n _

/-- A read within the file returns as many bytes as it says. -/
theorem length_take_drop {file : List α} {offset n : ℕ} (h : n ≤ file.length - offset) :
    ((file.drop offset).take n).length = n := by
  rw [List.length_take, List.length_drop, Nat.min_eq_left h]

end Pieces
