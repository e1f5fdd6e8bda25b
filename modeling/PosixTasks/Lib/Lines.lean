import Mathlib

/-!
# Lines in a byte stream

A writer sends lines, each followed by a terminator `nl`; a reader takes the stream in pieces
that need not end where a line ends, and splits each piece on its own.

## Main results

* `split_render_append`: splitting a piece gives back the lines that end in it and the
  unterminated tail;
* `take_render`: a piece cut off a stream of lines is some whole lines and a part of the next.
-/

namespace Lines

variable {α : Type*}

/-- The stream of the given lines, each followed by `nl`. -/
def render (nl : α) (lines : List (List α)) : List α :=
  lines.flatMap (· ++ [nl])

@[simp]
theorem render_nil (nl : α) : render nl [] = [] := rfl

@[simp]
theorem render_cons (nl : α) (l : List α) (lines : List (List α)) :
    render nl (l :: lines) = l ++ nl :: render nl lines := by
  simp [render]

@[simp]
theorem render_append (nl : α) (lines lines' : List (List α)) :
    render nl (lines ++ lines') = render nl lines ++ render nl lines' := by
  simp [render]

/-- A stream is empty only if there are no lines. -/
@[simp]
theorem render_eq_nil {nl : α} {lines : List (List α)} : render nl lines = [] ↔ lines = [] := by
  cases lines <;> simp

/-- The lines that end in a piece of the stream, and the unterminated tail. -/
def split [DecidableEq α] (nl : α) : List α → List (List α) × List α
  | [] => ([], [])
  | c :: cs =>
      if c = nl then ([] :: (split nl cs).1, (split nl cs).2)
      else match split nl cs with
        | ([], tail) => ([], c :: tail)
        | (l :: lines, tail) => ((c :: l) :: lines, tail)

section Split

variable [DecidableEq α]

@[simp]
theorem split_nil (nl : α) : split nl [] = ([], []) := rfl

/-- A line that ends in the piece comes first. -/
theorem split_append_line {nl : α} {l : List α} (h : nl ∉ l) (cs : List α) :
    split nl (l ++ nl :: cs) = (l :: (split nl cs).1, (split nl cs).2) := by
  induction l with
  | nil => simp [split]
  | cons c l ih =>
    simp only [List.mem_cons, not_or] at h
    simp [split, Ne.symm h.1, ih h.2]

/-- A piece without a terminator is all tail. -/
theorem split_of_not_mem {nl : α} {l : List α} (h : nl ∉ l) : split nl l = ([], l) := by
  induction l with
  | nil => rfl
  | cons c l ih =>
    simp only [List.mem_cons, not_or] at h
    simp [split, Ne.symm h.1, ih h.2]

/-- Splitting a piece at one of its terminators. -/
theorem split_append (nl : α) (cs ds : List α) :
    split nl (cs ++ nl :: ds)
      = ((split nl cs).1 ++ (split nl cs).2 :: (split nl ds).1, (split nl ds).2) := by
  induction cs with
  | nil => simp [split]
  | cons c cs ih =>
    by_cases hc : c = nl
    · simp [split, hc, ih]
    · rw [List.cons_append, split, if_neg hc, ih, split, if_neg hc]
      rcases split nl cs with ⟨_ | ⟨l, lines⟩, tail⟩ <;> rfl

/-- Splitting gives back the lines that end in the piece and the unterminated tail. -/
theorem split_render_append {nl : α} {lines : List (List α)} {tail : List α}
    (hlines : ∀ l ∈ lines, nl ∉ l) (htail : nl ∉ tail) :
    split nl (render nl lines ++ tail) = (lines, tail) := by
  induction lines with
  | nil => simpa using split_of_not_mem htail
  | cons l lines ih =>
    rw [render_cons, List.append_assoc, List.cons_append,
      split_append_line (hlines l (by simp)), ih fun m hm => hlines m (by simp [hm])]

theorem split_render {nl : α} {lines : List (List α)} (h : ∀ l ∈ lines, nl ∉ l) :
    split nl (render nl lines) = (lines, []) := by
  simpa using split_render_append h (List.not_mem_nil (a := nl))

/-- The lines and the tail make up the piece. -/
theorem render_split_append (nl : α) (cs : List α) :
    render nl (split nl cs).1 ++ (split nl cs).2 = cs := by
  induction cs with
  | nil => rfl
  | cons c cs ih =>
    simp only [split]
    split
    next hc => rw [render_cons, List.nil_append, List.cons_append, ih, hc]
    next =>
      split
      next tail heq =>
        rw [heq] at ih
        exact congrArg (c :: ·) ih
      next l lines tail heq =>
        rw [heq, render_cons] at ih
        rw [render_cons, List.cons_append, List.cons_append, ih]

/-- No line and no tail contains the terminator. -/
theorem not_mem_split (nl : α) (cs : List α) :
    (∀ l ∈ (split nl cs).1, nl ∉ l) ∧ nl ∉ (split nl cs).2 := by
  induction cs with
  | nil => simp
  | cons c cs ih =>
    simp only [split]
    split
    · simpa using ih
    next hc =>
      split
      next tail heq =>
        rw [heq] at ih
        simpa [Ne.symm hc] using ih
      next l lines tail heq =>
        rw [heq] at ih
        simpa [Ne.symm hc] using ih

end Split

/-- The first `n` elements of a stream of lines: the whole stream, or whole lines and a part of
the next line. -/
theorem take_render (nl : α) (lines : List (List α)) (n : ℕ) :
    ((render nl lines).length ≤ n ∧
        (render nl lines).take n = render nl lines ∧ (render nl lines).drop n = []) ∨
      ∃ pre l post k, lines = pre ++ l :: post ∧ k ≤ l.length ∧
        n = (render nl pre).length + k ∧
        (render nl lines).take n = render nl pre ++ l.take k ∧
        (render nl lines).drop n = render nl (l.drop k :: post) := by
  induction lines generalizing n with
  | nil => simp
  | cons l lines ih =>
    by_cases hn : n ≤ l.length
    · -- the cut is inside the first line, or right before its terminator
      refine Or.inr ⟨[], l, lines, n, rfl, hn, by simp, ?_, ?_⟩
      · simp [List.take_append_of_le_length hn]
      · simp [List.drop_append_of_le_length hn]
    -- the cut is behind the first terminator
    · obtain ⟨m, rfl⟩ : ∃ m, n = l.length + 1 + m := ⟨n - (l.length + 1), by omega⟩
      have hcons : render nl (l :: lines) = (l ++ [nl]) ++ render nl lines := by simp
      have hlen : (l ++ [nl]).length = l.length + 1 := by simp
      have htake : (render nl (l :: lines)).take (l.length + 1 + m)
          = (l ++ [nl]) ++ (render nl lines).take m := by
        rw [hcons, ← hlen, List.take_length_add_append]
      have hdrop : (render nl (l :: lines)).drop (l.length + 1 + m)
          = (render nl lines).drop m := by
        rw [hcons, ← hlen, List.drop_length_add_append]
      rcases ih m with ⟨hle, hall, hnone⟩ | ⟨pre, x, post, k, rfl, hk, rfl, hpre, hpost⟩
      · refine Or.inl ⟨?_, ?_, ?_⟩
        · rw [hcons, List.length_append, hlen]
          omega
        · rw [htake, hall, ← hcons]
        · rw [hdrop, hnone]
      · refine Or.inr ⟨l :: pre, x, post, k, rfl, hk, ?_, ?_, ?_⟩
        · simp only [render_cons, List.length_append, List.length_cons]
          omega
        · rw [htake, hpre]
          simp
        · rw [hdrop, hpost]

end Lines
