import PosixTasks.Lib.CString

/-!
# Reading a file with `fgets`

`fgets` reads a line at a time, and cuts a line in pieces that is longer than its buffer. A program
that copies a file piece by piece and leaves some of them out is a filter on these pieces.

## Main results

* `flatten_fgetsAll`: the pieces make up the file;
* `fgetsAll_newline_append`: what stands behind a newline is read on its own;
* `keepPieces_append_iff`: a filter takes away a header and leaves the body as it is exactly if it
  leaves out every piece of the header and no piece of the body.
-/

namespace CString

/-- The strings that `fgets` with a buffer of `size` bytes stores one after the other, where it
has read `line` already: each ends behind a newline or where the buffer is full. -/
def fgetsAll (size : ℕ) : Text → Text → List Text
  | line, [] => if line = [] then [] else [line]
  | line, c :: s =>
      if c = '\n' ∨ size ≤ line.length + 2 then (line ++ [c]) :: fgetsAll size [] s
      else fgetsAll size (line ++ [c]) s

/-- The pieces make up the file. -/
theorem flatten_fgetsAll (size : ℕ) (line s : Text) :
    (fgetsAll size line s).flatten = line ++ s := by
  induction s generalizing line with
  | nil =>
    by_cases hline : line = []
    · simp [fgetsAll, hline]
    · simp [fgetsAll, hline]
  | cons c s ih =>
    rw [fgetsAll]
    split
    · simp [ih]
    · rw [ih, List.append_assoc, List.singleton_append]

/-- No piece is empty. -/
theorem ne_nil_of_mem_fgetsAll {size : ℕ} {line s p : Text} (h : p ∈ fgetsAll size line s) :
    p ≠ [] := by
  induction s generalizing line with
  | nil =>
    rw [fgetsAll] at h
    split at h
    next => simp at h
    next hline => rwa [List.mem_singleton.mp h]
  | cons c s ih =>
    rw [fgetsAll] at h
    split at h
    next =>
      rcases List.mem_cons.mp h with rfl | h
      · simp
      · exact ih h
    next => exact ih h

/-! ## Pieces that end a line, or fill the buffer -/

/-- A piece that `fgets` reads again, whatever stands behind it. -/
def ReadsBack (size : ℕ) (p : Text) : Prop :=
  ∀ t, fgetsAll size [] (p ++ t) = p :: fgetsAll size [] t

/-- The pieces that `fgets` has read up to a newline are read back. -/
theorem readsBack_of_mem {size : ℕ} {line s p : Text}
    (hline : ∀ t, fgetsAll size [] (line ++ t) = fgetsAll size line t)
    (h : p ∈ fgetsAll size line (s ++ ['\n'])) : ReadsBack size p := by
  induction s generalizing line with
  | nil =>
    obtain rfl : p = line ++ ['\n'] := by simpa [fgetsAll] using h
    intro t
    rw [List.append_assoc, hline]
    simp [fgetsAll]
  | cons c s ih =>
    rw [List.cons_append, fgetsAll] at h
    split at h
    next hend =>
      rcases List.mem_cons.mp h with rfl | h
      · intro t
        rw [List.append_assoc, hline, List.singleton_append, fgetsAll, if_pos hend]
      · exact ih (fun t => rfl) h
    next hmore =>
      apply ih _ h
      intro t
      rw [List.append_assoc, hline, List.singleton_append, fgetsAll, if_neg hmore]

/-- Pieces that are read back are read one after the other. -/
theorem fgetsAll_flatten_append {size : ℕ} {ps : List Text} (h : ∀ p ∈ ps, ReadsBack size p)
    (t : Text) : fgetsAll size [] (ps.flatten ++ t) = ps ++ fgetsAll size [] t := by
  induction ps with
  | nil => rfl
  | cons p ps ih =>
    rw [List.flatten_cons, List.append_assoc, h p List.mem_cons_self,
      ih fun q hq => h q (List.mem_cons_of_mem p hq), List.cons_append]

/-- What stands behind a newline is read on its own. -/
theorem fgetsAll_newline_append (size : ℕ) (s t : Text) :
    fgetsAll size [] (s ++ ['\n'] ++ t) =
      fgetsAll size [] (s ++ ['\n']) ++ fgetsAll size [] t := by
  have hback : ∀ p ∈ fgetsAll size [] (s ++ ['\n']), ReadsBack size p :=
    fun p hp => readsBack_of_mem (fun _ => rfl) hp
  have h := fgetsAll_flatten_append hback t
  rwa [flatten_fgetsAll, List.nil_append] at h

/-! ## Leaving out pieces -/

/-- A text of which nothing is left out has no piece that is to be left out. -/
theorem forall_of_flatten_filter {keep : Text → Bool} {ps : List Text} (hne : [] ∉ ps)
    (h : (ps.filter keep).flatten = ps.flatten) : ∀ p ∈ ps, keep p = true := by
  induction ps with
  | nil => simp
  | cons p ps ih =>
    rw [List.mem_cons, not_or] at hne
    rw [List.filter_cons] at h
    split at h
    next hp =>
      rw [List.flatten_cons, List.flatten_cons, List.append_cancel_left_eq] at h
      exact List.forall_mem_cons.mpr ⟨hp, ih hne.2 h⟩
    next =>
      have hle := (List.filter_sublist (p := keep) (l := ps)).flatten.length_le
      have hpos := List.length_pos_iff.mpr (Ne.symm hne.1)
      rw [h, List.flatten_cons, List.length_append] at hle
      omega

/-- What is left of a file if only the pieces with `keep` are copied. -/
def keepPieces (size : ℕ) (keep : Text → Bool) (s : Text) : Text :=
  ((fgetsAll size [] s).filter keep).flatten

/-- Something that is read back and kept in front of a text is more than leaving out pieces of
the text can make up for. -/
theorem append_keepPieces_ne {size : ℕ} {keep : Text → Bool} {ps : List Text}
    (hps : ps.flatten ≠ []) (hback : ∀ p ∈ ps, ReadsBack size p)
    (hkeep : ∀ p ∈ ps, keep p = true) (s : Text) :
    ps.flatten ++ keepPieces size keep s ≠ s := by
  intro heq
  -- the text that is left has the same property, and is shorter
  have hrest : ps.flatten ++ keepPieces size keep (keepPieces size keep s) =
      keepPieces size keep s := by
    conv_rhs => rw [← heq, keepPieces, fgetsAll_flatten_append hback, List.filter_append,
      List.filter_eq_self.mpr hkeep, List.flatten_append]
    rfl
  have hlt : (keepPieces size keep s).length < s.length := by
    have hlength := congrArg List.length heq
    have hpos := List.length_pos_iff.mpr hps
    rw [List.length_append] at hlength
    omega
  exact append_keepPieces_ne hps hback hkeep (keepPieces size keep s) hrest
termination_by s.length

/-- A header that ends a line is left out, and nothing of the body, if and only if this holds of
each piece: what is kept of the one cannot make up for what is left out of the other. -/
theorem keepPieces_append_iff (size : ℕ) (keep : Text → Bool) (header body : Text) :
    keepPieces size keep (header ++ ['\n'] ++ body) = body ↔
      (∀ p ∈ fgetsAll size [] (header ++ ['\n']), keep p = false) ∧
        ∀ p ∈ fgetsAll size [] body, keep p = true := by
  -- a newline ends a piece, so that the two parts are read separately
  have hsplit : keepPieces size keep (header ++ ['\n'] ++ body) =
      ((fgetsAll size [] (header ++ ['\n'])).filter keep).flatten ++
        keepPieces size keep body := by
    rw [keepPieces, fgetsAll_newline_append, List.filter_append, List.flatten_append, keepPieces]
  have hbody : (fgetsAll size [] body).flatten = body := by
    rw [flatten_fgetsAll, List.nil_append]
  rw [hsplit]
  constructor
  · intro heq
    have hnone : (fgetsAll size [] (header ++ ['\n'])).filter keep = [] := by
      by_contra hsome
      refine append_keepPieces_ne (fun hnil => ?_) (fun p hp => ?_) (fun p hp => ?_) body heq
      · obtain ⟨p, hp⟩ := List.exists_mem_of_ne_nil _ hsome
        have hempty := List.flatten_eq_nil_iff.mp hnil p hp
        exact ne_nil_of_mem_fgetsAll (List.mem_of_mem_filter hp) hempty
      · exact readsBack_of_mem (fun _ => rfl) (List.mem_of_mem_filter hp)
      · exact List.of_mem_filter hp
    refine ⟨by simpa using List.filter_eq_nil_iff.mp hnone, ?_⟩
    rw [hnone, List.flatten_nil, List.nil_append, keepPieces] at heq
    apply forall_of_flatten_filter (fun hmem => ne_nil_of_mem_fgetsAll hmem rfl)
    rw [heq, hbody]
  · rintro ⟨hheader, hkeep⟩
    have hnone : (fgetsAll size [] (header ++ ['\n'])).filter keep = [] := by
      rw [List.filter_eq_nil_iff]
      simpa using hheader
    rw [hnone, keepPieces, List.filter_eq_self.mpr hkeep, hbody]
    rfl

end CString
