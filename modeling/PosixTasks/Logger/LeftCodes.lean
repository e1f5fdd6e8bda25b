import PosixTasks.Logger.AnsiCodes

/-!
# The codes that are left in a log line

Where `RemoveAnsiCodes` deletes a code, the text in front of it and the text behind it become
neighbours, and neither of them is searched again. A code that they make together stays.

## Main results

* `hasCode_strip_iff`: a code is left if and only if one stood in the line with other codes
  between its characters;
* `leavesNoCode_iff`: otherwise no code is left, and a second application changes nothing.
-/

namespace Logger

open CString

/-- A code stands in the text. -/
def HasCode (t : Text) : Prop :=
  ∃ k, IsCode k ∧ k <:+: t

/-- `Padded t w`: `w` is `t` with codes in front of some of its characters. -/
inductive Padded : Text → Text → Prop
  | nil : Padded [] []
  | char (c : Char) {t w : Text} : Padded t w → Padded (c :: t) (c :: w)
  | code {k t w : Text} : IsCode k → t ≠ [] → Padded t w → Padded t (k ++ w)

/-- A code stands in the text with other codes between its characters. -/
def Interrupted (s : Text) : Prop :=
  ∃ t w, IsCode ('\x1b' :: t) ∧ Padded t w ∧ w ≠ t ∧ '\x1b' :: w <:+: s

/-- `RemoveAnsiCodes` leaves no code in the buffer, and a second application leaves the line as it
is. -/
def LeavesNoCode (buf : Text) : Prop :=
  ¬ HasCode (ofBuffer (removeAnsiCodes buf)) ∧
    ofBuffer (removeAnsiCodes (removeAnsiCodes buf)) = ofBuffer (removeAnsiCodes buf)

/-! ## The end of a code -/

/-- What stands behind the `ESC` of a code: an `'m'` at the end, and no other and no `ESC` in front
of it. -/
def CodeEnd (t : Text) : Prop :=
  ∃ x, t = x ++ ['m'] ∧ 'm' ∉ x ∧ '\x1b' ∉ x

theorem IsCode.exists_codeEnd {k : Text} (h : IsCode k) : ∃ t, k = '\x1b' :: t ∧ CodeEnd t := by
  obtain ⟨params, hparams, rfl⟩ := h
  refine ⟨_, rfl, '[' :: params, rfl, ?_, ?_⟩
  · rw [List.mem_cons, not_or]
    exact ⟨by decide, fun hmem => absurd (hparams _ hmem) (by decide)⟩
  · rw [List.mem_cons, not_or]
    exact ⟨by decide, fun hmem => absurd (hparams _ hmem) (by decide)⟩

theorem IsCode.codeEnd {t : Text} (h : IsCode ('\x1b' :: t)) : CodeEnd t := by
  obtain ⟨t', heq, hend⟩ := h.exists_codeEnd
  rwa [(List.cons.inj heq).2]

theorem CodeEnd.esc_not_mem {t : Text} (h : CodeEnd t) : '\x1b' ∉ t := by
  obtain ⟨x, rfl, -, hesc⟩ := h
  simp [hesc]

/-- The first character of the end is its last one, or an end follows. -/
theorem CodeEnd.cons {c : Char} {t : Text} (h : CodeEnd (c :: t)) :
    c = 'm' ∧ t = [] ∨ c ≠ 'm' ∧ CodeEnd t := by
  obtain ⟨x, heq, hm, hesc⟩ := h
  cases x with
  | nil => exact Or.inl (by simpa using heq)
  | cons d x =>
    obtain ⟨rfl, rfl⟩ := List.cons.inj heq
    rw [List.mem_cons, not_or] at hm hesc
    exact Or.inr ⟨Ne.symm hm.1, x, rfl, hm.2, hesc.2⟩

theorem not_codeEnd_nil : ¬ CodeEnd [] := by
  rintro ⟨x, heq, -⟩
  simp at heq

/-- Only an `ESC` starts a code. -/
theorem codeLength_cons_of_ne {c : Char} (hc : c ≠ '\x1b') (t : Text) :
    codeLength (c :: t) = none := by
  rw [Option.eq_none_iff_forall_ne_some]
  intro n hn
  obtain ⟨k, rest, hk, heq, -⟩ := exists_code_of_codeLength hn
  obtain ⟨t', rfl, -⟩ := hk.exists_codeEnd
  exact hc (List.cons.inj heq).1

/-! ## Padded texts -/

theorem Padded.eq_nil {w : Text} (h : Padded [] w) : w = [] := by
  generalize ht : ([] : Text) = t at h
  cases h with
  | nil => rfl
  | char => simp at ht
  | code _ hne => exact absurd ht.symm hne

/-- The codes in a padded text are deleted, and nothing else. -/
theorem Padded.strip_append {t w : Text} (h : Padded t w) (hesc : '\x1b' ∉ t) (b : Text) :
    strip (w ++ b) = t ++ strip b := by
  induction h with
  | nil => rfl
  | char c _ ih =>
    rw [List.mem_cons, not_or] at hesc
    rw [List.cons_append, strip_cons_none (codeLength_cons_of_ne (Ne.symm hesc.1) _), ih hesc.2]
    rfl
  | code hk _ _ ih => rw [List.append_assoc, strip_code_append hk, ih hesc]

/-- Where the end of a code starts a text, nothing is inserted. -/
theorem Padded.eq_of_append {t w t' b rest : Text} (h : Padded t w) (ht : CodeEnd t)
    (ht' : CodeEnd t') (heq : w ++ b = t' ++ rest) : w = t := by
  induction h generalizing t' with
  | nil => exact absurd ht not_codeEnd_nil
  | @char c t w hpad ih =>
    rcases ht.cons with ⟨-, rfl⟩ | ⟨hc, ht⟩
    · rw [hpad.eq_nil]
    · cases t' with
      | nil => exact absurd ht' not_codeEnd_nil
      | cons d t' =>
        obtain ⟨rfl, hrest⟩ := List.cons.inj heq
        rcases ht'.cons with ⟨hm, -⟩ | ⟨-, ht'⟩
        · exact absurd hm hc
        · rw [ih ht ht' hrest]
  | code hk _ _ _ =>
    -- a code has an `ESC` at the start
    obtain ⟨u, rfl, -⟩ := hk.exists_codeEnd
    cases t' with
    | nil => exact absurd ht' not_codeEnd_nil
    | cons d t' =>
      obtain ⟨rfl, -⟩ := List.cons.inj heq
      exact absurd List.mem_cons_self ht'.esc_not_mem

/-- What is left of a text stands in it padded. -/
theorem exists_padded_of_strip {s u y : Text} (h : strip s = u ++ y) :
    ∃ w b, s = w ++ b ∧ Padded u w := by
  induction s using strip_induction generalizing u with
  | nil =>
    obtain ⟨rfl, -⟩ := List.append_eq_nil_iff.mp (strip_nil.symm.trans h).symm
    exact ⟨[], [], rfl, .nil⟩
  -- a code that is deleted is padding, unless nothing more is to come
  | code k rest hk ih =>
    rw [strip_code_append hk] at h
    rcases eq_or_ne u [] with rfl | hne
    · exact ⟨[], _, rfl, .nil⟩
    · obtain ⟨w, b, rfl, hpad⟩ := ih h
      exact ⟨k ++ w, b, (List.append_assoc k w b).symm, .code hk hne hpad⟩
  | char c t hcode ih =>
    rw [strip_cons_none hcode] at h
    cases u with
    | nil => exact ⟨[], _, rfl, .nil⟩
    | cons d u =>
      obtain ⟨rfl, hrest⟩ := List.cons.inj h
      obtain ⟨w, b, rfl, hpad⟩ := ih hrest
      exact ⟨c :: w, b, rfl, .char c hpad⟩

/-! ## What is left -/

/-- A code that does not start a text does not start it either where another code follows. -/
theorem codeLength_append_esc {c : Char} {t : Text} (h : codeLength (c :: t) = none) (v : Text) :
    codeLength (c :: (t ++ '\x1b' :: v)) = none := by
  rw [Option.eq_none_iff_forall_ne_some]
  intro n hn
  obtain ⟨k, rest, hk, heq, -⟩ := exists_code_of_codeLength hn
  obtain ⟨k', rfl, hend⟩ := hk.exists_codeEnd
  obtain ⟨rfl, hrest⟩ := List.cons.inj heq
  rcases List.append_eq_append_iff.mp hrest with ⟨u, rfl, hu⟩ | ⟨u, rfl, -⟩
  · -- the `ESC` of `v` would stand in the code
    cases u with
    | nil =>
      rw [List.append_nil] at hk
      have := codeLength_append hk []
      rw [List.append_nil, h] at this
      cases this
    | cons d u =>
      obtain ⟨rfl, -⟩ := List.cons.inj hu
      exact hend.esc_not_mem (by simp)
  · have := codeLength_append hk u
    rw [List.cons_append, h] at this
    cases this

/-- A code does not go beyond the start of another one. -/
theorem strip_append_esc (a v : Text) :
    strip (a ++ '\x1b' :: v) = strip a ++ strip ('\x1b' :: v) := by
  induction a using strip_induction with
  | nil => simp
  | code k rest hk ih => rw [List.append_assoc, strip_code_append hk, strip_code_append hk, ih]
  | char c t hcode ih =>
    rw [List.cons_append, strip_cons_none (codeLength_append_esc hcode v), strip_cons_none hcode,
      ih, List.cons_append]

theorem Interrupted.mono {s s' : Text} (h : Interrupted s) (hpart : s <:+: s') :
    Interrupted s' := by
  obtain ⟨t, w, hk, hpad, hne, hin⟩ := h
  exact ⟨t, w, hk, hpad, hne, hin.trans hpart⟩

/-- A code that is left stood in the text with other codes between its characters. -/
theorem interrupted_of_hasCode {s : Text} (h : HasCode (strip s)) : Interrupted s := by
  induction s using strip_induction with
  | nil =>
    obtain ⟨k, hk, hin⟩ := h
    obtain ⟨t, rfl, -⟩ := hk.exists_codeEnd
    simp at hin
  | code k rest hk ih =>
    rw [strip_code_append hk] at h
    exact (ih h).mono (List.suffix_append k rest).isInfix
  | char c t hcode ih =>
    rw [strip_cons_none hcode] at h
    obtain ⟨k, hk, hin⟩ := h
    rcases List.infix_cons_iff.mp hin with hprefix | hin
    · obtain ⟨u, rfl, -⟩ := hk.exists_codeEnd
      obtain ⟨y, hy⟩ := hprefix
      obtain ⟨rfl, hrest⟩ := List.cons.inj hy
      obtain ⟨w, b, rfl, hpad⟩ := exists_padded_of_strip hrest.symm
      refine ⟨u, w, hk, hpad, ?_, (List.prefix_append ('\x1b' :: w) b).isInfix⟩
      -- without a code in between it would have been deleted itself
      rintro rfl
      have := codeLength_append hk b
      rw [List.cons_append, hcode] at this
      cases this
    · exact (ih ⟨k, hk, hin⟩).mono (List.suffix_cons c t).isInfix

/-- A code is left if and only if one stood in the text with other codes between its characters. -/
theorem hasCode_strip_iff (s : Text) : HasCode (strip s) ↔ Interrupted s := by
  refine ⟨interrupted_of_hasCode, ?_⟩
  rintro ⟨t, w, hk, hpad, hne, a, b, rfl⟩
  have hnone : codeLength ('\x1b' :: (w ++ b)) = none := by
    rw [Option.eq_none_iff_forall_ne_some]
    intro n hn
    obtain ⟨k', rest, hk', heq, -⟩ := exists_code_of_codeLength hn
    obtain ⟨t', rfl, hend⟩ := hk'.exists_codeEnd
    exact hne (hpad.eq_of_append hk.codeEnd hend (List.cons.inj heq).2)
  refine ⟨_, hk, strip a, strip b, ?_⟩
  calc strip a ++ '\x1b' :: t ++ strip b
      = strip a ++ '\x1b' :: (t ++ strip b) := by simp
    _ = strip a ++ '\x1b' :: strip (w ++ b) := by
        rw [hpad.strip_append hk.codeEnd.esc_not_mem]
    _ = strip (a ++ '\x1b' :: (w ++ b)) := by
        rw [strip_append_esc, strip_cons_none hnone]
    _ = strip (a ++ '\x1b' :: w ++ b) := by simp

/-- A second application changes nothing exactly where no code is left. -/
theorem strip_eq_self_iff (t : Text) : strip t = t ↔ ¬ HasCode t := by
  constructor
  · rintro heq ⟨k, hk, a, b, rfl⟩
    obtain ⟨u, rfl, -⟩ := hk.exists_codeEnd
    -- the code is deleted wherever it stands
    have hdeleted : strip (a ++ '\x1b' :: u ++ b) = strip a ++ strip b := by
      rw [List.append_assoc, List.cons_append, strip_append_esc, ← List.cons_append,
        strip_code_append hk]
    have hlen := congrArg List.length (hdeleted.symm.trans heq)
    have ha := (strip_sublist a).length_le
    have hb := (strip_sublist b).length_le
    simp only [List.length_append, List.length_cons] at hlen
    omega
  · intro h
    induction t using strip_induction with
    | nil => exact strip_nil
    | code k rest hk _ => exact absurd ⟨k, hk, (List.prefix_append k rest).isInfix⟩ h
    | char c t hcode ih =>
      rw [strip_cons_none hcode, ih]
      rintro ⟨k, hk, hin⟩
      exact h ⟨k, hk, hin.trans (List.suffix_cons c t).isInfix⟩

/-- No code is left in the line, and a second application changes nothing, if and only if no code
stands in the line with other codes between its characters. -/
theorem leavesNoCode_iff {buf : Text} (hnul : '\x00' ∈ buf) :
    LeavesNoCode buf ↔ ¬ Interrupted (ofBuffer buf) := by
  have hfirst := ofBuffer_removeAnsiCodes hnul
  have hnul' : '\x00' ∈ removeAnsiCodes buf := by
    obtain ⟨rest, heq⟩ := removeAnsiCodes_eq hnul
    simp [heq]
  rw [LeavesNoCode, ofBuffer_removeAnsiCodes hnul', hfirst, strip_eq_self_iff, and_self,
    hasCode_strip_iff]

/-- A line with a code in front of a word. -/
def coloredLine : Text := ['\x1b', '[', '0', 'm', 'a', '\x00']

/-- `leavesNoCode_iff` for a code in front of a word. -/
theorem leavesNoCode_coloredLine : LeavesNoCode coloredLine := by
  refine (leavesNoCode_iff (by decide)).mpr ?_
  have hline : ofBuffer coloredLine = ['\x1b', '[', '0', 'm', 'a'] := by decide
  rw [hline, ← hasCode_strip_iff, ← strip_eq_self_iff]
  simp [strip, codeLength, isParam]

/-- A line with a code behind the start of another one. -/
def nestedLine : Text := ['\x1b', '[', '\x1b', '[', '0', 'm', 'm', '\x00']

/-- The code in the middle is deleted, and the text around it is a code. -/
theorem not_leavesNoCode_nestedLine :
    ofBuffer (removeAnsiCodes nestedLine) = ['\x1b', '[', 'm'] ∧ ¬ LeavesNoCode nestedLine := by
  have hline : ofBuffer nestedLine = ['\x1b', '[', '\x1b', '[', '0', 'm', 'm'] := by decide
  have hleft : ofBuffer (removeAnsiCodes nestedLine) = ['\x1b', '[', 'm'] := by
    rw [ofBuffer_removeAnsiCodes (by decide), hline]
    simp [strip, codeLength, isParam]
  refine ⟨hleft, fun h => h.1 ?_⟩
  rw [hleft]
  exact ⟨_, ⟨[], by simp, rfl⟩, List.infix_rfl⟩

end Logger
