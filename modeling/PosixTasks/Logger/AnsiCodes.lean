import PosixTasks.Lib.CString

/-!
# Removing ANSI codes from a log line

`RemoveAnsiCodes` searches the line for `ESC '[' [0-9;]* 'm'` with `regexec`, from the end of the
last match on, and moves what stands between the matches to the front of the buffer.

## Main results

* `strip`: the line without the codes that stand in it;
* `ofBuffer_removeAnsiCodes`: the loop over the two pointers leaves this in the buffer.
-/

namespace Logger

open CString

/-- `[0-9;]`. -/
def isParam (c : Char) : Bool :=
  c.isDigit || c == ';'

/-- The length of the match of `ESC '[' [0-9;]* 'm'` at the start of a text. -/
def codeLength : Text → Option ℕ
  | '\x1b' :: '[' :: rest =>
      match rest.dropWhile isParam with
      | 'm' :: _ => some ((rest.takeWhile isParam).length + 3)
      | _ => none
  | _ => none

/-- `regexec`: `rm_so` and `rm_eo` of the first match. -/
def regexec : Text → Option (ℕ × ℕ)
  | [] => none
  | c :: t =>
      match codeLength (c :: t) with
      | some n => some (0, n)
      | none => (regexec t).map fun m => (m.1 + 1, m.2 + 1)

/-- `memmove` of `len` bytes within a buffer. -/
def memmove (buf : Text) (dst src len : ℕ) : Text :=
  buf.mapIdx fun i c => if dst ≤ i ∧ i < dst + len then buf.getD (src + (i - dst)) c else c

@[simp]
theorem length_memmove (buf : Text) (dst src len : ℕ) :
    (memmove buf dst src len).length = buf.length := by
  simp [memmove]

/-! ## A code -/

/-- `ESC '[' [0-9;]* 'm'`. -/
def IsCode (k : Text) : Prop :=
  ∃ params, (∀ c ∈ params, isParam c = true) ∧ k = '\x1b' :: '[' :: (params ++ ['m'])

theorem isParam_m : isParam 'm' = false := by
  decide

theorem codeLength_append {k : Text} (h : IsCode k) (rest : Text) :
    codeLength (k ++ rest) = some k.length := by
  obtain ⟨params, hparams, rfl⟩ := h
  have hdrop : (params ++ 'm' :: rest).dropWhile isParam = 'm' :: rest := by
    rw [List.dropWhile_append_of_pos hparams, List.dropWhile_cons_of_neg (by simp [isParam_m])]
  have htake : (params ++ 'm' :: rest).takeWhile isParam = params := by
    rw [List.takeWhile_append_of_pos hparams, List.takeWhile_cons_of_neg (by simp [isParam_m])]
    simp
  simp [codeLength, hdrop, htake]

theorem exists_code_of_codeLength {t : Text} {n : ℕ} (h : codeLength t = some n) :
    ∃ k rest, IsCode k ∧ t = k ++ rest ∧ k.length = n := by
  unfold codeLength at h
  split at h
  next rest =>
    split at h
    next rest' hdrop =>
      obtain rfl := Option.some.inj h
      refine ⟨'\x1b' :: '[' :: (rest.takeWhile isParam ++ ['m']), rest',
        ⟨_, fun c hc => List.mem_takeWhile_imp hc, rfl⟩, ?_, by simp⟩
      have hsplit := List.takeWhile_append_dropWhile (p := isParam) (l := rest)
      rw [hdrop] at hsplit
      simp [hsplit]
    next => cases h
  next => cases h

theorem length_pos_of_codeLength {t : Text} {n : ℕ} (h : codeLength t = some n) :
    0 < n ∧ n ≤ t.length := by
  obtain ⟨k, rest, ⟨params, -, rfl⟩, rfl, rfl⟩ := exists_code_of_codeLength h
  simp

/-- A match is not empty and lies within the text. -/
theorem bounds_of_regexec {t : Text} {so eo : ℕ} (h : regexec t = some (so, eo)) :
    so < eo ∧ eo ≤ t.length := by
  induction t generalizing so eo with
  | nil => cases h
  | cons c t ih =>
    rw [regexec] at h
    split at h
    next n hcode =>
      obtain ⟨rfl, rfl⟩ := Prod.mk.inj (Option.some.inj h)
      exact length_pos_of_codeLength hcode
    next =>
      obtain ⟨⟨so', eo'⟩, hm, heq⟩ := Option.map_eq_some_iff.mp h
      obtain ⟨rfl, rfl⟩ := Prod.mk.inj heq
      obtain ⟨hlt, hle⟩ := ih hm
      rw [List.length_cons]
      omega

/-! ## `RemoveAnsiCodes` -/

theorem length_ofBuffer_le (buf : Text) : (ofBuffer buf).length ≤ buf.length :=
  (List.takeWhile_prefix _).length_le

/-- The loop of `RemoveAnsiCodes` with `src` and `dst` as indices into the buffer, and the last
`memmove`, which also moves the NUL. -/
def removeLoop (buf : Text) (src dst : ℕ) : Text :=
  match h : regexec (ofBuffer (buf.drop src)) with
  | some (so, eo) => removeLoop (memmove buf dst src so) (src + eo) (dst + so)
  | none => memmove buf dst src ((ofBuffer (buf.drop src)).length + 1)
termination_by buf.length - src
decreasing_by
  have hbounds := bounds_of_regexec h
  have hle := length_ofBuffer_le (buf.drop src)
  rw [List.length_drop] at hle
  rw [length_memmove]
  omega

/-- `RemoveAnsiCodes` for a string that is not `NULL`: its buffer afterwards. -/
def removeAnsiCodes (buf : Text) : Text :=
  removeLoop buf 0 0

/-! ## Deleting the codes -/

/-- The text without its codes. A code has at least one character. -/
def strip : Text → Text
  | [] => []
  | c :: t =>
      match codeLength (c :: t) with
      | some n => strip (t.drop (n - 1))
      | none => c :: strip t
termination_by t => t.length
decreasing_by
  · rw [List.length_drop, List.length_cons]
    omega
  · simp

@[simp]
theorem strip_nil : strip [] = [] := by
  rw [strip]

theorem strip_cons_none {c : Char} {t : Text} (h : codeLength (c :: t) = none) :
    strip (c :: t) = c :: strip t := by
  rw [strip, h]

theorem strip_some {t : Text} {n : ℕ} (h : codeLength t = some n) :
    strip t = strip (t.drop n) := by
  cases t with
  | nil => cases h
  | cons c t =>
    obtain ⟨m, rfl⟩ := Nat.exists_eq_succ_of_ne_zero (length_pos_of_codeLength h).1.ne'
    rw [strip, h]
    rfl

theorem strip_code_append {k : Text} (h : IsCode k) (rest : Text) :
    strip (k ++ rest) = strip rest := by
  rw [strip_some (codeLength_append h rest), List.drop_left]

/-- Induction along `strip`: a text is empty, starts with a code, or starts with a character that
stays. -/
@[elab_as_elim]
theorem strip_induction {P : Text → Prop} (nil : P [])
    (code : ∀ k rest, IsCode k → P rest → P (k ++ rest))
    (char : ∀ c t, codeLength (c :: t) = none → P t → P (c :: t)) (t : Text) : P t := by
  induction t using strip.induct with
  | case1 => exact nil
  | case2 c t n hcode ih =>
    obtain ⟨k, rest, hk, heq, rfl⟩ := exists_code_of_codeLength hcode
    have hdrop : t.drop (k.length - 1) = rest := by
      have := congrArg (List.drop k.length) heq
      rwa [List.drop_left, ← Nat.sub_add_cancel (length_pos_of_codeLength hcode).1,
        List.drop_succ_cons] at this
    rw [heq]
    exact code k rest hk (hdrop ▸ ih)
  | case3 c t hcode ih => exact char c t hcode ih

/-- Up to the first match the text stays, and the code there goes. -/
theorem strip_of_regexec {t : Text} {so eo : ℕ} (h : regexec t = some (so, eo)) :
    strip t = t.take so ++ strip (t.drop eo) := by
  induction t generalizing so eo with
  | nil => cases h
  | cons c t ih =>
    rw [regexec] at h
    split at h
    next n hcode =>
      obtain ⟨rfl, rfl⟩ := Prod.mk.inj (Option.some.inj h)
      obtain ⟨k, rest, hk, heq, rfl⟩ := exists_code_of_codeLength hcode
      rw [heq, strip_code_append hk, List.drop_left, List.take_zero, List.nil_append]
    next hcode =>
      obtain ⟨⟨so', eo'⟩, hm, heq⟩ := Option.map_eq_some_iff.mp h
      obtain ⟨rfl, rfl⟩ := Prod.mk.inj heq
      rw [strip_cons_none hcode, ih hm, List.take_succ_cons, List.drop_succ_cons,
        List.cons_append]

theorem strip_of_regexec_none {t : Text} (h : regexec t = none) : strip t = t := by
  induction t with
  | nil => exact strip_nil
  | cons c t ih =>
    rw [regexec] at h
    split at h
    next => cases h
    next hcode => rw [strip_cons_none hcode, ih (Option.map_eq_none_iff.mp h)]

/-! ## The buffer -/

theorem length_moved {buf : Text} {dst src len : ℕ} (hle : dst ≤ src)
    (hfits : src + len ≤ buf.length) :
    (buf.take dst ++ (buf.drop src).take len).length = dst + len := by
  simp only [List.length_append, List.length_take, List.length_drop]
  omega

/-- A `memmove` to the front within the buffer. -/
theorem memmove_eq {buf : Text} {dst src len : ℕ} (hle : dst ≤ src)
    (hfits : src + len ≤ buf.length) :
    memmove buf dst src len
      = buf.take dst ++ (buf.drop src).take len ++ buf.drop (dst + len) := by
  have hmoved := length_moved hle hfits
  refine List.ext_getElem? fun i => ?_
  rw [memmove, List.getElem?_mapIdx]
  rcases Nat.lt_or_ge i (dst + len) with hi | hi
  · have hlt : i < buf.length := by omega
    rw [List.getElem?_append_left (hmoved ▸ hi), List.getElem?_eq_getElem hlt, Option.map_some]
    rcases Nat.lt_or_ge i dst with hbefore | hafter
    · rw [if_neg (by omega), List.getElem?_append_left (by rw [List.length_take]; omega),
        List.getElem?_take_of_lt hbefore, List.getElem?_eq_getElem hlt]
    · have hsrc : src + (i - dst) < buf.length := by omega
      have htake : (buf.take dst).length = dst := by
        rw [List.length_take]
        omega
      rw [if_pos ⟨hafter, hi⟩, List.getElem?_append_right (by omega), htake,
        List.getElem?_take_of_lt (by omega), List.getElem?_drop, List.getD_eq_getElem _ _ hsrc,
        List.getElem?_eq_getElem hsrc]
  · have hbehind : ¬ (dst ≤ i ∧ i < dst + len) := by omega
    rw [List.getElem?_append_right (hmoved ▸ hi), hmoved, List.getElem?_drop,
      Nat.add_sub_cancel' hi]
    simp only [if_neg hbehind, Option.map_id']

theorem take_memmove {buf : Text} {dst src len : ℕ} (hle : dst ≤ src)
    (hfits : src + len ≤ buf.length) :
    (memmove buf dst src len).take (dst + len) = buf.take dst ++ (buf.drop src).take len := by
  rw [memmove_eq hle hfits, List.take_left' (length_moved hle hfits)]

theorem drop_memmove {buf : Text} {dst src len n : ℕ} (hle : dst ≤ src)
    (hfits : src + len ≤ buf.length) (hn : dst + len ≤ n) :
    (memmove buf dst src len).drop n = buf.drop n := by
  have hmoved := length_moved hle hfits
  rw [memmove_eq hle hfits, List.drop_append, List.drop_eq_nil_of_le (hmoved ▸ hn), hmoved,
    List.nil_append, List.drop_drop, Nat.add_sub_cancel' hn]

/-- The loop copies to `dst` what stands between the codes behind `src`, and the NUL. -/
theorem removeLoop_eq (buf : Text) (src dst : ℕ) (hle : dst ≤ src)
    (hnul : '\x00' ∈ buf.drop src) :
    ∃ rest, removeLoop buf src dst
      = buf.take dst ++ strip (ofBuffer (buf.drop src)) ++ '\x00' :: rest := by
  induction buf, src, dst using removeLoop.induct with
  | case1 buf src dst so eo hmatch ih =>
    obtain ⟨t, rest, hrest, ht⟩ := List.eq_append_cons_of_mem hnul
    have htext : ofBuffer (buf.drop src) = t := by rw [hrest, ofBuffer_append ht]
    rw [removeLoop]
    split
    next so' eo' hmatch' =>
      obtain ⟨rfl, rfl⟩ := Prod.mk.inj (Option.some.inj (hmatch.symm.trans hmatch'))
      rw [htext] at hmatch ⊢
      obtain ⟨hlt, heo⟩ := bounds_of_regexec hmatch
      have hfits : src + so ≤ buf.length := by
        have := congrArg List.length hrest
        rw [List.length_drop, List.length_append] at this
        omega
      -- behind the match the buffer is as before
      have hdrop : (memmove buf dst src so).drop (src + eo) = t.drop eo ++ '\x00' :: rest := by
        rw [drop_memmove hle hfits (by omega), ← List.drop_drop, hrest,
          List.drop_append_of_le_length heo]
      have htake : (memmove buf dst src so).take (dst + so) = buf.take dst ++ t.take so := by
        rw [take_memmove hle hfits, hrest, List.take_append_of_le_length (by omega)]
      obtain ⟨rest', hloop⟩ := ih (by omega) (by simp [hdrop])
      refine ⟨rest', ?_⟩
      rw [hloop, hdrop, htake, strip_of_regexec hmatch,
        ofBuffer_append fun hmem => ht (List.mem_of_mem_drop hmem)]
      simp only [List.append_assoc]
    next hnone => simp [hmatch] at hnone
  | case2 buf src dst hmatch =>
    obtain ⟨t, rest, hrest, ht⟩ := List.eq_append_cons_of_mem hnul
    have htext : ofBuffer (buf.drop src) = t := by rw [hrest, ofBuffer_append ht]
    rw [removeLoop]
    split
    next hsome => simp [hmatch] at hsome
    next =>
      have hfits : src + (t.length + 1) ≤ buf.length := by
        have := congrArg List.length hrest
        rw [List.length_drop, List.length_append, List.length_cons] at this
        omega
      have hmoved : (buf.drop src).take (t.length + 1) = t ++ ['\x00'] := by
        rw [hrest, List.take_length_add_append]
        rfl
      rw [htext] at hmatch ⊢
      refine ⟨buf.drop (dst + (t.length + 1)), ?_⟩
      rw [memmove_eq hle hfits, hmoved, strip_of_regexec_none hmatch]
      simp

theorem strip_sublist (t : Text) : (strip t).Sublist t := by
  induction t using strip_induction with
  | nil => simp
  | code k rest hk ih =>
    rw [strip_code_append hk]
    exact ih.trans (List.sublist_append_right k rest)
  | char c t hcode ih =>
    rw [strip_cons_none hcode]
    exact ih.cons_cons c

/-- What `RemoveAnsiCodes` makes of a buffer. -/
theorem removeAnsiCodes_eq {buf : Text} (hnul : '\x00' ∈ buf) :
    ∃ rest, removeAnsiCodes buf = strip (ofBuffer buf) ++ '\x00' :: rest := by
  simpa [removeAnsiCodes] using removeLoop_eq buf 0 0 le_rfl hnul

/-- `RemoveAnsiCodes` leaves the line without its codes in the buffer. -/
theorem ofBuffer_removeAnsiCodes {buf : Text} (hnul : '\x00' ∈ buf) :
    ofBuffer (removeAnsiCodes buf) = strip (ofBuffer buf) := by
  obtain ⟨rest, heq⟩ := removeAnsiCodes_eq hnul
  rw [heq, ofBuffer_append]
  exact fun hmem => not_mem_ofBuffer buf ((strip_sublist _).subset hmem)

end Logger
