import Mathlib

/-!
# C strings

A C string is the list of its bytes, one `Char` a byte, without the terminating NUL.

## Main results

* `scanWord_word`: `%s` reads a word that is followed by white space or by the end;
* `count_of_scanWord`: what `%s` reads it takes away from the input;
* `append_last_inj`: a text is cut at the last occurrence of a character in one way only.
-/

namespace CString

/-- The bytes of a C string. -/
abbrev Text := List Char

/-- The C string at the start of a buffer: its bytes up to the first NUL. -/
def ofBuffer (buffer : Text) : Text :=
  buffer.takeWhile (· ≠ '\x00')

/-- A text is what stands in front of the first occurrence of a character that it does not have. -/
theorem takeWhile_ne_append {c : Char} {s : Text} (h : c ∉ s) (t : Text) :
    (s ++ c :: t).takeWhile (· ≠ c) = s := by
  rw [List.takeWhile_append_of_pos]
  · simp
  · intro d hd
    simpa using fun heq : d = c => h (heq ▸ hd)

theorem takeWhile_ne_eq_self {c : Char} {s : Text} (h : c ∉ s) : s.takeWhile (· ≠ c) = s := by
  rw [List.takeWhile_eq_self_iff]
  intro d hd
  simpa using fun heq : d = c => h (heq ▸ hd)

/-- A text without a NUL is the C string of its buffer. -/
theorem ofBuffer_of_not_mem {s : Text} (h : '\x00' ∉ s) : ofBuffer s = s :=
  takeWhile_ne_eq_self h

/-- What stands behind the NUL does not count. -/
theorem ofBuffer_append {s : Text} (h : '\x00' ∉ s) (rest : Text) :
    ofBuffer (s ++ '\x00' :: rest) = s :=
  takeWhile_ne_append h rest

theorem not_mem_ofBuffer (buffer : Text) : '\x00' ∉ ofBuffer buffer := by
  intro hmem
  simpa using List.mem_takeWhile_imp hmem

/-- `isspace` in the C locale. -/
def isSpace (c : Char) : Bool :=
  c = ' ' ∨ c = '\t' ∨ c = '\n' ∨ c = '\x0b' ∨ c = '\x0c' ∨ c = '\r'

/-- A field width cuts what a conversion reads. -/
def limit : Option ℕ → Text → Text
  | some n, s => s.take n
  | none, s => s

theorem limit_prefix (width : Option ℕ) (s : Text) : limit width s <+: s := by
  cases width with
  | none => exact List.prefix_rfl
  | some n => exact List.take_prefix n s

/-- A conversion `%s` of `sscanf`, with its field width: white space is skipped, then a word of
at most that many bytes is read. The result is the word and the rest of the input. -/
def scanWord (width : Option ℕ) (input : Text) : Option (Text × Text) :=
  let rest := input.dropWhile isSpace
  let word := limit width (rest.takeWhile (! isSpace ·))
  if word = [] then none else some (word, rest.drop word.length)

/-- `strtol` stops at the ends of `long`, and a store to an `int` keeps the low 32 bits. -/
def intOfLong (n : ℤ) : ℤ :=
  (max (-2 ^ 63) (min n (2 ^ 63 - 1))).bmod (2 ^ 32)

/-- A conversion `%d` of `sscanf`: white space is skipped, then an optional sign and decimal
digits are read. The result is the number and the rest of the input. -/
def scanInt (input : Text) : Option (ℤ × Text) :=
  let rest := input.dropWhile isSpace
  let neg : Bool := rest.head? = some '-'
  let rest := if neg ∨ rest.head? = some '+' then rest.tail else rest
  let digits := rest.takeWhile Char.isDigit
  if digits = [] then none
  else
    let n : ℕ := digits.foldl (fun n c => 10 * n + (c.toNat - '0'.toNat)) 0
    some (intOfLong (if neg then -n else n), rest.drop digits.length)

/-- A word: some bytes, none of them white space. -/
def IsWord (w : Text) : Prop :=
  w ≠ [] ∧ ∀ c ∈ w, isSpace c = false

/-- The input starts with white space or is at its end. -/
def AtBreak (s : Text) : Prop :=
  ∀ c ∈ s.head?, isSpace c = true

theorem dropWhile_isSpace_word {w : Text} (h : IsWord w) (rest : Text) :
    (w ++ rest).dropWhile isSpace = w ++ rest := by
  obtain ⟨hne, hw⟩ := h
  cases w with
  | nil => exact absurd rfl hne
  | cons c w => simp [hw c (by simp)]

theorem takeWhile_word {w rest : Text} (h : ∀ c ∈ w, isSpace c = false) (hrest : AtBreak rest) :
    (w ++ rest).takeWhile (! isSpace ·) = w := by
  rw [List.takeWhile_append_of_pos (by simpa using h)]
  cases rest with
  | nil => simp
  | cons c rest => simp [hrest c (by simp)]

/-- `%s` reads a word up to the white space or the end behind it. -/
theorem scanWord_word {w rest : Text} (h : IsWord w) (hrest : AtBreak rest) :
    scanWord none (w ++ rest) = some (w, rest) := by
  simp only [scanWord, limit, dropWhile_isSpace_word h, takeWhile_word h.2 hrest, if_neg h.1]
  simp

/-- `%s` with a width reads the start of a word. -/
theorem scanWord_width {w rest : Text} {n : ℕ} (hn : 0 < n) (h : IsWord w)
    (hrest : AtBreak rest) :
    scanWord (some n) (w ++ rest) = some (w.take n, w.drop n ++ rest) := by
  have hne : w.take n ≠ [] := by
    obtain ⟨hne, -⟩ := h
    simp [List.take_eq_nil_iff, hne, Nat.ne_of_gt hn]
  simp only [scanWord, limit, dropWhile_isSpace_word h, takeWhile_word h.2 hrest, if_neg hne]
  congr 2
  rcases Nat.lt_or_ge n w.length with hlt | hge
  · rw [List.length_take, Nat.min_eq_left hlt.le, List.drop_append_of_le_length hlt.le]
  · rw [List.take_of_length_le hge, List.drop_of_length_le hge]
    simp

/-- `%s` skips white space before the word. -/
theorem scanWord_space {c : Char} (hc : isSpace c = true) (width : Option ℕ) (s : Text) :
    scanWord width (c :: s) = scanWord width s := by
  simp [scanWord, hc]

/-- The number of bytes that are not white space. -/
def wordBytes (s : Text) : ℕ :=
  s.countP (! isSpace ·)

theorem wordBytes_dropWhile (s : Text) : wordBytes (s.dropWhile isSpace) = wordBytes s := by
  induction s with
  | nil => rfl
  | cons c s ih =>
    by_cases hc : isSpace c
    · simpa [hc, wordBytes, List.countP_cons] using ih
    · simp [hc]

/-- What `%s` reads is taken away from the input, and it is not empty. -/
theorem count_of_scanWord {width : Option ℕ} {s w rest : Text}
    (h : scanWord width s = some (w, rest)) :
    w ≠ [] ∧ w.length + wordBytes rest = wordBytes s := by
  simp only [scanWord] at h
  split at h
  · simp at h
  next hne =>
    simp only [Option.some.injEq, Prod.mk.injEq] at h
    obtain ⟨rfl, rfl⟩ := h
    refine ⟨hne, ?_⟩
    have hpre := limit_prefix width ((s.dropWhile isSpace).takeWhile (! isSpace ·))
    generalize limit width ((s.dropWhile isSpace).takeWhile (! isSpace ·)) = w at hpre ⊢
    have hall : ∀ c ∈ w, (! isSpace c) = true := fun c hc =>
      List.mem_takeWhile_imp (p := (! isSpace ·)) (hpre.subset hc)
    obtain ⟨rest, hrest⟩ := hpre.trans (List.takeWhile_prefix _)
    have hsum : wordBytes (s.dropWhile isSpace) = w.length + wordBytes rest := by
      rw [← hrest, wordBytes, List.countP_append, List.countP_eq_length.mpr hall]
      rfl
    rw [← hrest, List.drop_left, ← wordBytes_dropWhile s, hsum]

/-! ## The last occurrence of a character -/

/-- `strrchr(s, c)`: the bytes before and after the last occurrence of `c`. -/
def splitLast (c : Char) : Text → Option (Text × Text)
  | [] => none
  | d :: s =>
      match splitLast c s with
      | some (before, after) => some (d :: before, after)
      | none => if d = c then some ([], s) else none

theorem splitLast_eq_none {c : Char} {s : Text} (h : c ∉ s) : splitLast c s = none := by
  induction s with
  | nil => rfl
  | cons d s ih =>
    simp only [List.mem_cons, not_or] at h
    simp [splitLast, ih h.2, Ne.symm h.1]

theorem splitLast_append {c : Char} {after : Text} (h : c ∉ after) (before : Text) :
    splitLast c (before ++ c :: after) = some (before, after) := by
  induction before with
  | nil => simp [splitLast, splitLast_eq_none h]
  | cons d before ih => simp [splitLast, ih]

/-- A member has a last occurrence. -/
theorem exists_last_of_mem {c : Char} {s : Text} (h : c ∈ s) :
    ∃ before after, s = before ++ c :: after ∧ c ∉ after := by
  induction s with
  | nil => simp at h
  | cons d s ih =>
    by_cases hs : c ∈ s
    · obtain ⟨before, after, rfl, hno⟩ := ih hs
      exact ⟨d :: before, after, rfl, hno⟩
    · obtain rfl : c = d := by simpa [hs] using h
      exact ⟨[], s, rfl, hs⟩

/-- Texts that are joined at the last `c` have the same two parts. -/
theorem append_last_inj {c : Char} {a b a' b' : Text} (hb : c ∉ b) (hb' : c ∉ b') :
    a ++ c :: b = a' ++ c :: b' ↔ a = a' ∧ b = b' := by
  constructor
  · intro h
    have := splitLast_append hb a
    rw [h, splitLast_append hb'] at this
    simpa [eq_comm] using this
  · rintro ⟨rfl, rfl⟩
    rfl

/-- The file name in a path: what follows the last `/`, or all of it. -/
def basename (path : Text) : Text :=
  match splitLast '/' path with
  | some (_, name) => name
  | none => path

/-- `%d` of a number that is not negative. -/
def decimal (n : ℕ) : Text :=
  Nat.toDigits 10 n

theorem decimal_injective : Function.Injective decimal := by
  intro m n h
  have := congrArg (Nat.ofDigitChars 10 · 0) h
  simpa [decimal, Nat.ofDigitChars_ten_toDigits] using this

/-- A decimal number has no character that is not a digit. -/
theorem not_mem_decimal {c : Char} (hc : c.isDigit = false) (n : ℕ) : c ∉ decimal n := by
  intro hmem
  rw [Nat.isDigit_of_mem_toDigits (by decide) (by decide) hmem] at hc
  exact Bool.noConfusion hc

/-- `snprintf` into a buffer of `size` bytes. -/
def snprintf (size : ℕ) (s : Text) : Text :=
  s.take (size - 1)

theorem snprintf_of_fits {size : ℕ} {s : Text} (h : s.length < size) : snprintf size s = s :=
  List.take_of_length_le (by omega)

end CString
