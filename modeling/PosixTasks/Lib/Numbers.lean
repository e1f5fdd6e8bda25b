import PosixTasks.Lib.CString

/-!
# Numbers in C strings

Numbers as `printf` writes them and as `sscanf` reads them.

## Main results

* `scanUnsigned_decimal`: `%zu` reads back what `%zu` or `%ld` has written;
* `digitsValue_lt_of_cut`: a decimal number that is cut reads as a smaller number;
* `EndsWithNumber.decode_eq_iff`: a part of a message that ends with a number is read as the
  message only if it has the whole number.
-/

namespace CString

/-- The number that some decimal digits stand for. -/
def digitsValue (digits : Text) : ℕ :=
  Nat.ofDigitChars 10 digits 0

/-- The decimal digits at the start of the input. -/
def leadingDigits (s : Text) : Text :=
  s.takeWhile Char.isDigit

/-- An optional sign: whether it is a minus, and the rest of the input. -/
def scanSign (s : Text) : Bool × Text :=
  if s.head? = some '-' then (true, s.tail)
  else if s.head? = some '+' then (false, s.tail)
  else (false, s)

/-- A conversion `%zu` of `sscanf`: white space is skipped, then an optional sign and decimal
digits are read. `strtoull` stops at the largest number, and a minus negates in the unsigned
type. -/
def scanUnsigned (input : Text) : Option (UInt64 × Text) :=
  let (negative, rest) := scanSign (input.dropWhile isSpace)
  let digits := leadingDigits rest
  if digits = [] then none
  else
    let n := digitsValue digits
    let value :=
      if 2 ^ 64 ≤ n then UInt64.ofNat (2 ^ 64 - 1)
      else if negative then - UInt64.ofNat n
      else UInt64.ofNat n
    some (value, rest.drop digits.length)

/-- The input does not go on with a digit. -/
def DigitsEnd (s : Text) : Prop :=
  ∀ c ∈ s.head?, c.isDigit = false

/-- Some digits. -/
def IsDigits (d : Text) : Prop :=
  ∀ c ∈ d, c.isDigit = true

theorem isDigits_decimal (n : ℕ) : IsDigits (decimal n) :=
  fun _ hc => Nat.isDigit_of_mem_toDigits (by decide) (by decide) hc

@[simp]
theorem decimal_ne_nil (n : ℕ) : decimal n ≠ [] :=
  Nat.toDigits_ne_nil

@[simp]
theorem digitsValue_decimal (n : ℕ) : digitsValue (decimal n) = n :=
  Nat.ofDigitChars_ten_toDigits

theorem length_decimal_le {n k : ℕ} (hk : 0 < k) (h : n < 10 ^ k) : (decimal n).length ≤ k :=
  (Nat.length_toDigits_le_iff (by decide) hk).mpr h

/-- A digit is neither white space nor a sign. -/
theorem isSpace_of_isDigit {c : Char} (h : c.isDigit = true) : isSpace c = false := by
  by_contra hspace
  simp only [isSpace, Bool.not_eq_false, decide_eq_true_eq] at hspace
  rcases hspace with rfl | rfl | rfl | rfl | rfl | rfl <;> exact absurd h (by decide)

theorem scanSign_of_isDigit {s : Text} (h : ∀ c ∈ s.head?, c.isDigit = true) :
    scanSign s = (false, s) := by
  have hne : ∀ c : Char, c.isDigit = false → s.head? ≠ some c := by
    intro c hc heq
    rw [h c heq] at hc
    exact Bool.noConfusion hc
  simp [scanSign, hne '-' rfl, hne '+' rfl]

theorem leadingDigits_append {d rest : Text} (hd : IsDigits d) (hrest : DigitsEnd rest) :
    leadingDigits (d ++ rest) = d := by
  rw [leadingDigits, List.takeWhile_append_of_pos hd]
  cases rest with
  | nil => simp
  | cons c rest => simp [hrest c (by simp)]

/-- The digits in front are what `%zu` reads. -/
theorem scanUnsigned_digits {d rest : Text} (hne : d ≠ []) (hd : IsDigits d)
    (hrest : DigitsEnd rest) (hfits : digitsValue d < 2 ^ 64) :
    scanUnsigned (d ++ rest) = some (UInt64.ofNat (digitsValue d), rest) := by
  obtain ⟨c, d', rfl⟩ := List.exists_cons_of_ne_nil hne
  have hc := hd c List.mem_cons_self
  have hskip : (c :: d' ++ rest).dropWhile isSpace = c :: d' ++ rest := by
    rw [List.cons_append, List.dropWhile_cons_of_neg]
    simp [isSpace_of_isDigit hc]
  have hsign : scanSign (c :: d' ++ rest) = (false, c :: d' ++ rest) :=
    scanSign_of_isDigit (by simp [hc])
  simp only [scanUnsigned, hskip, hsign, leadingDigits_append hd hrest, if_neg hne,
    if_neg (not_le.mpr hfits), Bool.false_eq_true, if_false, List.drop_left]

/-- `%zu` reads back a number that it or `%ld` has written. -/
theorem scanUnsigned_decimal {n : ℕ} (hn : n < 2 ^ 64) {rest : Text} (hrest : DigitsEnd rest) :
    scanUnsigned (decimal n ++ rest) = some (UInt64.ofNat n, rest) := by
  have hfits : digitsValue (decimal n) < 2 ^ 64 := by rwa [digitsValue_decimal]
  rw [scanUnsigned_digits (decimal_ne_nil n) (isDigits_decimal n) hrest hfits, digitsValue_decimal]

/-- Nothing can be read from an empty input. -/
@[simp]
theorem scanUnsigned_nil : scanUnsigned [] = none := by
  simp [scanUnsigned, scanSign, leadingDigits]

/-! ## A number that is cut -/

/-- Digits stand for a number below the power of ten of their length. -/
theorem digitsValue_lt_pow {d : Text} (hd : IsDigits d) : digitsValue d < 10 ^ d.length := by
  induction d with
  | nil => simp [digitsValue]
  | cons c d ih =>
    have hc : c.toNat - '0'.toNat ≤ 9 := by
      have h := hd c List.mem_cons_self
      simp only [Char.isDigit, Bool.and_eq_true, decide_eq_true_eq] at h
      have hle : c.toNat ≤ '9'.toNat := h.2
      have hnine : '9'.toNat = 57 := rfl
      have hzero : '0'.toNat = 48 := rfl
      omega
    have htail := ih fun x hx => hd x (List.mem_cons_of_mem c hx)
    calc digitsValue (c :: d)
        = 10 ^ d.length * (c.toNat - '0'.toNat) + digitsValue d := by
          rw [digitsValue, Nat.ofDigitChars_cons, Nat.ofDigitChars_eq_ofDigitChars_zero,
            Nat.mul_zero, Nat.zero_add]
          rfl
      _ < 10 ^ d.length * (c.toNat - '0'.toNat) + 10 ^ d.length := by omega
      _ = 10 ^ d.length * (c.toNat - '0'.toNat + 1) := by ring
      _ ≤ 10 ^ d.length * 10 := Nat.mul_le_mul_left _ (by omega)
      _ = 10 ^ (c :: d).length := by rw [List.length_cons, pow_succ]

theorem digitsValue_append (d e : Text) :
    digitsValue (d ++ e) = 10 ^ e.length * digitsValue d + digitsValue e := by
  rw [digitsValue, Nat.ofDigitChars_append, Nat.ofDigitChars_eq_ofDigitChars_zero]
  rfl

/-- The first digits of a number do not stand for zero: the number would be shorter. -/
theorem digitsValue_pos_of_cut {n : ℕ} {d e : Text} (h : d ++ e = decimal n) (hd : d ≠ [])
    (he : e ≠ []) : 0 < digitsValue d := by
  by_contra hzero
  have hlen : 0 < e.length := List.length_pos_iff.mpr he
  have hsmall : n < 10 ^ e.length := by
    rw [← digitsValue_decimal n, ← h, digitsValue_append, Nat.eq_zero_of_not_pos hzero,
      Nat.mul_zero, Nat.zero_add]
    apply digitsValue_lt_pow
    intro c hc
    exact isDigits_decimal n c (h ▸ List.mem_append_right d hc)
  have hshort := length_decimal_le hlen hsmall
  rw [← h, List.length_append] at hshort
  have := List.length_pos_iff.mpr hd
  omega

/-- A decimal number that is cut reads as a smaller number. -/
theorem digitsValue_lt_of_cut {n : ℕ} {d e : Text} (h : d ++ e = decimal n) (hd : d ≠ [])
    (he : e ≠ []) : digitsValue d < n := by
  have hlen : 0 < e.length := List.length_pos_iff.mpr he
  have hvalue : n = 10 ^ e.length * digitsValue d + digitsValue e := by
    rw [← digitsValue_append, h, digitsValue_decimal]
  have hpos := digitsValue_pos_of_cut h hd he
  have hten : 10 ≤ 10 ^ e.length := Nat.le_self_pow hlen.ne' 10
  calc digitsValue d < 10 * digitsValue d := by omega
    _ ≤ 10 ^ e.length * digitsValue d := Nat.mul_le_mul_right _ hten
    _ ≤ n := by omega

theorem take_decimal_ne_nil (n : ℕ) {j : ℕ} (hj : 0 < j) : (decimal n).take j ≠ [] := by
  rw [Ne, List.take_eq_nil_iff, not_or]
  exact ⟨hj.ne', decimal_ne_nil n⟩

/-- The start of a number stands for a number that is not larger, and not zero unless all of it
is. -/
theorem digitsValue_take_decimal (n : ℕ) {j : ℕ} (hj : 0 < j) :
    digitsValue ((decimal n).take j) ≤ n ∧ (0 < n → 0 < digitsValue ((decimal n).take j)) := by
  by_cases hall : (decimal n).drop j = []
  · have hwhole : (decimal n).take j = decimal n := by
      rw [← List.append_nil ((decimal n).take j), ← hall, List.take_append_drop]
    rw [hwhole, digitsValue_decimal]
    exact ⟨le_rfl, id⟩
  · have hne := take_decimal_ne_nil n hj
    have hsplit := List.take_append_drop j (decimal n)
    exact ⟨(digitsValue_lt_of_cut hsplit hne hall).le,
      fun _ => digitsValue_pos_of_cut hsplit hne hall⟩

/-! ## A message that ends with a number -/

/-- A message is `head`, a colon and a number, and `decode` needs all three. -/
structure EndsWithNumber {α : Type*} (decode : Text → Option α) (head : Text) (f : UInt64 → α) :
    Prop where
  short : ∀ k, decode (head.take k) = none
  last : ∀ digits, decode (head ++ ':' :: digits) = (scanUnsigned digits).map fun x => f x.1

namespace EndsWithNumber

variable {α : Type*} {decode : Text → Option α} {head : Text} {f : UInt64 → α}

/-- A message without a digit of its number is rejected. -/
theorem decode_short (h : EndsWithNumber decode head f) {n k : ℕ} (hk : k ≤ head.length + 1) :
    decode ((head ++ ':' :: decimal n).take k) = none := by
  by_cases hle : k ≤ head.length
  · rw [List.take_append_of_le_length hle]
    exact h.short k
  · obtain rfl : k = head.length + 1 := by omega
    rw [List.take_length_add_append, List.take_succ_cons, List.take_zero, h.last, scanUnsigned_nil,
      Option.map_none]

/-- A message with some of the digits of its number is read with the number that they make. -/
theorem decode_digits (h : EndsWithNumber decode head f) {n j : ℕ} (hn : n < 2 ^ 64)
    (hj : 0 < j) :
    decode ((head ++ ':' :: decimal n).take (head.length + 1 + j))
      = some (f (UInt64.ofNat (digitsValue ((decimal n).take j)))) := by
  have hdigits : IsDigits ((decimal n).take j) := fun c hc =>
    isDigits_decimal n c (List.mem_of_mem_take hc)
  have hend : DigitsEnd [] := by simp [DigitsEnd]
  have hscan := scanUnsigned_digits (take_decimal_ne_nil n hj) hdigits hend
    (lt_of_le_of_lt (digitsValue_take_decimal n hj).1 hn)
  rw [List.append_nil] at hscan
  have hcut : (head ++ ':' :: decimal n).take (head.length + 1 + j)
      = head ++ ':' :: (decimal n).take j := by
    rw [Nat.add_assoc, List.take_length_add_append, Nat.add_comm 1 j, List.take_succ_cons]
  rw [hcut, h.last, hscan, Option.map_some]

/-- A whole message. -/
theorem decode_whole (h : EndsWithNumber decode head f) {n : ℕ} (hn : n < 2 ^ 64) :
    decode (head ++ ':' :: decimal n) = some (f (UInt64.ofNat n)) := by
  have hlen : 0 < (decimal n).length := List.length_pos_iff.mpr (decimal_ne_nil n)
  have hdigits := h.decode_digits hn hlen
  rwa [List.take_length, digitsValue_decimal, List.take_of_length_le (by simp; omega)] at hdigits

/-- A part of a message is accepted exactly if a digit of the number is there. -/
theorem decode_isSome_iff (h : EndsWithNumber decode head f) {n : ℕ} (hn : n < 2 ^ 64) (k : ℕ) :
    (decode ((head ++ ':' :: decimal n).take k)).isSome ↔ head.length + 1 < k := by
  by_cases hk : k ≤ head.length + 1
  · rw [h.decode_short hk]
    simp [hk]
  · obtain ⟨j, rfl⟩ := Nat.exists_eq_add_of_lt (not_le.mp hk)
    rw [Nat.add_assoc, h.decode_digits hn (Nat.succ_pos j)]
    simp

/-- A part of a message that is accepted is read with a number that is not larger than the one
that was written, and not zero unless that is. -/
theorem exists_of_decode_take (h : EndsWithNumber decode head f) {n k : ℕ} (hn : n < 2 ^ 64)
    {a : α} (ha : decode ((head ++ ':' :: decimal n).take k) = some a) :
    ∃ m : UInt64, a = f m ∧ m.toNat ≤ n ∧ (0 < n → 0 < m.toNat) := by
  by_cases hk : k ≤ head.length + 1
  · rw [h.decode_short hk] at ha
    cases ha
  · obtain ⟨j, rfl⟩ := Nat.exists_eq_add_of_lt (not_le.mp hk)
    rw [Nat.add_assoc, h.decode_digits hn (Nat.succ_pos j), Option.some.injEq] at ha
    obtain ⟨hle, hpos⟩ := digitsValue_take_decimal n (Nat.succ_pos j)
    refine ⟨_, ha.symm, ?_⟩
    rw [UInt64.toNat_ofNat_of_lt' (lt_of_le_of_lt hle hn)]
    exact ⟨hle, hpos⟩

/-- A part of a message that is accepted is read as the whole message exactly if it has the whole
number. -/
theorem decode_eq_iff (h : EndsWithNumber decode head f) (hf : Function.Injective f) {n : ℕ}
    (hn : n < 2 ^ 64) {k : ℕ} (hk : head.length + 1 < k) :
    decode ((head ++ ':' :: decimal n).take k) = decode (head ++ ':' :: decimal n) ↔
      (head ++ ':' :: decimal n).length ≤ k := by
  refine ⟨fun heq => ?_, fun hle => by rw [List.take_of_length_le hle]⟩
  obtain ⟨j, rfl⟩ := Nat.exists_eq_add_of_lt hk
  rw [Nat.add_assoc, h.decode_digits hn (Nat.succ_pos j), h.decode_whole hn, Option.some.injEq]
    at heq
  by_contra hcut
  -- some digits are missing, so that the number is smaller
  have hrest : (decimal n).drop (j + 1) ≠ [] := by
    intro hnil
    have := List.drop_eq_nil_iff.mp hnil
    rw [List.length_append, List.length_cons] at hcut
    omega
  have hlt := digitsValue_lt_of_cut (List.take_append_drop (j + 1) _)
    (take_decimal_ne_nil n (Nat.succ_pos j)) hrest
  have hnat := congrArg UInt64.toNat (hf heq)
  rw [UInt64.toNat_ofNat_of_lt' (lt_trans hlt hn), UInt64.toNat_ofNat_of_lt' hn] at hnat
  omega

end EndsWithNumber

end CString
