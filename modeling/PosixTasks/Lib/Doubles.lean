import PosixTasks.Lib.Numbers

/-!
# Floating-point numbers in C strings

A `double` is an exact number with a sign, or infinite, or no number. `%.15lf` and the like write
it with a fixed number of decimals, rounded half to even; `%lf` reads a number and rounds it to a
`double`, by a function that is a parameter here.

Exponents, hexadecimal digits, capitals, `infinity` and `nan(...)` do not occur in what
`%.15lf` writes, and are left out of `%lf`.

## Main results

* `scanDouble_fixed`: `%lf` reads back the decimals that were written;
* `scanDouble_suffix`: what `%lf` leaves is the end of its input;
* `nearestMultiple_roundTo`: the number that is written is the nearest one.
-/

namespace CString

/-- A `double`: its sign bit and its magnitude. -/
inductive Double where
  | finite (negative : Bool) (magnitude : ℚ≥0)
  | infinite (negative : Bool)
  | nan (negative : Bool)
  deriving DecidableEq

/-- The nearest natural number, and of two the even one. -/
def roundHalfEven (q : ℚ≥0) : ℕ :=
  let n := q.num / q.den
  let r := 2 * (q.num % q.den)
  if r < q.den ∨ r = q.den ∧ n % 2 = 0 then n else n + 1

/-- Decimal digits with zeros in front. -/
def padded (width n : ℕ) : Text :=
  List.replicate (width - (decimal n).length) '0' ++ decimal n

/-- A minus for the sign bit. -/
def signText (negative : Bool) : Text :=
  if negative then ['-'] else []

/-- `inf` -/
def infText : Text := ['i', 'n', 'f']

/-- `nan` -/
def nanText : Text := ['n', 'a', 'n']

/-- A conversion `%.<precision>lf` of `printf`, with a positive precision. -/
def fixed (precision : ℕ) : Double → Text
  | .finite negative q =>
      let k := roundHalfEven (q * 10 ^ precision)
      signText negative ++
        (decimal (k / 10 ^ precision) ++ '.' :: padded precision (k % 10 ^ precision))
  | .infinite negative => signText negative ++ infText
  | .nan negative => signText negative ++ nanText

/-- A conversion `%lf` of `sscanf`. -/
def scanDouble (nearest : ℚ≥0 → ℚ≥0) (input : Text) : Option (Double × Text) :=
  let (negative, s) := scanSign (input.dropWhile isSpace)
  if infText <+: s then some (.infinite negative, s.drop infText.length)
  else if nanText <+: s then some (.nan negative, s.drop nanText.length)
  else
    let whole := leadingDigits s
    let rest := s.drop whole.length
    let fraction := if rest.head? = some '.' then leadingDigits rest.tail else []
    if whole = [] ∧ fraction = [] then none
    else
      some (.finite negative (nearest (digitsValue (whole ++ fraction) / 10 ^ fraction.length)),
        if rest.head? = some '.' then rest.drop (fraction.length + 1) else rest)

/-- A literal character of the format. -/
def scanChar (c : Char) (input : Text) : Option Text :=
  if input.head? = some c then some input.tail else none

/-- What is read back for a number that was written. -/
def Double.readBack (nearest : ℚ≥0 → ℚ≥0) (precision : ℕ) : Double → Double
  | .finite negative q =>
      .finite negative (nearest (roundHalfEven (q * 10 ^ precision) / 10 ^ precision))
  | .infinite negative => .infinite negative
  | .nan negative => .nan negative

/-- The number as a `double`, without rounding. -/
def Double.ofRat (q : ℚ) : Double :=
  .finite (decide (q < 0)) q.nnabs

/-- The value of a finite `double`. -/
def Double.value : Double → Option ℚ
  | .finite negative q => some (if negative then -q else q)
  | .infinite _ | .nan _ => none

/-- The number that is written for `q`. -/
def roundTo (precision : ℕ) (q : ℚ) : ℚ :=
  let rounded : ℚ := roundHalfEven (q.nnabs * 10 ^ precision) / 10 ^ precision
  if q < 0 then -rounded else rounded

/-! ## Rounding -/

/-- Rounding moves a number by at most one half. -/
theorem abs_roundHalfEven_sub_le (q : ℚ≥0) : |(roundHalfEven q : ℚ) - q| ≤ 1 / 2 := by
  have hden : (0 : ℚ) < q.den := by exact_mod_cast q.den_pos
  have hq : (q : ℚ) * q.den = q.num := by exact_mod_cast NNRat.mul_den_eq_num q
  have hsplit : (q.num : ℚ) = q.den * (q.num / q.den : ℕ) + (q.num % q.den : ℕ) := by
    exact_mod_cast (Nat.div_add_mod q.num q.den).symm
  have hlt : ((q.num % q.den : ℕ) : ℚ) < q.den := by exact_mod_cast Nat.mod_lt _ q.den_pos
  have hnonneg : (0 : ℚ) ≤ (q.num % q.den : ℕ) := Nat.cast_nonneg _
  simp only [roundHalfEven]
  split
  next hdown =>
    have hhalf : (2 : ℚ) * (q.num % q.den : ℕ) ≤ q.den := by
      have : 2 * (q.num % q.den) ≤ q.den := by omega
      exact_mod_cast this
    rw [abs_le]
    constructor <;> nlinarith
  next hup =>
    have hhalf : (q.den : ℚ) ≤ 2 * (q.num % q.den : ℕ) := by
      have : q.den ≤ 2 * (q.num % q.den) := by omega
      exact_mod_cast this
    push_cast
    rw [abs_le]
    constructor <;> nlinarith

/-- Writing a number moves it by at most half a unit of its last decimal. -/
theorem abs_roundTo_sub_le (precision : ℕ) (q : ℚ) :
    |roundTo precision q - q| ≤ 1 / 2 / 10 ^ precision := by
  have hpos : (0 : ℚ) < 10 ^ precision := by positivity
  have hround := abs_roundHalfEven_sub_le (q.nnabs * 10 ^ precision)
  have hscaled : ((q.nnabs * 10 ^ precision : ℚ≥0) : ℚ) = |q| * 10 ^ precision := by
    rw [NNRat.cast_mul, NNRat.cast_pow]
    rfl
  rw [hscaled] at hround
  -- the same for the magnitude, in units of the last decimal
  have hmagnitude : abs ((roundHalfEven (q.nnabs * 10 ^ precision) : ℚ) / 10 ^ precision - abs q)
      ≤ 1 / 2 / 10 ^ precision := by
    rw [le_div_iff₀ hpos, ← abs_of_pos hpos, ← abs_mul, sub_mul, abs_of_pos hpos,
      div_mul_cancel₀ _ hpos.ne']
    exact hround
  simp only [roundTo]
  split
  next hneg =>
    rw [abs_of_neg hneg] at hmagnitude
    rw [← abs_neg]
    convert hmagnitude using 2
    ring
  next hnonneg => rwa [abs_of_nonneg (not_lt.mp hnonneg)] at hmagnitude

/-- `x` is a multiple of the last decimal, and no other one is closer to `q`. -/
structure NearestMultiple (precision : ℕ) (q x : ℚ) : Prop where
  multiple : ∃ k : ℤ, x = k / 10 ^ precision
  nearest : ∀ k : ℤ, |x - q| ≤ |k / 10 ^ precision - q|

/-- What is half a unit away at most is nearest. -/
theorem NearestMultiple.of_abs_sub_le {precision : ℕ} {q : ℚ} {m : ℤ}
    (h : |(m : ℚ) / 10 ^ precision - q| ≤ 1 / 2 / 10 ^ precision) :
    NearestMultiple precision q (m / 10 ^ precision) where
  multiple := ⟨m, rfl⟩
  nearest k := by
    by_cases hk : k = m
    · rw [hk]
    · -- another multiple is at least one unit away
      have hpos : (0 : ℚ) < 10 ^ precision := by positivity
      have hone : (1 : ℚ) ≤ |(k : ℚ) - m| := by
        have hint : (1 : ℤ) ≤ |k - m| := Int.one_le_abs (sub_ne_zero.mpr hk)
        exact_mod_cast hint
      have hunit : 1 / 10 ^ precision ≤ |(k : ℚ) / 10 ^ precision - m / 10 ^ precision| := by
        rw [← sub_div, abs_div, abs_of_pos hpos]
        exact (div_le_div_iff_of_pos_right hpos).mpr hone
      have htriangle := abs_sub_le ((k : ℚ) / 10 ^ precision) q (m / 10 ^ precision)
      have hhalf : (1 : ℚ) / 10 ^ precision = 1 / 2 / 10 ^ precision + 1 / 2 / 10 ^ precision := by
        ring
      rw [abs_sub_comm q] at htriangle
      linarith

/-- The number that is written is a nearest one. -/
theorem nearestMultiple_roundTo (precision : ℕ) (q : ℚ) :
    NearestMultiple precision q (roundTo precision q) := by
  obtain ⟨m, hm⟩ : ∃ m : ℤ, roundTo precision q = m / 10 ^ precision := by
    rw [roundTo]
    split
    · exact ⟨- roundHalfEven (q.nnabs * 10 ^ precision), by push_cast; ring⟩
    · exact ⟨roundHalfEven (q.nnabs * 10 ^ precision), by push_cast; rfl⟩
  have hclose := abs_roundTo_sub_le precision q
  rw [hm] at hclose ⊢
  exact .of_abs_sub_le hclose

/-- What is read back without rounding in `strtod` has the value that was written. -/
theorem value_readBack_ofRat (precision : ℕ) (q : ℚ) :
    ((Double.ofRat q).readBack id precision).value = some (roundTo precision q) := by
  simp only [Double.ofRat, Double.readBack, Double.value, roundTo, decide_eq_true_eq, id_eq]
  push_cast
  rfl

/-! ## The digits -/

theorem length_padded {width n : ℕ} (hwidth : 0 < width) (h : n < 10 ^ width) :
    (padded width n).length = width := by
  have := length_decimal_le hwidth h
  rw [padded, List.length_append, List.length_replicate]
  omega

theorem isDigits_padded (width n : ℕ) : IsDigits (padded width n) := by
  intro c hc
  rcases List.mem_append.mp hc with hc | hc
  · rw [List.eq_of_mem_replicate hc]
    rfl
  · exact isDigits_decimal n c hc

/-- Zeros in front do not count. -/
theorem digitsValue_padded (width n : ℕ) : digitsValue (padded width n) = n := by
  have hzeros : ∀ k, digitsValue (List.replicate k '0') = 0 := by
    intro k
    induction k with
    | zero => rfl
    | succ k ih =>
      rw [List.replicate_succ, ← List.singleton_append, digitsValue_append, ih]
      simp [digitsValue, Nat.ofDigitChars]
  rw [padded, digitsValue_append, hzeros, digitsValue_decimal, Nat.mul_zero, Nat.zero_add]

/-- The digits before and after the point make up the number. -/
theorem digitsValue_fixed {precision : ℕ} (hprecision : 0 < precision) (k : ℕ) :
    digitsValue (decimal (k / 10 ^ precision) ++ padded precision (k % 10 ^ precision)) = k := by
  have hmod : k % 10 ^ precision < 10 ^ precision := Nat.mod_lt _ (by positivity)
  rw [digitsValue_append, length_padded hprecision hmod, digitsValue_padded, digitsValue_decimal]
  exact Nat.div_add_mod k _

/-- How long a number is that is written. -/
theorem length_fixed_le {precision d : ℕ} (hprecision : 0 < precision) (hd : 0 < d)
    (negative : Bool) {q : ℚ≥0} (hq : (q : ℚ) + 1 < 10 ^ d) :
    (fixed precision (.finite negative q)).length ≤ d + precision + 2 := by
  have hround := (abs_le.mp (abs_roundHalfEven_sub_le (q * 10 ^ precision))).2
  have hone : (1 : ℚ) ≤ 10 ^ precision := one_le_pow₀ (by norm_num)
  rw [NNRat.cast_mul, NNRat.cast_pow, NNRat.cast_ofNat] at hround
  have hsmall : roundHalfEven (q * 10 ^ precision) < 10 ^ d * 10 ^ precision := by
    have hcast : (roundHalfEven (q * 10 ^ precision) : ℚ) < 10 ^ d * 10 ^ precision := by
      nlinarith [q.coe_nonneg]
    exact_mod_cast hcast
  have hwhole := length_decimal_le hd (Nat.div_lt_of_lt_mul (mul_comm (10 ^ d) _ ▸ hsmall))
  have hfraction := length_padded hprecision
    (Nat.mod_lt (roundHalfEven (q * 10 ^ precision)) (by positivity : 0 < 10 ^ precision))
  have hsign : (signText negative).length ≤ 1 := by cases negative <;> simp [signText]
  simp only [fixed, List.length_append, List.length_cons, hfraction]
  omega

/-! ## Reading back -/

theorem scanSign_signText (negative : Bool) {s : Text} (h : ∀ c ∈ s.head?, c ≠ '-' ∧ c ≠ '+') :
    scanSign (signText negative ++ s) = (negative, s) := by
  cases negative with
  | true => simp [signText, scanSign]
  | false =>
    have hminus : s.head? ≠ some '-' := fun heq => (h _ heq).1 rfl
    have hplus : s.head? ≠ some '+' := fun heq => (h _ heq).2 rfl
    simp [signText, scanSign, hminus, hplus]

/-- There is no white space before a number that was written. -/
theorem dropWhile_signText (negative : Bool) {s : Text} (h : ∀ c ∈ s.head?, isSpace c = false) :
    (signText negative ++ s).dropWhile isSpace = signText negative ++ s := by
  cases negative with
  | true => rfl
  | false =>
    cases s with
    | nil => rfl
    | cons c s => simp [signText, h c (by simp)]

/-- Digits are not the start of a word. -/
theorem not_prefix_of_digit {word s : Text} {c : Char} (hword : ∀ d ∈ word.head?, d.isDigit = false)
    (hne : word ≠ []) (hc : c.isDigit = true) : ¬ word <+: c :: s := by
  intro hpre
  obtain ⟨d, word, rfl⟩ := List.exists_cons_of_ne_nil hne
  obtain rfl : d = c := (List.cons_prefix_cons.mp hpre).1
  have := hword d (by simp)
  rw [hc] at this
  exact Bool.noConfusion this

/-- `%lf` reads back what was written. -/
theorem scanDouble_fixed (nearest : ℚ≥0 → ℚ≥0) {precision : ℕ} (hprecision : 0 < precision)
    (x : Double) {rest : Text} (hrest : DigitsEnd rest) :
    scanDouble nearest (fixed precision x ++ rest) = some (x.readBack nearest precision, rest) := by
  cases x with
  | infinite negative =>
    have hspace := dropWhile_signText negative (s := infText ++ rest) (by simp [infText, isSpace])
    have hsign := scanSign_signText negative (s := infText ++ rest) (by simp [infText])
    simp only [scanDouble, fixed, List.append_assoc, hspace, hsign, List.prefix_append, if_true,
      List.drop_left, Double.readBack]
  | nan negative =>
    have hspace := dropWhile_signText negative (s := nanText ++ rest) (by simp [nanText, isSpace])
    have hsign := scanSign_signText negative (s := nanText ++ rest) (by simp [nanText])
    have hinf : ¬ infText <+: nanText ++ rest := by simp [infText, nanText]
    simp only [scanDouble, fixed, List.append_assoc, hspace, hsign, if_neg hinf,
      List.prefix_append, if_true, List.drop_left, Double.readBack]
  | finite negative q =>
    simp only [fixed, Double.readBack]
    generalize roundHalfEven (q * 10 ^ precision) = k
    have hmod : k % 10 ^ precision < 10 ^ precision := Nat.mod_lt _ (by positivity)
    have hvalue := digitsValue_fixed hprecision k
    have hlen := length_padded hprecision hmod
    have hwhole := isDigits_decimal (k / 10 ^ precision)
    have hfraction := isDigits_padded precision (k % 10 ^ precision)
    have hne : decimal (k / 10 ^ precision) ≠ [] := decimal_ne_nil _
    generalize decimal (k / 10 ^ precision) = whole at hvalue hwhole hne ⊢
    generalize padded precision (k % 10 ^ precision) = fraction at hvalue hlen hfraction ⊢
    rw [List.append_assoc, List.append_assoc, List.cons_append]
    -- the number begins with a digit, behind its sign
    obtain ⟨c, digits, rfl⟩ := List.exists_cons_of_ne_nil hne
    have hc : c.isDigit = true := hwhole c List.mem_cons_self
    have hspace := dropWhile_signText negative (s := c :: digits ++ '.' :: (fraction ++ rest))
      (by simp [isSpace_of_isDigit hc])
    have hsign := scanSign_signText negative (s := c :: digits ++ '.' :: (fraction ++ rest)) (by
      intro d hd
      obtain rfl : c = d := by simpa using hd
      constructor <;> rintro rfl <;> exact absurd hc (by decide))
    have hinf : ¬ infText <+: c :: digits ++ '.' :: (fraction ++ rest) :=
      not_prefix_of_digit (by simp [infText]) (by simp [infText]) hc
    have hnan : ¬ nanText <+: c :: digits ++ '.' :: (fraction ++ rest) :=
      not_prefix_of_digit (by simp [nanText]) (by simp [nanText]) hc
    have hpoint : DigitsEnd ('.' :: (fraction ++ rest)) := by simp [DigitsEnd]
    simp only [scanDouble, hspace, hsign, if_neg hinf, if_neg hnan,
      leadingDigits_append hwhole hpoint, List.drop_left, List.head?_cons, if_true, List.tail_cons,
      leadingDigits_append hfraction hrest, hvalue, hlen, List.drop_succ_cons]
    rw [if_neg (by simp), ← hlen, List.drop_left]

/-! ## What is left of the input -/

theorem scanSign_suffix (s : Text) : (scanSign s).2 <:+ s := by
  unfold scanSign
  split
  · exact List.tail_suffix s
  · split
    · exact List.tail_suffix s
    · exact List.suffix_rfl

/-- What `%lf` leaves is the end of its input. -/
theorem scanDouble_suffix {nearest : ℚ≥0 → ℚ≥0} {input rest : Text} {x : Double}
    (h : scanDouble nearest input = some (x, rest)) : rest <:+ input := by
  have hsign : (scanSign (input.dropWhile isSpace)).2 <:+ input :=
    (scanSign_suffix _).trans (List.dropWhile_suffix _)
  simp only [scanDouble] at h
  split at h
  next =>
    rw [Option.some.injEq, Prod.mk.injEq] at h
    rw [← h.2]
    exact (List.drop_suffix _ _).trans hsign
  next =>
    split at h
    next =>
      rw [Option.some.injEq, Prod.mk.injEq] at h
      rw [← h.2]
      exact (List.drop_suffix _ _).trans hsign
    next =>
      -- with and without a point
      split at h <;> split at h
      next => simp at h
      next =>
        rw [Option.some.injEq, Prod.mk.injEq] at h
        rw [← h.2]
        exact (List.drop_suffix _ _).trans ((List.drop_suffix _ _).trans hsign)
      next => simp at h
      next =>
        rw [Option.some.injEq, Prod.mk.injEq] at h
        rw [← h.2]
        exact (List.drop_suffix _ _).trans hsign

/-- What `%zu` leaves is the end of its input. -/
theorem scanUnsigned_suffix {input rest : Text} {n : UInt64}
    (h : scanUnsigned input = some (n, rest)) : rest <:+ input := by
  simp only [scanUnsigned] at h
  split at h
  next => simp at h
  next =>
    rw [Option.some.injEq, Prod.mk.injEq] at h
    rw [← h.2]
    exact (List.drop_suffix _ _).trans ((scanSign_suffix _).trans (List.dropWhile_suffix _))

@[simp]
theorem scanChar_cons (c : Char) (s : Text) : scanChar c (c :: s) = some s := by
  simp [scanChar]

/-- A literal character is taken from the front of the input. -/
theorem scanChar_eq_some {c : Char} {input rest : Text} (h : scanChar c input = some rest) :
    input = c :: rest := by
  unfold scanChar at h
  split at h
  next hhead =>
    rw [Option.some.injEq] at h
    rw [← h]
    exact (List.cons_head?_tail hhead).symm
  next => simp at h

/-- What is written has only digits, a point, a minus and lower case letters. -/
theorem not_mem_fixed {c : Char} (hdigit : c.isDigit = false) (hlower : c.isLower = false)
    (hpoint : c ≠ '.') (hminus : c ≠ '-') (precision : ℕ) (x : Double) : c ∉ fixed precision x := by
  have hsign : ∀ negative, c ∉ signText negative := by
    intro negative
    cases negative <;> simp [signText, hminus]
  -- a text has only small letters, digits, a point and a sign
  have hword : ∀ word : Text, (∀ d ∈ word, d.isLower = true) → c ∉ word := by
    intro word hall hmem
    have := hall c hmem
    rw [hlower] at this
    exact Bool.noConfusion this
  have hdigits : ∀ d : Text, IsDigits d → c ∉ d := by
    intro d hall hmem
    have := hall c hmem
    rw [hdigit] at this
    exact Bool.noConfusion this
  cases x with
  | infinite negative =>
    simp only [fixed, List.mem_append, not_or]
    exact ⟨hsign negative, hword infText (by simp [infText])⟩
  | nan negative =>
    simp only [fixed, List.mem_append, not_or]
    exact ⟨hsign negative, hword nanText (by simp [nanText])⟩
  | finite negative q =>
    simp only [fixed, List.mem_append, List.mem_cons, not_or]
    exact ⟨hsign negative, hdigits _ (isDigits_decimal _), hpoint,
      hdigits _ (isDigits_padded _ _)⟩

end CString
