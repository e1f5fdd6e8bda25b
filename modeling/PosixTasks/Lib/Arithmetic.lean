import PosixTasks.Lib.Doubles

/-!
# Arithmetic of floating-point numbers

Sums, differences, products and quotients of `double`s. How an exact magnitude is rounded is a
parameter; the sign of a NaN that an operation makes is the one of the x86. Overflow is left out:
a finite result is finite however large it is.

## Main results

* `IsFinite.add`, `IsFinite.sub`, `IsFinite.mul`, `IsFinite.div`: the operations on finite numbers
  have finite results, if no number is divided by zero;
* `IsFinite.mul_div_zero`: a product with zero, divided by zero, is not a number;
* `value_add`, `value_sub`, `value_mul`, `value_div`: without rounding the operations are those of
  the rationals.
-/

namespace CString

/-- How magnitudes are rounded. Zero stays zero, and no positive integer is rounded to zero. -/
structure Rounding where
  nearest : ℚ≥0 → ℚ≥0
  nearest_zero : nearest 0 = 0
  nearest_natCast_ne : ∀ n : ℕ, n ≠ 0 → nearest n ≠ 0

/-- Nothing is rounded. -/
def Rounding.exact : Rounding where
  nearest := id
  nearest_zero := rfl
  nearest_natCast_ne _ hn := Nat.cast_ne_zero.mpr hn

namespace Double

/-- `+0.0` -/
def zero : Double :=
  .finite false 0

/-- The NaN of an operation that is not defined. -/
def invalid : Double :=
  .nan true

/-- A finite number. -/
def IsFinite (x : Double) : Prop :=
  ∃ negative magnitude, x = .finite negative magnitude

variable (r : Rounding)

/-- `(double)n` -/
def ofCount (n : UInt64) : Double :=
  .finite false (r.nearest n.toNat)

/-- `-x` -/
def neg : Double → Double
  | .finite s a => .finite (! s) a
  | .infinite s => .infinite (! s)
  | .nan s => .nan (! s)

/-- `x + y` -/
def add : Double → Double → Double
  | .nan s, _ => .nan s
  | _, .nan s => .nan s
  | .infinite s, .infinite t => if s = t then .infinite s else invalid
  | .infinite s, .finite _ _ => .infinite s
  | .finite _ _, .infinite t => .infinite t
  | .finite s a, .finite t b =>
      if s = t then .finite s (r.nearest (a + b))
      else if b < a then .finite s (r.nearest (a - b))
      else if a < b then .finite t (r.nearest (b - a))
      else zero

/-- `x - y` -/
def sub (x y : Double) : Double :=
  x.add r y.neg

/-- `x * y` -/
def mul : Double → Double → Double
  | .nan s, _ => .nan s
  | _, .nan s => .nan s
  | .infinite s, .infinite t => .infinite (s ^^ t)
  | .infinite s, .finite t b => if b = 0 then invalid else .infinite (s ^^ t)
  | .finite s a, .infinite t => if a = 0 then invalid else .infinite (s ^^ t)
  | .finite s a, .finite t b => .finite (s ^^ t) (r.nearest (a * b))

/-- `x / y` -/
def div : Double → Double → Double
  | .nan s, _ => .nan s
  | _, .nan s => .nan s
  | .infinite _, .infinite _ => invalid
  | .infinite s, .finite t _ => .infinite (s ^^ t)
  | .finite s _, .infinite t => .finite (s ^^ t) 0
  | .finite s a, .finite t b =>
      if b = 0 then if a = 0 then invalid else .infinite (s ^^ t)
      else .finite (s ^^ t) (r.nearest (a / b))

end Double

/-- `double`s whose sum is rounded by `r`. -/
def Rounded (_ : Rounding) : Type :=
  Double

/-- The NaN, as one of them. -/
def Rounded.invalid (r : Rounding) : Rounded r :=
  Double.invalid

instance (r : Rounding) : DecidableEq (Rounded r) :=
  inferInstanceAs (DecidableEq Double)

instance (r : Rounding) : Zero (Rounded r) :=
  ⟨Double.zero⟩

instance (r : Rounding) : Add (Rounded r) :=
  ⟨Double.add r⟩

namespace Double

/-! ## Finite numbers -/

variable {r : Rounding} {x y : Double}

theorem IsFinite.finite (negative : Bool) (magnitude : ℚ≥0) :
    IsFinite (.finite negative magnitude) :=
  ⟨negative, magnitude, rfl⟩

theorem IsFinite.add (hx : x.IsFinite) (hy : y.IsFinite) : (x.add r y).IsFinite := by
  obtain ⟨s, a, rfl⟩ := hx
  obtain ⟨t, b, rfl⟩ := hy
  rw [Double.add]
  split
  · exact .finite _ _
  · split
    · exact .finite _ _
    · split
      · exact .finite _ _
      · exact .finite _ _

theorem IsFinite.sub (hx : x.IsFinite) (hy : y.IsFinite) : (x.sub r y).IsFinite := by
  obtain ⟨t, b, rfl⟩ := hy
  exact hx.add (.finite _ _)

theorem IsFinite.mul (hx : x.IsFinite) (hy : y.IsFinite) : (x.mul r y).IsFinite := by
  obtain ⟨s, a, rfl⟩ := hx
  obtain ⟨t, b, rfl⟩ := hy
  exact .finite _ _

/-- A quotient is finite if the divisor is not zero. -/
theorem IsFinite.div (hx : x.IsFinite) {negative : Bool} {b : ℚ≥0} (hb : b ≠ 0) :
    (x.div r (.finite negative b)).IsFinite := by
  obtain ⟨s, a, rfl⟩ := hx
  rw [Double.div, if_neg hb]
  exact .finite _ _

/-- Zero over zero is not a number. -/
theorem IsFinite.mul_div_zero (hx : x.IsFinite) :
    (x.mul r (ofCount r 0)).div r (ofCount r 0) = invalid := by
  obtain ⟨s, a, rfl⟩ := hx
  have hzero : ofCount r 0 = zero := by
    rw [ofCount, UInt64.toNat_zero, Nat.cast_zero, r.nearest_zero, zero]
  rw [hzero, zero, Double.mul, mul_zero, r.nearest_zero, Double.div, if_pos rfl, if_pos rfl]

/-- What is written for a finite number is read as a finite number. -/
theorem IsFinite.readBack (hx : x.IsFinite) (nearest : ℚ≥0 → ℚ≥0) (precision : ℕ) :
    (x.readBack nearest precision).IsFinite := by
  obtain ⟨s, a, rfl⟩ := hx
  exact .finite _ _

theorem IsFinite.ofRat (q : ℚ) : IsFinite (.ofRat q) :=
  .finite _ _

/-- A positive number of points is not rounded to zero. -/
theorem exists_ofCount_eq {n : UInt64} (hn : n ≠ 0) :
    ∃ b, b ≠ 0 ∧ ofCount r n = .finite false b :=
  ⟨_, r.nearest_natCast_ne _ fun hzero => hn (UInt64.toNat_inj.mp hzero), rfl⟩

/-! ## Without rounding -/

variable {p q : ℚ}

@[simp]
theorem value_finite (negative : Bool) (a : ℚ≥0) :
    (Double.finite negative a).value = some (if negative then -(a : ℚ) else a) :=
  rfl

/-- What has a value is finite. -/
theorem exists_finite_of_value (hx : x.value = some p) :
    ∃ negative a, x = .finite negative a ∧ p = if negative then -(a : ℚ) else a := by
  cases x with
  | finite negative a => exact ⟨negative, a, rfl, (Option.some.inj hx).symm⟩
  | infinite => cases hx
  | nan => cases hx

theorem value_neg (hx : x.value = some p) : x.neg.value = some (-p) := by
  obtain ⟨s, a, rfl, rfl⟩ := exists_finite_of_value hx
  cases s <;> simp [neg]

/-- Magnitudes of one sign are added, and of two signs the smaller one is taken away. -/
theorem value_add (hx : x.value = some p) (hy : y.value = some q) :
    (x.add .exact y).value = some (p + q) := by
  obtain ⟨s, a, rfl, rfl⟩ := exists_finite_of_value hx
  obtain ⟨t, b, rfl, rfl⟩ := exists_finite_of_value hy
  have hsub : ∀ {a b : ℚ≥0}, b ≤ a → ((a - b : ℚ≥0) : ℚ) = a - b := fun h => NNRat.coe_sub h
  rw [Double.add]
  split
  next hst =>
    subst hst
    cases s <;> simp [Rounding.exact, add_comm]
  next hst =>
    obtain rfl : t = !s := by cases s <;> cases t <;> simp_all
    split
    next hlt => cases s <;> simp [Rounding.exact, hsub hlt.le] <;> ring
    next hle =>
      split
      next hlt => cases s <;> simp [Rounding.exact, hsub hlt.le] <;> ring
      next hge =>
        obtain rfl : a = b := le_antisymm (not_lt.mp hle) (not_lt.mp hge)
        cases s <;> simp [zero]

theorem value_sub (hx : x.value = some p) (hy : y.value = some q) :
    (x.sub .exact y).value = some (p - q) := by
  rw [sub, sub_eq_add_neg]
  exact value_add hx (value_neg hy)

theorem value_mul (hx : x.value = some p) (hy : y.value = some q) :
    (x.mul .exact y).value = some (p * q) := by
  obtain ⟨s, a, rfl, rfl⟩ := exists_finite_of_value hx
  obtain ⟨t, b, rfl, rfl⟩ := exists_finite_of_value hy
  cases s <;> cases t <;> simp [mul, Rounding.exact]

theorem value_div (hx : x.value = some p) (hy : y.value = some q) (hq : q ≠ 0) :
    (x.div .exact y).value = some (p / q) := by
  obtain ⟨s, a, rfl, rfl⟩ := exists_finite_of_value hx
  obtain ⟨t, b, rfl, rfl⟩ := exists_finite_of_value hy
  have hb : b ≠ 0 := by
    rintro rfl
    simp at hq
  rw [div, if_neg hb]
  cases s <;> cases t <;> simp [Rounding.exact, neg_div, div_neg]

theorem value_ofCount (n : UInt64) : (ofCount .exact n).value = some (n.toNat : ℚ) := by
  simp [ofCount, Rounding.exact]

/-- What is read back for a finite number that was written. -/
theorem value_readBack (precision : ℕ) (hx : x.value = some q) :
    (x.readBack id precision).value = some (roundTo precision q) := by
  obtain ⟨s, a, rfl, rfl⟩ := exists_finite_of_value hx
  have habs : Rat.nnabs a = a := NNRat.coe_injective (abs_of_nonneg a.coe_nonneg)
  have habs_neg : Rat.nnabs (-a) = a := by
    rw [← habs]
    exact NNRat.coe_injective (by simp [Rat.coe_nnabs])
  cases s with
  | false => simp [readBack, roundTo, habs]
  | true =>
    rcases eq_or_ne a 0 with rfl | ha
    · -- the sign of a zero is written
      have hzero : Rat.nnabs 0 = 0 := habs
      have hround : roundHalfEven 0 = 0 := by decide
      simp [readBack, roundTo, hzero, hround]
    · simp [readBack, roundTo, habs_neg, pos_iff_ne_zero.mpr ha]

end Double

end CString
