import Mathlib

/-!
# Numbers in memory

A number in `w` bytes of memory, the least significant byte first, with one `Char` a byte.

## Main results

* `decodeLE_encodeLE`: what was stored is read back;
* `decodeInt_encodeInt`: so is a number with a sign.
-/

namespace LittleEndian

/-- The `w` bytes of a number. -/
def encodeLE : ℕ → ℕ → List Char
  | 0, _ => []
  | w + 1, n => Char.ofNat (n % 256) :: encodeLE w (n / 256)

/-- The number in some bytes. -/
def decodeLE : List Char → ℕ
  | [] => 0
  | c :: cs => c.toNat + 256 * decodeLE cs

@[simp]
theorem length_encodeLE (w n : ℕ) : (encodeLE w n).length = w := by
  induction w generalizing n with
  | zero => rfl
  | succ w ih => rw [encodeLE, List.length_cons, ih]

/-- The low bits of the number are in the bytes. -/
theorem decodeLE_encodeLE (w n : ℕ) : decodeLE (encodeLE w n) = n % 256 ^ w := by
  induction w generalizing n with
  | zero => simp [encodeLE, decodeLE, Nat.mod_one]
  | succ w ih =>
    have hbyte : (Char.ofNat (n % 256)).toNat = n % 256 := by
      have hlt : n % 256 < 256 := Nat.mod_lt n (by decide)
      rw [Char.toNat_ofNat, if_pos]
      exact Or.inl (by omega)
    rw [encodeLE, decodeLE, ih, hbyte, pow_succ', Nat.mod_mul]

/-- The bytes of a number with a sign, as two's complement. -/
def encodeInt (w : ℕ) (n : ℤ) : List Char :=
  encodeLE w (n % (256 ^ w : ℕ)).toNat

/-- The number with a sign in some bytes. -/
def decodeInt (cs : List Char) : ℤ :=
  (decodeLE cs : ℤ).bmod (256 ^ cs.length)

@[simp]
theorem length_encodeInt (w : ℕ) (n : ℤ) : (encodeInt w n).length = w :=
  length_encodeLE w _

theorem decodeInt_encodeInt {w : ℕ} {n : ℤ} (hlow : -(256 ^ w : ℕ) ≤ n * 2)
    (hhigh : n * 2 < (256 ^ w : ℕ)) : decodeInt (encodeInt w n) = n := by
  have hpos : 0 < 256 ^ w := by positivity
  have hnonneg : 0 ≤ n % (256 ^ w : ℕ) := Int.emod_nonneg _ (by omega)
  have hlt : (n % (256 ^ w : ℕ)).toNat < 256 ^ w := by
    have := Int.emod_lt_of_pos n (b := (256 ^ w : ℕ)) (by omega)
    omega
  rw [decodeInt, length_encodeInt, encodeInt, decodeLE_encodeLE, Nat.mod_eq_of_lt hlt,
    Int.toNat_of_nonneg hnonneg, Int.emod_bmod, Int.bmod_eq_of_le_mul_two hlow hhigh]

end LittleEndian
