import Mathlib.Data.Nat.Bitwise
import Mathlib.Tactic.Ring

/-!
# Words of a fixed width as natural numbers

Arithmetic that wraps at `2 ^ w`, the conditions under which it does not, and the two mask idioms:
`x & ~(2^k - 1)` rounds down to a multiple of `2 ^ k` and `x & (x - 1)` tests for a power of two.
-/

namespace Word

variable {w a b k x : Nat}

/-- Addition of `w`-bit words. -/
def add (w a b : Nat) : Nat := (a + b) % 2 ^ w

/-- Subtraction of `w`-bit words. -/
def sub (w a b : Nat) : Nat := (a + (2 ^ w - b)) % 2 ^ w

/-- Multiplication of `w`-bit words. -/
def mul (w a b : Nat) : Nat := a * b % 2 ^ w

/-- The complement of a `w`-bit word. -/
def not (w a : Nat) : Nat := 2 ^ w - (a + 1)

theorem add_eq (h : a + b < 2 ^ w) : add w a b = a + b := Nat.mod_eq_of_lt h

theorem mul_eq (h : a * b < 2 ^ w) : mul w a b = a * b := Nat.mod_eq_of_lt h

theorem sub_eq (hba : b ≤ a) (ha : a < 2 ^ w) : sub w a b = a - b := by
  unfold sub
  rw [show a + (2 ^ w - b) = (a - b) + 2 ^ w by omega, Nat.add_mod_right]
  exact Nat.mod_eq_of_lt (by omega)

def offset (w base : Nat) (d : Int) : Nat := ((base + d) % (2 : Int) ^ w).toNat

theorem offset_eq {base : Nat} {d : Int} (h : (base : Int) + d = x) (hx : x < 2 ^ w) :
    offset w base d = x := by
  unfold offset
  rw [h, Int.emod_eq_of_lt (Int.natCast_nonneg x) (by exact_mod_cast hx), Int.toNat_natCast]

/-- `x & ~(2^k - 1)` is the multiple of `2 ^ k` at or below `x`. -/
theorem and_not_mask (hx : x < 2 ^ w) (hk : k ≤ w) :
    x &&& not w (2 ^ k - 1) = x / 2 ^ k * 2 ^ k := by
  have hpow : 2 ^ k - 1 < 2 ^ w := by
    have := Nat.pow_le_pow_right (show 0 < 2 by omega) hk
    omega
  apply Nat.eq_of_testBit_eq
  intro i
  rw [Nat.testBit_and, not, Nat.testBit_two_pow_sub_succ hpow, Nat.testBit_two_pow_sub_one,
    Nat.testBit_mul_two_pow, Nat.testBit_div_two_pow]
  -- a bit of the quotient sits `k` places up again; bits of `x` stop at `w`
  rcases Nat.lt_or_ge i k with hik | hik
  · simp [hik, Nat.not_le.mpr hik]
  · rw [show i - k + k = i by omega]
    rcases Nat.lt_or_ge i w with hiw | hiw
    · simp [hik, hiw, Nat.not_lt.mpr hik]
    · have hbit : x.testBit i = false :=
        Nat.testBit_lt_two_pow (Nat.lt_of_lt_of_le hx (Nat.pow_le_pow_right (by omega) hiw))
      simp [hbit]

/-- `x & (2^k - 2^j)` keeps the bits from `j` up to `k`. -/
theorem and_two_pow_sub_two_pow {j : Nat} (hj : j ≤ k) :
    x &&& (2 ^ k - 2 ^ j) = x % 2 ^ k / 2 ^ j * 2 ^ j := by
  have hmask : 2 ^ k - 2 ^ j = (2 ^ (k - j) - 1) * 2 ^ j := by
    rw [Nat.sub_mul, ← Nat.pow_add, Nat.one_mul, Nat.sub_add_cancel hj]
  apply Nat.eq_of_testBit_eq
  intro i
  rw [hmask, Nat.testBit_and, Nat.testBit_mul_two_pow, Nat.testBit_mul_two_pow,
    Nat.testBit_two_pow_sub_one, Nat.testBit_div_two_pow, Nat.testBit_mod_two_pow]
  rcases Nat.lt_or_ge i j with hij | hij
  · simp [Nat.not_le.mpr hij]
  · have hlt : i - j < k - j ↔ i < k := by omega
    simp [hij, hlt, Bool.and_comm]

/-- `(x + 2^k - 1) & ~(2^k - 1)` rounds up. -/
theorem add_pred_and_not_mask (h : x + 2 ^ k < 2 ^ w) :
    sub w (add w x (2 ^ k)) 1 &&& not w (sub w (2 ^ k) 1) = (x + 2 ^ k - 1) / 2 ^ k * 2 ^ k := by
  have hpos := Nat.two_pow_pos k
  have hk : k ≤ w := by
    have hlt : 2 ^ k < 2 ^ w := by omega
    exact Nat.le_of_lt ((Nat.pow_lt_pow_iff_right (by omega)).mp hlt)
  rw [add_eq h, sub_eq (by omega) h, sub_eq hpos (by omega), and_not_mask (by omega) hk]

theorem exists_two_pow_of_and_pred (hx : x ≠ 0) (h : x &&& (x - 1) = 0) : ∃ k, x = 2 ^ k :=
  (Nat.ne_zero_and_sub_one_eq_zero_iff_isPowerOfTwo).mp ⟨hx, h⟩

theorem and_pred_two_pow (k : Nat) : 2 ^ k &&& (2 ^ k - 1) = 0 := by
  rw [Nat.and_two_pow_sub_one_eq_mod, Nat.mod_self]

end Word
