import Mathlib.Tactic.Common
import Mathlib.Algebra.Group.Nat.Defs

/-!
# Binary floating-point formats

The data of a binary interchange format: sign, exponent and fraction fields of a bit pattern, the kind
of datum they make, its value and the order of values. A finite value is a whole number of the
smallest subnormals of the format, so values are integers and comparing them is exact. NaNs are
unordered, and the two zeros are one value.
-/

namespace Binary

structure Format where
  exponentBits : Nat
  fractionBits : Nat

inductive Kind where
  | nan (quiet : Bool)
  | infinite
  | normal
  | subnormal
  | zero
  deriving DecidableEq

/-- What a bit pattern stands for, as far as order goes. -/
inductive Datum where
  | nan
  | infinite (negative : Bool)
  | finite (value : Int)
  deriving DecidableEq

namespace Format

variable (fmt : Format)

def width : Nat := 1 + fmt.exponentBits + fmt.fractionBits

variable (x : BitVec fmt.width)

def negative : Bool := x.msb

def exponent : Nat := x.toNat / 2 ^ fmt.fractionBits % 2 ^ fmt.exponentBits

def fraction : Nat := x.toNat % 2 ^ fmt.fractionBits

/-- The kind of a datum by its fields: the largest exponent is for infinities and NaNs, the smallest
for zeros and subnormals; a NaN with the first fraction bit set is a quiet one. -/
def kindOf (exponent fraction : Nat) : Kind :=
  if exponent = 2 ^ fmt.exponentBits - 1 then
    if fraction = 0 then .infinite else .nan (decide (2 ^ (fmt.fractionBits - 1) ≤ fraction))
  else if exponent = 0 then
    if fraction = 0 then .zero else .subnormal
  else .normal

def kind : Kind := fmt.kindOf (fmt.exponent x) (fmt.fraction x)

def magnitude : Nat :=
  if fmt.exponent x = 0 then fmt.fraction x
  else (2 ^ fmt.fractionBits + fmt.fraction x) * 2 ^ (fmt.exponent x - 1)

def decode : Datum :=
  match fmt.kind x with
  | .nan _ => .nan
  | .infinite => .infinite (fmt.negative x)
  | _ => .finite (if fmt.negative x then -fmt.magnitude x else fmt.magnitude x)

end Format

def Datum.compare : Datum → Datum → Option Ordering
  | .nan, _ => none
  | _, .nan => none
  | .infinite a, .infinite b =>
    some (if a = b then .eq else if a then .lt else .gt)
  | .infinite a, .finite _ => some (if a then .lt else .gt)
  | .finite _, .infinite b => some (if b then .gt else .lt)
  | .finite a, .finite b => some (Ord.compare a b)

/-- A mask of `a` ones above `k` zeros cuts a field out. -/
theorem and_field (x a k : Nat) : x &&& ((2 ^ a - 1) * 2 ^ k) = x / 2 ^ k % 2 ^ a * 2 ^ k := by
  apply Nat.eq_of_testBit_eq
  intro i
  rw [Nat.testBit_and, Nat.testBit_mul_two_pow, Nat.testBit_mul_two_pow, Nat.testBit_two_pow_sub_one,
    Nat.testBit_mod_two_pow, Nat.testBit_div_two_pow]
  by_cases hk : k ≤ i
  · simp [hk, Bool.and_comm]
  · simp [hk]

end Binary
