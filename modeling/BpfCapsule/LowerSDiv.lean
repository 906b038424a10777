import Mathlib.Data.BitVec

/-!
# Lowering signed division

BPF has signed division only from CPU v4 on. For v3 `LowerSDivPass` writes every `sdiv` and `srem`
with the unsigned operations: the operands are widened to a register size, both magnitudes are
divided, and the sign is put back. `applySign_signOf` is the identity the pass rests on; the widened
operation is then the signed one (`divided_eq`), and cutting its result back loses nothing.
-/

namespace BpfCapsule.LowerSDiv

inductive Opcode
  | sdiv
  | srem
deriving DecidableEq, Repr

/-- The type of the operation, as far as the pass looks at it. -/
inductive Ty
  | integer (width : Nat)
  | other
deriving DecidableEq, Repr

def refused : String := "bpf-lower-sdiv: expected a scalar integer no wider than 64 bits"

/-- `bits`: the width of the type in which the operation is carried out. -/
def widened : Ty → Except String Nat
  | .integer width => if width > 64 then .error refused else .ok (if width ≤ 32 then 32 else 64)
  | .other => .error refused

/-! ## The generated sequence -/

/-- `CreateAShr(x, bits - 1)`: all ones for a negative value, zero for the others. -/
def signOf {bits : Nat} (x : BitVec bits) : BitVec bits := x.sshiftRight (bits - 1)

/-- `CreateSub(CreateXor(x, sign), sign)` -/
def applySign {bits : Nat} (x sign : BitVec bits) : BitVec bits := (x ^^^ sign) - sign

/-- `udiv` and `urem`, which a zero divisor leaves undefined. -/
def unsigned (opcode : Opcode) {bits : Nat} (lhs rhs : BitVec bits) : Option (BitVec bits) :=
  if rhs = 0 then none
  else
    match opcode with
    | .sdiv => some (lhs / rhs)
    | .srem => some (lhs % rhs)

def divided (opcode : Opcode) {bits : Nat} (lhs rhs : BitVec bits) : Option (BitVec bits) := do
  let lhsSign := signOf lhs
  let rhsSign := signOf rhs
  let lhsMagnitude := applySign lhs lhsSign
  let rhsMagnitude := applySign rhs rhsSign
  let magnitude ← unsigned opcode lhsMagnitude rhsMagnitude
  let sign := match opcode with
    | .sdiv => lhsSign ^^^ rhsSign
    | .srem => lhsSign
  return applySign magnitude sign

/-- What stands in for the operation: `CreateSExtOrTrunc` on both operands, the sequence, and
`CreateTruncOrBitCast` to the type of the source. -/
def lowered (opcode : Opcode) (bits : Nat) {width : Nat} (lhs rhs : BitVec width) :
    Option (BitVec width) :=
  (divided opcode (lhs.signExtend bits) (rhs.signExtend bits)).map (BitVec.setWidth width)

/-! ## The sequence is signed division -/

section Widened

variable {bits : Nat}

theorem signOf_eq (x : BitVec (bits + 1)) :
    signOf x = if x.msb then BitVec.allOnes (bits + 1) else 0 := by
  apply BitVec.eq_of_getLsbD_eq
  intro i hi
  have hmsb : x.msb = x.getLsbD bits := by rw [BitVec.msb_eq_getLsbD_last]; simp
  show (x.sshiftRight bits).getLsbD i = _
  rw [BitVec.getLsbD_sshiftRight]
  -- Only bit zero of the result is a bit of `x`, and it is the sign bit too.
  rcases Nat.eq_zero_or_pos i with rfl | hpos
  · cases h : x.msb <;> simp_all
  · rw [if_neg (by omega)]
    cases h : x.msb with
    | false => simp
    | true =>
      rw [if_pos rfl, BitVec.getLsbD_allOnes, Bool.and_true, ← decide_not]
      exact decide_eq_decide.mpr Nat.not_le

/-- A sign word negates or does nothing. -/
theorem applySign_if (x : BitVec bits) (negative : Bool) :
    applySign x (if negative then BitVec.allOnes bits else 0) = if negative then -x else x := by
  cases negative with
  | false => simp [applySign]
  | true =>
    show (x ^^^ BitVec.allOnes bits) - BitVec.allOnes bits = -x
    rw [BitVec.xor_allOnes, ← BitVec.neg_one_eq_allOnes, BitVec.sub_neg, ← BitVec.neg_eq_not_add]

theorem xor_signs (a b : Bool) :
    ((if a then BitVec.allOnes bits else 0) ^^^ if b then BitVec.allOnes bits else 0) =
      if a ^^ b then BitVec.allOnes bits else 0 := by
  cases a <;> cases b <;> simp

/-- Both magnitudes are divided and the quotient negated when the signs differ, the remainder when
the dividend is negative: this is what `BitVec.sdiv` and `BitVec.srem` are. -/
theorem divided_eq (opcode : Opcode) (lhs rhs : BitVec (bits + 1)) (hrhs : rhs ≠ 0) :
    divided opcode lhs rhs = some (match opcode with
      | .sdiv => lhs.sdiv rhs
      | .srem => lhs.srem rhs) := by
  have hne : (if rhs.msb then -rhs else rhs) ≠ 0 := by
    cases rhs.msb <;> simpa using hrhs
  simp only [divided, signOf_eq, applySign_if, unsigned, hne, if_false]
  cases opcode with
  | sdiv =>
    simp only [xor_signs, Option.pure_def, Option.bind_eq_bind, Option.bind_some, applySign_if,
      BitVec.sdiv_eq]
    cases lhs.msb <;> cases rhs.msb <;> rfl
  | srem =>
    simp only [Option.pure_def, Option.bind_eq_bind, Option.bind_some, applySign_if,
      BitVec.srem_eq]
    cases lhs.msb <;> cases rhs.msb <;> rfl

end Widened

/-! ## Widening and cutting back -/

/-- The operands keep their values in the wider type, so cutting the result back gives the
operation of the narrow type; no result is lost, not even the one that overflows there. -/
theorem lowered_eq (opcode : Opcode) {bits width : Nat} (hwidth : width ≤ bits + 1)
    (lhs rhs : BitVec width) (hrhs : rhs ≠ 0) :
    lowered opcode (bits + 1) lhs rhs = some (match opcode with
      | .sdiv => lhs.sdiv rhs
      | .srem => lhs.srem rhs) := by
  have hext (x : BitVec width) : (x.signExtend (bits + 1)).toInt = x.toInt :=
    BitVec.toInt_signExtend_of_le hwidth
  have hwide : rhs.signExtend (bits + 1) ≠ 0 := by
    intro h
    apply hrhs
    apply BitVec.eq_of_toInt_eq
    rw [← hext, h]
    simp
  have hcut (x : BitVec (bits + 1)) : x.setWidth width = BitVec.ofInt width x.toInt :=
    (BitVec.signExtend_eq_setWidth_of_le x hwidth).symm
  unfold lowered
  rw [divided_eq opcode _ _ hwide, Option.map_some, hcut]
  congr 1
  apply BitVec.eq_of_toInt_eq
  cases opcode with
  | sdiv =>
    simp only [BitVec.toInt_ofInt, BitVec.toInt_sdiv, hext]
    exact Int.bmod_bmod_of_dvd (pow_dvd_pow 2 hwidth)
  | srem =>
    simp only [BitVec.toInt_ofInt, BitVec.toInt_srem, hext]
    rw [← BitVec.toInt_srem, BitVec.toInt_bmod_cancel]

/-- Where `sdiv` and `srem` are defined, the generated sequence returns the quotient truncated
toward zero and the remainder with the sign of the dividend. -/
theorem lowered_exact {width : Nat} (hwidth : width ≤ 64) (lhs rhs : BitVec width)
    (hrhs : rhs ≠ 0) (hoverflow : ¬ (lhs = BitVec.intMin width ∧ rhs = -1)) :
    ∃ bits, widened (.integer width) = .ok bits ∧
      (∃ quotient, lowered .sdiv bits lhs rhs = some quotient ∧
        quotient.toInt = lhs.toInt.tdiv rhs.toInt) ∧
      ∃ remainder, lowered .srem bits lhs rhs = some remainder ∧
        remainder.toInt = lhs.toInt.tmod rhs.toInt := by
  have hbits : ∃ bits, widened (.integer width) = .ok (bits + 1) ∧ width ≤ bits + 1 := by
    by_cases h : width ≤ 32
    · exact ⟨31, by simp [widened, h, hwidth], h⟩
    · exact ⟨63, by simp [widened, h, hwidth], hwidth⟩
  obtain ⟨bits, hok, hle⟩ := hbits
  refine ⟨bits + 1, hok, ⟨_, lowered_eq .sdiv hle lhs rhs hrhs, ?_⟩,
    _, lowered_eq .srem hle lhs rhs hrhs, BitVec.toInt_srem lhs rhs⟩
  apply BitVec.toInt_sdiv_of_ne_or_ne
  tauto

/-- The least `i8` divided by three. -/
theorem lowered_exact_intMin : ∃ bits, widened (.integer 8) = .ok bits ∧
    (∃ quotient, lowered .sdiv bits (-128#8) 3#8 = some quotient ∧
      quotient.toInt = (-128#8).toInt.tdiv (3#8).toInt) ∧
    ∃ remainder, lowered .srem bits (-128#8) 3#8 = some remainder ∧
      remainder.toInt = (-128#8).toInt.tmod (3#8).toInt :=
  lowered_exact (by decide) _ _ (by decide) (by decide)

end BpfCapsule.LowerSDiv
