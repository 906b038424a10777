import BpfCapsule.Lib.Binary

/-!
# BpfCapsule — comparing and classifying soft floats

`bpf-soft-float` replaces a floating-point comparison by a call of a compiler-rt routine and an integer
test of what it returns, and `llvm.is.fpclass` by integer tests of the bit pattern. What the routines
return is an assumption (`CompilerRt`); that the code around them is right is proved for every
predicate, every class mask and all bit patterns of both types.
-/

namespace BpfCapsule.SoftFloat

open Binary

inductive FloatType where
  | f32
  | f64
  deriving DecidableEq

def FloatType.format : FloatType → Format
  | .f32 => ⟨8, 23⟩
  | .f64 => ⟨11, 52⟩

/-- The bit patterns of a type: `i32` or `i64`. -/
abbrev FloatType.Bits (t : FloatType) : Type := BitVec t.format.width

/-! ## Comparisons -/

/-- `CmpInst::Predicate`, the floating-point ones. -/
inductive Predicate where
  | false_ | oeq | ogt | oge | olt | ole | one | ord
  | uno | ueq | ugt | uge | ult | ule | une | true_
  deriving DecidableEq

inductive ICmp where
  | eq | ne | slt | sle | sgt | sge
  deriving DecidableEq

def ICmp.eval (p : ICmp) (a b : BitVec 64) : Bool :=
  match p with
  | .eq => a == b
  | .ne => a != b
  | .slt => a.slt b
  | .sle => a.sle b
  | .sgt => b.slt a
  | .sge => b.sle a

structure FloatComparison where
  name : String
  predicate : ICmp

def comparisonLibcall (p : Predicate) (t : FloatType) : Option FloatComparison :=
  let f32 := t = .f32
  match p with
  | .oeq | .ueq => some ⟨if f32 then "__eqsf2" else "__eqdf2", .eq⟩
  | .one | .une => some ⟨if f32 then "__eqsf2" else "__eqdf2", .ne⟩
  | .olt => some ⟨if f32 then "__lesf2" else "__ledf2", .slt⟩
  | .ole => some ⟨if f32 then "__lesf2" else "__ledf2", .sle⟩
  | .ogt => some ⟨if f32 then "__gesf2" else "__gedf2", .sgt⟩
  | .oge => some ⟨if f32 then "__gesf2" else "__gedf2", .sge⟩
  | .ult => some ⟨if f32 then "__gesf2" else "__gedf2", .slt⟩
  | .ule => some ⟨if f32 then "__gesf2" else "__gedf2", .sle⟩
  | .ugt => some ⟨if f32 then "__lesf2" else "__ledf2", .sgt⟩
  | .uge => some ⟨if f32 then "__lesf2" else "__ledf2", .sge⟩
  | .ord => some ⟨if f32 then "__unordsf2" else "__unorddf2", .eq⟩
  | .uno => some ⟨if f32 then "__unordsf2" else "__unorddf2", .ne⟩
  | .false_ | .true_ => none

/-- The routines of compiler-rt by name, with what they return: the sign of the order, `__le` positive
and `__ge` negative for NaNs. -/
structure CompilerRt (t : FloatType) where
  call : String → t.Bits → t.Bits → BitVec 64
  eq_zero_iff : ∀ a b, call (if t = .f32 then "__eqsf2" else "__eqdf2") a b = 0 ↔
    (t.format.decode a).compare (t.format.decode b) = some .eq
  le_neg_iff : ∀ a b, (call (if t = .f32 then "__lesf2" else "__ledf2") a b).toInt < 0 ↔
    (t.format.decode a).compare (t.format.decode b) = some .lt
  le_zero_iff : ∀ a b, (call (if t = .f32 then "__lesf2" else "__ledf2") a b).toInt = 0 ↔
    (t.format.decode a).compare (t.format.decode b) = some .eq
  ge_pos_iff : ∀ a b, 0 < (call (if t = .f32 then "__gesf2" else "__gedf2") a b).toInt ↔
    (t.format.decode a).compare (t.format.decode b) = some .gt
  ge_zero_iff : ∀ a b, (call (if t = .f32 then "__gesf2" else "__gedf2") a b).toInt = 0 ↔
    (t.format.decode a).compare (t.format.decode b) = some .eq
  unord_zero_iff : ∀ a b, call (if t = .f32 then "__unordsf2" else "__unorddf2") a b = 0 ↔
    (t.format.decode a).compare (t.format.decode b) ≠ none

section

variable {t : FloatType} (rt : CompilerRt t)

def compare (p : Predicate) (a b : t.Bits) : Bool :=
  match comparisonLibcall p t with
  | some comparison => comparison.predicate.eval (rt.call comparison.name a b) 0
  | none => false

/-- The lowering of `fcmp`. -/
def lowerFCmp (p : Predicate) (a b : t.Bits) : Bool :=
  match p with
  | .false_ => false
  | .true_ => true
  | .one => compare rt .one a b && compare rt .ord a b
  | .ueq => compare rt .ueq a b || compare rt .uno a b
  | _ => compare rt p a b

end

/-- The IEEE result of a predicate, by the order of its operands. -/
def Predicate.holds (p : Predicate) (order : Option Ordering) : Bool :=
  match p with
  | .false_ => false
  | .oeq => order = some .eq
  | .ogt => order = some .gt
  | .oge => order = some .gt ∨ order = some .eq
  | .olt => order = some .lt
  | .ole => order = some .lt ∨ order = some .eq
  | .one => order = some .lt ∨ order = some .gt
  | .ord => order ≠ none
  | .uno => order = none
  | .ueq => order = none ∨ order = some .eq
  | .ugt => order = none ∨ order = some .gt
  | .uge => order = none ∨ order = some .gt ∨ order = some .eq
  | .ult => order = none ∨ order = some .lt
  | .ule => order = none ∨ order = some .lt ∨ order = some .eq
  | .une => order ≠ some .eq
  | .true_ => true

/-! ## Classes -/

/-- `FPClassTest`: one bit per class. -/
abbrev Mask := BitVec 10

namespace Mask

def sNan : Mask := 0x1
def qNan : Mask := 0x2
def negInf : Mask := 0x4
def negNormal : Mask := 0x8
def negSubnormal : Mask := 0x10
def negZero : Mask := 0x20
def posZero : Mask := 0x40
def posSubnormal : Mask := 0x80
def posNormal : Mask := 0x100
def posInf : Mask := 0x200
def none : Mask := 0
def nan : Mask := sNan ||| qNan
def inf : Mask := posInf ||| negInf
def normal : Mask := posNormal ||| negNormal
def subnormal : Mask := posSubnormal ||| negSubnormal
def zero : Mask := posZero ||| negZero
def posFinite : Mask := posNormal ||| posSubnormal ||| posZero
def negFinite : Mask := negNormal ||| negSubnormal ||| negZero
def finite : Mask := posFinite ||| negFinite
def positive : Mask := posFinite ||| posInf
def negative : Mask := negFinite ||| negInf
def allFlags : Mask := nan ||| inf ||| finite

end Mask

def classMask (negative : Bool) : Kind → Mask
  | .nan true => .qNan
  | .nan false => .sNan
  | .infinite => if negative then .negInf else .posInf
  | .normal => if negative then .negNormal else .posNormal
  | .subnormal => if negative then .negSubnormal else .posSubnormal
  | .zero => if negative then .negZero else .posZero

/-- The integer tests that `lowerFPClass` can build. -/
structure Tests where
  nan : Bool
  inf : Bool
  zero : Bool
  normal : Bool
  subnormal : Bool
  negative : Bool
  quiet : Bool
  finite : Bool
  notNan : Bool

section

variable (t : FloatType)

def signMask : BitVec 64 := if t = .f32 then 0x80000000 else 0x8000000000000000
def exponentMask : BitVec 64 := if t = .f32 then 0x7f800000 else 0x7ff0000000000000
def quietMask : BitVec 64 := if t = .f32 then 0x00400000 else 0x0008000000000000

/-- `ConstantInt::get`, which truncates. -/
def constant (v : BitVec 64) : t.Bits := v.setWidth _

def tests (bits : t.Bits) : Tests :=
  let magnitude := bits &&& constant t (~~~signMask t)
  let exponent := magnitude &&& constant t (exponentMask t)
  { nan := (constant t (exponentMask t)).ult magnitude
    inf := magnitude == constant t (exponentMask t)
    zero := magnitude == constant t 0
    normal := exponent != constant t 0 && exponent != constant t (exponentMask t)
    subnormal := exponent == constant t 0 && magnitude != constant t 0
    negative := bits.slt (constant t 0)
    quiet := bits &&& constant t (quietMask t) != constant t 0
    finite := magnitude.ult (constant t (exponentMask t))
    notNan := magnitude.ule (constant t (exponentMask t)) }

end

def includeSigned (mask : Mask) (x : Tests) (predicate : Bool) (negativeClass positiveClass : Mask) :
    Bool :=
  let wantsNegative := mask &&& negativeClass != 0
  let wantsPositive := mask &&& positiveClass != 0
  if wantsNegative && wantsPositive then predicate
  else if wantsNegative then predicate && x.negative
  else if wantsPositive then predicate && !x.negative
  else false

def includeAll (mask : Mask) (x : Tests) : Bool :=
  let nan :=
    if mask &&& .nan = 0 then false
    else if mask &&& .nan = .nan then x.nan
    else x.nan && (if mask &&& .qNan != 0 then x.quiet else !x.quiet)
  let inf := mask &&& .inf != 0 && includeSigned mask x x.inf .negInf .posInf
  let normal := mask &&& .normal != 0 && includeSigned mask x x.normal .negNormal .posNormal
  let subnormal :=
    mask &&& .subnormal != 0 && includeSigned mask x x.subnormal .negSubnormal .posSubnormal
  let zero := mask &&& .zero != 0 && includeSigned mask x x.zero .negZero .posZero
  nan || inf || normal || subnormal || zero

/-- The masks of the ordinary checks, with a shorter form each. -/
def commonForms : List (Mask × (Tests → Bool)) :=
  [(.none, fun _ => false),
    (.allFlags, fun _ => true),
    (.nan, fun x => x.nan),
    (.inf, fun x => x.inf),
    (.normal, fun x => x.normal),
    (.subnormal, fun x => x.subnormal),
    (.zero, fun x => x.zero),
    (.finite, fun x => x.finite),
    (.posFinite, fun x => !x.negative && x.finite),
    (.negFinite, fun x => x.negative && x.finite),
    (.positive, fun x => !x.negative && x.notNan),
    (.negative, fun x => x.negative && x.notNan)]

/-- What `lowerFPClass` returns, by the tests. -/
def combine (mask : Mask) (x : Tests) : Bool :=
  match commonForms.find? fun form => form.1 = mask with
  | some form => form.2 x
  | none => includeAll mask x

def lowerFPClass (t : FloatType) (mask : Mask) (bits : t.Bits) : Bool := combine mask (tests t bits)

/-! ## The comparison is the IEEE one -/

theorem lowerFCmp_eq {t : FloatType} (rt : CompilerRt t) (p : Predicate) (a b : t.Bits) :
    lowerFCmp rt p a b = p.holds ((t.format.decode a).compare (t.format.decode b)) := by
  have heq := rt.eq_zero_iff a b
  have hlt := rt.le_neg_iff a b
  have hle := rt.le_zero_iff a b
  have hgt := rt.ge_pos_iff a b
  have hge := rt.ge_zero_iff a b
  have hun := rt.unord_zero_iff a b
  generalize (t.format.decode a).compare (t.format.decode b) = order at *
  -- each routine's result stays as an integer with a known sign
  rw [Bool.eq_iff_iff]
  cases p <;>
    simp only [lowerFCmp, compare, comparisonLibcall, ICmp.eval, Predicate.holds, Bool.and_eq_true,
      Bool.or_eq_true, beq_iff_eq, bne_iff_ne, BitVec.slt_iff_toInt_lt, BitVec.sle_iff_toInt_le,
      decide_eq_true_eq, ne_eq, heq, hun] <;>
    (rcases order with _ | (_ | _ | _)) <;> simp at * <;> omega

/-! ## Every class has its tests -/

def testsOf (negative : Bool) (kind : Kind) (quiet : Bool) : Tests where
  nan := match kind with | .nan _ => true | _ => false
  inf := kind = .infinite
  zero := kind = .zero
  normal := kind = .normal
  subnormal := kind = .subnormal
  negative := negative
  quiet := match kind with | .nan q => q | _ => quiet
  finite := kind = .normal ∨ kind = .subnormal ∨ kind = .zero
  notNan := match kind with | .nan _ => false | _ => true

theorem includeSigned_eq (mask : Mask) (x : Tests) (predicate : Bool) (negativeClass positiveClass : Mask) :
    includeSigned mask x predicate negativeClass positiveClass =
      (predicate && mask &&& (if x.negative then negativeClass else positiveClass) != 0) := by
  unfold includeSigned
  cases hn : x.negative <;> cases hneg : mask &&& negativeClass != 0 <;>
    cases hpos : mask &&& positiveClass != 0 <;> simp_all

/-- The outer test of a pair of classes adds nothing. -/
theorem includeSigned_pair (mask : Mask) (x : Tests) (predicate : Bool) (a b : Mask) :
    (mask &&& (b ||| a) != 0 && includeSigned mask x predicate a b) =
      (predicate && mask &&& (if x.negative then a else b) != 0) := by
  rw [includeSigned_eq]
  by_cases hzero : mask &&& (b ||| a) = 0
  · have hsplit : mask &&& b ||| mask &&& a = 0 := by
      rw [← BitVec.and_or_distrib_left]
      exact hzero
    obtain ⟨hb, ha⟩ := BitVec.or_eq_zero_iff.mp hsplit
    cases x.negative <;> simp [hzero, ha, hb]
  · have hne : (mask &&& (b ||| a) != 0) = true := bne_iff_ne.mpr hzero
    rw [hne, Bool.true_and]

/-- The test for NaNs goes by two bits of the mask. -/
theorem includeNan_eq : ∀ (mask : Mask) (quiet : Bool),
    (if mask &&& .nan = 0 then false else if mask &&& .nan = .nan then true
      else if mask &&& .qNan != 0 then quiet else !quiet) =
      (mask &&& (if quiet then .qNan else .sNan) != 0) := by
  decide +kernel

theorem includeAll_testsOf (mask : Mask) (negative : Bool) (kind : Kind) (quiet : Bool) :
    includeAll mask (testsOf negative kind quiet) = (mask &&& classMask negative kind != 0) := by
  simp only [includeAll, Mask.inf, Mask.normal, Mask.subnormal, Mask.zero, includeSigned_pair]
  cases kind with
  | nan q =>
    have hnan := includeNan_eq mask q
    cases q <;> simpa [testsOf, classMask] using hnan
  | _ => simp [testsOf, classMask]

theorem commonForms_testsOf : ∀ form ∈ commonForms, ∀ negative quiet : Bool,
    ∀ kind ∈ [Kind.nan true, .nan false, .infinite, .normal, .subnormal, .zero],
      form.2 (testsOf negative kind quiet) = (form.1 &&& classMask negative kind != 0) := by
  decide +kernel

theorem combine_testsOf (mask : Mask) (negative : Bool) (kind : Kind) (quiet : Bool) :
    combine mask (testsOf negative kind quiet) = (mask &&& classMask negative kind != 0) := by
  unfold combine
  split
  · rename_i form hfind
    have hmask : form.1 = mask := by simpa using List.find?_some hfind
    rw [← hmask]
    apply commonForms_testsOf form (List.mem_of_find?_eq_some hfind)
    cases kind with
    | nan q => cases q <;> simp
    | _ => simp
  · exact includeAll_testsOf mask negative kind quiet

/-! ## The tests of a bit pattern -/

section

variable (t : FloatType) (bits : t.Bits)

theorem toNat_masked :
    (bits &&& constant t (~~~signMask t)).toNat =
        bits.toNat % 2 ^ (t.format.exponentBits + t.format.fractionBits) ∧
      (bits &&& constant t (~~~signMask t) &&& constant t (exponentMask t)).toNat =
        t.format.exponent bits * 2 ^ t.format.fractionBits ∧
      (bits &&& constant t (quietMask t)).toNat =
        bits.toNat / 2 ^ (t.format.fractionBits - 1) % 2 * 2 ^ (t.format.fractionBits - 1) := by
  have hmag : (bits &&& constant t (~~~signMask t)).toNat =
      bits.toNat % 2 ^ (t.format.exponentBits + t.format.fractionBits) := by
    rw [BitVec.toNat_and, ← Nat.and_two_pow_sub_one_eq_mod]
    cases t <;> rfl
  refine ⟨hmag, ?_, ?_⟩
  · rw [BitVec.toNat_and, hmag]
    have hfield := and_field (bits.toNat % 2 ^ (t.format.exponentBits + t.format.fractionBits))
      t.format.exponentBits t.format.fractionBits
    have hmask : (constant t (exponentMask t)).toNat =
        (2 ^ t.format.exponentBits - 1) * 2 ^ t.format.fractionBits := by
      cases t <;> rfl
    rw [hmask, hfield, Format.exponent, Nat.add_comm, Nat.pow_add, Nat.mod_mul_right_div_self,
      Nat.mod_mod]
  · have hfield := and_field bits.toNat 1 (t.format.fractionBits - 1)
    rw [BitVec.toNat_and]
    have hmask : (constant t (quietMask t)).toNat = (2 ^ 1 - 1) * 2 ^ (t.format.fractionBits - 1) := by
      cases t <;> rfl
    rw [hmask, hfield, Nat.pow_one]

def testsAt (negative : Bool) (exponent fraction : Nat) : Tests :=
  let exponentMask := (2 ^ t.format.exponentBits - 1) * 2 ^ t.format.fractionBits
  let magnitude := fraction + 2 ^ t.format.fractionBits * exponent
  { nan := exponentMask < magnitude
    inf := magnitude = exponentMask
    zero := magnitude = 0
    normal := !decide (exponent * 2 ^ t.format.fractionBits = 0) &&
      !decide (exponent * 2 ^ t.format.fractionBits = exponentMask)
    subnormal := decide (exponent * 2 ^ t.format.fractionBits = 0) && !decide (magnitude = 0)
    negative
    quiet := 2 ^ (t.format.fractionBits - 1) ≤ fraction
    finite := magnitude < exponentMask
    notNan := magnitude ≤ exponentMask }

theorem tests_eq_testsAt :
    tests t bits = testsAt t (t.format.negative bits) (t.format.exponent bits) (t.format.fraction bits) := by
  obtain ⟨hmag, hexp, hquiet⟩ := toNat_masked t bits
  have hzero : (constant t 0).toNat = 0 := by cases t <;> rfl
  have hmask : (constant t (exponentMask t)).toNat =
      (2 ^ t.format.exponentBits - 1) * 2 ^ t.format.fractionBits := by
    cases t <;> rfl
  have hneg : bits.slt (constant t 0) = t.format.negative bits := by
    have : constant t 0 = 0#t.format.width := by cases t <;> rfl
    rw [this, BitVec.slt_zero_eq_msb]
    rfl
  have hbeq : ∀ x y : t.Bits, (x == y) = decide (x.toNat = y.toNat) := by
    intro x y
    rw [Bool.eq_iff_iff, beq_iff_eq, decide_eq_true_iff, BitVec.toNat_inj]
  have hsplit : bits.toNat % 2 ^ (t.format.exponentBits + t.format.fractionBits) =
      t.format.fraction bits + 2 ^ t.format.fractionBits * t.format.exponent bits := by
    rw [Nat.add_comm, Nat.pow_add, Nat.mod_mul]
    rfl
  have hbit : (!decide (bits.toNat / 2 ^ (t.format.fractionBits - 1) % 2 *
      2 ^ (t.format.fractionBits - 1) = 0)) =
        decide (2 ^ (t.format.fractionBits - 1) ≤ t.format.fraction bits) := by
    rw [← decide_not, decide_eq_decide]
    unfold Format.fraction
    cases t <;> simp only [FloatType.format] <;> omega
  simp only [tests, testsAt, BitVec.ult_eq_decide, BitVec.ule_eq_decide, hneg, bne, hbeq, hmag, hexp,
    hquiet, hzero, hmask, hsplit, hbit]

/-- The tests of the fields are those of the kind they make. -/
theorem testsAt_eq (negative : Bool) {exponent fraction : Nat}
    (hexponent : exponent < 2 ^ t.format.exponentBits) (hfraction : fraction < 2 ^ t.format.fractionBits) :
    ∃ quiet, testsAt t negative exponent fraction =
      testsOf negative (t.format.kindOf exponent fraction) quiet := by
  unfold Format.kindOf
  -- the four ranges of the magnitude
  by_cases hmax : exponent = 2 ^ t.format.exponentBits - 1
  · rw [if_pos hmax]
    by_cases hzero : fraction = 0
    · rw [if_pos hzero]
      simp [testsAt, testsOf]
      cases t <;> simp only [FloatType.format] at * <;> omega
    · rw [if_neg hzero]
      simp [testsAt, testsOf]
      cases t <;> simp only [FloatType.format] at * <;> omega
  · rw [if_neg hmax]
    by_cases hmin : exponent = 0
    · rw [if_pos hmin]
      by_cases hzero : fraction = 0
      · rw [if_pos hzero]
        simp [testsAt, testsOf]
        cases t <;> simp only [FloatType.format] at * <;> omega
      · rw [if_neg hzero]
        simp [testsAt, testsOf]
        cases t <;> simp only [FloatType.format] at * <;> omega
    · rw [if_neg hmin]
      simp [testsAt, testsOf]
      cases t <;> simp only [FloatType.format] at * <;> omega

theorem tests_eq : ∃ quiet,
    tests t bits = testsOf (t.format.negative bits) (t.format.kind bits) quiet := by
  rw [tests_eq_testsAt]
  exact testsAt_eq t _ (Nat.mod_lt _ (Nat.two_pow_pos _)) (Nat.mod_lt _ (Nat.two_pow_pos _))

end

/-! ## The lowerings are right -/

/-- **Comparisons and classifications are the IEEE ones**, for every predicate, every mask and all bit
patterns of both types. -/
theorem lower_eq (t : FloatType) (rt : CompilerRt t) :
    (∀ (p : Predicate) (a b : t.Bits),
        lowerFCmp rt p a b = p.holds ((t.format.decode a).compare (t.format.decode b))) ∧
      ∀ (mask : Mask) (bits : t.Bits),
        lowerFPClass t mask bits =
          (mask &&& classMask (t.format.negative bits) (t.format.kind bits) != 0) := by
  refine ⟨lowerFCmp_eq rt, fun mask bits => ?_⟩
  obtain ⟨quiet, htests⟩ := tests_eq t bits
  rw [lowerFPClass, htests, combine_testsOf]

/-- What compiler-rt's comparison returns: -1, 0 or 1, and `unordered` for NaNs. -/
def orderResult (unordered : BitVec 64) : Option Ordering → BitVec 64
  | none => unordered
  | some .lt => -1
  | some .eq => 0
  | some .gt => 1

def referenceRt (t : FloatType) : CompilerRt t where
  call name a b :=
    let order := (t.format.decode a).compare (t.format.decode b)
    if name = "__unordsf2" ∨ name = "__unorddf2" then if order = none then 1 else 0
    else orderResult (if name = "__gesf2" ∨ name = "__gedf2" then -1 else 1) order
  eq_zero_iff a b := by
    cases t <;> simp <;> rcases Datum.compare _ _ with _ | (_ | _ | _) <;> decide
  le_neg_iff a b := by
    cases t <;> simp <;> rcases Datum.compare _ _ with _ | (_ | _ | _) <;> decide
  le_zero_iff a b := by
    cases t <;> simp <;> rcases Datum.compare _ _ with _ | (_ | _ | _) <;> decide
  ge_pos_iff a b := by
    cases t <;> simp <;> rcases Datum.compare _ _ with _ | (_ | _ | _) <;> decide
  ge_zero_iff a b := by
    cases t <;> simp <;> rcases Datum.compare _ _ with _ | (_ | _ | _) <;> decide
  unord_zero_iff a b := by
    cases t <;> simp

/-- A negative NaN is unordered with one, and is a signaling NaN. -/
theorem lower_eq_nan :
    lowerFCmp (referenceRt .f32) .ult (0xff800001 : BitVec 32) (0x3f800000 : BitVec 32) = true ∧
      lowerFPClass .f32 .sNan (0xff800001 : BitVec 32) = true := by
  obtain ⟨hcmp, hclass⟩ := lower_eq .f32 (referenceRt .f32)
  exact ⟨(hcmp .ult _ _).trans (by decide), (hclass .sNan _).trans (by decide)⟩

end BpfCapsule.SoftFloat
