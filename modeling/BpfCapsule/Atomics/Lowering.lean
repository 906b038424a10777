import BpfCapsule.Lib.Binary
import BpfCapsule.Lib.Bytes
import BpfCapsule.Lib.Linearize

/-!
# BpfCapsule — lowering managed atomics

BPF has 32- and 64-bit atomics only. `bpf-lower-managed-atomics` turns an atomic access of a byte or a
half-word into a loop that reads the containing word and compare-exchanges it, some wide
read-modify-writes into a loop over the value itself, subtraction into addition, and loads and stores
stronger than relaxed into read-modify-writes. `bpf-validate-atomics` then accepts what BPF can do.

An instruction left by the pass is carried out in one step, and so is each basic block of a loop the
pass builds: a block has at most one access of the memory. The target is little-endian.
-/

namespace BpfCapsule.Atomics

abbrev Mem := Nat → UInt8

inductive Width where
  | w8 | w16 | w32 | w64
deriving DecidableEq, Repr

def Width.bytes : Width → Nat
  | .w8 => 1
  | .w16 => 2
  | .w32 => 4
  | .w64 => 8

abbrev Width.bits (w : Width) : Nat := 8 * w.bytes

abbrev Word := BitVec (8 * 4)

inductive AtomicOrdering where
  | unordered | monotonic | acquire | release | acquireRelease | sequentiallyConsistent
deriving DecidableEq, Repr

def isStrongerThanMonotonic : AtomicOrdering → Bool
  | .unordered | .monotonic => false
  | _ => true

inductive BinOp where
  | add | sub | and | nand | or | xor | xchg
deriving DecidableEq, Repr

def atomicOperation {n : Nat} (operation : BinOp) (oldValue operand : BitVec n) : BitVec n :=
  match operation with
  | .add => oldValue + operand
  | .sub => oldValue - operand
  | .and => oldValue &&& operand
  | .nand => ~~~(oldValue &&& operand)
  | .or => oldValue ||| operand
  | .xor => oldValue ^^^ operand
  | .xchg => operand

/-! ## Accesses -/

def loadBits (m : Mem) (pointer : BitVec 64) (n : Nat) : BitVec (8 * n) :=
  .ofNat _ (Bytes.load .little m pointer.toNat n)

def storeBits {n : Nat} (m : Mem) (pointer : BitVec 64) (value : BitVec (8 * n)) : Mem :=
  Bytes.store .little m pointer.toNat n value.toNat

def rmw {n : Nat} (m : Mem) (pointer : BitVec 64) (operation : BinOp) (operand : BitVec (8 * n)) :
    Mem × BitVec (8 * n) :=
  (storeBits m pointer (atomicOperation operation (loadBits m pointer n) operand), loadBits m pointer n)

def cas {n : Nat} (m : Mem) (pointer : BitVec 64) (expected desired : BitVec (8 * n)) :
    Mem × BitVec (8 * n) × Bool :=
  if loadBits m pointer n = expected then (storeBits m pointer desired, loadBits m pointer n, true)
  else (m, loadBits m pointer n, false)

/-- An atomic instruction of width `w`, without its address. -/
inductive Access (w : Width) where
  | load (ordering : AtomicOrdering)
  | store (ordering : AtomicOrdering) (value : BitVec w.bits)
  | rmw (operation : BinOp) (operand : BitVec w.bits)
  | cmpXchg (expected desired : BitVec w.bits)

structure Inst where
  width : Width
  pointer : BitVec 64
  align : Nat
  /-- The pointer is into a global with a section of its own: `IsSectionedPointer`. -/
  sectioned : Bool
  access : Access width

inductive Result where
  | void
  | value (v : Nat)
  | exchange (observed : Nat) (exchanged : Bool)
deriving DecidableEq, Repr

def Access.exec {w : Width} (pointer : BitVec 64) (m : Mem) : Access w → Mem × Result
  | .load _ => (m, .value (loadBits m pointer w.bytes).toNat)
  | .store _ value => (storeBits m pointer value, .void)
  | .rmw operation operand =>
    let (m', oldValue) := Atomics.rmw m pointer operation operand
    (m', .value oldValue.toNat)
  | .cmpXchg expected desired =>
    let (m', observed, exchanged) := cas m pointer expected desired
    (m', .exchange observed.toNat exchanged)

def Inst.exec (inst : Inst) (m : Mem) : Mem × Result := inst.access.exec inst.pointer m

/-! ## The containing word -/

structure NarrowWord where
  pointer : BitVec 64
  shift : Word
  mask : Word

def narrowWordFor (pointer : BitVec 64) (bits : Nat) : NarrowWord :=
  let byte := pointer &&& 3
  let aligned := pointer &&& -4
  let shift : Word := byte.setWidth _ * 8
  let lowMask : Word := if bits = 32 then .allOnes _ else (1 <<< bits) - 1
  ⟨aligned, shift, lowMask <<< shift⟩

def extractNarrow (word shift : Word) (n : Nat) : BitVec n := (word >>> shift).setWidth n

def replaceNarrow {n : Nat} (word shift mask : Word) (value : BitVec n) : Word :=
  let inserted := value.setWidth (8 * 4) <<< shift
  let preserved := word &&& ~~~mask
  let replacement := inserted &&& mask
  preserved ||| replacement

/-! ## The pass -/

structure Rmw where
  width : Width
  pointer : BitVec 64
  align : Nat
  operation : BinOp
  operand : BitVec width.bits

structure CmpXchg where
  width : Width
  pointer : BitVec 64
  expected : BitVec width.bits
  desired : BitVec width.bits

inductive Code where
  | inst (inst : Inst)
  /-- `atomicrmw add` of zero on the containing word. -/
  | narrowLoad (width : Width) (pointer : BitVec 64)
  | narrowRmw (rmw : Rmw)
  | wideRmw (rmw : Rmw)
  | narrowCmpXchg (cmp : CmpXchg)

structure Lowered where
  code : Code
  /-- The code replaces a store, so nothing uses its result. -/
  unused : Bool

def narrow (w : Width) : Bool := w = .w8 || w = .w16

/-- `LowerManagedAtomicsPass::run` at one instruction; an error ends the compilation. -/
def lower (lowerWideBitwise : Bool) (inst : Inst) : Except String Lowered :=
  match inst with
  | ⟨w, pointer, align, sectioned, .rmw operation operand⟩ =>
    if narrow w && !sectioned then
      if align * 8 < w.bits then
        .error "bpf-lower-managed-atomics: sub-word atomic is not naturally aligned"
      else .ok ⟨.narrowRmw ⟨w, pointer, align, operation, operand⟩, false⟩
    else if (operation = .nand ||
        (lowerWideBitwise && (operation = .and || operation = .or || operation = .xor))) &&
        !sectioned then
      .ok ⟨.wideRmw ⟨w, pointer, align, operation, operand⟩, false⟩
    else if operation = .sub && (w = .w32 || w = .w64) then
      .ok ⟨.inst ⟨w, pointer, align, sectioned, .rmw .add (-operand)⟩, false⟩
    else .ok ⟨.inst inst, false⟩
  | ⟨w, pointer, align, sectioned, .cmpXchg expected desired⟩ =>
    if narrow w && !sectioned then
      if align * 8 < w.bits then
        .error "bpf-lower-managed-atomics: sub-word compare-exchange is not naturally aligned"
      else .ok ⟨.narrowCmpXchg ⟨w, pointer, expected, desired⟩, false⟩
    else .ok ⟨.inst inst, false⟩
  | ⟨w, pointer, align, sectioned, .load ordering⟩ =>
    if !isStrongerThanMonotonic ordering || (narrow w && sectioned) then .ok ⟨.inst inst, false⟩
    else if align * 8 < w.bits then
      .error "bpf-lower-managed-atomics: atomic load is not naturally aligned"
    else if narrow w then .ok ⟨.narrowLoad w pointer, false⟩
    else .ok ⟨.inst ⟨w, pointer, align, sectioned, .rmw .add 0⟩, false⟩
  | ⟨w, pointer, align, sectioned, .store ordering value⟩ =>
    if !isStrongerThanMonotonic ordering || (narrow w && sectioned) then .ok ⟨.inst inst, false⟩
    else if align * 8 < w.bits then
      .error "bpf-lower-managed-atomics: atomic store is not naturally aligned"
    else if narrow w then .ok ⟨.narrowRmw ⟨w, pointer, align, .xchg, value⟩, true⟩
    else .ok ⟨.inst ⟨w, pointer, align, sectioned, .rmw .xchg value⟩, true⟩

/-- `IsManagedRmw`; `IsNativeRmw` accepts no more. -/
def isManagedRmw (inst : Inst) : Bool :=
  match inst with
  | ⟨w, _, align, _, .rmw operation _⟩ =>
    (operation = .add || operation = .and || operation = .or || operation = .xor ||
      operation = .xchg) && (w = .w32 || w = .w64) && w.bits ≤ align * 8
  | ⟨w, _, align, _, .cmpXchg _ _⟩ => (w = .w32 || w = .w64) && w.bits ≤ align * 8
  | _ => false

def isPreservedLoadStore (inst : Inst) : Bool :=
  match inst with
  | ⟨w, _, align, _, .load ordering⟩ | ⟨w, _, align, _, .store ordering _⟩ =>
    !isStrongerThanMonotonic ordering && w.bytes ≤ align
  | _ => false

/-- `ValidateAtomicsPass::run` with managed read-modify-writes, at the atomic instructions of the
code: the loops over a word access it with its own alignment, a wide one with the instruction's. -/
def validate : Code → Bool
  | .inst inst => isPreservedLoadStore inst || isManagedRmw inst
  | .wideRmw rmw => (rmw.width = .w32 || rmw.width = .w64) && rmw.width.bits ≤ rmw.align * 8
  | .narrowLoad _ _ | .narrowRmw _ | .narrowCmpXchg _ => true

/-! ## Running the code -/

/-- The basic blocks of the code, with the values of their PHI nodes. -/
inductive Block where
  | before (code : Code)
  | rmwRetry (rmw : Rmw) (current : Word)
  | wideRetry (rmw : Rmw) (current : BitVec rmw.width.bits)
  | cmpRetry (cmp : CmpXchg) (current : Word)
  | cmpAttempt (cmp : CmpXchg) (current : Word)

def Block.step (block : Block) (m : Mem) : Mem × (Block ⊕ Result) :=
  match block with
  | .before (.inst inst) =>
    let (m', result) := inst.exec m
    (m', .inr result)
  | .before (.narrowLoad w pointer) =>
    let target := narrowWordFor pointer w.bits
    let (m', word) := rmw m target.pointer .add (0 : Word)
    (m', .inr (.value (extractNarrow word target.shift w.bits).toNat))
  | .before (.narrowRmw r) =>
    (m, .inl (.rmwRetry r (loadBits m (narrowWordFor r.pointer r.width.bits).pointer 4)))
  | .rmwRetry r current =>
    let target := narrowWordFor r.pointer r.width.bits
    let oldValue := extractNarrow current target.shift r.width.bits
    let newValue := atomicOperation r.operation oldValue r.operand
    let desired := replaceNarrow current target.shift target.mask newValue
    let (m', observed, success) := cas m target.pointer current desired
    (m', if success then .inr (.value oldValue.toNat) else .inl (.rmwRetry r observed))
  | .before (.wideRmw r) => (m, .inl (.wideRetry r (loadBits m r.pointer r.width.bytes)))
  | .wideRetry r current =>
    let desired := atomicOperation r.operation current r.operand
    let (m', observed, success) := cas m r.pointer current desired
    (m', if success then .inr (.value current.toNat) else .inl (.wideRetry r observed))
  | .before (.narrowCmpXchg c) =>
    (m, .inl (.cmpRetry c (loadBits m (narrowWordFor c.pointer c.width.bits).pointer 4)))
  | .cmpRetry c current =>
    let observedValue := extractNarrow current (narrowWordFor c.pointer c.width.bits).shift c.width.bits
    (m, if observedValue = c.expected then .inl (.cmpAttempt c current)
      else .inr (.exchange observedValue.toNat false))
  | .cmpAttempt c current =>
    let target := narrowWordFor c.pointer c.width.bits
    let observedValue := extractNarrow current target.shift c.width.bits
    let desired := replaceNarrow current target.shift target.mask c.desired
    let (m', observedWord, success) := cas m target.pointer current desired
    (m', if success then .inr (.exchange observedValue.toNat true) else .inl (.cmpRetry c observedWord))

/-- The code of an instruction in the middle of its run. -/
structure Frame where
  unused : Bool
  block : Block

def dropIf (unused : Bool) (result : Result) : Result := if unused then .void else result

def Frame.step (frame : Frame) (m : Mem) : Mem × (Frame ⊕ Result) :=
  let (m', out) := frame.block.step m
  (m', out.map (Frame.mk frame.unused) (dropIf frame.unused))

/-! ## The word holds the bytes -/

section

variable {m : Mem} {pointer : BitVec 64} {n i : Nat}

theorem toNat_loadBits : (loadBits m pointer n).toNat = Bytes.load .little m pointer.toNat n := by
  apply Nat.mod_eq_of_lt
  have hlt := Bytes.load_lt (o := .little) (m := m) (a := pointer.toNat) (w := n)
  rwa [show (256 : Nat) = 2 ^ 8 from rfl, ← Nat.pow_mul] at hlt

theorem digit_loadBits (hi : i < n) :
    Bytes.digit (loadBits m pointer n).toNat i = (m (pointer.toNat + i)).toNat := by
  rw [toNat_loadBits]
  exact Bytes.digit_load hi

/-- A bit of a loaded word is a bit of one of its bytes. -/
theorem getLsbD_loadBits (hi : i < 8 * n) :
    (loadBits m pointer n).getLsbD i = (m (pointer.toNat + i / 8)).toNat.testBit (i % 8) := by
  rw [← BitVec.testBit_toNat, ← digit_loadBits (n := n) (by omega), Bytes.testBit_digit (Nat.mod_lt i (by decide)),
    Nat.div_add_mod]

theorem outside_storeBits (v : BitVec (8 * n)) :
    Bytes.Outside pointer.toNat (pointer.toNat + n) m (storeBits m pointer v) := Bytes.outside_store

theorem storeBits_loadBits : storeBits m pointer (loadBits m pointer n) = m := by
  funext x
  unfold storeBits
  rw [Bytes.store_apply]
  split
  next hx =>
    show UInt8.ofNat (Bytes.digit _ (x - _)) = m x
    rw [digit_loadBits (by omega), UInt8.ofNat_toNat, Nat.add_sub_cancel' hx.1]
  next => rfl

theorem pointer_narrowWordFor (bits : Nat) :
    (narrowWordFor pointer bits).pointer.toNat = pointer.toNat - pointer.toNat % 4 := by
  show (pointer &&& -4).toNat = _
  have hmask : (-4 : BitVec 64).toNat = (2 ^ 62 - 1) * 2 ^ 2 := by decide
  rw [BitVec.toNat_and, hmask, Binary.and_field]
  omega

theorem shift_narrowWordFor (bits : Nat) :
    (narrowWordFor pointer bits).shift.toNat = 8 * (pointer.toNat % 4) := by
  show ((pointer &&& 3).setWidth (8 * 4) * 8).toNat = _
  have hbyte : (pointer &&& 3).toNat = pointer.toNat % 4 := by
    rw [BitVec.toNat_and, show (3 : BitVec 64).toNat = 2 ^ 2 - 1 from rfl,
      Nat.and_two_pow_sub_one_eq_mod]
  rw [BitVec.toNat_mul, BitVec.toNat_setWidth, hbyte]
  show pointer.toNat % 4 % 2 ^ 32 * 8 % 2 ^ 32 = _
  omega

variable {w : Width} (hw : narrow w)

include hw

theorem getLsbD_lowMask (i : Nat) :
    ((if w.bits = 32 then .allOnes _ else (1 <<< w.bits) - 1 : Word)).getLsbD i = decide (i < w.bits) := by
  have hmask : (if w.bits = 32 then .allOnes _ else (1 <<< w.bits) - 1 : Word) =
      .ofNat _ (2 ^ w.bits - 1) := by
    cases w <;> rfl
  have hbits : w.bits ≤ 16 := by
    cases w <;> first | decide | simp [narrow] at hw
  rw [hmask, BitVec.getLsbD_ofNat, Nat.testBit_two_pow_sub_one]
  by_cases hi : i < w.bits
  · simp [hi]; omega
  · simp [hi]

theorem getLsbD_mask (i : Nat) (hi : i < 32) :
    (narrowWordFor pointer w.bits).mask.getLsbD i =
      decide (8 * (pointer.toNat % 4) ≤ i ∧ i < 8 * (pointer.toNat % 4) + w.bits) := by
  show ((if w.bits = 32 then .allOnes _ else (1 <<< w.bits) - 1 : Word) <<<
    (narrowWordFor pointer w.bits).shift).getLsbD i = _
  rw [BitVec.shiftLeft_eq', BitVec.getLsbD_shiftLeft, shift_narrowWordFor, getLsbD_lowMask hw]
  rw [show decide (i < 8 * 4) = true from decide_eq_true hi, Bool.true_and]
  by_cases hlt : i < 8 * (pointer.toNat % 4)
  · simp [hlt, Nat.not_le.mpr hlt]
  · have hle : 8 * (pointer.toNat % 4) ≤ i := Nat.le_of_not_lt hlt
    simp only [hlt, decide_false, Bool.not_false, Bool.true_and, hle, true_and]
    rw [decide_eq_decide]
    omega

/-- A naturally aligned narrow value lies in one word. -/
theorem byte_add_le (haligned : w.bytes ∣ pointer.toNat) : pointer.toNat % 4 + w.bytes ≤ 4 := by
  cases w with
  | w8 =>
    have := Nat.mod_lt pointer.toNat (show 0 < 4 by decide)
    exact this
  | w16 =>
    have hdvd : 2 ∣ pointer.toNat := haligned
    show pointer.toNat % 4 + 2 ≤ 4
    omega
  | w32 => simp [narrow] at hw
  | w64 => simp [narrow] at hw

theorem extractNarrow_loadBits (haligned : w.bytes ∣ pointer.toNat) :
    extractNarrow (loadBits m (narrowWordFor pointer w.bits).pointer 4)
      (narrowWordFor pointer w.bits).shift w.bits = loadBits m pointer w.bytes := by
  have hfits := byte_add_le hw haligned
  apply BitVec.eq_of_getLsbD_eq
  intro i hi
  have hi' : i < 8 * w.bytes := hi
  have hbyte : pointer.toNat - pointer.toNat % 4 + (8 * (pointer.toNat % 4) + i) / 8 =
      pointer.toNat + i / 8 := by omega
  have hbit : (8 * (pointer.toNat % 4) + i) % 8 = i % 8 := by omega
  rw [extractNarrow, BitVec.getLsbD_setWidth, BitVec.ushiftRight_eq', BitVec.getLsbD_ushiftRight,
    shift_narrowWordFor, getLsbD_loadBits hi', getLsbD_loadBits (by omega), pointer_narrowWordFor,
    hbyte, hbit, decide_eq_true hi, Bool.true_and]

theorem getLsbD_replaceNarrow (word : Word) (v : BitVec w.bits) (hi : i < 32) :
    (replaceNarrow word (narrowWordFor pointer w.bits).shift (narrowWordFor pointer w.bits).mask
        v).getLsbD i =
      if 8 * (pointer.toNat % 4) ≤ i ∧ i < 8 * (pointer.toNat % 4) + w.bits then
        v.getLsbD (i - 8 * (pointer.toNat % 4))
      else word.getLsbD i := by
  have hi' : i < 8 * 4 := hi
  simp only [replaceNarrow, BitVec.getLsbD_or, BitVec.getLsbD_and, BitVec.getLsbD_not,
    BitVec.shiftLeft_eq', BitVec.getLsbD_shiftLeft, BitVec.getLsbD_setWidth, shift_narrowWordFor,
    getLsbD_mask hw i hi, hi', decide_true, Bool.true_and]
  by_cases hin : 8 * (pointer.toNat % 4) ≤ i ∧ i < 8 * (pointer.toNat % 4) + w.bits
  · have hsub : i - 8 * (pointer.toNat % 4) < 8 * 4 := by omega
    simp [hin, hsub, Nat.not_lt.mpr hin.1]
  · simp [hin]

/-- Storing the replaced word stores the value, and keeps the bytes beside it. -/
theorem storeBits_replaceNarrow (haligned : w.bytes ∣ pointer.toNat)
    (v : BitVec w.bits) :
    storeBits (n := 4) m (narrowWordFor pointer w.bits).pointer
      (replaceNarrow (loadBits m (narrowWordFor pointer w.bits).pointer 4)
        (narrowWordFor pointer w.bits).shift (narrowWordFor pointer w.bits).mask v) =
      storeBits m pointer v := by
  have hfits := byte_add_le hw haligned
  have hbase : (narrowWordFor pointer w.bits).pointer.toNat = pointer.toNat - pointer.toNat % 4 :=
    pointer_narrowWordFor w.bits
  funext x
  unfold storeBits
  rw [Bytes.store_apply, Bytes.store_apply]
  by_cases hword : (narrowWordFor pointer w.bits).pointer.toNat ≤ x ∧
      x < (narrowWordFor pointer w.bits).pointer.toNat + 4
  · rw [if_pos hword]
    by_cases hin : pointer.toNat ≤ x ∧ x < pointer.toNat + w.bytes
    · -- A byte of the value: the same bits, the shift further up in the word.
      rw [if_pos hin]
      congr 1
      apply Bytes.digit_eq_of_testBit
      intro j hj
      show BitVec.getLsbD _ (8 * (x - _) + j) = BitVec.getLsbD _ (8 * (x - _) + j)
      rw [getLsbD_replaceNarrow hw _ _ (by omega), if_pos (by show _ ∧ _ < _ + 8 * w.bytes; omega)]
      congr 1
      omega
    · -- A neighbour: the bits of the loaded word, which are those of the memory.
      rw [if_neg hin]
      have hkeep : Bytes.digit (replaceNarrow (loadBits m (narrowWordFor pointer w.bits).pointer 4)
          (narrowWordFor pointer w.bits).shift (narrowWordFor pointer w.bits).mask v).toNat
            (x - (narrowWordFor pointer w.bits).pointer.toNat) =
          Bytes.digit (loadBits m (narrowWordFor pointer w.bits).pointer 4).toNat
            (x - (narrowWordFor pointer w.bits).pointer.toNat) := by
        apply Bytes.digit_eq_of_testBit
        intro j hj
        show BitVec.getLsbD _ (8 * (x - _) + j) = BitVec.getLsbD _ (8 * (x - _) + j)
        rw [getLsbD_replaceNarrow hw _ _ (by omega), if_neg (by show ¬ (_ ∧ _ < _ + 8 * w.bytes); omega)]
      show UInt8.ofNat (Bytes.digit _ (x - _)) = m x
      rw [hkeep, digit_loadBits (by omega), UInt8.ofNat_toNat,
        Nat.add_sub_cancel' hword.1]
  · rw [if_neg hword, if_neg (by omega)]

end

end BpfCapsule.Atomics
