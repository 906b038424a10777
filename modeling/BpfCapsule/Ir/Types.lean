import BpfCapsule.Abi

/-!
# BpfCapsule — LLVM types and their data layout

First-class types under the target's data layout (`e-m:e-p:64:64-i64:64-i128:128-n32:64-S128`):
ABI alignment, allocation size, struct field placement, and which bytes of a type its scalar leaves
cover. A load or store of a first-class aggregate moves the leaves and nothing else.
-/

namespace BpfCapsule.Ir

inductive Ty where
  | int (bits : Nat)
  | ptr
  | array (count : Nat) (elem : Ty)
  | struct (packed : Bool) (fields : List Ty)

def intAlign (bits : Nat) : Nat :=
  if bits ≤ 8 then 1 else if bits ≤ 16 then 2 else if bits ≤ 32 then 4 else if bits ≤ 64 then 8
  else 16

mutual

/-- `getABITypeAlign`. -/
def Ty.abiAlign : Ty → Nat
  | .int bits => intAlign bits
  | .ptr => 8
  | .array _ elem => elem.abiAlign
  | .struct packed fields => if packed then 1 else fieldsAlign fields

def fieldsAlign : List Ty → Nat
  | [] => 1
  | t :: ts => max t.abiAlign (fieldsAlign ts)

end

mutual

/-- `getTypeAllocSize`. -/
def Ty.allocSize : Ty → Nat
  | .int bits => alignTo ((bits + 7) / 8) (intAlign bits)
  | .ptr => 8
  | .array count elem => count * elem.allocSize
  | .struct packed fields =>
    alignTo (fieldsEnd packed 0 fields) (if packed then 1 else fieldsAlign fields)

/-- The end of the last field when the fields are placed from `offset` on. -/
def fieldsEnd (packed : Bool) (offset : Nat) : List Ty → Nat
  | [] => offset
  | t :: ts =>
    fieldsEnd packed (alignTo offset (if packed then 1 else t.abiAlign) + t.allocSize) ts

end

mutual

/-- Whether a byte of the type belongs whole to a scalar leaf. The other bytes are padding: an
aggregate value does not carry them. -/
def Ty.covers : Ty → Nat → Bool
  | .int bits, i => decide (i < bits / 8)
  | .ptr, i => decide (i < 8)
  | .array count elem, i =>
    decide (i < count * elem.allocSize) && elem.covers (i % elem.allocSize)
  | .struct packed fields, i => fieldsCover packed 0 fields i

def fieldsCover (packed : Bool) (offset : Nat) : List Ty → Nat → Bool
  | [], _ => false
  | t :: ts, i =>
    let start := alignTo offset (if packed then 1 else t.abiAlign)
    (decide (start ≤ i) && t.covers (i - start)) ||
      fieldsCover packed (start + t.allocSize) ts i

end

mutual

/-- Whether a store of a value of the type writes this byte: a scalar leaf is stored in whole
bytes. -/
def Ty.stores : Ty → Nat → Bool
  | .int bits, i => decide (i < (bits + 7) / 8)
  | .ptr, i => decide (i < 8)
  | .array count elem, i =>
    decide (i < count * elem.allocSize) && elem.stores (i % elem.allocSize)
  | .struct packed fields, i => fieldsStore packed 0 fields i

def fieldsStore (packed : Bool) (offset : Nat) : List Ty → Nat → Bool
  | [], _ => false
  | t :: ts, i =>
    let start := alignTo offset (if packed then 1 else t.abiAlign)
    (decide (start ≤ i) && t.stores (i - start)) ||
      fieldsStore packed (start + t.allocSize) ts i

end

/-! Sizes and padding of a struct, of its packed form and of an array of it. -/

example : (Ty.struct false [.int 8, .int 32, .int 16]).allocSize = 12 := by decide
example : (List.range 12).filter (fun i => !(Ty.struct false [.int 8, .int 32, .int 16]).covers i)
    = [1, 2, 3, 10, 11] := by decide
example : (List.range 10).all (fun i => (Ty.array 2 (.struct true [.int 8, .int 32])).covers i)
    = true := by decide

/-! ## Alignments and sizes -/

theorem intAlign_dvd (bits : Nat) : intAlign bits ∣ 16 := by
  unfold intAlign
  split_ifs <;> decide

mutual

theorem Ty.abiAlign_dvd : ∀ t : Ty, t.abiAlign ∣ 16
  | .int bits => intAlign_dvd bits
  | .ptr => by decide
  | .array _ elem => elem.abiAlign_dvd
  | .struct packed fields => by
    unfold Ty.abiAlign
    split_ifs
    · decide
    · exact fieldsAlign_dvd fields

theorem fieldsAlign_dvd : ∀ ts : List Ty, fieldsAlign ts ∣ 16
  | [] => by decide
  | t :: ts => by
    unfold fieldsAlign
    rcases Nat.le_total (fieldsAlign ts) t.abiAlign with h | h
    · rw [Nat.max_eq_left h]
      exact t.abiAlign_dvd
    · rw [Nat.max_eq_right h]
      exact fieldsAlign_dvd ts

end

theorem Ty.abiAlign_pos (t : Ty) : 0 < t.abiAlign := Nat.pos_of_dvd_of_pos t.abiAlign_dvd (by decide)

/-- The alignment a field is placed with. -/
theorem placeAlign_pos (packed : Bool) (t : Ty) : 0 < if packed then 1 else t.abiAlign := by
  split_ifs
  · decide
  · exact t.abiAlign_pos

theorem le_fieldsEnd (packed : Bool) : ∀ (offset : Nat) (ts : List Ty),
    offset ≤ fieldsEnd packed offset ts
  | offset, [] => by rw [fieldsEnd]
  | offset, t :: ts => by
    have hstart := le_alignTo offset (placeAlign_pos packed t)
    have hrest := le_fieldsEnd packed
      (alignTo offset (if packed then 1 else t.abiAlign) + t.allocSize) ts
    rw [fieldsEnd]
    omega

mutual

theorem Ty.stores_lt : ∀ (t : Ty) {i : Nat}, t.stores i = true → i < t.allocSize
  | .int bits, i, h => by
    have hsize := le_alignTo ((bits + 7) / 8)
      (Nat.pos_of_dvd_of_pos (intAlign_dvd bits) (by decide))
    have hi := of_decide_eq_true h
    rw [Ty.allocSize]
    omega
  | .ptr, i, h => of_decide_eq_true h
  | .array count elem, i, h => of_decide_eq_true (Bool.and_eq_true_iff.mp h).1
  | .struct packed fields, i, h => by
    have halign : 0 < if packed then 1 else fieldsAlign fields := by
      split_ifs
      · decide
      · exact Nat.pos_of_dvd_of_pos (fieldsAlign_dvd fields) (by decide)
    have hend := fieldsStore_lt packed 0 fields h
    have hsize := le_alignTo (fieldsEnd packed 0 fields) halign
    rw [Ty.allocSize]
    omega

theorem fieldsStore_lt (packed : Bool) : ∀ (offset : Nat) (ts : List Ty) {i : Nat},
    fieldsStore packed offset ts i = true → i < fieldsEnd packed offset ts
  | _, [], _, h => by cases h
  | offset, t :: ts, i, h => by
    rw [fieldsStore, Bool.or_eq_true, Bool.and_eq_true, decide_eq_true_eq] at h
    rw [fieldsEnd]
    rcases h with ⟨hstart, hfield⟩ | hrest
    · have hsize := t.stores_lt hfield
      have hend := le_fieldsEnd packed
        (alignTo offset (if packed then 1 else t.abiAlign) + t.allocSize) ts
      omega
    · exact fieldsStore_lt packed _ ts hrest

end

mutual

theorem Ty.exists_stores : ∀ t : Ty, 0 < t.allocSize → ∃ i, t.stores i = true
  | .int bits, h => by
    have hbytes : 0 < (bits + 7) / 8 := by
      rcases Nat.eq_zero_or_pos ((bits + 7) / 8) with hzero | hpos
      · rw [Ty.allocSize, hzero, alignTo_zero] at h
        exact absurd h (by decide)
      · exact hpos
    exact ⟨0, decide_eq_true hbytes⟩
  | .ptr, _ => ⟨0, rfl⟩
  | .array count elem, h => by
    obtain ⟨i, hi⟩ := elem.exists_stores (Nat.pos_of_mul_pos_left h)
    have hlt := elem.stores_lt hi
    have hcount : elem.allocSize ≤ count * elem.allocSize :=
      Nat.le_mul_of_pos_left _ (Nat.pos_of_mul_pos_right h)
    refine ⟨i, ?_⟩
    rw [Ty.stores, Nat.mod_eq_of_lt hlt, hi, Bool.and_true, decide_eq_true_eq]
    omega
  | .struct packed fields, h => by
    rw [Ty.allocSize] at h
    have hend : 0 < fieldsEnd packed 0 fields := by
      rcases Nat.eq_zero_or_pos (fieldsEnd packed 0 fields) with hzero | hpos
      · rw [hzero, alignTo_zero] at h
        exact absurd h (by decide)
      · exact hpos
    exact exists_fieldsStore packed fields hend

theorem exists_fieldsStore (packed : Bool) : ∀ ts : List Ty, 0 < fieldsEnd packed 0 ts →
    ∃ i, fieldsStore packed 0 ts i = true
  | [], h => by
    rw [fieldsEnd] at h
    exact absurd h (by decide)
  | t :: ts, h => by
    rcases Nat.eq_zero_or_pos t.allocSize with hzero | hpos
    · -- an empty field leaves the offset where it was
      rw [fieldsEnd, alignTo_zero, hzero] at h
      obtain ⟨i, hi⟩ := exists_fieldsStore packed ts h
      refine ⟨i, ?_⟩
      rw [fieldsStore, alignTo_zero, hzero]
      simp [hi]
    · obtain ⟨i, hi⟩ := t.exists_stores hpos
      refine ⟨i, ?_⟩
      rw [fieldsStore, alignTo_zero]
      simp [hi]

end

end BpfCapsule.Ir
