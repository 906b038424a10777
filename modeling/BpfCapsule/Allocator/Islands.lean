import BpfCapsule.Lib.Programs
import Mathlib.Algebra.Group.Nat.Defs

/-!
# BpfCapsule — the allocator islands

The four no-suspend islands of the allocator take the lock, work on TLSF and release the lock. TLSF
itself is fetched code: here it is any code over the words of the heap (`Tlsf`), and `Tlsf.Correct`
is what it is trusted with, stated about running it alone. What an island does between its lock and
its release is a `Body` over TLSF's memory and the pointer `fs_tlsf`; `Island.eval_ok` says what the
body does alone to the set of allocated blocks.
-/

namespace BpfCapsule.Allocator

open Interleave
open Function (update update_self)

/-! ## TLSF -/

abbrev Mem := Nat → Nat

inductive MemOp where
  | load (a : Nat)
  | store (a v : Nat)

abbrev MemResp : MemOp → Type
  | .load _ => Nat
  | .store _ _ => Unit

def MemOp.exec : (o : MemOp) → Mem → MemResp o × Mem
  | .load a, m => (m a, m)
  | .store a v, m => ((), update m a v)

abbrev Code (α : Type) := Prog MemOp MemResp α

abbrev Code.run (p : Code α) (m : Mem) : α × Mem := p.eval MemOp.exec m

/-- The upstream allocator, as the islands call it. -/
structure Tlsf where
  size : Nat
  poolOverhead : Nat
  blockSizeMin : Nat
  blockSizeMax : Nat
  createWithPool : (mem bytes : Nat) → Code Nat
  malloc : (tlsf n : Nat) → Code Nat
  free : (tlsf address : Nat) → Code Unit
  blockSize : (address : Nat) → Code Nat
  memalign : (tlsf align n : Nat) → Code Nat

/-- `FS_ALLOCATOR_BUSY` and `FS_ALLOCATOR_ERROR`. -/
def busy : Nat := 2 ^ 64 - 1
def error : Nat := 2 ^ 64 - 2

/-- The configured heap: `capsule_heap_start` and `capsule_heap_size`. It starts above the null page
and ends below the two sentinels. -/
structure Heap where
  start : Nat
  size : Nat
  start_pos : 0 < start
  end_lt : start + size < error

abbrev Blocks := Nat → Option Nat

/-- Blocks inside the heap and apart from each other. -/
structure Heap.Holds (H : Heap) (B : Blocks) : Prop where
  inside : ∀ a size, B a = some size → H.start ≤ a ∧ a + size ≤ H.start + H.size
  disjoint : ∀ a b size size', a ≠ b → B a = some size → B b = some size' →
    a + size ≤ b ∨ b + size' ≤ a

/-- What a request for `n` bytes leaves: nothing changed, or one new block of at least `n` bytes. -/
def Grants (B : Blocks) (n r : Nat) (B' : Blocks) : Prop :=
  (r = 0 ∧ B' = B) ∨ ∃ size ≥ n, r ≠ 0 ∧ B r = none ∧ B' = update B r (some size)

/-- Alignments `tlsf_memalign` is defined for. -/
def AlignOk (T : Tlsf) (align : Nat) : Prop :=
  align ≠ 0 ∧ align &&& (align - 1) = 0 ∧ align ≤ T.blockSizeMax

/-- TLSF is correct when it is run alone: `Rep m c B` reads the words of the heap as the control
structure at `c` with the allocated blocks `B`. -/
structure Tlsf.Correct (T : Tlsf) (H : Heap) where
  Rep : Mem → Nat → Blocks → Prop
  holds : ∀ {m c B}, Rep m c B → H.Holds B
  create : ∀ m, T.size + T.poolOverhead + T.blockSizeMin ≤ H.size →
    ((T.createWithPool H.start H.size).run m).1 ≠ 0 →
    Rep ((T.createWithPool H.start H.size).run m).2 ((T.createWithPool H.start H.size).run m).1
      fun _ => none
  malloc : ∀ {m c B} (n : Nat), Rep m c B → ∃ B', Grants B n ((T.malloc c n).run m).1 B' ∧
    Rep ((T.malloc c n).run m).2 c B'
  memalign : ∀ {m c B} (align n : Nat), AlignOk T align → Rep m c B →
    ∃ B', Grants B n ((T.memalign c align n).run m).1 B' ∧ Rep ((T.memalign c align n).run m).2 c B'
  free : ∀ {m c B p size}, Rep m c B → B p = some size →
    Rep ((T.free c p).run m).2 c (update B p none)
  blockSize : ∀ {m c B p size}, Rep m c B → B p = some size →
    ((T.blockSize p).run m).1 = size ∧ Rep ((T.blockSize p).run m).2 c B

/-! ## Islands -/

/-- What the lock protects: the words of the heap and `fs_tlsf`. `pools` counts how often `fs_tlsf`
was set; nothing reads it. -/
structure Core where
  mem : Mem
  tlsf : Nat := 0
  pools : Nat := 0

inductive Micro where
  | mem (o : MemOp)
  | readTlsf
  | writeTlsf (v : Nat)

abbrev MicroResp : Micro → Type
  | .mem o => MemResp o
  | .readTlsf => Nat
  | .writeTlsf _ => Unit

def Micro.exec : (o : Micro) → Core → MicroResp o × Core
  | .mem o, c => ((o.exec c.mem).1, { c with mem := (o.exec c.mem).2 })
  | .readTlsf, c => (c.tlsf, c)
  | .writeTlsf v, c => ((), { c with tlsf := v, pools := if v = 0 then c.pools else c.pools + 1 })

abbrev Body (α : Type) := Prog Micro MicroResp α

abbrev Body.run (p : Body α) (c : Core) : α × Core := p.eval Micro.exec c

def readTlsf : Body Nat := Prog.op Micro.readTlsf
def writeTlsf (v : Nat) : Body Unit := Prog.op (Micro.writeTlsf v)

def inHeap (p : Code α) : Body α := p.handle fun o => Prog.op (.mem o)

inductive Island where
  | malloc (n : Nat)
  | free (address : Nat)
  | size (address : Nat)
  | memalign (align n : Nat)
deriving DecidableEq

section

variable (T : Tlsf) (H : Heap)

/-- `fs_setup`. -/
def setup : Body Bool := do
  if H.size < T.size + T.poolOverhead + T.blockSizeMin then
    return false
  let tlsf ← inHeap (T.createWithPool H.start H.size)
  writeTlsf tlsf
  let tlsf ← readTlsf
  return tlsf != 0

/-- `fs_tlsf || fs_setup()`. -/
def ready : Body Bool := do
  let tlsf ← readTlsf
  if tlsf ≠ 0 then return true else setup T H

def allocate (request : (tlsf : Nat) → Code Nat) : Body Nat := do
  if ← ready T H then
    let tlsf ← readTlsf
    inHeap (request tlsf)
  else return 0

def Island.body : Island → Body Nat
  | .malloc n => allocate T H (T.malloc · n)
  | .free address => do
    let tlsf ← readTlsf
    if tlsf ≠ 0 then
      inHeap (T.free tlsf address)
    return 0
  | .size address => do
    let tlsf ← readTlsf
    if tlsf ≠ 0 then inHeap (T.blockSize address) else return 0
  | .memalign align n => allocate T H (T.memalign · align n)

end

/-! ## The bodies alone -/

@[simp] theorem eval_readTlsf (c : Core) : readTlsf.run c = (c.tlsf, c) := rfl

@[simp] theorem eval_writeTlsf (v : Nat) (c : Core) : (writeTlsf v).run c =
    ((), { c with tlsf := v, pools := if v = 0 then c.pools else c.pools + 1 }) := rfl

@[simp] theorem eval_inHeap (p : Code α) (c : Core) :
    (inHeap p).run c = ((p.run c.mem).1, { c with mem := (p.run c.mem).2 }) := by
  induction p generalizing c with
  | ret a => rfl
  | act o k ih => exact ih _ _

/-- `fs_tlsf` is only set where it was null. -/
def SetsOnce : Micro → Core → Prop
  | .writeTlsf _, c => c.tlsf = 0
  | _, _ => True

theorem guarded_inHeap (p : Code α) (c : Core) : (inHeap p).Guarded Micro.exec SetsOnce c := by
  induction p generalizing c with
  | ret a => trivial
  | act o k ih => exact ⟨trivial, ih _ _⟩

section

variable {T : Tlsf} {H : Heap} (hT : T.Correct H)

/-- The protected state with the allocated blocks `B`: no pool yet and no block, or one pool. -/
inductive Represents : Core → Blocks → Prop where
  | unset {c : Core} (htlsf : c.tlsf = 0) (hpools : c.pools = 0) : Represents c fun _ => none
  | pool {c : Core} {B : Blocks} (htlsf : c.tlsf ≠ 0) (hpools : c.pools = 1)
      (hrep : hT.Rep c.mem c.tlsf B) : Represents c B

variable {hT} {c : Core} {B : Blocks}

theorem Represents.holds (h : Represents hT c B) : H.Holds B := by
  cases h with
  | unset => exact ⟨fun _ _ h => absurd h (by simp), fun _ _ _ _ _ h => absurd h (by simp)⟩
  | pool _ _ hrep => exact hT.holds hrep

/-- After a successful `ready` there is a pool, with the same blocks. -/
theorem ready_ok (h : Represents hT c B) :
    Represents hT ((ready T H).run c).2 B ∧
      (((ready T H).run c).1 = true → ((ready T H).run c).2.tlsf ≠ 0) := by
  cases h with
  | pool htlsf hpools hrep =>
    have hrun : (ready T H).run c = (true, c) := by
      simp [ready, htlsf]
    rw [hrun]
    exact ⟨.pool htlsf hpools hrep, fun _ => htlsf⟩
  | unset htlsf hpools =>
    have hready : (ready T H).run c = (setup T H).run c := by
      simp [ready, htlsf]
    rw [hready]
    by_cases hsize : H.size < T.size + T.poolOverhead + T.blockSizeMin
    · have hrun : (setup T H).run c = (false, c) := by
        simp [setup, hsize]
      rw [hrun]
      exact ⟨.unset htlsf hpools, fun h => absurd h (by simp)⟩
    · have hrun : (setup T H).run c =
          (((T.createWithPool H.start H.size).run c.mem).1 != 0,
            { mem := ((T.createWithPool H.start H.size).run c.mem).2
              tlsf := ((T.createWithPool H.start H.size).run c.mem).1
              pools := if ((T.createWithPool H.start H.size).run c.mem).1 = 0 then c.pools
                else c.pools + 1 }) := by
        simp [setup, hsize]
      rw [hrun]
      by_cases hcreate : ((T.createWithPool H.start H.size).run c.mem).1 = 0
      · refine ⟨.unset hcreate ?_, fun h => absurd h (by simp [hcreate])⟩
        simp [hcreate, hpools]
      · refine ⟨.pool hcreate ?_ (hT.create c.mem (by omega) hcreate), fun _ => hcreate⟩
        simp [hcreate, hpools]

def Island.Effect (B : Blocks) (r : Nat) (B' : Blocks) : Island → Prop
  | .malloc n => Grants B n r B'
  | .memalign _ n => Grants B n r B'
  | .free p => r = 0 ∧ B' = update B p none
  | .size p => B p = some r ∧ B' = B

def Island.Needs (T : Tlsf) (B : Blocks) : Island → Prop
  | .malloc _ => True
  | .memalign align _ => AlignOk T align
  | .free p => B p ≠ none
  | .size p => B p ≠ none

theorem allocate_ok {request : Nat → Code Nat} {n : Nat}
    (hrequest : ∀ {m c B}, hT.Rep m c B → ∃ B', Grants B n ((request c).run m).1 B' ∧
      hT.Rep ((request c).run m).2 c B') (h : Represents hT c B) :
    ∃ B', Grants B n ((allocate T H request).run c).1 B' ∧
      Represents hT ((allocate T H request).run c).2 B' := by
  obtain ⟨hrep, htlsf⟩ := ready_ok h
  cases hready : ((ready T H).run c).1 with
  | false =>
    have hrun : (allocate T H request).run c = (0, ((ready T H).run c).2) := by
      simp [allocate, hready]
    rw [hrun]
    exact ⟨B, .inl ⟨rfl, rfl⟩, hrep⟩
  | true =>
    let c' := ((ready T H).run c).2
    have hrun : (allocate T H request).run c =
        (((request c'.tlsf).run c'.mem).1, { c' with mem := ((request c'.tlsf).run c'.mem).2 }) := by
      simp [allocate, hready, c']
    rw [hrun]
    cases hrep with
    | unset hnull _ => exact absurd hnull (htlsf hready)
    | pool _ hpools hrep =>
      obtain ⟨B', hgrants, hrep'⟩ := hrequest hrep
      exact ⟨B', hgrants, .pool (htlsf hready) hpools hrep'⟩

/-- What the body of an island does alone. -/
theorem Island.eval_ok {i : Island} (h : Represents hT c B) (hneeds : i.Needs T B) :
    ∃ B', i.Effect B ((i.body T H).run c).1 B' ∧ Represents hT ((i.body T H).run c).2 B' := by
  cases i with
  | malloc n => exact allocate_ok (hT.malloc n) h
  | memalign align n => exact allocate_ok (hT.memalign align n hneeds) h
  | free p =>
    cases h with
    | unset => exact absurd rfl hneeds
    | pool htlsf hpools hrep =>
      obtain ⟨size, hsize⟩ := Option.ne_none_iff_exists'.mp hneeds
      have hrun : (Island.body T H (.free p)).run c =
          (0, { c with mem := ((T.free c.tlsf p).run c.mem).2 }) := by
        simp [Island.body, htlsf]
      rw [hrun]
      exact ⟨_, ⟨rfl, rfl⟩, .pool htlsf hpools (hT.free hrep hsize)⟩
  | size p =>
    cases h with
    | unset => exact absurd rfl hneeds
    | pool htlsf hpools hrep =>
      obtain ⟨size, hsize⟩ := Option.ne_none_iff_exists'.mp hneeds
      have hrun : (Island.body T H (.size p)).run c =
          (((T.blockSize p).run c.mem).1, { c with mem := ((T.blockSize p).run c.mem).2 }) := by
        simp [Island.body, htlsf]
      rw [hrun]
      obtain ⟨hresult, hrep'⟩ := hT.blockSize hrep hsize
      exact ⟨B, ⟨hresult ▸ hsize, rfl⟩, .pool htlsf hpools hrep'⟩

/-- The result of an island is never one of the sentinels. -/
theorem Island.Effect.lt_error {i : Island} {r : Nat} {B' : Blocks} (h : i.Effect B r B')
    (hB : H.Holds B) (hB' : H.Holds B') : r < error := by
  have hend := H.end_lt
  have hgrants : ∀ {n : Nat}, Grants B n r B' → r < error := by
    intro n hg
    rcases hg with ⟨rfl, -⟩ | ⟨size, -, -, -, rfl⟩
    · decide
    · have := hB'.inside r size (update_self ..)
      omega
  cases i with
  | malloc n => exact hgrants h
  | memalign align n => exact hgrants h
  | free p =>
    rw [h.1]
    decide
  | size p =>
    have := hB.inside p r h.1
    omega

theorem guarded_readTlsf (c : Core) : readTlsf.Guarded Micro.exec SetsOnce c := ⟨trivial, trivial⟩

theorem guarded_ready (c : Core) : (ready T H).Guarded Micro.exec SetsOnce c := by
  refine Prog.guarded_bind (guarded_readTlsf c) ?_
  split
  · exact Prog.guarded_pure ..
  · rename_i htlsf
    unfold setup
    split
    · exact Prog.guarded_pure ..
    · -- TLSF's code leaves `fs_tlsf` null until it is set
      refine Prog.guarded_bind (guarded_inHeap _ c) (Prog.guarded_bind ?_ ?_)
      · refine ⟨?_, trivial⟩
        show ((inHeap (T.createWithPool H.start H.size)).run c).2.tlsf = 0
        rw [eval_inHeap]
        exact not_not.mp htlsf
      · exact Prog.guarded_bind (guarded_readTlsf _) (Prog.guarded_pure ..)

theorem guarded_allocate (request : Nat → Code Nat) (c : Core) :
    (allocate T H request).Guarded Micro.exec SetsOnce c := by
  refine Prog.guarded_bind (guarded_ready c) ?_
  split
  · exact Prog.guarded_bind (guarded_readTlsf _) (guarded_inHeap _ _)
  · exact Prog.guarded_pure ..

theorem Island.guarded (i : Island) (c : Core) : (i.body T H).Guarded Micro.exec SetsOnce c := by
  cases i with
  | malloc n => exact guarded_allocate _ c
  | memalign align n => exact guarded_allocate _ c
  | free p =>
    refine Prog.guarded_bind (guarded_readTlsf c) ?_
    split
    · exact Prog.guarded_bind (guarded_inHeap _ _) (Prog.guarded_pure ..)
    · exact Prog.guarded_bind (Prog.guarded_pure ..) (Prog.guarded_pure ..)
  | size p =>
    refine Prog.guarded_bind (guarded_readTlsf c) ?_
    split
    · exact guarded_inHeap _ _
    · exact Prog.guarded_pure ..

end

end BpfCapsule.Allocator
