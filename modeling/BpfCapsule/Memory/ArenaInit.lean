import BpfCapsule.Plan.Layout
import BpfCapsule.Lib.Interleave
import BpfCapsule.Lib.Word

/-!
# BpfCapsule — the initializer of an arena object

`__bpf_capsule_init` allocates the sparse memory of an arena object, publishes its base and applies
the pointer fixups of the initialized image. Any number of invocations may run at once. The ready
word elects one of them: 0 is uninitialized, 1 is owned by one initializer, 2 is ready. A failed
allocation hands the word back as 0.

* `capsuleInit` is the generated code, one atomic operation at a time.
* `Place` is where an invocation is between its claim and its publication. The shared state records
  it for every invocation, next to the allocations and the published bases; no operation's answer
  depends on these records.
* `Inv` says what the memory holds for every place of the owner; `initializing` is the protocol whose
  views are the places.
-/

namespace BpfCapsule.ArenaInit

open Interleave
open Function (update update_self update_of_ne)

/-! ## The object -/

/-- One row of the fixup tables: `width` bytes at `destination` in the image receive a combination of
the three bases plus an addend. -/
structure Fixup where
  destination : Nat
  width : Nat
  addend : Nat
  allocationBase : Int
  memoryViewBase : Int
  imageAddress : Int
  deriving DecidableEq

/-- What the generated initializer of an object contains: the configured memory end, the slice size
and the fixup rows in the order of their tables. -/
structure Object where
  memoryEnd : Nat
  sliceLog : Nat
  memoryViewBase : Nat
  imageAddress : Nat
  fixups : List Fixup
  memoryEnd_pos : 0 < memoryEnd
  memoryEnd_lt : memoryEnd < addressLimit
  sliceLog_le : sliceLog ≤ memoryRegionShift

namespace Object

variable (O : Object)

def fiberStackSize : Nat := 2 ^ O.sliceLog

def pages : Nat :=
  (Word.add 64 (Word.add 64 O.memoryEnd (arenaPageSize - 1) >>> arenaPageShift)
    (sliceSlackPages O.fiberStackSize)) % 2 ^ 32

/-- The base published for an allocation at `start`: aligned up when there is slack to skip. -/
def alignedBase (start : Nat) : Nat :=
  if sliceSlackPages O.fiberStackSize ≠ 0 then
    Word.add 64 start (O.fiberStackSize - 1) &&& Word.not 64 (O.fiberStackSize - 1)
  else start

def fixupValue (base : Nat) (f : Fixup) : Nat :=
  ((f.allocationBase * base + f.memoryViewBase * O.memoryViewBase + f.imageAddress * O.imageAddress +
    f.addend) % 2 ^ (8 * f.width) : Int).toNat

def applyFixup (base : Nat) (bytes : Nat → Nat) (f : Fixup) : Nat → Nat := fun a =>
  let start := O.imageAddress + f.destination
  if start ≤ a ∧ a < start + f.width then (O.fixupValue base f >>> (8 * (a - start))) % 256
  else bytes a

def applyFixups (base : Nat) (bytes : Nat → Nat) (fixups : List Fixup) : Nat → Nat :=
  fixups.foldl (O.applyFixup base) bytes

end Object

/-! ## The shared state and the operations -/

/-- Where an invocation is in the section it has to itself. -/
inductive Place where
  | outside
  | claimed
  | failed
  | allocated (start : Nat)
  | fixing (base : Nat) (count : Nat)
  deriving DecidableEq

/-- The control record and the image; below them, for every invocation its place and whether it has
seen the ready state, and what was allocated and published so far. -/
structure Shared where
  ready : Nat
  virtualBase : Nat
  bytes : Nat → Nat
  place : Nat → Place
  sawReady : Nat → Bool
  allocations : List (Nat × Nat)
  bases : List Nat

inductive Op where
  /-- The atomic add of zero that reads the ready word. -/
  | fetchReady
  /-- The compare-exchange of the ready word from 0 to 1. -/
  | claim
  | allocPages (pages : Nat)
  | storeVirtualBase (base : Nat)
  | storeFixup (base : Nat) (f : Fixup)
  /-- The exchange of the ready word to 2. -/
  | publish
  /-- The exchange of the ready word to 0. -/
  | abandon

/-- The answer to an operation: the ready word before it, whether the claim won, the allocation. -/
abbrev Resp : Op → Type
  | .fetchReady => Nat
  | .claim => Nat × Bool
  | .allocPages _ => Nat
  | .storeVirtualBase _ | .storeFixup _ _ | .publish | .abandon => Unit

def Op.exclusive : Op → Bool
  | .fetchReady | .claim => false
  | .allocPages _ | .storeVirtualBase _ | .storeFixup _ _ | .publish | .abandon => true

namespace Shared

def move (s : Shared) (t : Nat) (p : Place) : Shared :=
  { s with place := update s.place t p }

def saw (s : Shared) (t : Nat) : Shared :=
  { s with sawReady := update s.sawReady t (decide (s.ready = 2)) }

end Shared

/-- One operation of invocation `t`. An allocation fails, or returns a page-aligned span of the
address space at the place the environment chooses. -/
def exec (O : Object) (t : Nat) : (o : Op) → Nat → Shared → Option (Resp o × Shared)
  | .fetchReady, _, s => some (s.ready, s.saw t)
  | .claim, _, s =>
    if s.ready = 0 then some ((0, true), { s.move t .claimed with ready := 1 })
    else some ((s.ready, false), s.saw t)
  | .allocPages pages, start, s =>
    if start = 0 then some (0, s.move t .failed)
    else if start % arenaPageSize = 0 ∧ start + pages * arenaPageSize < 2 ^ 64 then
      some (start, { s.move t (.allocated start) with allocations := (start, pages) :: s.allocations })
    else none
  | .storeVirtualBase base, _, s =>
    some ((), { s.move t (.fixing base 0) with virtualBase := base, bases := base :: s.bases })
  | .storeFixup base f, _, s =>
    match s.place t with
    | .fixing base' count =>
      some ((), { s.move t (.fixing base' (count + 1)) with bytes := O.applyFixup base s.bytes f })
    | _ => some ((), { s with bytes := O.applyFixup base s.bytes f })
  | .publish, _, s => some ((), { s.move t .outside with ready := 2 }.saw t)
  | .abandon, _, s => some ((), { s.move t .outside with ready := 0 })

/-! ## The generated code -/

abbrev Code := Prog Op Resp

def perform (o : Op) : Code (Resp o) := Prog.op o

def EAGAIN : Int := 11
def ENOMEM : Int := 12

/-- `EmitArenaFixups`: one callback per row. -/
def emitArenaFixups (base : Nat) : List Fixup → Code Unit
  | [] => pure ()
  | f :: fixups => do
    perform (.storeFixup base f)
    emitArenaFixups base fixups

/-- The body of `__bpf_capsule_init`. -/
def capsuleInit (O : Object) : Code Int := do
  let published : Nat ← perform .fetchReady
  if published = 2 then pure 0
  else do
    let claimed : Nat × Bool ← perform .claim
    if claimed.2 then do
      let allocation : Nat ← perform (.allocPages O.pages)
      if allocation ≠ 0 then do
        let base := O.alignedBase allocation
        perform (.storeVirtualBase base)
        emitArenaFixups base O.fixups
        perform .publish
        pure 0
      else do
        perform .abandon
        pure (-ENOMEM)
    else if claimed.1 = 2 then pure 0
    else pure (-EAGAIN)

def system (O : Object) : System Op Resp Unit Int Shared where
  code _ := capsuleInit O
  exec := exec O
  allow _ _ := true
  enter _ _ s := s
  leave _ _ _ s := s

def initial (bytes : Nat → Nat) : Shared :=
  ⟨0, 0, bytes, fun _ => .outside, fun _ => false, [], []⟩

/-! ## The invariant -/

section Invariant

variable (O : Object) (bytes : Nat → Nat)

def Granted (start : Nat) : Prop :=
  start % arenaPageSize = 0 ∧ start + O.pages * arenaPageSize < 2 ^ 64

def Inside (base : Nat) (allocations : List (Nat × Nat)) : Prop :=
  O.fiberStackSize ∣ base ∧ ∃ start pages, (start, pages) ∈ allocations ∧ start ≤ base ∧
    base + O.memoryEnd ≤ start + pages * arenaPageSize

def Holds (s : Shared) : Place → Prop
  | .outside => True
  | .claimed | .failed => s.bases = [] ∧ s.bytes = bytes
  | .allocated start =>
    s.bases = [] ∧ s.bytes = bytes ∧ Granted O start ∧ (start, O.pages) ∈ s.allocations
  | .fixing base count =>
    s.bases = [base] ∧ s.virtualBase = base ∧ Inside O base s.allocations ∧
      s.bytes = O.applyFixups base bytes (O.fixups.take count)

/-- The state the ready word 2 stands for. -/
structure Published (s : Shared) : Prop where
  bases : s.bases = [s.virtualBase]
  inside : Inside O s.virtualBase s.allocations
  bytes : s.bytes = O.applyFixups s.virtualBase bytes O.fixups

structure Inv (s : Shared) : Prop where
  ready_le : s.ready ≤ 2
  unique : ∀ t u, s.place t ≠ .outside → s.place u ≠ .outside → t = u
  owned : ∀ t, s.place t ≠ .outside → s.ready = 1 ∧ Holds O bytes s (s.place t)
  owner : s.ready = 1 → ∃ t, s.place t ≠ .outside
  fresh : s.ready = 0 → s.bases = [] ∧ s.bytes = bytes
  published : s.ready = 2 → Published O bytes s
  saw : ∀ t, s.sawReady t = true → s.ready = 2

def Allowed : Place → Op → Prop
  | .outside, o => o.exclusive = false
  | .claimed, o => o = .allocPages O.pages
  | .failed, o => o = .abandon
  | .allocated start, o => o = .storeVirtualBase (O.alignedBase start)
  | .fixing base count, o =>
    (∃ f, O.fixups[count]? = some f ∧ o = .storeFixup base f) ∨
      (O.fixups.length ≤ count ∧ o = .publish)

theorem inv_initial : Inv O bytes (initial bytes) where
  ready_le := Nat.zero_le 2
  unique _ _ h := absurd rfl h
  owned _ h := absurd rfl h
  owner h := (nomatch h)
  fresh _ := ⟨rfl, rfl⟩
  published h := (nomatch h)
  saw _ h := (nomatch h)

end Invariant

section Steps

variable {O : Object} {bytes : Nat → Nat} {t n : Nat} {o : Op} {x : Resp o} {s s' : Shared}

/-- The pages cover the memory end and the slack. -/
theorem pages_eq (O : Object) : O.pages =
    (O.memoryEnd + (arenaPageSize - 1)) / arenaPageSize + sliceSlackPages O.fiberStackSize := by
  have hend : O.memoryEnd < 2 ^ 32 := O.memoryEnd_lt
  have hslack : sliceSlackPages O.fiberStackSize ≤ 2 ^ 10 := by
    have hsize : O.fiberStackSize ≤ 2 ^ 22 := Nat.pow_le_pow_right (by omega) O.sliceLog_le
    unfold sliceSlackPages arenaPageSize arenaPageShift
    split <;> omega
  have hpage : arenaPageSize = 2 ^ 12 := rfl
  unfold Object.pages
  rw [Word.add_eq (a := O.memoryEnd) (by omega), Nat.shiftRight_eq_div_pow]
  have hdiv : (O.memoryEnd + (arenaPageSize - 1)) / 2 ^ arenaPageShift < 2 ^ 21 := by
    unfold arenaPageSize arenaPageShift
    omega
  rw [Word.add_eq (by omega), Nat.mod_eq_of_lt (by omega)]
  rfl

/-- Aligning the allocation up skips no more than the slack. -/
theorem inside_alignedBase {start : Nat} {allocations : List (Nat × Nat)} (h : Granted O start)
    (hmem : (start, O.pages) ∈ allocations) : Inside O (O.alignedBase start) allocations := by
  obtain ⟨halign, hend⟩ := h
  have hpage : arenaPageSize = 4096 := rfl
  have hpages := pages_eq O
  rw [hpage] at hpages halign hend
  rcases Nat.lt_or_ge arenaPageShift O.sliceLog with hlog | hlog
  · -- a slice of several pages: its excess over a page is the slack
    obtain ⟨j, hj⟩ : ∃ j, O.sliceLog = arenaPageShift + (j + 1) :=
      ⟨O.sliceLog - arenaPageShift - 1, by omega⟩
    have hsize : O.fiberStackSize = 2 ^ (j + 1) * 4096 := by
      unfold Object.fiberStackSize
      rw [hj, Nat.pow_add, Nat.mul_comm]
      rfl
    have htwo : 2 ≤ 2 ^ (j + 1) := by
      have := Nat.two_pow_pos j
      omega
    have hslack : sliceSlackPages O.fiberStackSize = 2 ^ (j + 1) - 1 := by
      unfold sliceSlackPages
      rw [hpage, if_pos (by omega), hsize, Nat.mul_div_cancel _ (by omega)]
    have hround : O.alignedBase start = alignTo start O.fiberStackSize := by
      unfold Object.alignedBase alignTo
      rw [if_pos (by omega), Word.add_eq (by omega), Nat.add_sub_assoc (by omega)]
      exact Word.and_not_mask (by omega)
        (Nat.le_trans O.sliceLog_le (by decide))
    have hslice : 0 < O.fiberStackSize := Nat.two_pow_pos _
    have hlow : start ≤ O.alignedBase start := hround ▸ le_alignTo start hslice
    have hhigh : O.alignedBase start < start + O.fiberStackSize := hround ▸ alignTo_lt start hslice
    have hdvd : O.fiberStackSize ∣ O.alignedBase start := hround ▸ dvd_alignTo start _
    have hpageDvd : O.alignedBase start % 4096 = 0 :=
      Nat.mod_eq_zero_of_dvd (Nat.dvd_trans (hsize ▸ Nat.dvd_mul_left _ _) hdvd)
    exact ⟨hdvd, start, O.pages, hmem, hlow, by rw [hpage]; omega⟩
  · have hsize : O.fiberStackSize ≤ 4096 := Nat.pow_le_pow_right (by omega) hlog
    have hslack : sliceSlackPages O.fiberStackSize = 0 := if_neg (by omega)
    have hbase : O.alignedBase start = start := if_neg (not_not_intro hslack)
    have hdvd : O.fiberStackSize ∣ start :=
      Nat.dvd_trans (Nat.pow_dvd_pow 2 hlog) (Nat.dvd_of_mod_eq_zero halign)
    exact ⟨hbase.symm ▸ hdvd, start, O.pages, hmem, by omega, by rw [hpage]; omega⟩

theorem exec_others (h : exec O t o n s = some (x, s')) {u : Nat} (hu : u ≠ t) :
    s'.place u = s.place u ∧ s'.sawReady u = s.sawReady u := by
  cases o with
  | fetchReady =>
    cases h
    exact ⟨rfl, update_of_ne hu ..⟩
  | claim =>
    simp only [exec] at h
    split at h
    · cases h
      exact ⟨update_of_ne hu .., rfl⟩
    · cases h
      exact ⟨rfl, update_of_ne hu ..⟩
  | allocPages pages =>
    simp only [exec] at h
    split_ifs at h
    · cases h
      exact ⟨update_of_ne hu .., rfl⟩
    · cases h
      exact ⟨update_of_ne hu .., rfl⟩
  | storeFixup base f =>
    simp only [exec] at h
    split at h
    · cases h
      exact ⟨update_of_ne hu .., rfl⟩
    · cases h
      exact ⟨rfl, rfl⟩
  | publish =>
    cases h
    exact ⟨update_of_ne hu .., update_of_ne hu ..⟩
  | storeVirtualBase base | abandon =>
    cases h
    exact ⟨update_of_ne hu .., rfl⟩

namespace Inv

theorem saw_ready (h : Inv O bytes s) : Inv O bytes (s.saw t) where
  ready_le := h.ready_le
  unique := h.unique
  owned := h.owned
  owner := h.owner
  fresh := h.fresh
  published := fun hready => ⟨(h.published hready).bases, (h.published hready).inside,
    (h.published hready).bytes⟩
  saw u hu := by
    by_cases hut : u = t
    · subst hut
      exact of_decide_eq_true ((update_self ..).symm.trans hu)
    · exact h.saw u ((update_of_ne hut ..).symm.trans hu)

theorem outside_of_ready (h : Inv O bytes s) (hready : s.ready ≠ 1) (u : Nat) :
    s.place u = .outside := by
  by_contra hne
  exact hready (h.owned u hne).1

theorem not_saw (h : Inv O bytes s) (hready : s.ready ≠ 2) (u : Nat) : s.sawReady u = false := by
  by_contra hne
  exact hready (h.saw u (Bool.not_eq_false _ ▸ hne))

/-- What the owner may count on: everybody else is outside and nobody has seen the ready state. -/
theorem of_place (h : Inv O bytes s) {p : Place} (hp : s.place t = p) (hne : p ≠ .outside) :
    s.ready = 1 ∧ Holds O bytes s p ∧ (∀ u, u ≠ t → s.place u = .outside) ∧
      ∀ u, s.sawReady u = false := by
  have ht : s.place t ≠ .outside := hp ▸ hne
  obtain ⟨hready, hholds⟩ := h.owned t ht
  refine ⟨hready, hp ▸ hholds, fun u hu => ?_, h.not_saw (by omega)⟩
  by_contra hout
  exact hu (h.unique u t hout ht)

theorem of_owned {p : Place} (hready : s.ready = 1) (hp : s.place t = p) (hne : p ≠ .outside)
    (hothers : ∀ u, u ≠ t → s.place u = .outside) (hholds : Holds O bytes s p)
    (hsaw : ∀ u, s.sawReady u = false) : Inv O bytes s where
  ready_le := by omega
  unique u v hu hv := by
    have hut : u = t := by
      by_contra hne
      exact hu (hothers u hne)
    have hvt : v = t := by
      by_contra hne
      exact hv (hothers v hne)
    rw [hut, hvt]
  owned u hu := by
    have hut : u = t := by
      by_contra hne
      exact hu (hothers u hne)
    rw [hut, hp]
    exact ⟨hready, hholds⟩
  owner _ := ⟨t, hp ▸ hne⟩
  fresh h := by omega
  published h := by omega
  saw u hu := absurd hu (by rw [hsaw u]; decide)

theorem of_unowned (hall : ∀ u, s.place u = .outside) (hready : s.ready = 0 ∨ s.ready = 2)
    (hfresh : s.ready = 0 → s.bases = [] ∧ s.bytes = bytes)
    (hpublished : s.ready = 2 → Published O bytes s)
    (hsaw : ∀ u, s.sawReady u = true → s.ready = 2) : Inv O bytes s where
  ready_le := by omega
  unique u v hu := absurd (hall u) hu
  owned u hu := absurd (hall u) hu
  owner h := by omega
  fresh := hfresh
  published := hpublished
  saw := hsaw

end Inv

theorem move_outside (h : ∀ u, u ≠ t → s.place u = .outside) (p : Place) :
    ∀ u, u ≠ t → (s.move t p).place u = .outside :=
  fun u hu => (update_of_ne hu ..).trans (h u hu)

theorem move_all_outside (h : ∀ u, u ≠ t → s.place u = .outside) (u : Nat) :
    (s.move t .outside).place u = .outside := by
  by_cases hut : u = t
  · subst hut
    exact update_self ..
  · exact move_outside h _ u hut

@[simp] theorem move_self (s : Shared) (p : Place) : (s.move t p).place t = p :=
  update_self ..

theorem inv_exec (hinv : Inv O bytes s) (hallowed : Allowed O (s.place t) o)
    (h : exec O t o n s = some (x, s')) : Inv O bytes s' := by
  -- by the place of the entry in the protocol, which leaves it one operation
  cases hplace : s.place t with
  | outside =>
    rw [hplace] at hallowed
    cases o with
    | fetchReady =>
      cases h
      exact hinv.saw_ready
    | claim =>
      simp only [exec] at h
      split at h
      · rename_i hready
        cases h
        have hout := hinv.outside_of_ready (by omega)
        exact .of_owned rfl (move_self s .claimed) nofun (move_outside (fun u _ => hout u) _)
          (hinv.fresh hready) (hinv.not_saw (by omega))
      · cases h
        exact hinv.saw_ready
    | allocPages _ | storeVirtualBase _ | storeFixup _ _ | publish | abandon => exact (nomatch hallowed)
  | claimed =>
    obtain ⟨hready, hholds, hout, hsaw⟩ := hinv.of_place hplace nofun
    rw [hplace] at hallowed
    obtain rfl : o = .allocPages O.pages := hallowed
    simp only [exec] at h
    split_ifs at h with hzero hgranted
    · cases h
      exact .of_owned hready (move_self s .failed) nofun (move_outside hout _) hholds hsaw
    · cases h
      exact .of_owned hready (move_self s (.allocated n)) nofun (move_outside hout _)
        ⟨hholds.1, hholds.2, hgranted, List.mem_cons_self ..⟩ hsaw
  | failed =>
    obtain ⟨-, hholds, hout, hsaw⟩ := hinv.of_place hplace nofun
    rw [hplace] at hallowed
    obtain rfl : o = .abandon := hallowed
    cases h
    exact .of_unowned (move_all_outside hout) (.inl rfl) (fun _ => hholds) nofun
      fun u hu => absurd hu (by show s.sawReady u ≠ true; rw [hsaw u]; decide)
  | allocated start =>
    obtain ⟨hready, ⟨hbases, hbytes, hgranted, hmem⟩, hout, hsaw⟩ := hinv.of_place hplace nofun
    rw [hplace] at hallowed
    obtain rfl : o = .storeVirtualBase (O.alignedBase start) := hallowed
    cases h
    exact .of_owned hready (move_self s (.fixing (O.alignedBase start) 0)) nofun (move_outside hout _)
      ⟨congrArg _ hbases, rfl, inside_alignedBase hgranted hmem, hbytes⟩ hsaw
  | fixing base count =>
    obtain ⟨hready, ⟨hbases, hvirtual, hinside, hbytes⟩, hout, hsaw⟩ := hinv.of_place hplace nofun
    rw [hplace] at hallowed
    obtain ⟨f, hf, rfl⟩ | ⟨hall, rfl⟩ := hallowed
    · simp only [exec, hplace] at h
      cases h
      refine .of_owned hready (move_self s (.fixing base (count + 1))) nofun (move_outside hout _)
        ⟨hbases, hvirtual, hinside, ?_⟩ hsaw
      rw [List.take_add_one, hf, hbytes, Object.applyFixups, Object.applyFixups, List.foldl_append]
      rfl
    · cases h
      refine .of_unowned (move_all_outside hout) (.inr rfl) nofun (fun _ => ?_) fun _ _ => rfl
      have htake : O.fixups.take count = O.fixups := List.take_of_length_le hall
      rw [htake] at hbytes
      exact ⟨hvirtual ▸ hbases, hvirtual ▸ hinside, hvirtual ▸ hbytes⟩

end Steps

/-! ## The protocol -/

def initializing (O : Object) (bytes : Nat → Nat) : Protocol Op Shared (Place × Bool) where
  inv := Inv O bytes
  view t s := (s.place t, s.sawReady t)
  guar o v := Allowed O v.1 o

def Returned (_ : Unit) (result : Int) (v : Place × Bool) : Prop :=
  v.1 = .outside ∧ (result = 0 → v.2 = true)

section Code

variable {O : Object} {bytes : Nat → Nat} {t : Nat} {p : Place} {b : Bool}

/-- One operation at its place. -/
theorem safe_perform {o : Op} {Q : Resp o → Place × Bool → Prop} (hallowed : Allowed O p o)
    (hQ : ∀ s n x s', s.place t = p → exec O t o n s = some (x, s') →
      Q x (s'.place t, s'.sawReady t)) :
    Safe (system O) (initializing O bytes) anyStep t Q (perform o) (p, b) := by
  apply safe_op hallowed
  intro s n x s' hinv hview hexec _
  have hplace : s.place t = p := congrArg Prod.fst hview
  refine ⟨inv_exec hinv (hplace.symm ▸ hallowed) hexec, fun u hu => ?_, hQ s n x s' hplace hexec⟩
  obtain ⟨hp, hs⟩ := exec_others hexec hu
  exact Prod.ext hp hs

theorem safe_fetchReady :
    Safe (system O) (initializing O bytes) anyStep t
      (fun ready v => v = (.outside, decide (ready = 2))) (perform .fetchReady) (.outside, b) := by
  apply safe_perform (show Allowed O .outside .fetchReady from rfl)
  intro s n x s' hplace h
  cases h
  exact Prod.ext hplace (update_self ..)

theorem safe_claim :
    Safe (system O) (initializing O bytes) anyStep t
      (fun claimed v => if claimed.2 then v.1 = .claimed
        else v = (.outside, decide (claimed.1 = 2))) (perform .claim) (.outside, b) := by
  apply safe_perform (show Allowed O .outside .claim from rfl)
  intro s n x s' hplace h
  simp only [exec] at h
  split at h
  · cases h
    exact move_self s .claimed
  · cases h
    exact Prod.ext hplace (update_self ..)

theorem safe_allocPages :
    Safe (system O) (initializing O bytes) anyStep t
      (fun start v => v.1 = if start = 0 then .failed else .allocated start)
      (perform (.allocPages O.pages)) (.claimed, b) := by
  apply safe_perform (show Allowed O .claimed (.allocPages O.pages) from rfl)
  intro s n x s' hplace h
  simp only [exec] at h
  split_ifs at h with hzero hgranted
  · cases h
    exact move_self s .failed
  · cases h
    rw [if_neg hzero]
    exact move_self s (.allocated n)

theorem safe_emitArenaFixups {base count : Nat} (rows : List Fixup)
    (hrows : O.fixups.drop count = rows) :
    Safe (system O) (initializing O bytes) anyStep t
      (fun _ v => ∃ count, O.fixups.length ≤ count ∧ v.1 = .fixing base count)
      (emitArenaFixups base rows) (.fixing base count, b) := by
  induction rows generalizing count b with
  | nil => exact ⟨count, List.drop_eq_nil_iff.mp hrows, rfl⟩
  | cons f rows ih =>
    have hf : O.fixups[count]? = some f := by
      rw [← List.head?_drop, hrows]
      rfl
    have hrest : O.fixups.drop (count + 1) = rows := by
      rw [← List.tail_drop, hrows]
      rfl
    apply safe_bind_of (R := fun _ v => v.1 = .fixing base (count + 1))
    · apply safe_perform (show Allowed O (.fixing base count) (.storeFixup base f) from
        .inl ⟨f, hf, rfl⟩)
      intro s n x s' hplace h
      simp only [exec, hplace] at h
      cases h
      exact move_self s (.fixing base (count + 1))
    · rintro _ ⟨_, b'⟩ rfl
      exact ih hrest

/-- A successful allocation is published with all of its rows. -/
theorem safe_publication (start : Nat) :
    Safe (system O) (initializing O bytes) anyStep t (Returned ())
      (do
        perform (.storeVirtualBase (O.alignedBase start))
        emitArenaFixups (O.alignedBase start) O.fixups
        perform .publish
        pure 0) (.allocated start, b) := by
  apply safe_bind_of (R := fun _ v => v.1 = .fixing (O.alignedBase start) 0)
  · apply safe_perform (show Allowed O (.allocated start) (.storeVirtualBase (O.alignedBase start)) from
      rfl)
    intro s n x s' hplace h
    cases h
    exact move_self s _
  rintro _ ⟨_, b⟩ rfl
  apply safe_bind_of (safe_emitArenaFixups O.fixups rfl)
  rintro _ ⟨_, b⟩ ⟨count, hcount, rfl⟩
  apply safe_bind_of (R := fun _ v => v = (.outside, true))
  · apply safe_perform (show Allowed O (.fixing (O.alignedBase start) count) .publish from
      .inr ⟨hcount, rfl⟩)
    intro s n x s' hplace h
    cases h
    exact Prod.ext (move_self s .outside) (update_self ..)
  rintro _ _ rfl
  exact ⟨rfl, fun _ => rfl⟩

theorem safe_capsuleInit :
    Safe (system O) (initializing O bytes) anyStep t (Returned ()) (capsuleInit O) (.outside, b) := by
  apply safe_bind_of safe_fetchReady
  rintro published _ rfl
  by_cases hready : published = 2
  · rw [if_pos hready]
    exact ⟨rfl, fun _ => decide_eq_true hready⟩
  rw [if_neg hready]
  apply safe_bind_of safe_claim
  rintro ⟨previous, won⟩ ⟨place, saw⟩ hclaim
  cases won with
  | false =>
    obtain ⟨rfl, rfl⟩ := Prod.mk.inj hclaim
    by_cases hbecame : previous = 2
    · rw [if_pos hbecame]
      exact ⟨rfl, fun _ => decide_eq_true hbecame⟩
    · rw [if_neg hbecame]
      exact ⟨rfl, nofun⟩
  | true =>
    obtain rfl : place = .claimed := hclaim
    apply safe_bind_of safe_allocPages
    rintro allocation ⟨place, saw⟩ hplace
    by_cases hzero : allocation = 0
    · obtain rfl : place = .failed := hplace.trans (if_pos hzero)
      rw [if_neg (not_not_intro hzero)]
      apply safe_bind_of (R := fun _ v => v.1 = .outside)
      · apply safe_perform (show Allowed O .failed .abandon from rfl)
        intro s n x s' _ h
        cases h
        exact move_self s .outside
      · exact fun _ v hv => ⟨hv, nofun⟩
    · obtain rfl : place = .allocated allocation := hplace.trans (if_neg hzero)
      rw [if_pos hzero]
      exact safe_publication allocation

theorem sound_initializing :
    Sound (system O) (initializing O bytes) anyStep (fun v => v.1 = .outside) Returned where
  enter_ok t e s hinv hidle _ := by
    refine ⟨hinv, fun _ _ => rfl, ?_⟩
    have hview : (initializing O bytes).view t s = (.outside, s.sawReady t) :=
      Prod.ext hidle rfl
    show Safe _ _ _ _ _ _ ((initializing O bytes).view t s)
    rw [hview]
    exact safe_capsuleInit
  leave_ok t e a s hinv hpost := ⟨hinv, fun _ _ => rfl, hpost.1⟩

end Code

/-! ## A later invocation succeeds -/

section Retry

variable {O : Object} {t : Nat}

theorem alone_emitArenaFixups (base : Nat) (rows : List Fixup) (k : Unit → Code Int)
    (choices : List Nat) (s : Shared) : ∃ s',
      (system O).alone t ((emitArenaFixups base rows).bind k)
        (List.replicate rows.length 0 ++ choices) s = (system O).alone t (k ()) choices s' := by
  induction rows generalizing s with
  | nil => exact ⟨s, rfl⟩
  | cons f rows ih =>
    obtain ⟨s₁, hexec⟩ : ∃ s₁, exec O t (.storeFixup base f) 0 s = some ((), s₁) := by
      simp only [exec]
      split <;> exact ⟨_, rfl⟩
    obtain ⟨s₂, hrest⟩ := ih s₁
    refine ⟨s₂, ?_⟩
    rw [← hrest]
    exact System.alone_act hexec

theorem alone_publication (base : Nat) (s : Shared) : ∃ s', s'.ready = 2 ∧
    (system O).alone t
      (do
        perform (.storeVirtualBase base)
        emitArenaFixups base O.fixups
        perform .publish
        pure (0 : Int)) (0 :: (List.replicate O.fixups.length 0 ++ [0])) s = some (0, s') := by
  obtain ⟨s₁, hrows⟩ := alone_emitArenaFixups base O.fixups
    (fun _ => (perform .publish).bind fun _ => pure 0) [0]
    { s.move t (.fixing base 0) with virtualBase := base, bases := base :: s.bases }
  refine ⟨{ s₁.move t .outside with ready := 2 }.saw t, rfl, ?_⟩
  exact hrows

/-- From state 0, one invocation alone, given an allocation, publishes and returns 0. -/
theorem alone_capsuleInit {s : Shared} {start : Nat} (hready : s.ready = 0) (hstart : start ≠ 0)
    (hgranted : Granted O start) : ∃ choices s', s'.ready = 2 ∧
      (system O).alone t (capsuleInit O) choices s = some (0, s') := by
  have hfetch : exec O t .fetchReady 0 s = some (0, s.saw t) := by rw [exec, hready]
  have hclaim : exec O t .claim 0 (s.saw t) =
      some ((0, true), { (s.saw t).move t .claimed with ready := 1 }) := if_pos hready
  have halloc : ∀ s₁, exec O t (.allocPages O.pages) start s₁ =
      some (start, { s₁.move t (.allocated start) with
        allocations := (start, O.pages) :: s₁.allocations }) := fun s₁ =>
    (if_neg hstart).trans (if_pos hgranted)
  obtain ⟨s', hpublished, htail⟩ := alone_publication (O.alignedBase start)
    { ({ (s.saw t).move t .claimed with ready := 1 } : Shared).move t (.allocated start) with
      allocations := (start, O.pages) :: s.allocations }
  refine ⟨0 :: 0 :: start :: 0 :: (List.replicate O.fixups.length 0 ++ [0]), s', hpublished, ?_⟩
  refine (System.alone_act hfetch).trans ((System.alone_act hclaim).trans ?_)
  refine (System.alone_act (halloc _)).trans ?_
  show (system O).alone t (if start ≠ 0 then _ else _) _ _ = _
  rw [if_pos hstart]
  exact htail

end Retry

/-! ## Every interleaving -/

structure InitSafe (O : Object) (bytes : Nat → Nat) (c : Config Op Resp Unit Int Shared) : Prop where
  /-- Two invocations between their claim and their publication are one. -/
  exclusive : ∀ t u o o', c.next? t = some o → c.next? u = some o' → o.exclusive = true →
    o'.exclusive = true → t = u
  /-- The word is 1 exactly while there is such an invocation. -/
  claimed : c.shared.ready = 1 ↔ ∃ t o, c.next? t = some o ∧ o.exclusive = true
  /-- With the word at 2, the base and every row have been written. -/
  published : c.shared.ready = 2 → Published O bytes c.shared
  returned : ∀ t e, c.running t = some (e, .ret 0) → c.shared.ready = 2
  /-- An invocation whose allocation fails goes on to hand the word back. -/
  failure : ∀ t pages c', c.next? t = some (.allocPages pages) →
    (system O).step c (.act t 0) = some c' → c'.next? t = some .abandon
  abandoned : ∀ t n c', c.next? t = some .abandon → (system O).step c (.act t n) = some c' →
    c'.shared.ready = 0
  /-- From state 0 any new invocation can succeed. -/
  retry : c.shared.ready = 0 → ∀ t start, c.running t = none → start ≠ 0 → Granted O start →
    ∃ ls c', (system O).run ls c = some c' ∧ c'.shared.ready = 2 ∧
      c'.running t = some ((), .ret 0)
  /-- One base at most is ever published, and the rows are stored against it. -/
  single : c.shared.bases.length ≤ 1
  rows : ∀ t base f, c.next? t = some (.storeFixup base f) → c.shared.bases = [base]
  inside : ∀ base ∈ c.shared.bases, Inside O base c.shared.allocations

section Interleavings

variable {O : Object} {bytes : Nat → Nat} {c c' : Config Op Resp Unit Int Shared} {t : Nat} {o : Op}

abbrev InOrder (O : Object) (bytes : Nat → Nat) (c : Config Op Resp Unit Int Shared) : Prop :=
  Good (system O) (initializing O bytes) anyStep (fun v => v.1 = .outside) Returned c

/-- An exclusive operation is one of a place. -/
theorem place_of_exclusive (h : InOrder O bytes c) (ho : c.next? t = some o)
    (hexcl : o.exclusive = true) : c.shared.place t ≠ .outside := by
  have hguar : Allowed O (c.shared.place t) o := h.guar ho
  intro hout
  rw [hout] at hguar
  rw [show o.exclusive = false from hguar] at hexcl
  cases hexcl

/-- An invocation at a place has an operation left, and it is the place's. -/
theorem next_of_place (h : InOrder O bytes c) (hplace : c.shared.place t ≠ .outside) :
    ∃ o, c.next? t = some o ∧ Allowed O (c.shared.place t) o := by
  cases hr : c.running t with
  | none => exact absurd (h.idle t hr) hplace
  | some p =>
    obtain ⟨e, prog⟩ := p
    cases prog with
    | ret a => exact absurd (h.safe t e _ hr).1 hplace
    | act o k =>
      have ho : c.next? t = some o := by rw [Config.next?, hr]; rfl
      exact ⟨o, ho, h.guar ho⟩

theorem exclusive_of_allowed {p : Place} (hp : p ≠ .outside) (h : Allowed O p o) :
    o.exclusive = true := by
  cases p with
  | outside => exact absurd rfl hp
  | claimed | failed | allocated _ => cases h; rfl
  | fixing base count =>
    obtain ⟨f, -, rfl⟩ | ⟨-, rfl⟩ := h
    · rfl
    · rfl

theorem single_base (h : InOrder O bytes c) :
    c.shared.bases.length ≤ 1 ∧ ∀ base ∈ c.shared.bases, Inside O base c.shared.allocations := by
  have hinv : Inv O bytes c.shared := h.inv
  have hcases : c.shared.ready = 0 ∨ c.shared.ready = 1 ∨ c.shared.ready = 2 := by
    have := hinv.ready_le
    omega
  rcases hcases with hready | hready | hready
  · rw [(hinv.fresh hready).1]
    exact ⟨Nat.zero_le 1, nofun⟩
  · obtain ⟨t, ht⟩ := hinv.owner hready
    have hholds := (hinv.owned t ht).2
    cases hplace : c.shared.place t with
    | outside => exact absurd hplace ht
    | claimed | failed | allocated _ =>
      rw [hplace] at hholds
      rw [hholds.1]
      exact ⟨Nat.zero_le 1, nofun⟩
    | fixing base count =>
      rw [hplace] at hholds
      rw [hholds.1]
      exact ⟨Nat.le_refl 1, fun b hb => List.mem_singleton.mp hb ▸ hholds.2.2.1⟩
  · obtain ⟨hbases, hinside, -⟩ := hinv.published hready
    rw [hbases]
    exact ⟨Nat.le_refl 1, fun b hb => List.mem_singleton.mp hb ▸ hinside⟩

/-- A failed allocation leaves its invocation with the hand-back to do. -/
theorem next_of_failure {pages : Nat} (h : InOrder O bytes c)
    (ho : c.next? t = some (.allocPages pages)) (hstep : (system O).step c (.act t 0) = some c') :
    c'.next? t = some .abandon := by
  have hgood : InOrder O bytes c' := h.step sound_initializing hstep (permits_anyStep ..)
  have hplace : c'.shared.place t = .failed := by
    obtain ⟨_, _, hl, -⟩ | ⟨u, n, e, o, k, x, s', hl, hr, hx, rfl⟩ | ⟨_, _, _, hl, -⟩ :=
      step_cases hstep <;> cases hl
    have hop : o = .allocPages pages := by
      rw [Config.next?, hr] at ho
      exact Option.some.inj ho
    subst hop
    cases hx
    exact move_self c.shared .failed
  have hinside : c'.shared.place t ≠ .outside := by simp [hplace]
  obtain ⟨o, hnext, hallowed⟩ := next_of_place hgood hinside
  rw [hplace] at hallowed
  rw [hnext, show o = .abandon from hallowed]

theorem ready_of_abandon {n : Nat} (ho : c.next? t = some .abandon)
    (hstep : (system O).step c (.act t n) = some c') : c'.shared.ready = 0 := by
  obtain ⟨_, _, hl, -⟩ | ⟨u, n, e, o, k, x, s', hl, hr, hx, rfl⟩ | ⟨_, _, _, hl, -⟩ :=
    step_cases hstep <;> cases hl
  have hop : o = .abandon := by
    rw [Config.next?, hr] at ho
    exact Option.some.inj ho
  subst hop
  cases hx
  rfl

theorem retry_of_ready {start : Nat} (hready : c.shared.ready = 0) (hidle : c.running t = none)
    (hstart : start ≠ 0) (hgranted : Granted O start) :
    ∃ ls c', (system O).run ls c = some c' ∧ c'.shared.ready = 2 ∧
      c'.running t = some ((), .ret 0) := by
  obtain ⟨choices, s', hpublished, halone⟩ :=
    alone_capsuleInit hready hstart hgranted
  have henter : (system O).step c (.enter t ()) =
      some ⟨c.shared, update c.running t (some ((), capsuleInit O))⟩ := by
    simp only [System.step, hidle]
    rfl
  obtain ⟨ls, c', hrun, hshared, hret⟩ := run_of_alone
    (c := ⟨c.shared, update c.running t (some ((), capsuleInit O))⟩) halone
    (update_self ..)
  refine ⟨.enter t () :: ls, c', ?_, hshared ▸ hpublished, hret⟩
  rw [System.run, henter]
  exact hrun

end Interleavings

/-- **The initialization protocol**, after every interleaving of any number of invocations. -/
theorem arena_init_protocol (O : Object) (bytes : Nat → Nat) (c : Config Op Resp Unit Int Shared)
    (h : Steps (system O) anyStep (System.start (initial bytes)) c) : InitSafe O bytes c := by
  have hgood : InOrder O bytes c :=
    sound_initializing.steps h (good_start (inv_initial O bytes) fun _ => rfl)
  have hinv : Inv O bytes c.shared := hgood.inv
  obtain ⟨hsingle, hinside⟩ := single_base hgood
  constructor
  case exclusive =>
    intro t u o o' ho ho' hexcl hexcl'
    exact hinv.unique t u (place_of_exclusive hgood ho hexcl) (place_of_exclusive hgood ho' hexcl')
  case claimed =>
    constructor
    · intro hready
      obtain ⟨t, ht⟩ := hinv.owner hready
      obtain ⟨o, ho, hallowed⟩ := next_of_place hgood ht
      exact ⟨t, o, ho, exclusive_of_allowed ht hallowed⟩
    · rintro ⟨t, o, ho, hexcl⟩
      exact (hinv.owned t (place_of_exclusive hgood ho hexcl)).1
  case published => exact hinv.published
  case returned =>
    intro t e hr
    have hret : Returned e 0 (c.shared.place t, c.shared.sawReady t) := hgood.safe t e _ hr
    exact hinv.saw t (hret.2 rfl)
  case failure => exact fun t pages c' => next_of_failure hgood
  case abandoned => exact fun t n c' => ready_of_abandon
  case retry => exact fun hready t start => retry_of_ready hready
  case single => exact hsingle
  case rows =>
    intro t base f ho
    have hplace := place_of_exclusive hgood ho rfl
    have hguar : Allowed O (c.shared.place t) (.storeFixup base f) := hgood.guar ho
    have hholds := (hinv.owned t hplace).2
    cases hp : c.shared.place t with
    | outside => exact absurd hp hplace
    | claimed | failed | allocated _ => rw [hp] at hguar; exact (nomatch hguar)
    | fixing base' count =>
      rw [hp] at hguar hholds
      obtain ⟨f', -, heq⟩ | ⟨-, heq⟩ := hguar
      · obtain ⟨rfl, -⟩ := Op.storeFixup.inj heq
        exact hholds.1
      · exact (nomatch heq)
  case inside => exact hinside

def sampleObject : Object where
  memoryEnd := 4096
  sliceLog := 13
  memoryViewBase := 2 ^ 32
  imageAddress := 2 ^ 33
  fixups := [⟨16, 8, 32, 1, 0, 0⟩]
  memoryEnd_pos := Nat.succ_pos _
  memoryEnd_lt := by decide
  sliceLog_le := by decide

/-- Invocation 0 claims and fails to allocate while invocation 1 finds the word taken; invocation 2
succeeds and invocation 3 finds the object ready. -/
def sampleSchedule : List (Label Unit) :=
  [.enter 0 (), .act 0 0, .act 0 0, .enter 1 (), .act 1 0, .act 1 0, .act 0 0, .act 0 0,
    .enter 2 (), .act 2 0, .act 2 0, .act 2 0x5000, .act 2 0, .act 2 0, .act 2 0,
    .enter 3 (), .act 3 0]

theorem arena_init_protocol_sample : ∃ c,
    (system sampleObject).run sampleSchedule (System.start (initial fun _ => 0)) = some c ∧
      InitSafe sampleObject (fun _ => 0) c ∧ c.shared.ready = 2 ∧ c.shared.virtualBase = 0x6000 := by
  obtain ⟨c, hrun, hready, hbase⟩ : ∃ c,
      (system sampleObject).run sampleSchedule (System.start (initial fun _ => 0)) = some c ∧
        c.shared.ready = 2 ∧ c.shared.virtualBase = 0x6000 := ⟨_, rfl, rfl, rfl⟩
  exact ⟨c, hrun, arena_init_protocol _ _ c (steps_of_run hrun), hready, hbase⟩

end BpfCapsule.ArenaInit
