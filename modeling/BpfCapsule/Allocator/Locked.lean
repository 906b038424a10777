import BpfCapsule.Allocator.Ledger

/-!
# BpfCapsule — the allocator under its lock

The islands as they run: any number of BPF invocations, one atomic operation at a time, over the
shared lock, heap words and `fs_tlsf`. An invocation that finds the lock taken returns `BUSY` and its
wrapper calls again; one that takes it works on TLSF word by word and releases it.

The shared state carries the ledger of `World`, in which the islands are atomic. `Inv` connects the
two: whenever nobody holds the lock, the words of the heap are those of the atomic machine. The view
of an invocation that holds the lock is the protected state, so `safe_handle` gives its body the
meaning it has alone, and the release is where the atomic machine takes its step.
-/

namespace BpfCapsule.Allocator

open Interleave
open Function (update update_self update_of_ne update_apply)

/-! ## The lock -/

/-- `fs_allocator_lock_word` where the target has full atomics, `fs_allocator_lease` elsewhere. -/
inductive Lock where
  | word (value : Nat)
  | lease (entry : Option Nat)
deriving DecidableEq

namespace Lock

def initial (fullAtomics : Bool) : Lock := if fullAtomics then .word 0 else .lease none

/-- `fs_try_lock`: a compare-exchange from 0 to 1, or an update with `BPF_NOEXIST`. -/
def tryLock : Lock → Bool × Lock
  | .word value => if value = 0 then (true, .word 1) else (false, .word value)
  | .lease none => (true, .lease (some 1))
  | .lease (some value) => (false, .lease (some value))

/-- `fs_unlock`: an exchange with 0, or a delete. -/
def unlock : Lock → Bool × Lock
  | .word value => (value == 1, .word 0)
  | .lease entry => (entry.isSome, .lease none)

def Free (l : Lock) : Prop := l = .word 0 ∨ l = .lease none
def Taken (l : Lock) : Prop := l = .word 1 ∨ l = .lease (some 1)

theorem free_initial (fullAtomics : Bool) : (initial fullAtomics).Free := by
  cases fullAtomics with
  | false => exact .inr rfl
  | true => exact .inl rfl

theorem tryLock_free {l : Lock} (h : l.Free) : l.tryLock.1 = true ∧ l.tryLock.2.Taken := by
  rcases h with rfl | rfl
  · exact ⟨rfl, .inl rfl⟩
  · exact ⟨rfl, .inr rfl⟩

theorem tryLock_taken {l : Lock} (h : l.Taken) : l.tryLock.1 = false := by
  rcases h with rfl | rfl <;> rfl

/-- A failed attempt leaves the lock as it is. -/
theorem tryLock_false {l : Lock} (h : l.tryLock.1 = false) : l.tryLock.2 = l := by
  rcases l with value | _ | value
  · by_cases hvalue : value = 0
    · subst hvalue
      cases h
    · simp [tryLock, hvalue]
  · cases h
  · rfl

theorem unlock_taken {l : Lock} (h : l.Taken) : l.unlock.1 = true ∧ l.unlock.2.Free := by
  rcases h with rfl | rfl
  · exact ⟨rfl, .inl rfl⟩
  · exact ⟨rfl, .inr rfl⟩

end Lock

/-! ## Invocations -/

/-- What the invocations share. `core` is what the lock protects; `world` is the atomic machine with
the wrappers. `holder`, `slot` (the fiber an invocation runs an island of), `inside` (its inverse) and
`touched` (the invocation has changed something) are records: no answer depends on them. -/
structure Shared where
  lock : Lock
  core : Core
  world : World
  holder : Option Nat := none
  slot : Nat → Option Nat := fun _ => none
  inside : Nat → Option Nat := fun _ => none
  touched : Nat → Bool := fun _ => false

inductive Op where
  | tryLock
  | unlock
  | micro (o : Micro)

abbrev Resp : Op → Type
  | .tryLock => Bool
  | .unlock => Bool
  | .micro o => MicroResp o

/-- What is scheduled: a client's request, a step of a wrapper outside the islands, its return, and
the invocation of an island. -/
inductive Entry where
  | request (f : Nat) (req : Request)
  | proceed (f : Nat)
  | finish (f : Nat)
  | island (f : Nat) (i : Island)

def locked (body : Body Nat) : Prog Op Resp Nat := do
  let taken ← (Prog.op Op.tryLock : Prog Op Resp Bool)
  if taken then
    let result ← body.handle fun o => (Prog.op (Op.micro o) : Prog Op Resp (MicroResp o))
    let released ← (Prog.op Op.unlock : Prog Op Resp Bool)
    return if released then result else error
  else return busy

section

variable (T : Tlsf) (H : Heap)

def exec (t : Nat) : (o : Op) → Nat → Shared → Option (Resp o × Shared)
  | .tryLock, _, s =>
    let (taken, lock) := s.lock.tryLock
    some (taken, if taken then
      { s with lock := lock, holder := some t, touched := update s.touched t true }
      else { s with lock := lock })
  | .unlock, _, s =>
    let (released, lock) := s.lock.unlock
    some (released, { s with
      lock := lock
      holder := none
      world := match s.slot t with
        | some f => s.world.serve T H f
        | none => s.world
      touched := update s.touched t true })
  | .micro o, _, s =>
    some ((o.exec s.core).1, { s with
      core := (o.exec s.core).2
      touched := update s.touched t true })

/-- The allocator. A wrapper that gets `BUSY` from an island stays at its call. -/
def allocator : System Op Resp Entry Nat Shared where
  code
    | .island _ i => locked (i.body T H)
    | _ => pure 0
  exec := exec T H
  allow e s :=
    match e with
    | .request f req => (s.world.fibers f).isNone && s.world.admits req
    | .proceed _ => true
    | .finish _ => true
    | .island f i =>
      match s.world.fibers f with
      | some fb => decide (fb.island? = some i) && fb.answer.isNone && (s.inside f).isNone
      | none => false
  enter t e s :=
    match e with
    | .request f req => { s with world := s.world.request T f req }
    | .proceed f => { s with world := s.world.proceed f }
    | .finish f => { s with world := s.world.finish f }
    | .island f _ =>
      { s with
        slot := update s.slot t (some f)
        inside := update s.inside f (some t)
        touched := update s.touched t false }
  leave t e a s :=
    match e with
    | .island f _ =>
      { s with
        world := if a = busy then s.world else s.world.deliver f a
        slot := update s.slot t none
        inside := update s.inside f none }
    | _ => s

end

def Shared.initial (fullAtomics : Bool) (mem : Mem) : Shared where
  lock := Lock.initial fullAtomics
  core := { mem := mem }
  world := { core := { mem := mem } }

/-! ## The protocol -/

/-- What an invocation relies on: the fiber it runs an island of, the protected state and that of
the atomic machine while it holds the lock, the wrapper, and whether it has changed anything. -/
structure View where
  slot : Option Nat
  hold : Option (Core × Core)
  fiber : Option Fiber
  touched : Bool

def view (t : Nat) (s : Shared) : View where
  slot := s.slot t
  hold := if s.holder = some t then some (s.core, s.world.core) else none
  fiber := (s.slot t).bind s.world.fibers
  touched := s.touched t

section

variable {T : Tlsf} {H : Heap} (hT : T.Correct H)

structure Inv (s : Shared) : Prop where
  world : s.world.Ledger hT
  free : s.holder = none → s.lock.Free ∧ s.core = s.world.core
  taken : ∀ t, s.holder = some t → s.lock.Taken
  pools : s.core.pools = if s.core.tlsf = 0 then 0 else 1
  slots : ∀ t f, s.slot t = some f ↔ s.inside f = some t
  waits : ∀ t f, s.slot t = some f → ∃ fb i, s.world.fibers f = some fb ∧ fb.island? = some i

/-- Memory and `fs_tlsf` are for the holder of the lock, and `fs_tlsf` is set once. -/
def allowed : Op → View → Prop
  | .tryLock, _ => True
  | .unlock, v => v.hold.isSome
  | .micro o, v => ∃ c w, v.hold = some (c, w) ∧ SetsOnce o c

def protocol : Protocol Op Shared View := ⟨Inv hT, view, allowed⟩

def Idle (v : View) : Prop := v.slot = none ∧ v.hold = none

def Returned (f a : Nat) (v : View) : Prop :=
  v.slot = some f ∧ v.hold = none ∧ ∃ fb, v.fiber = some fb ∧
    ((a = busy ∧ v.touched = false ∧ fb.answer = none) ∨ (a < error ∧ fb.answer = some a))

def EntryPost : Entry → Nat → View → Prop
  | .island f _, a, v => Returned f a v
  | _, _, v => Idle v

/-! ## The operations of an island -/

def Holding (f : Nat) (fb : Fiber) (w : Core) (c : Core) : View := ⟨some f, some (c, w), some fb, true⟩

variable {hT} {t f : Nat} {fb : Fiber} {i : Island} {s : Shared}

theorem holder_of_view {v : View} {c w : Core} (h : view t s = v) (hv : v.hold = some (c, w)) :
    s.holder = some t ∧ s.core = c ∧ s.world.core = w := by
  subst h
  have hhold : (if s.holder = some t then some (s.core, s.world.core) else none) = some (c, w) := hv
  split at hhold
  · rename_i hholder
    cases hhold
    exact ⟨hholder, rfl, rfl⟩
  · cases hhold

/-- The holder's steps are not seen by the others. -/
theorem view_of_holder {s' : Shared} (hholder : s.holder = some t) (hholder' : s'.holder = some t ∨
    s'.holder = none) {u : Nat} (hu : u ≠ t) (hslot : s'.slot u = s.slot u)
    (hfiber : ∀ g, s.slot u = some g → s'.world.fibers g = s.world.fibers g)
    (htouched : s'.touched u = s.touched u) : view u s' = view u s := by
  have hnot : s.holder ≠ some u := by
    rw [hholder]
    exact fun h => hu (Option.some.inj h).symm
  have hnot' : s'.holder ≠ some u := by
    rcases hholder' with h | h
    · rw [h]
      exact fun h => hu (Option.some.inj h).symm
    · rw [h]
      exact (Option.some_ne_none u).symm
  have hbind : (s.slot u).bind s'.world.fibers = (s.slot u).bind s.world.fibers := by
    cases hg : s.slot u with
    | none => rfl
    | some g => exact hfiber g hg
  simp only [view, hslot, htouched, if_neg hnot, if_neg hnot', hbind]

theorem exec_tryLock_true {n : Nat} (h : s.lock.tryLock.1 = true) : exec T H t .tryLock n s =
    some (true, { s with
      lock := s.lock.tryLock.2, holder := some t, touched := update s.touched t true }) := by
  simp [exec, h]

theorem exec_tryLock_false {n : Nat} (h : s.lock.tryLock.1 = false) :
    exec T H t .tryLock n s = some (false, s) := by
  simp [exec, h, Lock.tryLock_false h]

theorem tryLock_safe : Safe (allocator T H) (protocol hT) anyStep t
    (fun taken v => (taken = true ∧ ∃ w, v = Holding f fb w w) ∨
      (taken = false ∧ v = ⟨some f, none, some fb, false⟩))
    (Prog.op Op.tryLock) ⟨some f, none, some fb, false⟩ := by
  refine safe_op trivial fun s n x s' hinv hview hexec _ => ?_
  have hexec : exec T H t .tryLock n s = some (x, s') := hexec
  have hslot : s.slot t = some f := congrArg View.slot hview
  have hfiber : (s.slot t).bind s.world.fibers = some fb := congrArg View.fiber hview
  cases hholder : s.holder with
  | none =>
    obtain ⟨hfree, hcore⟩ := hinv.free hholder
    obtain ⟨htaken, hlock⟩ := Lock.tryLock_free hfree
    rw [exec_tryLock_true htaken] at hexec
    cases hexec
    refine ⟨⟨hinv.world, fun h => ?_, fun u _ => hlock, hinv.pools, hinv.slots, hinv.waits⟩,
      fun u hu => ?_, .inl ⟨rfl, s.world.core, ?_⟩⟩
    · exact absurd h (Option.some_ne_none t)
    · have hne : some t ≠ some u := fun h => hu (Option.some.inj h).symm
      simp only [protocol, view, hholder, if_neg hne, update_of_ne hu]
      simp
    · show view t _ = _
      simp only [view, if_pos, update_self, hslot, hcore]
      rw [hslot] at hfiber
      rw [hfiber]
      rfl
  | some u =>
    rw [exec_tryLock_false (Lock.tryLock_taken (hinv.taken u hholder))] at hexec
    cases hexec
    exact ⟨hinv, fun _ _ => rfl, .inr ⟨rfl, hview⟩⟩

theorem pools_exec {o : Micro} {c : Core} (hset : SetsOnce o c)
    (h : c.pools = if c.tlsf = 0 then 0 else 1) :
    (o.exec c).2.pools = if (o.exec c).2.tlsf = 0 then 0 else 1 := by
  cases o with
  | mem o => exact h
  | readTlsf => exact h
  | writeTlsf v =>
    have hnull : c.tlsf = 0 := hset
    rw [if_pos hnull] at h
    show (if v = 0 then c.pools else c.pools + 1) = if v = 0 then 0 else 1
    rw [h]

theorem micro_safe {w : Core} (o : Micro) (c : Core) (hset : SetsOnce o c) :
    Safe (allocator T H) (protocol hT) anyStep t
      (fun x v => x = (o.exec c).1 ∧ v = Holding f fb w (o.exec c).2)
      (Prog.op (Op.micro o)) (Holding f fb w c) := by
  refine safe_op ⟨c, w, rfl, hset⟩ fun s n x s' hinv hview hexec _ => ?_
  obtain ⟨hholder, rfl, hw⟩ := holder_of_view hview rfl
  have hslot : s.slot t = some f := congrArg View.slot hview
  have hfiber : (s.slot t).bind s.world.fibers = some fb := congrArg View.fiber hview
  cases hexec
  refine ⟨⟨hinv.world, fun h => ?_, hinv.taken, pools_exec hset hinv.pools, hinv.slots, hinv.waits⟩,
    fun u hu => ?_, rfl, ?_⟩
  · exact absurd (hholder.symm.trans h) (Option.some_ne_none t)
  · refine view_of_holder hholder (.inl ?_) hu rfl (fun _ _ => rfl) (update_of_ne hu _ _)
    exact hholder
  · show view t _ = _
    simp only [view, if_pos hholder, hfiber, hw, update_self]
    rw [hslot]
    rfl

/-- The release is where the atomic machine takes its step, and both end in the same state. -/
theorem unlock_safe {w : Core} (hi : fb.island? = some i) (ha : fb.answer = none) :
    Safe (allocator T H) (protocol hT) anyStep t
      (fun released v => released = true ∧ Returned f ((i.body T H).run w).1 v)
      (Prog.op Op.unlock) (Holding f fb w ((i.body T H).run w).2) := by
  refine safe_op rfl fun s n x s' hinv hview hexec _ => ?_
  obtain ⟨hholder, hcore, hw⟩ := holder_of_view hview rfl
  have hslot : s.slot t = some f := congrArg View.slot hview
  have hbind : (s.slot t).bind s.world.fibers = some fb := congrArg View.fiber hview
  have hfiber : s.world.fibers f = some fb := by
    rw [hslot] at hbind
    exact hbind
  obtain ⟨hreleased, hfree⟩ := Lock.unlock_taken (hinv.taken t hholder)
  obtain ⟨hworld, hserved, hfibers, hlt⟩ := World.serve_ledger hinv.world hfiber hi ha
  rw [hw] at hserved hfibers hlt
  have hexec : some (s.lock.unlock.1, ({ s with
      lock := s.lock.unlock.2, holder := none
      world := match s.slot t with
        | some f => s.world.serve T H f
        | none => s.world
      touched := update s.touched t true } : Shared)) = some (x, s') := hexec
  rw [hslot, hreleased] at hexec
  cases hexec
  have hself : (s.world.serve T H f).fibers f =
      some { fb with answer := some ((i.body T H).run w).1 } := by
    rw [hfibers, update_self]
  have hothers : ∀ g, g ≠ f → (s.world.serve T H f).fibers g = s.world.fibers g := by
    intro g hg
    rw [hfibers, update_of_ne hg]
  refine ⟨⟨hworld, fun _ => ⟨hfree, hcore.trans hserved.symm⟩, fun u h => ?_, hinv.pools, hinv.slots,
    fun u g hg => ?_⟩, fun u hu => ?_, rfl, hslot, ?_,
    { fb with answer := some ((i.body T H).run w).1 }, ?_, .inr ⟨hlt, rfl⟩⟩
  · exact absurd h (Option.some_ne_none u).symm
  · by_cases hgf : g = f
    · subst hgf
      exact ⟨_, i, hself, hi⟩
    · rw [hothers g hgf]
      exact hinv.waits u g hg
  · refine view_of_holder hholder (.inr rfl) hu rfl (fun g hg => hothers g ?_)
      (update_of_ne hu _ _)
    -- one fiber is in one invocation
    rintro rfl
    have hsame := ((hinv.slots u g).mp hg).symm.trans ((hinv.slots t g).mp hslot)
    exact hu (Option.some.inj hsame)
  · show (view t _).hold = none
    simp [view]
  · show (s.slot t).bind (s.world.serve T H f).fibers = _
    rw [hslot]
    exact hself

theorem safe_locked (hi : fb.island? = some i) (ha : fb.answer = none) :
    Safe (allocator T H) (protocol hT) anyStep t (fun a v => Returned f a v) (locked (i.body T H))
      ⟨some f, none, some fb, false⟩ := by
  refine safe_bind_of tryLock_safe fun taken v hv => ?_
  rcases hv with ⟨rfl, w, rfl⟩ | ⟨rfl, rfl⟩
  · refine safe_bind_of (safe_handle (Holding f fb w) micro_safe (i.guarded w)) fun r v hv => ?_
    obtain ⟨rfl, rfl⟩ := hv
    refine safe_bind_of (unlock_safe hi ha) fun released v hv => ?_
    obtain ⟨rfl, hreturned⟩ := hv
    exact safe_pure hreturned
  · exact safe_pure ⟨rfl, rfl, fb, rfl, .inl ⟨rfl, rfl, ha⟩⟩

/-! ## Entering and leaving -/

/-- What happens outside the islands is seen by no invocation of one. -/
theorem world_ok {world : World} (hinv : Inv hT s) (hledger : world.Ledger hT)
    (hcore : world.core = s.world.core)
    (hkeep : ∀ g fb i, s.world.fibers g = some fb → fb.island? = some i → world.fibers g = some fb) :
    Inv hT { s with world := world } ∧ ∀ u, view u { s with world := world } = view u s := by
  refine ⟨⟨hledger, fun h => ?_, hinv.taken, hinv.pools, hinv.slots, fun u g hg => ?_⟩, fun u => ?_⟩
  · obtain ⟨hfree, hsame⟩ := hinv.free h
    exact ⟨hfree, hsame.trans hcore.symm⟩
  · obtain ⟨fb, i, hfb, hi⟩ := hinv.waits u g hg
    exact ⟨fb, i, hkeep g fb i hfb hi, hi⟩
  · have hbind : (s.slot u).bind world.fibers = (s.slot u).bind s.world.fibers := by
      cases hg : s.slot u with
      | none => rfl
      | some g =>
        obtain ⟨fb, i, hfb, hi⟩ := hinv.waits u g hg
        show world.fibers g = s.world.fibers g
        rw [hkeep g fb i hfb hi, hfb]
    simp only [view, hbind, hcore]

theorem enterIsland_ok (hinv : Inv hT s) (hidle : Idle (view t s)) (hfb : s.world.fibers f = some fb)
    (hi : fb.island? = some i) (houtside : s.inside f = none) :
    let s' : Shared := { s with
      slot := update s.slot t (some f)
      inside := update s.inside f (some t)
      touched := update s.touched t false }
    Inv hT s' ∧ (∀ u, u ≠ t → view u s' = view u s) ∧ view t s' = ⟨some f, none, some fb, false⟩ := by
  intro s'
  have hslot : s.slot t = none := hidle.1
  refine ⟨⟨hinv.world, hinv.free, hinv.taken, hinv.pools, fun u g => ?_, fun u g hg => ?_⟩,
    fun u hu => ?_, ?_⟩
  · -- the slot and the fiber were both free
    by_cases hu : u = t
    · subst hu
      by_cases hgf : g = f
      · subst hgf
        simp [s']
      · have hnot : s.inside g ≠ some u := fun h => by
          cases hslot.symm.trans ((hinv.slots u g).mpr h)
        simp [s', hgf, Ne.symm hgf, hnot]
    · by_cases hgf : g = f
      · subst hgf
        have hnot : s.slot u ≠ some g := fun h => by
          cases houtside.symm.trans ((hinv.slots u g).mp h)
        simp [s', hu, Ne.symm hu, hnot]
      · simp only [s', update_of_ne hu, update_of_ne hgf]
        exact hinv.slots u g
  · by_cases hu : u = t
    · subst hu
      cases (update_self (f := s.slot) u (some f)).symm.trans hg
      exact ⟨fb, i, hfb, hi⟩
    · exact hinv.waits u g ((update_of_ne hu _ _).symm.trans hg)
  · simp only [view, s', update_of_ne hu]
  · have hhold : (if s.holder = some t then some (s.core, s.world.core) else none) = none := hidle.2
    simp only [view, s', update_self, hhold]
    rw [Option.bind_some, hfb]

theorem leaveIsland_ok {a : Nat} (hinv : Inv hT s) (hreturned : Returned f a (view t s)) :
    let s' : Shared := { s with
      world := if a = busy then s.world else s.world.deliver f a
      slot := update s.slot t none
      inside := update s.inside f none }
    Inv hT s' ∧ (∀ u, u ≠ t → view u s' = view u s) ∧ Idle (view t s') := by
  intro s'
  obtain ⟨hslot, hhold, fb, hfiber, hcases⟩ := hreturned
  have hslot : s.slot t = some f := hslot
  have hfb : s.world.fibers f = some fb := by
    have hfiber : (s.slot t).bind s.world.fibers = some fb := hfiber
    rw [hslot] at hfiber
    exact hfiber
  have hin := (hinv.slots t f).mp hslot
  -- a wrapper that got `BUSY` stays where it is, any other goes on
  have hworld : s'.world.Ledger hT ∧ s'.world.core = s.world.core ∧
      ∀ g, g ≠ f → s'.world.fibers g = s.world.fibers g := by
    rcases hcases with ⟨rfl, -, -⟩ | ⟨hlt, hanswer⟩
    · exact ⟨hinv.world, rfl, fun _ _ => rfl⟩
    · have hne : a ≠ busy := by
        rintro rfl
        exact absurd hlt (by decide)
      simp only [s', if_neg hne]
      exact ⟨World.deliver_ledger hinv.world hfb hanswer, rfl, fun g hg => update_of_ne hg _ _⟩
  have hother : ∀ u g, u ≠ t → s.slot u = some g → g ≠ f := by
    rintro u g hu hg rfl
    exact hu (Option.some.inj (((hinv.slots u g).mp hg).symm.trans hin))
  refine ⟨⟨hworld.1, fun h => ?_, hinv.taken, hinv.pools, fun u g => ?_, fun u g hg => ?_⟩,
    fun u hu => ?_, ?_⟩
  · obtain ⟨hfree, hsame⟩ := hinv.free h
    exact ⟨hfree, hsame.trans hworld.2.1.symm⟩
  · by_cases hu : u = t
    · subst hu
      have hnot : g ≠ f → s.inside g ≠ some u := fun hg h => by
        exact hg (Option.some.inj (((hinv.slots u g).mpr h).symm.trans hslot))
      by_cases hgf : g = f
      · subst hgf
        simp [s']
      · simp [s', hgf, hnot hgf]
    · by_cases hgf : g = f
      · subst hgf
        simp only [s', update_of_ne hu, update_self]
        exact ⟨fun h => absurd rfl (hother u g hu h), fun h => by cases h⟩
      · simp only [s', update_of_ne hu, update_of_ne hgf]
        exact hinv.slots u g
  · by_cases hu : u = t
    · subst hu
      cases (update_self (f := s.slot) u none).symm.trans hg
    · have hg : s.slot u = some g := (update_of_ne hu _ _).symm.trans hg
      rw [hworld.2.2 g (hother u g hu hg)]
      exact hinv.waits u g hg
  · have hbind : (s.slot u).bind s'.world.fibers = (s.slot u).bind s.world.fibers := by
      cases hg : s.slot u with
      | none => rfl
      | some g => exact hworld.2.2 g (hother u g hu hg)
    have hslots : s'.slot u = s.slot u := update_of_ne hu _ _
    simp only [view, hslots, hbind, hworld.2.1]
    rfl
  · refine ⟨update_self .., ?_⟩
    have hnone : (if s.holder = some t then some (s.core, s.world.core) else none) = none := hhold
    have hholder : s.holder ≠ some t := by
      intro h
      rw [if_pos h] at hnone
      cases hnone
    exact if_neg hholder

/-- An entry that only moves the world is over at once, and idle as before. -/
theorem enterWorld_ok {s' : Shared} (hidle : Idle (view t s))
    (h : Inv hT s' ∧ ∀ u, view u s' = view u s) :
    Inv hT s' ∧ (∀ u, u ≠ t → view u s' = view u s) ∧ Idle (view t s') :=
  ⟨h.1, fun u _ => h.2 u, (congrArg Idle (h.2 t)).mpr hidle⟩

theorem allocator_sound : Sound (allocator T H) (protocol hT) anyStep Idle EntryPost where
  enter_ok t e s hinv hidle hallow := by
    cases e with
    | request f req =>
      have hallow : ((s.world.fibers f).isNone && s.world.admits req) = true := hallow
      rw [Bool.and_eq_true] at hallow
      have hfresh := Option.isNone_iff_eq_none.mp hallow.1
      exact enterWorld_ok hidle <| world_ok hinv (World.request_ledger hinv.world hfresh hallow.2) rfl
        fun g fb i hg hi => World.request_fibers hfresh hg hi
    | proceed f =>
      exact enterWorld_ok hidle <| world_ok hinv (World.proceed_ledger hinv.world) World.proceed_core
        fun g fb i hg hi => World.proceed_fibers hg hi
    | finish f =>
      exact enterWorld_ok hidle <| world_ok hinv (World.finish_ledger hinv.world) World.finish_core
        fun g fb i hg hi => World.finish_fibers hg hi
    | island f i =>
      obtain ⟨fb, hfb, hi, hanswer, hinside⟩ : ∃ fb, s.world.fibers f = some fb ∧
          fb.island? = some i ∧ fb.answer = none ∧ s.inside f = none := by
        have hallow : (match s.world.fibers f with
          | some fb => decide (fb.island? = some i) && fb.answer.isNone && (s.inside f).isNone
          | none => false) = true := hallow
        split at hallow
        · rename_i fb hfb
          simp only [Bool.and_eq_true, decide_eq_true_eq, Option.isNone_iff_eq_none] at hallow
          exact ⟨fb, hfb, hallow.1.1, hallow.1.2, hallow.2⟩
        · cases hallow
      -- only an island runs code under the lock; the other entries change the world at once
      obtain ⟨hinv', hothers, hview⟩ := enterIsland_ok hinv hidle hfb hi hinside
      refine ⟨hinv', hothers, ?_⟩
      have hsafe : Safe (allocator T H) (protocol hT) anyStep t (Returned f) (locked (i.body T H)) _ :=
        safe_locked hi hanswer
      rw [← hview] at hsafe
      exact hsafe
  leave_ok t e a s hinv hpost := by
    cases e with
    | island f i => exact leaveIsland_ok hinv hpost
    | request f req => exact ⟨hinv, fun _ _ => rfl, hpost⟩
    | proceed f => exact ⟨hinv, fun _ _ => rfl, hpost⟩
    | finish f => exact ⟨hinv, fun _ _ => rfl, hpost⟩

theorem inv_initial (fullAtomics : Bool) (mem : Mem) : Inv hT (Shared.initial fullAtomics mem) where
  world := ⟨fun _ => none, .unset rfl rfl, fun _ => rfl, (fun _ _ _ h => by cases h),
    (fun _ _ h => by cases h), (fun _ _ _ _ h => by cases h),
    (fun _ _ => ⟨(fun h => by cases h), fun ⟨_, h, _⟩ => by cases h⟩), (fun _ _ h => by cases h)⟩
  free _ := ⟨Lock.free_initial fullAtomics, rfl⟩
  taken _ h := by cases h
  pools := rfl
  slots _ _ := ⟨(fun h => by cases h), fun h => by cases h⟩
  waits _ _ h := by cases h

/-! ## Mutual exclusion -/

structure Exclusive (H : Heap) (c : Config Op Resp Entry Nat Shared) : Prop where
  /-- At most one invocation is at an operation on TLSF or on `fs_tlsf`. -/
  exclusion : ∀ t u o o', c.next? t = some (.micro o) → c.next? u = some (.micro o') → t = u
  /-- Who took the lock has not returned, and without one the lock is free. -/
  released : (c.shared.holder = none → c.shared.lock.Free) ∧
    ∀ t, c.shared.holder = some t → ∃ e o k, c.running t = some (e, .act o k)
  busy_untouched : ∀ t f i, c.running t = some (.island f i, .ret busy) → c.shared.touched t = false
  no_error : ∀ t f i, c.running t ≠ some (.island f i, .ret error)
  no_exit : ∀ f fb code, c.shared.world.fibers f = some fb → fb.rest.next? ≠ some (.exit code)
  /-- `fs_tlsf` was set once, or not yet. -/
  one_pool : c.shared.core.pools = if c.shared.core.tlsf = 0 then 0 else 1
  /-- Live allocations are blocks of the heap, apart from each other. -/
  apart : ∃ B, H.Holds B ∧ ∀ a n, c.shared.world.owner a = some (.client n) →
    ∃ size, B a = some size ∧ n ≤ size

theorem EntryPost.hold {e : Entry} {a : Nat} {v : View} (h : EntryPost e a v) : v.hold = none := by
  cases e with
  | island f i => exact h.2.1
  | request f req => exact h.2
  | proceed f => exact h.2
  | finish f => exact h.2

variable {c : Config Op Resp Entry Nat Shared}

theorem exclusive_of_good (h : Good (allocator T H) (protocol hT) anyStep Idle EntryPost c) :
    Exclusive H c := by
  have hinv : Inv hT c.shared := h.inv
  have hholds : ∀ t o, c.next? t = some (.micro o) → c.shared.holder = some t := by
    intro t o hnext
    obtain ⟨core, w, hhold, -⟩ := h.guar hnext
    exact (holder_of_view rfl hhold).1
  have hview : ∀ t, c.shared.holder = some t → (view t c.shared).hold ≠ none := by
    intro t hholder
    show (if c.shared.holder = some t then _ else none) ≠ none
    rw [if_pos hholder]
    exact Option.some_ne_none _
  have hreturned : ∀ t f i a, c.running t = some (.island f i, .ret a) →
      Returned f a (view t c.shared) := fun t f i a hr => h.safe t _ _ hr
  constructor
  case exclusion =>
    intro t u o o' ht hu
    exact Option.some.inj ((hholds t o ht).symm.trans (hholds u o' hu))
  case released =>
    refine ⟨fun hnone => (hinv.free hnone).1, fun t hholder => ?_⟩
    -- the holder is in the middle of its code: idle and returned entries hold nothing
    rcases hr : c.running t with _ | ⟨e, _ | ⟨o, k⟩⟩
    · exact absurd (h.idle t hr).2 (hview t hholder)
    · exact absurd (EntryPost.hold (h.safe t e _ hr)) (hview t hholder)
    · exact ⟨e, o, k, rfl⟩
  case busy_untouched =>
    intro t f i hr
    obtain ⟨-, -, fb, -, ⟨-, htouched, -⟩ | ⟨hlt, -⟩⟩ := hreturned t f i _ hr
    · exact htouched
    · exact absurd hlt (by decide)
  case no_error =>
    intro t f i hr
    obtain ⟨-, -, fb, -, ⟨heq, -, -⟩ | ⟨hlt, -⟩⟩ := hreturned t f i _ hr
    · exact absurd heq (by decide)
    · exact Nat.lt_irrefl _ hlt
  case no_exit =>
    intro f fb code hf
    exact World.next_ne_exit hinv.world hf code
  case one_pool => exact hinv.pools
  case apart =>
    obtain ⟨B, hledger⟩ := hinv.world
    exact ⟨B, hledger.live⟩

end

section

variable {T : Tlsf} {H : Heap}

/-- An operation that leaves its invocation untouched changed nothing. -/
theorem exec_untouched {t u n : Nat} {o : Op} {s s' : Shared} {x : Resp o}
    (h : exec T H u o n s = some (x, s')) (htouched : s'.touched t = false) :
    s.touched t = false ∧ (u = t → s' = s) := by
  have hupdate : update s.touched u true t = false → s.touched t = false ∧ u ≠ t := by
    intro hfalse
    rw [update_apply] at hfalse
    split at hfalse
    · cases hfalse
    next hut =>
      exact ⟨hfalse, Ne.symm hut⟩
  cases o with
  | unlock =>
    cases h
    exact (hupdate htouched).imp_right fun hut heq => absurd heq hut
  | micro o =>
    cases h
    exact (hupdate htouched).imp_right fun hut heq => absurd heq hut
  | tryLock =>
    cases htaken : s.lock.tryLock.1 with
    | true =>
      cases (exec_tryLock_true htaken).symm.trans h
      exact (hupdate htouched).imp_right fun hut heq => absurd heq hut
    | false =>
      cases (exec_tryLock_false htaken).symm.trans h
      exact ⟨htouched, fun _ => rfl⟩

/-- **The allocator's lock excludes.** With any TLSF that is correct when it runs alone, in every
interleaving of any number of requests: at most one invocation is inside TLSF, who took the lock
releases it, `BUSY` means that nothing was changed, `ALLOCATOR_CORRUPT` is never raised, the pool is
created once, and live allocations are apart and inside the heap. -/
theorem allocator_exclusive (hT : T.Correct H) (fullAtomics : Bool) (mem : Mem)
    {c : Config Op Resp Entry Nat Shared}
    (hrun : Steps (allocator T H) anyStep (System.start (Shared.initial fullAtomics mem)) c) :
    Exclusive H c ∧ ∀ t u n o s x s', exec T H u o n s = some (x, s') → s'.touched t = false →
      s.touched t = false ∧ (u = t → s' = s) := by
  have hstart : Good (allocator T H) (protocol hT) anyStep Idle EntryPost
      (System.start (Shared.initial fullAtomics mem)) :=
    good_start (inv_initial fullAtomics mem) fun t => ⟨rfl, rfl⟩
  exact ⟨exclusive_of_good (allocator_sound.steps hrun hstart), fun t u n o s x s' => exec_untouched⟩

def oneBlock : Tlsf where
  size := 8
  poolOverhead := 0
  blockSizeMin := 64
  blockSizeMax := 64
  createWithPool mem _ := do
    (Prog.op (MemOp.store mem 0) : Code Unit)
    return mem
  malloc tlsf n := do
    let taken ← (Prog.op (MemOp.load tlsf) : Code Nat)
    if taken = 0 ∧ n ≤ 64 then
      (Prog.op (MemOp.store tlsf 1) : Code Unit)
      return tlsf + 8
    else return 0
  free tlsf _ := Prog.op (MemOp.store tlsf 0)
  blockSize _ := return 64
  memalign _ _ _ := return 0

def smallHeap : Heap := ⟨4096, 128, by decide, by decide⟩

def oneBlock.blocks (taken : Nat) : Blocks :=
  if taken = 0 then fun _ => none else update (fun _ => none) 4104 (some 64)

theorem oneBlock.blocks_eq_some {taken a size : Nat} (h : blocks taken a = some size) :
    a = 4104 ∧ size = 64 := by
  unfold blocks at h
  split at h
  · cases h
  · by_cases ha : a = 4104
    · subst ha
      cases h
      exact ⟨rfl, rfl⟩
    · rw [update_of_ne ha] at h
      cases h

theorem oneBlock.holds (taken : Nat) : smallHeap.Holds (blocks taken) := by
  constructor
  · intro a size h
    obtain ⟨rfl, rfl⟩ := blocks_eq_some h
    exact ⟨by decide, by decide⟩
  · intro a b size size' hab ha hb
    exact absurd ((blocks_eq_some ha).1.trans (blocks_eq_some hb).1.symm) hab

def oneBlock.correct : oneBlock.Correct smallHeap where
  Rep m c B := c = 4096 ∧ B = blocks (m 4096)
  holds := by
    rintro m c B ⟨-, rfl⟩
    exact holds _
  create m _ _ := ⟨rfl, rfl⟩
  malloc := by
    rintro m c B n ⟨rfl, rfl⟩
    by_cases hfits : m 4096 = 0 ∧ n ≤ 64
    · have hrun : (oneBlock.malloc 4096 n).run m = (4104, update m 4096 1) := by
        simp [oneBlock, MemOp.exec, hfits]
      rw [hrun]
      refine ⟨blocks 1, .inr ⟨64, hfits.2, Nat.succ_ne_zero _, ?_, ?_⟩, rfl, rfl⟩
      · rw [hfits.1]
        rfl
      · rw [hfits.1]
        rfl
    · have hrun : (oneBlock.malloc 4096 n).run m = (0, m) := by
        simp [oneBlock, MemOp.exec, hfits]
      rw [hrun]
      exact ⟨_, .inl ⟨rfl, rfl⟩, rfl, rfl⟩
  memalign := by
    rintro m c B align n - ⟨rfl, rfl⟩
    exact ⟨_, .inl ⟨rfl, rfl⟩, rfl, rfl⟩
  free := by
    rintro m c B p size ⟨rfl, rfl⟩ hp
    obtain ⟨rfl, -⟩ := blocks_eq_some hp
    refine ⟨rfl, ?_⟩
    show update (blocks (m 4096)) 4104 none = fun _ => none
    unfold blocks
    split
    · exact Function.update_eq_self 4104 _
    · rw [Function.update_idem]
      exact Function.update_eq_self 4104 _
  blockSize := by
    rintro m c B p size ⟨rfl, rfl⟩ hp
    exact ⟨(blocks_eq_some hp).2.symm, rfl, rfl⟩

/-- The second fiber asks while the first has the lock; then the first returns with its block. -/
def busySchedule : List (Label Entry) :=
  [.enter 0 (.request 0 (.malloc 16)), .leave 0, .enter 1 (.request 1 (.malloc 16)), .leave 1,
    .enter 0 (.island 0 (.malloc 16)), .act 0 0, .enter 1 (.island 1 (.malloc 16)), .act 1 0] ++
    Label.acts 0 8 ++ [.leave 0, .enter 0 (.finish 0), .leave 0]

theorem allocator_exclusive_oneBlock : ∃ c,
    (allocator oneBlock smallHeap).run busySchedule (System.start (Shared.initial true fun _ => 0)) =
      some c ∧ c.shared.world.owner 4104 = some (.client 16) ∧
    c.running 1 = some (.island 1 (.malloc 16), .ret busy) ∧ Exclusive smallHeap c :=
  ⟨_, rfl, rfl, rfl, (allocator_exclusive oneBlock.correct true (fun _ => 0)
    (steps_of_run (show (allocator oneBlock smallHeap).run busySchedule _ = _ from rfl))).1⟩

end

end BpfCapsule.Allocator
