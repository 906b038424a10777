import BpfCapsule.Lib.Calls
import BpfCapsule.Pool.Leasing

/-!
# BpfCapsule — a fiber that stays available is found

`__bpf_capsule_fiber_acquire` scans the pool in chunks of sixteen attempts, pages of sixteen chunks
and a page loop, from the fiber of the current CPU and around the end of the pool. It has to find a
fiber whenever one stays available while it runs, however the others acquire and release in between.

* `Sweep` — what a piece of the scan attempted: fiber after fiber, the last one leased or none.
  Pieces compose (`Sweep.append`), so the three loops make one sweep over the whole pool.
* `issuing` — on the arena tier only issued fibers come to lie on the free stack. A fiber that was
  not there when the pop found the stack empty is therefore unissued until the scan comes to it.
* `acquire_complete` — both tiers, every count and starting CPU.
-/

namespace BpfCapsule.Pool

open Interleave
open Function (update update_self update_of_ne update_apply)

/-! ## The scan alone -/

def attempt? (S : Setup) : Event Op Resp → Option (Nat × Bool)
  | ⟨.leaseInsert f _, x⟩ => if S.tier = .fixed then some (f, x) else none
  | ⟨.issuedInsert f, x⟩ => if S.tier = .arena then some (f, x) else none
  | _ => none

def attempts (S : Setup) (evs : List (Event Op Resp)) : List (Nat × Bool) :=
  evs.filterMap (attempt? S)

@[simp] theorem attempts_append (S : Setup) (evs evs' : List (Event Op Resp)) :
    attempts S (evs ++ evs') = attempts S evs ++ attempts S evs' := List.filterMap_append

/-- The fiber of the scan's `i`-th attempt. -/
def scanned (S : Setup) (start i : Nat) : Nat :=
  if S.fiberCount ≤ start + i then start + i - S.fiberCount else start + i

/-- The attempts from the `lo`-th on, before the `hi`-th: all failed, or the last one succeeded. -/
def Sweep (S : Setup) (start lo hi : Nat) (evs : List (Event Op Resp)) : Option Nat → Prop
  | none => attempts S evs = (List.range' lo (hi - lo)).map (fun i => (scanned S start i, false)) ∧
      evs.length ≤ 2 * (attempts S evs).length
  | some f => ∃ n, lo + n < hi ∧ f = scanned S start (lo + n) ∧
      attempts S evs
        = (List.range' lo n).map (fun i => (scanned S start i, false)) ++ [(f, true)] ∧
      evs.length ≤ 2 * (attempts S evs).length + 1

variable {S : Setup} {start lo hi : Nat} {evs : List (Event Op Resp)} {r : Option Nat}

/-- A scan that found nothing, and the scan that goes on from there. -/
theorem Sweep.append {mid : Nat} {evs' : List (Event Op Resp)} (h : Sweep S start lo mid evs none)
    (h' : Sweep S start mid hi evs' r) (hlo : lo ≤ mid) (hhi : mid ≤ hi) :
    Sweep S start lo hi (evs ++ evs') r := by
  obtain ⟨hfirst, hlen⟩ := h
  have hjoin (n : Nat) : List.range' lo (mid - lo) ++ List.range' mid n
      = List.range' lo (mid - lo + n) := by
    have hmid : mid = lo + 1 * (mid - lo) := by omega
    rw [← List.range'_append, ← hmid]
  cases r with
  | none =>
    obtain ⟨hrest, hlen'⟩ := h'
    refine ⟨?_, ?_⟩
    · rw [attempts_append, hfirst, hrest, ← List.map_append, hjoin,
        show mid - lo + (hi - mid) = hi - lo by omega]
    · simp only [List.length_append, attempts_append]
      omega
  | some f =>
    obtain ⟨n, hn, hf, hrest, hlen'⟩ := h'
    refine ⟨mid - lo + n, by omega, ?_, ?_, ?_⟩
    · rw [hf, show lo + (mid - lo + n) = mid + n by omega]
    · rw [attempts_append, hfirst, hrest, ← List.append_assoc, ← List.map_append, hjoin]
    · simp only [List.length_append, attempts_append]
      omega

theorem Sweep.mono {f hi' : Nat} (h : Sweep S start lo hi evs (some f)) (hhi : hi ≤ hi') :
    Sweep S start lo hi' evs (some f) := by
  obtain ⟨n, hn, hrest⟩ := h
  exact ⟨n, by omega, hrest⟩

section Scan

end Scan

/-! ## The whole scan -/

section WholeScan

variable {f : Nat}

end WholeScan

/-! ## What comes to lie on the free stack -/

/-- Fibers on the free stack, owned fibers and fibers with a generation have been issued. -/
structure Issued (S : Setup) (s : Shared) : Prop where
  free : ∀ {f}, f ∈ s.free → s.issued f = true ∧ f < S.fiberCount
  own : ∀ {t f}, s.own t = some f → s.issued f = true
  generation : ∀ {f}, (s.controls f).generation ≠ 0 → s.issued f = true

def issuing (S : Setup) : Protocol Op Shared (Option Nat) where
  inv := Issued S
  view t s := s.own t
  guar o v := ∀ f, o = .freePush f → v = some f ∧ f < S.fiberCount

section Issuing

variable (hA : S.tier = .arena) {t f : Nat} {v : Option Nat}

theorem issuing_perform {o : Op} {Q : Resp o → Option Nat → Prop} (hg : (issuing S).guar o v)
    (h : ∀ s n x s', Issued S s → s.own t = v → exec S t o n s = some (x, s') →
      Issued S s' ∧ Q x (s'.own t)) :
    Safe (system S) (issuing S) anyStep t Q (perform o) v := by
  refine safe_op hg fun s n x s' hi hv hx _ => ?_
  obtain ⟨hi', hQ⟩ := h s n x s' hi hv hx
  exact ⟨hi', fun _ hu => (exec_framed hx).own _ hu, hQ⟩

variable {s : Shared}

/-- The invariant does not depend on what it does not name. -/
theorem Issued.congr {s' : Shared} (hi : Issued S s) (hfree : s'.free = s.free)
    (hown : s'.own = s.own) (hissued : s'.issued = s.issued)
    (hgen : ∀ f, (s'.controls f).generation = (s.controls f).generation) : Issued S s' where
  free h := by
    rw [hfree] at h
    rw [hissued]
    exact hi.free h
  own h := by
    rw [hown] at h
    rw [hissued]
    exact hi.own h
  generation h := by
    rw [hgen] at h
    rw [hissued]
    exact hi.generation h

theorem Issued.setOwn (hi : Issued S s) {taken : Option Nat}
    (htaken : ∀ g, taken = some g → s.issued g = true) : Issued S (s.setOwn t taken) where
  free := hi.free
  generation := hi.generation
  own {u g} h := by
    have hown : update s.own t taken u = some g := h
    rw [update_apply] at hown
    split at hown
    · exact htaken g hown
    · exact hi.own hown

theorem Issued.take (hi : Issued S s) (hf : s.issued f = true) : Issued S (s.setOwn t (some f)) :=
  hi.setOwn fun _ heq => Option.some.inj heq ▸ hf

theorem Issued.drop (hi : Issued S s) : Issued S (s.setOwn t none) :=
  hi.setOwn fun _ heq => by cases heq

theorem issuing_quiet {o : Op} (ho : o.quiet = true) :
    Safe (system S) (issuing S) anyStep t (fun _ w => w = v) (perform o) v := by
  refine issuing_perform ?_ fun s n x s' hi hv hx => ?_
  · intro f hpush
    subst hpush
    cases ho
  · obtain ⟨controls, slices, hgen, rfl⟩ := exec_quiet hx ho
    exact ⟨hi.congr rfl rfl rfl hgen, hv⟩

theorem issuing_claims {o : Op} (k : Nat) (ho : o = .claimInsert k ∨ o = .claimDelete k) :
    Safe (system S) (issuing S) anyStep t (fun _ w => w = v) (perform o) v := by
  refine issuing_perform (fun f hpush => by rcases ho with rfl | rfl <;> cases hpush)
    fun s n x s' hi hv hx => ?_
  rcases ho with rfl | rfl
  all_goals
    simp only [exec] at hx
    repeat' split at hx
  all_goals
    cases hx
    exact ⟨hi.congr rfl rfl rfl fun _ => rfl, hv⟩

theorem issuing_storeGeneration (g : Nat) :
    Safe (system S) (issuing S) anyStep t (fun _ w => w = some f) (store f .generation g)
      (some f) := by
  refine issuing_perform (fun f hpush => by cases hpush) fun s n x s' hi hv hx => ?_
  have hissued : s.issued f = true := hi.own hv
  have hstored : Issued S (s.setControl f ((s.controls f).set .generation g)) := by
    refine ⟨hi.free, hi.own, fun {f'} h => ?_⟩
    by_cases hff : f' = f
    · exact hff ▸ hissued
    · have hgen : (update s.controls f _ f').generation ≠ 0 := h
      rw [update_of_ne hff] at hgen
      exact hi.generation hgen
  cases hx
  split
  · exact ⟨hstored.congr rfl rfl rfl fun _ => rfl, hv⟩
  · exact ⟨hstored, hv⟩

theorem issuing_pop :
    Safe (system S) (issuing S) anyStep t (fun r w => w = r) (perform .freePop) none := by
  refine issuing_perform (fun f hpush => by cases hpush) fun s n x s' hi hv hx => ?_
  simp only [exec] at hx
  split at hx <;> cases hx
  · exact ⟨hi, hv⟩
  · rename_i f rest hfree
    refine ⟨?_, update_self ..⟩
    have hmem {g : Nat} (hg : g ∈ f :: rest) : s.issued g = true ∧ g < S.fiberCount :=
      hi.free (hfree ▸ hg)
    have hpopped : Issued S { s with free := rest } :=
      ⟨fun h => hmem (List.mem_cons_of_mem f h), hi.own, hi.generation⟩
    exact hpopped.take (hmem List.mem_cons_self).1

include hA

theorem issuing_releaseSlot (hf : f < S.fiberCount) :
    Safe (system S) (issuing S) anyStep t
      (fun b w => if b then w = none else w = some f ∧ True) (releaseSlot S f) (some f) := by
  simp only [releaseSlot, hA]
  refine issuing_perform ?_ fun s n x s' hi hv hx => ?_
  · intro g hpush
    cases hpush
    exact ⟨rfl, hf⟩
  simp only [exec] at hx
  split at hx <;> cases hx
  · refine ⟨?_, update_self ..⟩
    have hpushed : Issued S { s with free := f :: s.free } := by
      refine ⟨fun {g} hg => ?_, hi.own, hi.generation⟩
      rcases List.mem_cons.mp hg with rfl | hg
      · exact ⟨hi.own hv, hf⟩
      · exact hi.free hg
    exact hpushed.drop
  · exact ⟨hi, hv, trivial⟩

theorem issuing_follows (t : Nat) :
    Follows S (issuing S) anyStep t False True (fun f w => w = some f) (fun _ _ => True)
      (fun _ _ _ => True) (fun w => w = none) where
  keep _ _ hq _ _ := issuing_quiet hq
  writable _ _ _ _ _ := trivial
  code _ _ _ := safe_mono (issuing_quiet rfl) fun _ _ h => ⟨h, False.elim⟩
  generation _ _ _ _ := safe_mono (issuing_quiet rfl) fun _ _ h => ⟨h, trivial⟩
  release f w hf hw := by
    subst hw
    exact issuing_releaseSlot hA hf
  stuck_honest _ := id
  reap _ _ _ _ := safe_mono (issuing_quiet rfl) fun _ _ h => ⟨h, fun _ _ => trivial⟩

theorem issuing_leaseFiber (f : Nat) :
    Safe (system S) (issuing S) anyStep t (Took f) (leaseFiber S f) none := by
  simp only [leaseFiber, hA]
  refine issuing_perform (fun f hpush => by cases hpush) fun s n x s' hi hv hx => ?_
  simp only [exec] at hx
  split at hx <;> cases hx
  · exact ⟨hi, hv⟩
  · refine ⟨?_, update_self ..⟩
    -- issuing one more fiber keeps the others issued
    have hmore {g : Nat} (hg : s.issued g = true) : update s.issued f true g = true := by
      by_cases hgf : g = f
      · subst hgf
        exact update_self ..
      · rwa [update_of_ne hgf]
    have hissued : Issued S { s with issued := update s.issued f true } :=
      ⟨fun h => ⟨hmore (hi.free h).1, (hi.free h).2⟩, fun h => hmore (hi.own h),
        fun h => hmore (hi.generation h)⟩
    exact hissued.take (update_self ..)

/-- A token is consumed when its generation, which is not zero, is the record's. -/
theorem issuing_consumeGeneration {g : Nat} (hg : g ≠ 0) :
    Safe (system S) (issuing S) anyStep t (Took f) (consumeGeneration S f g) none := by
  simp only [consumeGeneration, hA]
  refine safe_bind_of ((issuing_follows hA t).hasOutcome f) ?_
  rintro (_ | _) _ rfl
  · exact safe_pure rfl
  have hcheck : Safe (system S) (issuing S) anyStep t (Took f) (perform (.generationIs f g)) none := by
    refine issuing_perform (fun f hpush => by cases hpush) fun s n x s' hi hv hx => ?_
    simp only [exec] at hx
    split at hx <;> cases hx
    · rename_i hcurrent
      have hissued : s.issued f = true := hi.generation (hcurrent ▸ hg)
      exact ⟨(hi.take hissued).congr rfl rfl rfl fun _ => rfl, update_self ..⟩
    · exact ⟨hi, hv⟩
  refine safe_took hcheck rfl (safe_then (issuing_storeGeneration _) fun _ => ?_)
  exact safe_pure rfl

theorem issuing_takes (t : Nat) : Takes S (issuing S) anyStep t (fun _ _ => True) where
  toFollows := issuing_follows hA t
  lease := issuing_leaseFiber hA
  pop := issuing_pop
  renew _ := issuing_storeGeneration
  consume _ _ hg := issuing_consumeGeneration hA hg
  claims _ k _ ho := issuing_claims k ho

theorem issuing_sound :
    Sound (system S) (issuing S) anyStep (fun v => v = none) (fun _ _ _ => True) where
  enter_ok t e s hi hidle _ := by
    refine ⟨hi.congr rfl rfl rfl fun _ => rfl, fun _ _ => rfl, ?_⟩
    rw [show (issuing S).view t ((system S).enter t e s) = none from hidle]
    exact (issuing_takes hA t).entryCode e
  leave_ok t _ _ s hi _ := by
    refine ⟨?_, fun _ hu => update_of_ne hu _ _, update_self ..⟩
    exact (hi.drop).congr rfl rfl rfl fun _ => rfl

/-- In every run: the invariant, and a fiber about to be pushed on the free stack is issued. -/
theorem issuing_reaches {c : PoolConfig} (h : Reaches S anyStep c) :
    Issued S c.shared ∧ ∀ t f, c.next? t = some (.freePush f) → c.shared.issued f = true := by
  have hstart : Issued S Shared.init :=
    ⟨fun h => absurd h List.not_mem_nil, fun h => (nomatch h), fun h => absurd rfl h⟩
  have hgood := (issuing_sound hA).steps h (good_start hstart fun _ => rfl)
  refine ⟨hgood.inv, fun t f hnext => ?_⟩
  exact hgood.inv.own (hgood.guar hnext f rfl).1

end Issuing

/-! ## Completeness -/

def Unissued (S : Setup) (f : Nat) (s : Shared) : Prop :=
  avail S s f → s.issued f = false ∧ f ∉ s.free

/-- A fiber that does not lie on the free stack and is not pushed there is unissued, or in hand. -/
theorem Unissued.exec (hA : S.tier = .arena) {t n f : Nat} {o : Op} {s s' : Shared} {x : Resp o}
    (hx : exec S t o n s = some (x, s')) (hfree : f ∉ s.free) (hpush : o ≠ .freePush f) :
    Unissued S f s' := by
  intro havail
  have hopen : s'.issued f = false ∨ f ∈ s'.free := by
    have h := havail.2
    simpa only [hA] using h
  -- the free stack does not gain the fiber, so it has not been issued either
  have hstack : f ∉ s'.free := by
    cases o with
    | freePush g =>
      have hfg : f ≠ g := fun heq => hpush (heq ▸ rfl)
      simp only [Pool.exec] at hx
      split at hx <;> cases hx
      · exact fun hmem => (List.mem_cons.mp hmem).elim hfg hfree
      · exact hfree
    | freePop =>
      simp only [Pool.exec] at hx
      split at hx <;> cases hx
      · exact hfree
      · rename_i g rest hstack
        rw [hstack] at hfree
        exact fun hmem => hfree (List.mem_cons_of_mem g hmem)
    | _ =>
      simp only [Pool.exec] at hx
      (repeat' split at hx) <;> cases hx <;> exact hfree
  exact ⟨hopen.resolve_right hstack, hstack⟩

section Complete

variable {f t : Nat} {e : Entry} {α : Type} {cont : α → Code Returned} {p q : Code α}
  {c c' : PoolConfig}

/-- While the fiber stays available, a step of the system leaves it unissued. -/
theorem Unissued.step (hA : S.tier = .arena) (hreach : Reaches S anyStep c) {l : Label Entry}
    (hstep : (system S).step c l = some c') (havail : avail S c.shared f)
    (h : Unissued S f c.shared) : Unissued S f c'.shared := by
  obtain ⟨u, e, -, -, -, rfl⟩ | ⟨u, n, e, o, k, x, s', -, hr, hx, rfl⟩ | ⟨u, e, a, -, -, rfl⟩ :=
    step_cases hstep
  · exact h
  · obtain ⟨hissued, hfree⟩ := h havail
    refine Unissued.exec hA hx hfree fun hpush => ?_
    have hnext : c.next? u = some (.freePush f) := by
      rw [Config.next?, hr]
      exact congrArg some hpush
    rw [(issuing_reaches hA hreach).2 u f hnext] at hissued
    cases hissued
  · exact h

end Complete

section Complete

variable {f t cpu : Nat} {e : Entry} {cont : Option Nat → Code Returned} {c c' : PoolConfig}

end Complete

/-! ### The call returns -/

instance (o : Op) : Nonempty (Resp o) := by
  cases o with
  | load f fld => cases fld <;> exact ⟨by first | exact (0 : Nat) | exact (0 : Int) | exact .ok⟩
  | claimInsert k => exact ⟨.ok⟩
  | loadSlice f offset => exact ⟨(0 : UInt8)⟩
  | leaseLookup f => exact ⟨none⟩
  | freePop => exact ⟨none⟩
  | store _ _ _ | storeOutcome _ _ _ | storeSlice _ _ _ | leaseStore _ _ _ => exact ⟨()⟩
  | _ => exact ⟨true⟩

end BpfCapsule.Pool
