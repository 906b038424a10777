import BpfCapsule.Pool.Resume

/-!
# BpfCapsule — when the pool reports corruption

`CAPSULE_ERROR_POOL_CORRUPT` is the pool's answer to a map that does not behave. This module looks
at when correct maps produce it, with clients free to present any number, returned to them or made
up. `no_spurious_corruption` names what has to hold at single operations: the claims map has room
for the claim, neither window of the fixed tier is hit, and a generation found current belongs to a
token that was handed out. Then the code is never reported, and a token that is current when its
entry starts is accepted unless another entry presents it too.

The claims map has one slot per fiber, but any number of stale tokens can be in the middle of their
refusal: `newest_token_refused` is a run in which the only current token is turned away, as
corruption, because a stale one occupies the slot. And the comparison that accepts a token does not
know whether its fiber is suspended or running.
-/

namespace BpfCapsule.Pool

open Interleave
open CapsuleError
open Function (update update_self update_of_ne update_apply)

def openPool (S : Setup) : System Op Resp Entry Returned Shared :=
  admitting S fun e _ => e.generated

/-- The claims map has room, the fixed tier's windows are not hit, and only tokens that were handed
out are found current. -/
def poolSound (S : Setup) : Cond Op Shared := fun t o s s' =>
  tierFresh S t o s s' ∧ claimRoom S t o s s' ∧ acceptsReturned t o s s'

instance (S : Setup) (t : Nat) (o : Op) (s s' : Shared) : Decidable (poolSound S t o s s') := by
  unfold poolSound; infer_instance

def openRegime : Regime := ⟨True, False, True⟩

/-! ## What is known in every state -/

/-- What every operation of a run may assume once the lease protocol and the resume protocol are
known to hold. -/
def Known (S : Setup) : Cond Op Shared := fun t o s s' =>
  poolSound S t o s s' ∧ PoolInv S openRegime s ∧ PoolInv S openRegime s' ∧ resuming.inv s

section Known

variable {S : Setup} {c c' : PoolConfig}

theorem openRules (S : Setup) :
    TierRules S openRegime (fun t o s s' => poolSound S t o s s' ∧ Unwrapped s') :=
  tierRules_of_fresh (fun hC => hC.2) (fun hC => hC.1.1) (fun _ _ _ _ _ hC => hC.1.2.1)
    (.inr fun hC => hC.1.2.2)

theorem openRules_sound (S : Setup) :
    Sound (openPool S) (leasing S openRegime)
      (fun t o s s' => poolSound S t o s s' ∧ Unwrapped s')
      (fun v => v.own = none ∧ v.claim = none) (TierRules.Post S openRegime) :=
  (openRules S).sound fun _ _ h => ⟨fun _ => (Bool.and_eq_true_iff.mp h).1, False.elim⟩

def Leased (S : Setup) : Cond Op Shared := fun t o s s' =>
  (poolSound S t o s s' ∧ Unwrapped s') ∧ PoolInv S openRegime s ∧ PoolInv S openRegime s'

theorem openResume_sound (S : Setup) :
    Sound (openPool S) resuming (Leased S) (fun v => v = none)
      (fun _ res w => Resumes res.result w) :=
  resuming_sound (fun hC => hC.2.1) fun _ _ h => (Bool.and_eq_true_iff.mp h).2

structure InOrder (S : Setup) (c : PoolConfig) : Prop where
  lease : Good (openPool S) (leasing S openRegime)
    (fun t o s s' => poolSound S t o s s' ∧ Unwrapped s')
    (fun v => v.own = none ∧ v.claim = none) (TierRules.Post S openRegime) c
  resume : Good (openPool S) resuming (Leased S) (fun v => v = none)
    (fun _ res w => Resumes res.result w) c

theorem inOrder_start (S : Setup) : InOrder S (System.start Shared.init) :=
  ⟨good_start (poolInv_init S openRegime) fun _ => ⟨rfl, rfl⟩,
    good_start (fun _ hk => by cases hk) fun _ => rfl⟩

theorem InOrder.steps (h : InOrder S c) (hsteps : Steps (openPool S) (poolSound S) c c')
    (hb : Unwrapped c'.shared) : InOrder S c' ∧ Steps (openPool S) (Known S) c c' := by
  have hbound := steps_unwrapped hsteps hb
  have hleased : Steps (openPool S) (Leased S) c c' :=
    (openRules_sound S).steps_with_inv hbound h.lease
  have hboth := (openResume_sound S).steps_with_inv hleased h.resume
  exact ⟨⟨(openRules_sound S).steps hbound h.lease, (openResume_sound S).steps hleased h.resume⟩,
    hboth.mono fun _ _ _ _ hC => ⟨hC.1.1.1, hC.1.2.1, hC.1.2.2, hC.2.1⟩⟩

theorem unwrapped_of_steps {A : Entry → Shared → Bool} {C : Cond Op Shared}
    (h : Steps (admitting S A) C c c') (hb : Unwrapped c'.shared) : Unwrapped c.shared := by
  induction h with
  | refl => exact hb
  | tail _ _ hstep _ ih => exact ih (unwrapped_of_step hstep hb)

end Known

/-! ## One reader of one token -/

/-- Some finished entry presented `k`. -/
def logged (k : Nat) (s : Shared) : Bool := s.log.any fun fin => fin.entry.token? = some k

/-- What is followed of an entry while `reader` presents `k`: whether it is the reader, what it
presents, has accepted and has claimed, and for the reader whether an entry with `k` is over. -/
structure Watch where
  reader : Bool
  presented : Option Nat
  took : Bool
  claim : Option Nat
  ended : Bool

/-- Until an entry that presented `k` is over, the reader and nobody else presents `k`, and nobody
else can have accepted it. -/
def watching (reader k : Nat) : Protocol Op Shared Watch where
  inv s := k ∈ s.returned ∧ (logged k s = false →
    (∀ u, s.presented u = some k ↔ u = reader) ∧ (k ∈ s.accepted → s.took reader = true))
  view t s := ⟨decide (t = reader), s.presented t, s.took t, s.claim t,
    decide (t = reader) && logged k s⟩
  guar _ _ := True

abbrev Watches (S : Setup) (reader k t : Nat) {α : Type} :=
  Safe (α := α) (openPool S) (watching reader k) (Known S) t

structure Stays (v w : Watch) : Prop where
  reader : w.reader = v.reader
  presented : w.presented = v.presented
  ended : w.ended = v.ended
  took : v.took = true → w.took = true

theorem Stays.trans {u v w : Watch} (h : Stays u v) (h' : Stays v w) : Stays u w :=
  ⟨h'.reader.trans h.reader, h'.presented.trans h.presented, h'.ended.trans h.ended,
    fun ht => h'.took (h.took ht)⟩

section Watching

variable {S : Setup} {reader t k n : Nat} {o : Op} {s s' : Shared} {x : Resp o} {α : Type}

theorem logged_of_exec (hx : exec S t o n s = some (x, s')) : logged k s' = logged k s := by
  unfold logged
  rw [(exec_framed hx).log]

/-- Whoever accepts an outstanding token holds its claim, so it presents the token. -/
theorem presented_of_accept {R : Regime} {f g : Nat} (hi : PoolInv S R s)
    (hi' : PoolInv S R (s.accept t f g)) (hk : k = continuationValue f g) (hret : k ∈ s.returned)
    (hacc : k ∉ s.accepted) : s.presented t = some k := by
  have hown : (s.accept t f g).own t = some f := update_self ..
  have hf16 : f < 2 ^ 16 := by have := Setup.lt_two_pow_of_lt (hi'.own_lt hown); omega
  have hpair : tokenPair k = (f, g) := by rw [hk, tokenPair_continuationValue g hf16]
  have hfib : tokenFiber k = f := congrArg Prod.fst hpair
  -- the word has not moved since the token was found current
  have hcur : tokenPair k = (f, word S (s.accept t f g) f) := by
    have hmem : k ∈ outstanding s f :=
      List.mem_filter.mpr ⟨hret, decide_eq_true ⟨hfib, hacc⟩⟩
    exact (current_of_outstanding hi hmem).2.1
  have hspent : (f, word S (s.accept t f g) f) ∈ (abs S (s.accept t f g)).accepted := by
    rw [← hcur, hk]
    exact List.mem_cons_self
  obtain ⟨u, hu, hclaim⟩ := hi'.lease.accepted_spent hspent
  obtain rfl : u = t := hi'.lease.own_inj hu hown
  obtain ⟨k', hk', heq⟩ := Option.map_eq_some_iff.mp hclaim
  obtain rfl : k' = k := tokenPair_injective (heq.trans hcur.symm)
  exact hi'.claim_presented hk'

theorem watching_step (hC : Known S t o s s') (hinv : (watching reader k).inv s)
    (hx : exec S t o n s = some (x, s')) (ht : t = reader ∨ s.presented t ≠ some k) :
    (watching reader k).inv s' ∧
      (∀ u, u ≠ t → (watching reader k).view u s' = (watching reader k).view u s) ∧
      Stays ((watching reader k).view t s) ((watching reader k).view t s') := by
  have hpres := (exec_framed hx).presented
  have hlog := logged_of_exec (k := k) hx
  obtain ⟨hret, hfree⟩ := hinv
  refine ⟨⟨by rw [(exec_framed hx).returned]; exact hret, ?_⟩, ?_, ?_⟩
  · rw [hlog, hpres]
    intro hl
    obtain ⟨hp, htook⟩ := hfree hl
    refine ⟨hp, fun hacc => ?_⟩
    have hkeep : s.took reader = true → s'.took reader = true := by
      intro h
      by_cases hrt : reader = t
      · subst hrt
        rcases exec_accepted hx with ⟨-, hle⟩ | ⟨f, g, rfl⟩
        · exact hle h
        · exact update_self ..
      · rw [(exec_framed hx).took _ hrt]
        exact h
    -- accepted before, or now: then by the entry that presented it
    rcases exec_accepted hx with ⟨heq, -⟩ | ⟨f, g, rfl⟩
    · exact hkeep (htook (heq ▸ hacc))
    · by_cases hold : k ∈ s.accepted
      · exact hkeep (htook hold)
      · have hk : k = continuationValue f g := (List.mem_cons.mp hacc).resolve_right hold
        have hself := presented_of_accept hC.2.1 hC.2.2.1 hk hret hold
        rcases ht with rfl | hne
        · exact update_self ..
        · exact absurd hself hne
  · intro u hu
    show Watch.mk _ _ _ _ _ = Watch.mk _ _ _ _ _
    rw [hpres, (exec_framed hx).took _ hu, (exec_framed hx).claim _ hu, hlog]
  · refine ⟨rfl, congrFun hpres t, congrArg (decide (t = reader) && ·) hlog, fun h => ?_⟩
    rcases exec_accepted hx with ⟨-, hle⟩ | ⟨f, g, rfl⟩
    · exact hle h
    · exact update_self ..

/-- Whatever an entry runs, the watch is kept, as long as only the reader presents `k`. -/
theorem watching_any {p : Code α} {v : Watch} (hv : v.reader = true ∨ v.presented ≠ some k) :
    Watches S reader k t (fun _ w => Stays v w) p v := by
  induction p generalizing v with
  | ret a => exact ⟨rfl, rfl, rfl, id⟩
  | act o j ih =>
    refine ⟨trivial, fun s n x s' hi hview hx hC => ?_⟩
    have ht : t = reader ∨ s.presented t ≠ some k := by
      rcases hv with hr | hp
      · rw [← hview] at hr
        exact .inl (of_decide_eq_true hr)
      · rw [← hview] at hp
        exact .inr hp
    obtain ⟨hi', hothers, hstays⟩ := watching_step hC hi hx ht
    rw [hview] at hstays
    have hv' : ((watching reader k).view t s').reader = true ∨
        ((watching reader k).view t s').presented ≠ some k := by
      rw [hstays.reader, hstays.presented]
      exact hv
    exact ⟨hi', hothers, safe_mono (ih x hv') fun _ _ h => hstays.trans h⟩

/-! ### The reader is not refused -/

def readerAt (k : Nat) (claim : Option Nat) : Watch := ⟨true, some k, false, claim, false⟩

variable {claim : Option Nat}

theorem view_readerAt (h : (watching reader k).view t s = readerAt k claim) :
    t = reader ∧ s.presented t = some k ∧ s.took t = false ∧ s.claim t = claim ∧
      logged k s = false := by
  simp only [watching, readerAt, Watch.mk.injEq, decide_eq_true_eq] at h
  obtain ⟨ht, hp, htook, hc, hover⟩ := h
  rw [decide_eq_true ht, Bool.true_and] at hover
  exact ⟨ht, hp, htook, hc, hover⟩

/-- Until the reader accepts it, the token is outstanding. -/
theorem outstanding_of_reader (hinv : (watching reader k).inv s)
    (h : (watching reader k).view t s = readerAt k claim) : k ∉ s.accepted := by
  obtain ⟨rfl, -, htook, -, hl⟩ := view_readerAt h
  intro hacc
  have htrue := (hinv.2 hl).2 hacc
  rw [htook] at htrue
  cases htrue

/-- The reader's fiber is at the token's generation. -/
theorem word_of_outstanding {R : Regime} (hi : PoolInv S R s) (hret : k ∈ s.returned)
    (hacc : k ∉ s.accepted) : word S s (tokenFiber k) = tokenGeneration k := by
  have hmem : k ∈ outstanding s (tokenFiber k) :=
    List.mem_filter.mpr ⟨hret, decide_eq_true ⟨rfl, hacc⟩⟩
  exact (congrArg Prod.snd (current_of_outstanding hi hmem).2.1).symm

/-- The reader performs an operation: what it learns, and what its watch becomes. -/
theorem reader_perform {Q : Resp o → Watch → Prop}
    (h : ∀ s n x s', Known S t o s s' → (watching reader k).inv s → k ∉ s.accepted →
      (watching reader k).view t s = readerAt k claim → exec S t o n s = some (x, s') →
      Q x ((watching reader k).view t s')) :
    Watches S reader k t Q (perform o) (readerAt k claim) := by
  refine safe_op trivial fun s n x s' hi hv hx hC => ?_
  have hacc := outstanding_of_reader hi hv
  obtain ⟨hi', hothers, -⟩ := watching_step hC hi hx (.inl (view_readerAt hv).1)
  exact ⟨hi', hothers, h s n x s' hC hi hacc hv hx⟩

/-- Nobody else holds a claim on the token, and the map has room. -/
theorem reader_claimInsert :
    Watches S reader k t
      (fun x w => x = .ok ∧ w = readerAt k (some k)) (perform (.claimInsert k))
      (readerAt k none) := by
  refine reader_perform fun s n x s' hC hinv hacc hv hx => ?_
  obtain ⟨ht, hp, htook, hclaim, hl⟩ := view_readerAt hv
  have hnot : k ∉ s.claims := by
    intro hmem
    obtain ⟨u, hu⟩ := hC.2.1.claim_mem.mp hmem
    have hur : u = reader := ((hinv.2 hl).1 u).mp (hC.2.1.claim_presented hu)
    rw [hur, ← ht, hclaim] at hu
    cases hu
  have hroom : s.claims.length < S.fiberCount := by
    have hcond : k ∈ s.claims ∨ s.claims.length < S.fiberCount := hC.1.2.1
    exact hcond.resolve_left hnot
  simp only [exec, if_neg hnot, if_pos hroom] at hx
  cases hx
  refine ⟨rfl, ?_⟩
  show Watch.mk _ _ _ (update s.claim t (some k) t) _ = _
  rw [update_self, hp, htook]
  exact congrArg₂ (fun a b => Watch.mk a _ _ _ b) (decide_eq_true ht)
    (by rw [decide_eq_true ht, Bool.true_and]; exact hl)

def HasTaken (k : Nat) (w : Watch) : Prop :=
  w.reader = true ∧ w.presented = some k ∧ w.took = true

/-- What is accepted stays accepted, whatever the reader goes on to do. -/
theorem taken_any {p : Code α} {v : Watch} (hv : HasTaken k v) :
    Watches S reader k t (fun _ w => HasTaken k w) p v :=
  safe_mono (watching_any (.inl hv.1)) fun _ _ h =>
    ⟨h.reader.trans hv.1, h.presented.trans hv.2.1, h.took hv.2.2⟩

/-- The comparison that finds the token current accepts it. -/
theorem hasTaken_accept {f g : Nat} (hv : (watching reader k).view t s = readerAt k claim) :
    HasTaken k ((watching reader k).view t (s.accept t f g)) := by
  obtain ⟨ht, hp, -⟩ := view_readerAt hv
  exact ⟨decide_eq_true ht, hp, update_self ..⟩

theorem reader_consumeGeneration (hf : tokenFiber k < S.fiberCount) :
    Watches S reader k t (fun _ w => HasTaken k w)
      (consumeGeneration S (tokenFiber k) (tokenGeneration k)) (readerAt k (some k)) := by
  cases htier : S.tier with
  | arena =>
    -- an outstanding token's fiber is suspended and its word the token's
    have houtcome : Watches S reader k t
        (fun b w => b = true ∧ w = readerAt k (some k)) (hasOutcome (tokenFiber k))
        (readerAt k (some k)) := by
      have hload : Watches S reader k t
          (fun x w => x ≠ 0 ∧ w = readerAt k (some k)) (load (tokenFiber k) .resumeRegionId)
          (readerAt k (some k)) := by
        refine reader_perform fun s n x s' hC hinv hacc hv hx => ?_
        cases hx
        exact ⟨hC.2.2.2 k hinv.1 hacc, hv⟩
      refine safe_bind_of hload ?_
      rintro resume _ ⟨hne, rfl⟩
      rw [if_pos hne]
      exact safe_pure ⟨rfl, rfl⟩
    simp only [consumeGeneration, htier]
    refine safe_bind_of houtcome ?_
    rintro _ _ ⟨rfl, rfl⟩
    have hcheck : Watches S reader k t (fun _ w => HasTaken k w)
        (perform (.generationIs (tokenFiber k) (tokenGeneration k))) (readerAt k (some k)) := by
      refine reader_perform fun s n x s' hC hinv hacc hv hx => ?_
      have hgen : (s.controls (tokenFiber k)).generation = tokenGeneration k :=
        (word_arena htier s _).symm.trans (word_of_outstanding hC.2.1 hinv.1 hacc)
      simp only [exec, if_pos hgen] at hx
      cases hx
      exact hasTaken_accept hv
    exact safe_bind_of hcheck fun _ _ hw => taken_any hw
  | fixed =>
    have hlookup : Watches S reader k t
        (fun x w => x ≠ none ∧ w = readerAt k (some k)) (perform (.leaseLookup (tokenFiber k)))
        (readerAt k (some k)) := by
      refine reader_perform fun s n x s' hC hinv hacc hv hx => ?_
      cases hx
      refine ⟨fun hnone => ?_, hv⟩
      have hav : avail S s (tokenFiber k) := (avail_fixed htier s _).mpr ⟨hf, hnone⟩
      refine hC.2.1.lease.avail_fresh hav ⟨k, hinv.1, ?_⟩
      show tokenPair k = (tokenFiber k, word S s (tokenFiber k))
      rw [word_of_outstanding hC.2.1 hinv.1 hacc]
      rfl
    simp only [consumeGeneration, htier]
    refine safe_bind_of hlookup ?_
    rintro (_ | elem) _ ⟨hne, rfl⟩
    · exact absurd rfl hne
    have hcheck : Watches S reader k t (fun _ w => HasTaken k w)
        (perform (.leaseIs elem (tokenFiber k) (tokenGeneration k))) (readerAt k (some k)) := by
      refine reader_perform fun s n x s' hC hinv hacc hv hx => ?_
      have hlease : s.leases (tokenFiber k) = some elem := hC.1.1 htier
      have hval : s.elemValue elem = tokenGeneration k :=
        (word_fixed_some htier hlease).symm.trans (word_of_outstanding hC.2.1 hinv.1 hacc)
      simp only [exec, if_pos hval] at hx
      cases hx
      exact hasTaken_accept hv
    exact safe_bind_of hcheck fun _ _ hw => taken_any hw

/-- **The reader's token is accepted.** -/
theorem reader_consumeContinuation (hf : tokenFiber k < S.fiberCount) (hg : tokenGeneration k ≠ 0) :
    Watches S reader k t (fun _ w => HasTaken k w)
      (consumeContinuation S k) (readerAt k none) := by
  unfold consumeContinuation
  rw [if_neg (by omega)]
  refine safe_bind_of reader_claimInsert ?_
  rintro _ _ ⟨rfl, rfl⟩
  exact safe_bind_of (reader_consumeGeneration hf) fun _ _ hw => taken_any hw

/-- How an entry returns: the reader of `k` has accepted it, and nobody else presented it. -/
def Served (k : Nat) (e : Entry) (w : Watch) : Prop :=
  if w.reader then w.presented = e.token? ∧ (e.token? = some k → w.took = true)
  else e.token? ≠ some k

theorem reader_entryCode {e : Entry} (he : e.token? = some k) (hf : tokenFiber k < S.fiberCount)
    (hg : tokenGeneration k ≠ 0) :
    Watches S reader k t (fun _ w => Served k e w) (entryCode S e)
      (readerAt k none) := by
  have htaken : Watches S reader k t (fun _ w => HasTaken k w)
      (entryCode S e) (readerAt k none) := by
    have hconsume : Watches S reader k t _ _ _ := reader_consumeContinuation hf hg
    cases e with
    | call cpu root drive => cases he
    | «continue» k' outputSize outputAlignment drive =>
      cases he
      exact safe_bind_of (safe_bind_of hconsume fun _ _ hw => taken_any hw) fun _ _ hw => taken_any hw
    | reset k' =>
      cases he
      exact safe_bind_of hconsume fun _ _ hw => taken_any hw
  refine safe_mono htaken fun _ w hw => ?_
  unfold Served
  rw [if_pos hw.1]
  exact ⟨hw.2.1.trans he.symm, fun _ => hw.2.2⟩

/-- Entries that do not present `k`. -/
def withoutToken (k : Nat) (e : Entry) (_ : Shared) : Bool :=
  e.generated && decide (e.token? ≠ some k)

theorem logged_leave (e : Entry) (r : Returned) :
    logged k (leave t e r s) = (decide (e.token? = some k) || logged k s) := rfl

theorem watching_sound (S : Setup) (reader k : Nat) :
    Sound (admitting S (withoutToken k)) (watching reader k) (Known S)
      (fun v => v.reader = true → v.ended = true) (fun e _ w => Served k e w) where
  enter_ok t e s hi hidle hallow := by
    have hne : e.token? ≠ some k := of_decide_eq_true (Bool.and_eq_true_iff.mp hallow).2
    -- the reader comes back only when the token is in the log already
    have hover : t = reader → logged k s = true := fun ht => by
      have := hidle (decide_eq_true ht)
      simpa [watching, ht] using this
    refine ⟨⟨hi.1, fun hl => ?_⟩, ?_, ?_⟩
    · have htr : t ≠ reader := fun ht => by
        have hl' : logged k s = false := hl
        rw [hover ht] at hl'
        cases hl'
      obtain ⟨hp, htook⟩ := hi.2 hl
      refine ⟨fun u => ?_, fun hacc => ?_⟩
      · show update s.presented t e.token? u = some k ↔ u = reader
        by_cases hut : u = t
        · rw [hut, update_self]
          exact ⟨fun h => absurd h hne, fun h => absurd h htr⟩
        · rw [update_of_ne hut]
          exact hp u
      · show update s.took t false reader = true
        rw [update_of_ne (Ne.symm htr)]
        exact htook hacc
    · intro u hu
      show Watch.mk _ (update s.presented t e.token? u) (update s.took t false u) _ _ = _
      rw [update_of_ne hu, update_of_ne hu]
      rfl
    · have hp : ((watching reader k).view t (enter t e s)).presented = e.token? :=
        update_self ..
      refine safe_of_exec (show (admitting S (withoutToken k)).exec = (openPool S).exec from rfl)
        (safe_mono (watching_any (.inr fun h => hne (hp.symm.trans h))) fun _ w h => ?_)
      unfold Served
      split
      · exact ⟨h.presented.trans hp, fun htok => absurd htok hne⟩
      · exact hne
  leave_ok t e r s hi hpost := by
    have hlog := logged_leave (k := k) (t := t) (s := s) e r
    have hserved : (if decide (t = reader) = true then s.presented t = e.token? ∧
        (e.token? = some k → s.took t = true) else e.token? ≠ some k) := hpost
    have hreader : t = reader → logged k (leave t e r s) = true := by
      intro ht
      rw [if_pos (decide_eq_true ht)] at hserved
      rw [hlog]
      by_cases hl : logged k s = true
      · rw [hl, Bool.or_true]
      · have hp := ((hi.2 (by simpa using hl)).1 t).mpr ht
        rw [hserved.1] at hp
        rw [decide_eq_true hp, Bool.true_or]
    -- nobody else leaves with the token, so only the reader can log it
    have hother : t ≠ reader → logged k (leave t e r s) = logged k s := by
      intro ht
      rw [if_neg (by simpa using ht)] at hserved
      rw [hlog, decide_eq_false hserved, Bool.false_or]
    refine ⟨⟨?_, fun hl => ?_⟩, ?_, ?_⟩
    · show k ∈ (leave t e r s).returned
      simp only [leave]
      split
      · exact hi.1
      · exact List.mem_cons_of_mem _ hi.1
    · by_cases ht : t = reader
      · have hl' : logged k (leave t e r s) = false := hl
        rw [hreader ht] at hl'
        cases hl'
      · exact hi.2 ((hother ht).symm.trans hl)
    · intro u hu
      show Watch.mk _ _ _ _ (decide (u = reader) && logged k (leave t e r s)) = _
      by_cases ht : t = reader
      · have hur : u ≠ reader := ht ▸ hu
        simp only [watching, decide_eq_false hur, Bool.false_and]
        rfl
      · rw [hother ht]
        rfl
    · intro hr
      have ht : t = reader := of_decide_eq_true hr
      show (decide (t = reader) && logged k (leave t e r s)) = true
      rw [hreader ht, decide_eq_true ht]
      rfl

end Watching

/-! ## The runs -/

section Runs

variable {S : Setup} {A : Entry → Shared → Bool} {C : Cond Op Shared} {reader k : Nat}
variable {c c' : PoolConfig}

/-- No finished entry, and no entry in flight but the reader's, presents `k`. -/
def Unshared (reader k : Nat) (c : PoolConfig) : Prop :=
  logged k c.shared = false ∧
    ∀ u e p, u ≠ reader → c.running u = some (e, p) → e.token? ≠ some k

variable {l : Label Entry}

theorem logged_step (hstep : (admitting S A).step c l = some c')
    (h : logged k c.shared = true) : logged k c'.shared = true := by
  obtain ⟨t, e, -, -, -, rfl⟩ | ⟨t, n, e, o, j, x, s', -, -, hx, rfl⟩ | ⟨t, e, a, -, -, rfl⟩ :=
    step_cases hstep
  · exact h
  · exact (logged_of_exec hx).trans h
  · show logged k (leave t e a c.shared) = true
    rw [logged_leave, h, Bool.or_true]

/-- An entry that presents `k` stays in flight until it is logged. -/
theorem inFlight_step {u : Nat} {e : Entry} (he : e.token? = some k)
    (hstep : (admitting S A).step c l = some c')
    (h : (∃ p, c.running u = some (e, p)) ∨ logged k c.shared = true) :
    (∃ p, c'.running u = some (e, p)) ∨ logged k c'.shared = true := by
  rcases h with ⟨p, hp⟩ | hl
  · obtain ⟨t, e', -, hr, -, rfl⟩ | ⟨t, n, e', o, j, x, s', -, hr, -, rfl⟩ |
      ⟨t, e', a, -, hr, rfl⟩ := step_cases hstep
    all_goals by_cases hut : u = t
    all_goals first | exact .inl ⟨p, by simpa [hut] using hp⟩ | subst hut; rw [hr] at hp; cases hp
    · exact .inl ⟨j x, update_self ..⟩
    · refine .inr ?_
      show logged k (leave u e a c.shared) = true
      rw [logged_leave, decide_eq_true he, Bool.true_or]
  · exact .inr (logged_step hstep hl)

/-- A token presented was presented by an entry still in flight or finished. -/
theorem used_of_presented (h : Steps (admitting S A) C (System.start Shared.init) c) {u : Nat}
    (hu : c.shared.presented u = some k) : ∃ e : Entry, e.token? = some k ∧
      ((∃ p, c.running u = some (e, p)) ∨ logged k c.shared = true) := by
  induction h with
  | refl => cases hu
  | @tail d d' l _ hstep _ ih =>
    have hlast : (∃ e p, e.token? = some k ∧ d'.running u = some (e, p)) ∨
        d.shared.presented u = some k := by
      obtain ⟨t, e, -, -, -, rfl⟩ | ⟨t, n, e, o, j, x, s', -, -, hx, rfl⟩ |
        ⟨t, e, a, -, -, rfl⟩ := step_cases hstep
      · have hu' : update d.shared.presented t e.token? u = some k := hu
        rw [update_apply] at hu'
        split at hu'
        next hut =>
          subst hut
          exact .inl ⟨e, _, hu', update_self ..⟩
        next => exact .inr hu'
      · exact .inr ((congrFun (exec_framed hx).presented u).symm.trans hu)
      · exact .inr hu
    rcases hlast with ⟨e, p, he, hr⟩ | hold
    · exact ⟨e, he, .inl ⟨p, hr⟩⟩
    · obtain ⟨e, he, hused⟩ := ih hold
      exact ⟨e, he, inFlight_step he hstep hused⟩

/-- A step after which only the reader uses `k` began with only the reader using it. -/
theorem unshared_of_step (hstep : (openPool S).step c l = some c')
    (h : Unshared reader k c') : Unshared reader k c := by
  have hnot : ¬ logged k c'.shared = true := by simp [h.1]
  refine ⟨Bool.eq_false_iff.mpr fun hl => hnot (logged_step hstep hl), fun u e p hu hr he => ?_⟩
  obtain ⟨p', hr'⟩ := (inFlight_step he hstep (.inl ⟨p, hr⟩)).resolve_right hnot
  exact h.2 u e p' hu hr' he

/-- While only the reader uses `k`, its entry is in flight, and nobody else starts with `k`. -/
theorem steps_without {e : Entry} {p : Code Returned} (h : Steps (openPool S) C c c')
    (hr : c.running reader = some (e, p)) (he : e.token? = some k) (hun : Unshared reader k c') :
    Unshared reader k c ∧ (∃ p', c'.running reader = some (e, p')) ∧
      Steps (admitting S (withoutToken k)) C c c' := by
  induction h with
  | refl => exact ⟨hun, ⟨p, hr⟩, .refl c⟩
  | @tail d d' l _ hstep hperm ih =>
    obtain ⟨hun0, ⟨p', hr'⟩, hsteps⟩ := ih (unshared_of_step hstep hun)
    have hsame : (admitting S (withoutToken k)).step d l = some d' := by
      cases l with
      | act t n => exact hstep
      | leave t => exact hstep
      | enter t e' =>
        obtain ⟨hidle, hallow, rfl⟩ := step_enter hstep
        have htr : t ≠ reader := by rintro rfl; rw [hr'] at hidle; cases hidle
        have hne : e'.token? ≠ some k := hun.2 t e' _ htr (update_self ..)
        have hallow' : withoutToken k e' d.shared = true :=
          Bool.and_eq_true_iff.mpr ⟨hallow, decide_eq_true hne⟩
        simp only [System.step, hidle]
        exact if_pos hallow'
    -- the reader's entry cannot be over, it would be logged
    have hflight := (inFlight_step he hstep (.inl ⟨p', hr'⟩)).resolve_right (by simp [hun.1])
    exact ⟨hun0, hflight, hsteps.tail l hsame hperm⟩

/-- The reader's entry starts while its token is outstanding: the watch begins. -/
theorem watching_good {c₀ c₁ : PoolConfig} {e : Entry}
    (h : Steps (openPool S) (poolSound S) (System.start Shared.init) c₀) (hgood : InOrder S c₀)
    (hstep : (openPool S).step c₀ (.enter reader e) = some c₁) (he : e.token? = some k)
    (hout : k ∈ outstanding c₀.shared (tokenFiber k)) (hun : Unshared reader k c₁) :
    Good (admitting S (withoutToken k)) (watching reader k) (Known S)
      (fun v => v.reader = true → v.ended = true) (fun e _ w => Served k e w) c₁ := by
  obtain ⟨hidle, -, rfl⟩ := step_enter hstep
  have hi : PoolInv S openRegime c₀.shared := hgood.lease.inv
  have hclaim : c₀.shared.claim reader = none := (hgood.lease.idle reader hidle).2
  obtain ⟨hret, -, hacc⟩ := current_of_outstanding hi hout
  have hl : logged k (enter reader e c₀.shared) = false := hun.1
  -- a token in nobody else's hands and not in the log is presented by the reader alone
  have hothers : ∀ u, u ≠ reader → c₀.shared.presented u ≠ some k := by
    intro u hu hp
    obtain ⟨e', he', ⟨p, hr⟩ | hlog⟩ := used_of_presented h hp
    · exact hun.2 u e' p hu (by simpa [hu] using hr) he'
    · exact absurd (hlog.symm.trans hl) (by decide)
  refine ⟨?_, ?_, ?_⟩
  · refine ⟨hret, fun _ => ⟨fun u => ?_, fun h => absurd h hacc⟩⟩
    show update c₀.shared.presented reader e.token? u = some k ↔ u = reader
    by_cases hu : u = reader
    · rw [hu, update_self]
      exact ⟨fun _ => rfl, fun _ => he⟩
    · rw [update_of_ne hu]
      exact ⟨fun hp => absurd hp (hothers u hu), fun hur => absurd hur hu⟩
  · intro u hu hr
    have hur : u = reader := of_decide_eq_true hr
    subst hur
    have hnone : update c₀.running u (some (e, entryCode S e)) u = none := hu
    rw [update_self] at hnone
    cases hnone
  · intro u e' p hr
    refine safe_of_exec (show (admitting S (withoutToken k)).exec = (openPool S).exec from rfl) ?_
    by_cases hu : u = reader
    · subst hu
      have hr' : update c₀.running u (some (e, entryCode S e)) u = some (e', p) := hr
      rw [update_self] at hr'
      cases hr'
      have hview : (watching u k).view u (enter u e c₀.shared) = readerAt k none := by
        show Watch.mk _ (update c₀.shared.presented u e.token? u)
          (update c₀.shared.took u false u) (c₀.shared.claim u)
          (decide (u = u) && logged k (enter u e c₀.shared)) = _
        rw [update_self, update_self, he, hclaim, hl]
        simp [readerAt]
      obtain ⟨hf, hg⟩ := hi.returned_valid hret
      show Safe (openPool S) (watching u k) (Known S) u _ (entryCode S e)
        ((watching u k).view u (enter u e c₀.shared))
      rw [hview]
      exact reader_entryCode he hf hg
    · have hp : ((watching reader k).view u (enter reader e c₀.shared)).presented ≠ some k := by
        show update c₀.shared.presented reader e.token? u ≠ some k
        rw [update_of_ne hu]
        exact hothers u hu
      refine safe_mono (watching_any (.inr hp)) fun _ w hw => ?_
      have hnot : w.reader = false := hw.reader.trans (decide_eq_false hu)
      unfold Served
      rw [hnot]
      exact hun.2 u e' p hu hr

end Runs

/-- **No spurious corruption.** In every interleaving of any number of calls, continues and resets
with any tokens whatsoever, whose claim insertions find room, that stays out of the fixed tier's
windows and in which only tokens handed out before are found current: no entry reports
`POOL_CORRUPT`, and an entry started with a token that is outstanding at that moment, which no
other entry presents, has been accepted when it returns. -/
theorem no_spurious_corruption (S : Setup) (c : Config Op Resp Entry Returned Shared)
    (h : Steps (openPool S) (poolSound S) (System.start Shared.init) c) (hb : Unwrapped c.shared) :
    (∀ fin ∈ c.shared.log, fin.returned.result.code ≠ poolCorrupt) ∧
    (∀ c₀ c₁ t e k e' r,
      Steps (openPool S) (poolSound S) (System.start Shared.init) c₀ →
      (openPool S).step c₀ (.enter t e) = some c₁ →
      Steps (openPool S) (poolSound S) c₁ c →
      e.token? = some k → k ∈ outstanding c₀.shared (tokenFiber k) →
      c.running t = some (e', .ret r) → Unshared t k c → c.shared.took t = true) := by
  have hend := ((inOrder_start S).steps h hb).1
  refine ⟨fun fin hfin => hend.lease.inv.log_clean trivial trivial hfin, ?_⟩
  intro c₀ c₁ t e k e' r h₀ hstep hsteps he hout hr hun
  have hb₁ : Unwrapped c₁.shared := unwrapped_of_steps hsteps hb
  have henter : Steps (openPool S) (poolSound S) c₀ c₁ := .tail _ (.refl c₀) hstep trivial
  have hb₀ : Unwrapped c₀.shared := unwrapped_of_steps henter hb₁
  have hgood₀ := ((inOrder_start S).steps h₀ hb₀).1
  have hgood₁ := (hgood₀.steps henter hb₁).1
  have hknown := (hgood₁.steps hsteps hb).2
  have hrun₁ : c₁.running t = some (e, entryCode S e) := by
    obtain ⟨-, -, rfl⟩ := step_enter hstep
    exact update_self ..
  obtain ⟨hun₁, ⟨p', hp'⟩, hwithout⟩ := steps_without hknown hrun₁ he hun
  have hwatch := (watching_sound S t k).steps hwithout
    (watching_good h₀ hgood₀ hstep he hout hun₁)
  have hserved : Served k e' ((watching t k).view t c.shared) := hwatch.safe t e' _ hr
  rw [hr] at hp'
  cases hp'
  unfold Served at hserved
  rw [if_pos (show ((watching t k).view t c.shared).reader = true from decide_eq_true rfl)]
    at hserved
  exact hserved.2 he

/-- A call stays pending; while a reset of its token waits for its turn, a made-up token is
refused. -/
def acceptedPrefix : List (Label Entry) :=
  .enter 0 (callOf 0 0) :: Label.acts 0 18 ++ [.leave 0]

def acceptedRest : List (Label Entry) :=
  .enter 1 (resetOf 0 7) :: Label.acts 1 4 ++ .leave 1 :: Label.acts 0 13

theorem no_spurious_corruption_reset :
    ∃ c₀ c₁ c r, Steps (openPool (oneFiber .arena)) (poolSound (oneFiber .arena))
        (System.start Shared.init) c₀ ∧
      (openPool (oneFiber .arena)).step c₀ (.enter 0 (resetOf 0 1)) = some c₁ ∧
      Steps (openPool (oneFiber .arena)) (poolSound (oneFiber .arena)) c₁ c ∧
      c.running 0 = some (resetOf 0 1, .ret r) ∧ Unshared 0 (continuationValue 0 1) c ∧
      c.shared.log.length = 2 ∧ c.shared.took 0 = true ∧
      ∀ fin ∈ c.shared.log, fin.returned.result.code ≠ poolCorrupt := by
  have hrun : (((openPool (oneFiber .arena)).runIf (poolSound (oneFiber .arena)) acceptedPrefix
      (System.start Shared.init)).bind fun c₀ =>
        ((openPool (oneFiber .arena)).step c₀ (.enter 0 (resetOf 0 1))).bind fun c₁ =>
          ((openPool (oneFiber .arena)).runIf (poolSound (oneFiber .arena)) acceptedRest c₁).map
            fun c => (outstanding c₀.shared 0, logged (continuationValue 0 1) c.shared,
              c.shared.log.length, (c.next? 0).isNone && (c.running 1).isNone,
              (c.running 0).map Prod.fst))
      = some ([continuationValue 0 1], false, 2, true, some (resetOf 0 1)) := by decide
  obtain ⟨c₀, hc₀, hrest⟩ := Option.bind_eq_some_iff.mp hrun
  obtain ⟨c₁, hc₁, hrest⟩ := Option.bind_eq_some_iff.mp hrest
  obtain ⟨c, hc, hobs⟩ := Option.map_eq_some_iff.mp hrest
  simp only [Prod.mk.injEq, Bool.and_eq_true, Option.isNone_iff_eq_none] at hobs
  obtain ⟨hout, hlog, hlen, ⟨hnext, hidle₁⟩, hentry⟩ := hobs
  have h₀ := steps_of_runIf hc₀
  have h₁ := steps_of_runIf hc
  have hall := (h₀.tail _ hc₁ trivial).trans h₁
  have hrun : (openPool (oneFiber .arena)).run
      (acceptedPrefix ++ .enter 0 (resetOf 0 1) :: acceptedRest) (System.start Shared.init)
      = some c := by
    rw [System.run_append, run_of_runIf hc₀, Option.bind_some, System.run, hc₁, Option.bind_some]
    exact run_of_runIf hc
  have hb : Unwrapped c.shared := unwrapped_of_run hrun (by decide)
  have hidle : ∀ u, u ≠ 0 → c.running u = none := by
    intro u hu
    by_cases hu1 : u = 1
    · rw [hu1]
      exact hidle₁
    · refine running_of_run hrun rfl fun w e hw => ?_
      simp [acceptedPrefix, acceptedRest, Label.acts] at hw
      omega
  obtain ⟨⟨e, p⟩, hr, rfl⟩ := Option.map_eq_some_iff.mp hentry
  cases p with
  | act o j => simp [Config.next?, hr] at hnext
  | ret r =>
    have hun : Unshared 0 (continuationValue 0 1) c := by
      refine ⟨hlog, fun u e' p hu hru => ?_⟩
      rw [hidle u hu] at hru
      cases hru
    obtain ⟨hclean, hserved⟩ := no_spurious_corruption (oneFiber .arena) c hall hb
    refine ⟨c₀, c₁, c, r, h₀, hc₁, h₁, hr, hun, hlen, ?_, hclean⟩
    have hmem : continuationValue 0 1 ∈ outstanding c₀.shared (tokenFiber (continuationValue 0 1)) := by
      rw [show tokenFiber (continuationValue 0 1) = 0 by decide, hout]
      exact List.mem_singleton_self _
    exact hserved c₀ c₁ 0 _ _ _ r h₀ hc₁ h₁ rfl hmem hr hun

/-- With one fiber, one stale token is in the middle of its refusal when the newest one is
presented. -/
def newestTokenSchedule (callOps continueOps : Nat) : List (Label Entry) :=
  .enter 0 (callOf 0 0) :: Label.acts 0 callOps ++ .leave 0 ::
  .enter 0 (continueOf 0 1 0 []) :: Label.acts 0 continueOps ++ .leave 0 ::
  .enter 1 (resetOf 0 1) :: Label.acts 1 1 ++
  .enter 0 (resetOf 0 2) :: Label.acts 0 1 ++ [.leave 0]

/-- **The newest token refused**: on either tier, the only outstanding token of a suspended fiber
is rejected, and the rejection is reported as a corrupt pool. -/
theorem newest_token_refused :
    (∃ c, Steps (openPool (oneFiber .fixed)) anyStep (System.start Shared.init) c ∧
      Unwrapped c.shared ∧ c.shared.log.head? =
        some ⟨resetOf 0 2, false, ⟨exitedWith poolCorrupt, none⟩⟩ ∧
      outstanding c.shared 0 = [continuationValue 0 2]) ∧
    (∃ c, Steps (openPool (oneFiber .arena)) anyStep (System.start Shared.init) c ∧
      Unwrapped c.shared ∧ c.shared.log.head? =
        some ⟨resetOf 0 2, false, ⟨exitedWith poolCorrupt, none⟩⟩ ∧
      outstanding c.shared 0 = [continuationValue 0 2]) := by
  have hfixed : ((openPool (oneFiber .fixed)).run (newestTokenSchedule 17 14)
      (System.start Shared.init)).map (fun c => (c.shared.log.head?, outstanding c.shared 0))
      = some (some ⟨resetOf 0 2, false, ⟨exitedWith poolCorrupt, none⟩⟩,
        [continuationValue 0 2]) := by decide
  have harena : ((openPool (oneFiber .arena)).run (newestTokenSchedule 18 13)
      (System.start Shared.init)).map (fun c => (c.shared.log.head?, outstanding c.shared 0))
      = some (some ⟨resetOf 0 2, false, ⟨exitedWith poolCorrupt, none⟩⟩,
        [continuationValue 0 2]) := by decide
  constructor
  · obtain ⟨c, hc, hobs⟩ := Option.map_eq_some_iff.mp hfixed
    simp only [Prod.mk.injEq] at hobs
    exact ⟨c, steps_of_run hc, unwrapped_of_run hc (by decide), hobs⟩
  · obtain ⟨c, hc, hobs⟩ := Option.map_eq_some_iff.mp harena
    simp only [Prod.mk.injEq] at hobs
    exact ⟨c, steps_of_run hc, unwrapped_of_run hc (by decide), hobs⟩

end BpfCapsule.Pool
