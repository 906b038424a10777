import Mathlib.Data.Set.Insert
import Mathlib.Data.List.Nodup
import Mathlib.Tactic.Common

/-!
# Lease — resources handed out under generation-tagged single-use tokens

An abstract account of what a pool with resumable leases is for. Resources are handed to owners; an
owner gives its resource back, or parks it and publishes a *token*, the pair of the resource and
its current generation word. Presenting a token takes two moves: a claim, which excludes everybody
else who presents the same token, and an acceptance, possible only while the word still carries
the token's generation. An accepting owner bumps the word before it drops its claim. Anything can
be claimed; what is accepted has been published.

The invariant `Inv` is preserved by every move (`inv_step`), and it contains the two properties
such a pool exists for: no resource has two owners, and no token is accepted twice. `Kept` says that
no resource is lost: each is available, owned, or parked under a token.
-/

namespace Lease

/-- The abstract pool. `avail` are the resources that can be acquired, `word` the generation each
resource currently carries, `returned` the tokens ever published and `accepted` the tokens
accepted so far, newest first. -/
@[ext]
structure State (Owner Res : Type) where
  own : Owner → Option Res
  claim : Owner → Option (Res × Nat)
  avail : Res → Prop
  word : Res → Nat
  returned : Set (Res × Nat)
  accepted : List (Res × Nat)

variable {Owner Res : Type} [DecidableEq Owner] [DecidableEq Res]

open Function (update update_self update_of_ne)

inductive Step (a : State Owner Res) : State Owner Res → Prop where
  /-- Take an available resource; the word is bumped later, by `bump`. -/
  | acquire (t : Owner) (r : Res) (hown : a.own t = none) (hav : a.avail r) :
      Step a { a with own := update a.own t (some r), avail := update a.avail r False }
  /-- Take an available resource and install its next generation in one move. -/
  | acquireBump (t : Owner) (r : Res) (hown : a.own t = none) (hav : a.avail r) :
      Step a { a with own := update a.own t (some r), avail := update a.avail r False,
                      word := update a.word r (a.word r + 1) }
  | bump (t : Owner) (r : Res) (hown : a.own t = some r) :
      Step a { a with word := update a.word r (a.word r + 1) }
  | claim (t : Owner) (k : Res × Nat) (hown : a.own t = none) (hex : ∀ u, a.claim u ≠ some k) :
      Step a { a with claim := update a.claim t (some k) }
  | accept (t : Owner) (r : Res) (hown : a.own t = none)
      (hclaim : a.claim t = some (r, a.word r)) (hret : (r, a.word r) ∈ a.returned) :
      Step a { a with own := update a.own t (some r), accepted := (r, a.word r) :: a.accepted }
  /-- Drop a claim: the presented token was refused, or its acceptor has bumped the word. -/
  | unclaim (t : Owner) (hdone : ∀ r, a.own t = some r → a.claim t ≠ some (r, a.word r)) :
      Step a { a with claim := update a.claim t none }
  /-- Park the resource and hand out the token for its current word. -/
  | publish (t : Owner) (r : Res) (hown : a.own t = some r) (hclaim : a.claim t = none) :
      Step a { a with own := update a.own t none, returned := insert (r, a.word r) a.returned }
  | release (t : Owner) (r : Res) (hown : a.own t = some r) (hclaim : a.claim t = none) :
      Step a { a with own := update a.own t none, avail := update a.avail r True }

structure Inv (a : State Owner Res) : Prop where
  own_inj : ∀ {t u r}, a.own t = some r → a.own u = some r → t = u
  own_unavail : ∀ {t r}, a.own t = some r → ¬ a.avail r
  claim_inj : ∀ {t u k}, a.claim t = some k → a.claim u = some k → t = u
  returned_le : ∀ {r g}, (r, g) ∈ a.returned → g ≤ a.word r
  avail_fresh : ∀ {r}, a.avail r → (r, a.word r) ∉ a.returned
  own_fresh : ∀ {t r}, a.own t = some r →
    (r, a.word r) ∉ a.returned ∨ a.claim t = some (r, a.word r)
  accepted_nodup : a.accepted.Nodup
  accepted_returned : ∀ {k}, k ∈ a.accepted → k ∈ a.returned
  accepted_spent : ∀ {r}, (r, a.word r) ∈ a.accepted →
    ∃ t, a.own t = some r ∧ a.claim t = some (r, a.word r)
  own_accepted : ∀ {t r}, a.own t = some r → (r, a.word r) ∈ a.returned →
    (r, a.word r) ∈ a.accepted
  past_accepted : ∀ {r g}, (r, g) ∈ a.returned → g ≠ a.word r → (r, g) ∈ a.accepted

namespace Inv

variable {a : State Owner Res}

omit [DecidableEq Owner] [DecidableEq Res]

/-- A published token that still carries the current word belongs to a resource nobody owns,
unless its owner is the one that holds the claim on it. -/
theorem owner_of_current (h : Inv a) {t : Owner} {r : Res} (hret : (r, a.word r) ∈ a.returned)
    (hown : a.own t = some r) : a.claim t = some (r, a.word r) :=
  (h.own_fresh hown).resolve_left (fun hn => hn hret)

/-- Nobody owns the resource of a published token whose claim is held by a non-owner while the word
still matches. -/
theorem unowned_of_claim (h : Inv a) {t : Owner} {r : Res} (hown : a.own t = none)
    (hclaim : a.claim t = some (r, a.word r)) (hret : (r, a.word r) ∈ a.returned) (u : Owner) :
    a.own u ≠ some r := by
  intro hu
  have huc := h.owner_of_current hret hu
  have hut : u = t := h.claim_inj huc hclaim
  rw [hut, hown] at hu
  cases hu

theorem not_accepted_of_claim (h : Inv a) {t : Owner} {r : Res} (hown : a.own t = none)
    (hclaim : a.claim t = some (r, a.word r)) (hret : (r, a.word r) ∈ a.returned) :
    (r, a.word r) ∉ a.accepted := by
  intro hacc
  obtain ⟨u, hu, -⟩ := h.accepted_spent hacc
  exact h.unowned_of_claim hown hclaim hret u hu

/-- The next generation has never been published. -/
theorem next_not_returned (h : Inv a) (r : Res) : (r, a.word r + 1) ∉ a.returned := by
  intro hret
  have := h.returned_le hret
  omega

end Inv

/-! ## Every move keeps the invariant -/

omit [DecidableEq Res] in
/-- Giving `t` something nobody has keeps what is held exclusive. -/
theorem inj_update {κ : Type} {held : Owner → Option κ} {t u v : Owner} {k j : κ}
    (hinj : ∀ {u v j}, held u = some j → held v = some j → u = v) (hfree : ∀ u, held u ≠ some k)
    (hu : update held t (some k) u = some j) (hv : update held t (some k) v = some j) : u = v := by
  by_cases hut : u = t <;> by_cases hvt : v = t <;> simp [hut, hvt] at hu hv ⊢
  · subst hu; exact absurd hv (hfree v)
  · subst hv; exact absurd hu (hfree u)
  · exact hinj hu hv

section Preservation

variable {a : State Owner Res} {t : Owner} {r : Res} (h : Inv a)

include h

theorem inv_acquire (hown : a.own t = none) (hav : a.avail r) :
    Inv { a with own := update a.own t (some r), avail := update a.avail r False } := by
  -- nobody owns an available resource, so the new owner is the only one
  have hfree : ∀ u, a.own u ≠ some r := fun u hu => h.own_unavail hu hav
  refine ⟨inj_update h.own_inj hfree, ?_, h.claim_inj, h.returned_le, ?_, ?_, h.accepted_nodup,
    h.accepted_returned, ?_, ?_, h.past_accepted⟩
  · intro u q hu
    by_cases hqr : q = r
    · simp [hqr]
    · by_cases hut : u = t
      · simp [hut] at hu; exact absurd hu.symm hqr
      · simpa [hqr] using h.own_unavail (by simpa [hut] using hu)
  · intro q hq
    by_cases hqr : q = r
    · simp [hqr] at hq
    · exact h.avail_fresh (by simpa [hqr] using hq)
  · intro u q hu
    by_cases hut : u = t
    · simp [hut] at hu; subst hu; exact .inl (h.avail_fresh hav)
    · exact h.own_fresh (by simpa [hut] using hu)
  · intro q hq
    obtain ⟨u, hu, hc⟩ := h.accepted_spent hq
    refine ⟨u, ?_, hc⟩
    have hut : u ≠ t := by rintro rfl; rw [hown] at hu; cases hu
    simpa [hut] using hu
  · intro u q hu hret
    by_cases hut : u = t
    · simp [hut] at hu; subst hu; exact absurd hret (h.avail_fresh hav)
    · exact h.own_accepted (by simpa [hut] using hu) hret

omit [DecidableEq Owner] in
theorem inv_bump (hown : a.own t = some r) :
    Inv { a with word := update a.word r (a.word r + 1) } := by
  refine ⟨h.own_inj, h.own_unavail, h.claim_inj, ?_, ?_, ?_, h.accepted_nodup, h.accepted_returned,
    ?_, ?_, ?_⟩
  · intro q g hg
    have hle := h.returned_le hg
    by_cases hqr : q = r
    · subst hqr; simp; omega
    · simpa [hqr] using hle
  · intro q hq
    have hqr : q ≠ r := by rintro rfl; exact h.own_unavail hown hq
    simpa [hqr] using h.avail_fresh hq
  · intro u q hu
    by_cases hqr : q = r
    · subst hqr; simpa using .inl (h.next_not_returned q)
    · simpa [hqr] using h.own_fresh hu
  · intro q hq
    by_cases hqr : q = r
    · subst hqr
      simp only [update_self] at hq
      exact absurd (h.accepted_returned hq) (h.next_not_returned q)
    · simp only [update_of_ne hqr] at hq ⊢
      exact h.accepted_spent hq
  · intro u q hu hret
    by_cases hqr : q = r
    · subst hqr
      simp only [update_self] at hret
      exact absurd hret (h.next_not_returned q)
    · simp only [update_of_ne hqr] at hret ⊢
      exact h.own_accepted hu hret
  · intro q g hret hg
    by_cases hqr : q = r
    · -- the token that was current is the owner's, who has accepted it
      subst hqr
      by_cases hcur : g = a.word q
      · subst hcur
        exact h.own_accepted hown hret
      · exact h.past_accepted hret hcur
    · simp only [update_of_ne hqr] at hg
      exact h.past_accepted hret hg

omit [DecidableEq Res] in
theorem inv_claim {k : Res × Nat} (hown : a.own t = none) (hex : ∀ u, a.claim u ≠ some k) :
    Inv { a with claim := update a.claim t (some k) } := by
  -- the claimant owns nothing, so the facts about owners speak of other entries
  have hne : ∀ {u q}, a.own u = some q → u ≠ t := by
    rintro u q hu rfl; rw [hown] at hu; cases hu
  refine ⟨h.own_inj, h.own_unavail, inj_update h.claim_inj hex, h.returned_le, h.avail_fresh, ?_,
    h.accepted_nodup, h.accepted_returned, ?_, h.own_accepted, h.past_accepted⟩
  · intro u q hu
    simpa [hne hu] using h.own_fresh hu
  · intro q hq
    obtain ⟨u, hu, hc⟩ := h.accepted_spent hq
    exact ⟨u, hu, by simpa [hne hu] using hc⟩

omit [DecidableEq Res] in
theorem inv_accept (hown : a.own t = none)
    (hclaim : a.claim t = some (r, a.word r)) (hret : (r, a.word r) ∈ a.returned) :
    Inv { a with own := update a.own t (some r), accepted := (r, a.word r) :: a.accepted } := by
  have hfree := h.unowned_of_claim hown hclaim hret
  refine ⟨inj_update h.own_inj hfree, ?_, h.claim_inj, h.returned_le, h.avail_fresh, ?_, ?_, ?_, ?_,
    ?_, ?_⟩
  · intro u q hu
    by_cases hut : u = t
    · simp [hut] at hu; subst hu; exact fun hav => h.avail_fresh hav hret
    · exact h.own_unavail (by simpa [hut] using hu)
  · intro u q hu
    by_cases hut : u = t
    · subst hut; simp at hu; subst hu; exact .inr hclaim
    · exact h.own_fresh (by simpa [hut] using hu)
  · exact List.nodup_cons.mpr ⟨h.not_accepted_of_claim hown hclaim hret, h.accepted_nodup⟩
  · intro k hk
    rcases List.mem_cons.mp hk with rfl | hk
    · exact hret
    · exact h.accepted_returned hk
  · intro q hq
    rcases List.mem_cons.mp hq with heq | hq
    · obtain rfl : q = r := congrArg Prod.fst heq
      exact ⟨t, by simp, hclaim⟩
    · obtain ⟨u, hu, hc⟩ := h.accepted_spent hq
      have hut : u ≠ t := by rintro rfl; rw [hown] at hu; cases hu
      exact ⟨u, by simpa [hut] using hu, hc⟩
  · intro u q hu hq
    by_cases hut : u = t
    · simp [hut] at hu; subst hu; exact List.mem_cons_self
    · exact List.mem_cons_of_mem _ (h.own_accepted (by simpa [hut] using hu) hq)
  · intro q g hq hg
    exact List.mem_cons_of_mem _ (h.past_accepted hq hg)

omit [DecidableEq Res] in
theorem inv_unclaim (hdone : ∀ r, a.own t = some r → a.claim t ≠ some (r, a.word r)) :
    Inv { a with claim := update a.claim t none } := by
  refine ⟨h.own_inj, h.own_unavail, ?_, h.returned_le, h.avail_fresh, ?_, h.accepted_nodup,
    h.accepted_returned, ?_, h.own_accepted, h.past_accepted⟩
  · intro u v j hu hv
    by_cases hut : u = t <;> by_cases hvt : v = t <;> simp [hut, hvt] at hu hv ⊢
    exact h.claim_inj hu hv
  · intro u q hu
    by_cases hut : u = t
    · subst hut; exact .inl ((h.own_fresh hu).resolve_right (hdone q hu))
    · simpa [hut] using h.own_fresh hu
  · intro q hq
    obtain ⟨u, hu, hc⟩ := h.accepted_spent hq
    have hut : u ≠ t := by rintro rfl; exact hdone q hu hc
    exact ⟨u, hu, by simpa [hut] using hc⟩

omit [DecidableEq Res] in
/-- Ownership may be given up at any point past the claim; what happens to the resource is a
separate matter. -/
theorem inv_drop (hclaim : a.claim t = none) : Inv { a with own := update a.own t none } := by
  have hback : ∀ {u q}, update a.own t none u = some q → u ≠ t ∧ a.own u = some q := by
    intro u q hu
    by_cases hut : u = t
    · simp [hut] at hu
    · exact ⟨hut, by simpa [hut] using hu⟩
  refine ⟨fun hu hv => h.own_inj (hback hu).2 (hback hv).2, fun hu => h.own_unavail (hback hu).2,
    h.claim_inj, h.returned_le, h.avail_fresh, fun hu => h.own_fresh (hback hu).2, h.accepted_nodup,
    h.accepted_returned, ?_, fun hu => h.own_accepted (hback hu).2, h.past_accepted⟩
  intro q hq
  obtain ⟨u, hu, hc⟩ := h.accepted_spent hq
  have hut : u ≠ t := by rintro rfl; rw [hclaim] at hc; cases hc
  exact ⟨u, by simpa [hut] using hu, hc⟩

omit [DecidableEq Res] in
theorem inv_publish (hown : a.own t = some r) (hclaim : a.claim t = none) :
    Inv { a with own := update a.own t none, returned := insert (r, a.word r) a.returned } := by
  have hd := inv_drop h hclaim
  have hfresh : (r, a.word r) ∉ a.returned :=
    (h.own_fresh hown).resolve_right (by simp [hclaim])
  -- the other owners hold other resources, so the new token is none of theirs
  have hne : ∀ {u q}, update a.own t none u = some q → q ≠ r := by
    rintro u q hu rfl
    by_cases hut : u = t
    · simp [hut] at hu
    · exact hut (h.own_inj (by simpa [hut] using hu) hown)
  refine ⟨hd.own_inj, hd.own_unavail, hd.claim_inj, ?_, ?_, ?_, h.accepted_nodup,
    fun hk => .inr (h.accepted_returned hk), hd.accepted_spent, ?_, ?_⟩
  · rintro q g (heq | hg)
    · obtain ⟨rfl, rfl⟩ := Prod.mk.inj heq; exact le_rfl
    · exact h.returned_le hg
  · rintro q hq (heq | hret)
    · obtain ⟨rfl, -⟩ := Prod.mk.inj heq; exact h.own_unavail hown hq
    · exact h.avail_fresh hq hret
  · intro u q hu
    rcases hd.own_fresh hu with hn | hc
    · refine .inl ?_
      rintro (heq | hret)
      · exact hne hu (Prod.mk.inj heq).1
      · exact hn hret
    · exact .inr hc
  · rintro u q hu (heq | hret)
    · exact absurd (Prod.mk.inj heq).1 (hne hu)
    · exact hd.own_accepted hu hret
  · rintro q g (heq | hret) hg
    · obtain ⟨rfl, rfl⟩ := Prod.mk.inj heq; exact absurd rfl hg
    · exact h.past_accepted hret hg

theorem inv_release (hown : a.own t = some r) (hclaim : a.claim t = none) :
    Inv { a with own := update a.own t none, avail := update a.avail r True } := by
  have hd := inv_drop h hclaim
  have hfresh : (r, a.word r) ∉ a.returned :=
    (h.own_fresh hown).resolve_right (by simp [hclaim])
  refine ⟨hd.own_inj, ?_, hd.claim_inj, hd.returned_le, ?_, hd.own_fresh, hd.accepted_nodup,
    hd.accepted_returned, hd.accepted_spent, hd.own_accepted, hd.past_accepted⟩
  · intro u q hu hav
    by_cases hqr : q = r
    · subst hqr
      by_cases hut : u = t
      · simp [hut] at hu
      · exact hut (h.own_inj (by simpa [hut] using hu) hown)
    · exact hd.own_unavail hu (by simpa [hqr] using hav)
  · intro q hq
    by_cases hqr : q = r
    · subst hqr; exact hfresh
    · exact h.avail_fresh (by simpa [hqr] using hq)

/-- **Every move of the abstract pool keeps its invariant.** -/
theorem inv_step {a' : State Owner Res} (hstep : Step a a') : Inv a' := by
  cases hstep with
  | acquire t r hown hav => exact inv_acquire h hown hav
  | acquireBump t r hown hav => exact inv_bump (inv_acquire h hown hav) (t := t) (by simp)
  | bump t r hown => exact inv_bump h hown
  | claim t k hown hex => exact inv_claim h hown hex
  | accept t r hown hclaim hret => exact inv_accept h hown hclaim hret
  | unclaim t hdone => exact inv_unclaim h hdone
  | publish t r hown hclaim => exact inv_publish h hown hclaim
  | release t r hown hclaim => exact inv_release h hown hclaim

end Preservation

/-! ## Nothing is lost -/

def Kept (pool : Res → Prop) (a : State Owner Res) : Prop :=
  ∀ r, pool r → a.avail r ∨ (∃ t, a.own t = some r) ∨ (r, a.word r) ∈ a.returned

omit [DecidableEq Res] in
/-- Changing what `t` owns from `r` to something else concerns nobody but `r`. -/
theorem owned_of_ne {a : State Owner Res} {t : Owner} {r q : Res} {o : Option Res}
    (hown : ∀ {p}, a.own t = some p → p = r) (hq : q ≠ r) (h : ∃ u, a.own u = some q) :
    ∃ u, update a.own t o u = some q := by
  obtain ⟨u, hu⟩ := h
  have hut : u ≠ t := by
    rintro rfl
    exact hq (hown hu)
  exact ⟨u, by rw [update_of_ne hut]; exact hu⟩

theorem kept_step {pool : Res → Prop} {a a' : State Owner Res} (h : Kept pool a)
    (hstep : Step a a') : Kept pool a' := by
  intro q hq
  have hkept := h q hq
  cases hstep with
  | acquire t r hown hav | acquireBump t r hown hav =>
    by_cases hqr : q = r
    · exact .inr (.inl ⟨t, by simp [hqr]⟩)
    · have hother := owned_of_ne (a := a) (o := some r) (t := t) (by simp [hown]) hqr
      simpa [hqr] using hkept.imp_right (Or.imp_left hother)
  | bump t r hown =>
    by_cases hqr : q = r
    · exact .inr (.inl ⟨t, by rw [hqr]; exact hown⟩)
    · simpa [hqr] using hkept
  | claim t k hown hex => exact hkept
  | accept t r hown hclaim hret =>
    by_cases hqr : q = r
    · exact .inr (.inl ⟨t, by simp [hqr]⟩)
    · have hother := owned_of_ne (a := a) (o := some r) (t := t) (by simp [hown]) hqr
      exact hkept.imp_right (Or.imp_left hother)
  | unclaim t hdone => exact hkept
  | publish t r hown hclaim =>
    by_cases hqr : q = r
    · exact .inr (.inr (.inl (by rw [hqr])))
    · have hother := owned_of_ne (o := none)
        (fun hp => Option.some.inj (hp.symm.trans hown)) hqr
      exact hkept.imp_right (Or.imp hother .inr)
  | release t r hown hclaim =>
    by_cases hqr : q = r
    · exact .inl (by simp [hqr])
    · have hother := owned_of_ne (o := none)
        (fun hp => Option.some.inj (hp.symm.trans hown)) hqr
      simpa [hqr] using hkept.imp_right (Or.imp_left hother)

end Lease
