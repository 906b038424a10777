import BpfCapsule.Allocator.Requests

/-!
# BpfCapsule — the allocator with atomic islands

The abstract layer: every island is one step (`World.serve`), and a ledger says who owns every
allocated block, a client or a running request. Clients keep the usual contract (`World.admits`):
they free and reallocate blocks they hold and nobody is asking about, and ask only about blocks
somebody holds.

`Ledger` is the invariant: the owners are exactly the allocated blocks, every owner has at least the
bytes it asked for, and what every running request has left to do keeps its contract from what it
owns. There is one lemma for each step; `Ledger.live` is what they mean for the clients.
-/

namespace BpfCapsule.Allocator

open Interleave
open Function (update update_self update_of_ne update_apply)

/-! ## The steps -/

/-- Who holds a block, and how many bytes were asked for. -/
inductive Owner where
  | client (n : Nat)
  | fiber (f n : Nat)
deriving DecidableEq

def Owner.requested : Owner → Nat
  | .client n => n
  | .fiber _ n => n

def heldByClient : Option Owner → Bool
  | some (.client _) => true
  | _ => false

/-- A request in progress; `answer` is the result of an island call that has not returned yet. -/
structure Fiber where
  req : Request
  rest : Managed Reply
  answer : Option Nat := none

structure World where
  core : Core
  owner : Nat → Option Owner := fun _ => none
  fibers : Nat → Option Fiber := fun _ => none
  readers : Nat → List Nat := fun _ => []
  errno : Nat → Nat := fun _ => 0

def Fiber.resume (fb : Fiber) (a : Nat) : Fiber :=
  match fb.rest with
  | .act (.island _) k => { fb with rest := k a, answer := none }
  | _ => fb

def Fiber.now (fb : Fiber) : Managed Reply :=
  match fb.answer with
  | none => fb.rest
  | some x => (fb.resume x).rest

def Fiber.island? (fb : Fiber) : Option Island :=
  match fb.rest with
  | .act (.island i) _ => some i
  | _ => none

def Island.transfer (f r : Nat) (owner : Nat → Option Owner) : Island → Nat → Option Owner
  | .malloc n => if r = 0 then owner else update owner r (some (.fiber f n))
  | .memalign _ n => if r = 0 then owner else update owner r (some (.fiber f n))
  | .free p => update owner p none
  | .size _ => owner

namespace World

def admits (s : World) (req : Request) : Bool :=
  match req.consumes, req.reads with
  | some p, _ => heldByClient (s.owner p) && (s.readers p).isEmpty
  | none, some p => heldByClient (s.owner p)
  | none, none => true

def request (T : Tlsf) (f : Nat) (req : Request) (s : World) : World :=
  { s with
    owner := match req.consumes with
      | some p => update s.owner p ((s.owner p).map fun o => .fiber f o.requested)
      | none => s.owner
    readers := match req.reads with
      | some p => update s.readers p (f :: s.readers p)
      | none => s.readers
    fibers := update s.fibers f (some ⟨req, req.code T, none⟩) }

def serve (T : Tlsf) (H : Heap) (f : Nat) (s : World) : World :=
  match s.fibers f with
  | some fb =>
    match fb.island?, fb.answer with
    | some i, none =>
      let (r, core) := (i.body T H).run s.core
      { s with
        core := core
        owner := i.transfer f r s.owner
        fibers := update s.fibers f (some { fb with answer := some r }) }
    | _, _ => s
  | none => s

/-- The island call returns `a` to its wrapper. -/
def deliver (f a : Nat) (s : World) : World :=
  { s with fibers := update s.fibers f ((s.fibers f).map (·.resume a)) }

def proceed (f : Nat) (s : World) : World :=
  match s.fibers f with
  | some ⟨req, .act (.memset _ _) k, none⟩ =>
    { s with fibers := update s.fibers f (some ⟨req, k (), none⟩) }
  | some ⟨req, .act (.memcpy _ _ _) k, none⟩ =>
    { s with fibers := update s.fibers f (some ⟨req, k (), none⟩) }
  | some ⟨req, .act (.setErrno e) k, none⟩ =>
    { s with
      fibers := update s.fibers f (some ⟨req, k (), none⟩)
      errno := update s.errno f e }
  | some ⟨req, .act .getErrno k, none⟩ =>
    { s with fibers := update s.fibers f (some ⟨req, k (s.errno f), none⟩) }
  | _ => s

def handOver (req : Request) (reply : Reply) (owner : Nat → Option Owner) (a : Nat) : Option Owner :=
  if reply.block ≠ 0 ∧ a = reply.block then some (.client req.wanted)
  else if req.keeps reply = some a then (owner a).map fun o => .client o.requested
  else owner a

def finish (f : Nat) (s : World) : World :=
  match s.fibers f with
  | some ⟨req, .ret reply, none⟩ =>
    { s with
      owner := handOver req reply s.owner
      readers := fun p => (s.readers p).filter (· ≠ f)
      fibers := update s.fibers f none }
  | _ => s

end World

/-! ## The invariant -/

def ownedBy (owner : Nat → Option Owner) (B : Blocks) (f : Nat) : Owned := fun a =>
  match owner a, B a with
  | some (.fiber g n), some size => if g = f then some (n, size) else none
  | _, _ => none

section

variable {T : Tlsf} {H : Heap} (hT : T.Correct H)

structure Ledger (core : Core) (owner : Nat → Option Owner) (fibers : Nat → Option Fiber)
    (readers : Nat → List Nat) (B : Blocks) : Prop where
  core : Represents hT core B
  covers : ∀ a, (owner a).isSome = (B a).isSome
  sizes : ∀ a o size, owner a = some o → B a = some size → o.requested ≤ size
  running : ∀ f fb, fibers f = some fb → ∃ start, fb.req.Starts start ∧
    fb.now.Keeps T fb.req.reads (fb.req.Post start) (ownedBy owner B f)
  idle : ∀ f, fibers f = none → ∀ a n, owner a ≠ some (.fiber f n)
  reading : ∀ f p, f ∈ readers p ↔ ∃ fb, fibers f = some fb ∧ fb.req.reads = some p
  shared : ∀ f p, f ∈ readers p → ∃ n, owner p = some (.client n)

def World.Ledger (s : World) : Prop := ∃ B, Allocator.Ledger hT s.core s.owner s.fibers s.readers B

variable {hT} {core core' : Core} {owner owner' : Nat → Option Owner} {fibers : Nat → Option Fiber}
  {readers : Nat → List Nat} {B B' : Blocks} {f g : Nat} {fb fb' : Fiber}

theorem ownedBy_eq_some {a n size : Nat} :
    ownedBy owner B f a = some (n, size) ↔ owner a = some (.fiber f n) ∧ B a = some size := by
  unfold ownedBy
  constructor
  · intro h
    split at h
    · rename_i g n' size' howner hB
      split at h
      · rename_i hg
        cases h
        rw [howner, hB, hg]
        exact ⟨rfl, rfl⟩
      · cases h
    · cases h
  · intro ⟨howner, hB⟩
    rw [howner, hB]
    exact if_pos rfl

/-- A block of somebody else is not seen. -/
theorem ownedBy_eq_none {a : Nat} (h : ∀ n, owner a ≠ some (.fiber f n)) :
    ownedBy owner B f a = none := by
  rw [Option.eq_none_iff_forall_not_mem]
  exact fun (n, size) hmem => h n (ownedBy_eq_some.mp hmem).1

theorem ownedBy_congr (h : ∀ a, (owner' a = owner a ∧ B' a = B a) ∨
    ((∀ n, owner a ≠ some (.fiber f n)) ∧ ∀ n, owner' a ≠ some (.fiber f n))) :
    ownedBy owner' B' f = ownedBy owner B f := by
  funext a
  rcases h a with ⟨howner, hB⟩ | ⟨hno, hno'⟩
  · rw [ownedBy, howner, hB]
    rfl
  · rw [ownedBy_eq_none hno, ownedBy_eq_none hno']

theorem ownedBy_update {r : Nat} {o : Option Owner} {b : Option Nat} :
    ownedBy (update owner r o) (update B r b) f =
      update (ownedBy owner B f) r (ownedBy (fun _ => o) (fun _ => b) f r) := by
  funext a
  by_cases har : a = r
  · subst har
    simp only [ownedBy, update_self]
  · simp only [ownedBy, update_of_ne har]

namespace Ledger

variable (h : Ledger hT core owner fibers readers B)

include h

theorem block_of_owner {a : Nat} {o : Owner}
    (ho : owner a = some o) : ∃ size, B a = some size ∧ o.requested ≤ size := by
  have hsome := h.covers a
  rw [ho] at hsome
  obtain ⟨size, hsize⟩ := Option.isSome_iff_exists.mp hsome.symm
  exact ⟨size, hsize, h.sizes a o size ho hsize⟩

theorem owner_none {a : Nat} (ha : B a = none) : owner a = none := by
  have hsome := h.covers a
  rw [ha] at hsome
  exact Option.not_isSome_iff_eq_none.mp (by simp [hsome])

/-- The blocks of different clients are apart and inside the heap, with the bytes they asked for. -/
theorem live : H.Holds B ∧ ∀ a n, owner a = some (.client n) → ∃ size, B a = some size ∧ n ≤ size :=
  ⟨h.core.holds, fun _ _ ho => h.block_of_owner ho⟩

/-! ## Changes of the ledger -/

/-- The entry at `a` changes between fiber `f`, a client and nobody, and stays in order. -/
structure Moves (f : Nat) (owner owner' : Nat → Option Owner) (B' : Blocks) (a : Nat) : Prop where
  before : ∀ g n, g ≠ f → owner a ≠ some (.fiber g n)
  after : ∀ g n, g ≠ f → owner' a ≠ some (.fiber g n)
  covers : (owner' a).isSome = (B' a).isSome
  sizes : ∀ w size, owner' a = some w → B' a = some size → w.requested ≤ size

/-- One fiber takes a step; nobody else's blocks are touched. -/
theorem change {slot : Option Fiber} {readers' : Nat → List Nat} (hcore : Represents hT core' B')
    (hbooks : ∀ a, (owner' a = owner a ∧ B' a = B a) ∨ Moves f owner owner' B' a)
    (hself : ∀ fb, slot = some fb → ∃ start, fb.req.Starts start ∧
      fb.now.Keeps T fb.req.reads (fb.req.Post start) (ownedBy owner' B' f))
    (hidle : slot = none → ∀ a n, owner' a ≠ some (.fiber f n))
    (hmine : ∀ p, f ∈ readers' p ↔ ∃ fb, slot = some fb ∧ fb.req.reads = some p)
    (hreaders : ∀ g p, g ≠ f → (g ∈ readers' p ↔ g ∈ readers p))
    (hshared : ∀ g p, g ∈ readers' p → ∃ n, owner' p = some (.client n)) :
    Ledger hT core' owner' (update fibers f slot) readers' B' where
  core := hcore
  covers a := by
    rcases hbooks a with ⟨howner, hB⟩ | hmoves
    · rw [howner, hB, h.covers a]
    · exact hmoves.covers
  sizes a w size ha hsize := by
    rcases hbooks a with ⟨howner, hB⟩ | hmoves
    · exact h.sizes a w size (howner ▸ ha) (hB ▸ hsize)
    · exact hmoves.sizes w size ha hsize
  running g gb hg := by
    rw [update_apply] at hg
    split at hg
    next hgf =>
      subst hgf
      exact hself gb hg
    next hgf =>
      obtain ⟨start, hstart, hmeets⟩ := h.running g gb hg
      refine ⟨start, hstart, ?_⟩
      -- another fiber owns what it owned: the blocks that moved were not its own
      rw [ownedBy_congr]
      · exact hmeets
      · intro a
        rcases hbooks a with hkept | hmoves
        · exact .inl hkept
        · exact .inr ⟨fun n => hmoves.before g n hgf, fun n => hmoves.after g n hgf⟩
  idle g hg a n ha := by
    rw [update_apply] at hg
    split at hg
    next hgf =>
      subst hgf
      exact hidle hg a n ha
    next hgf =>
      rcases hbooks a with ⟨howner, -⟩ | hmoves
      · exact h.idle g hg a n (howner ▸ ha)
      · exact hmoves.after g n hgf ha
  reading g p := by
    by_cases hgf : g = f
    · subst hgf
      rw [update_self]
      exact hmine p
    · rw [update_of_ne hgf, hreaders g p hgf]
      exact h.reading g p
  shared := hshared

theorem exchange (hf : fibers f = some fb)
    (hreq : fb'.req = fb.req) (hcore : Represents hT core' B')
    (hbooks : ∀ a, (owner' a = owner a ∧ B' a = B a) ∨
      Moves f owner owner' B' a ∧ ∀ n, owner a ≠ some (.client n))
    (hkeeps : ∀ start, fb.now.Keeps T fb.req.reads (fb.req.Post start) (ownedBy owner B f) →
      fb'.now.Keeps T fb.req.reads (fb.req.Post start) (ownedBy owner' B' f)) :
    Ledger hT core' owner' (update fibers f (some fb')) readers B' := by
  refine h.change hcore (fun a => (hbooks a).imp_right And.left) (fun gb hgb => ?_)
    (fun hnone => by cases hnone) (fun p => ?_) (fun g p _ => Iff.rfl) (fun g p hg => ?_)
  · cases hgb
    obtain ⟨start, hstart, hmeets⟩ := h.running f fb hf
    rw [hreq]
    exact ⟨start, hstart, hkeeps start hmeets⟩
  · rw [h.reading f p, hf]
    simp [hreq]
  · obtain ⟨n, hn⟩ := h.shared g p hg
    rcases hbooks p with ⟨howner, -⟩ | ⟨-, hclient⟩
    · exact ⟨n, howner.trans hn⟩
    · exact absurd hn (hclient n)

theorem advance (hf : fibers f = some fb) (hreq : fb'.req = fb.req)
    (hkeeps : ∀ start, fb.now.Keeps T fb.req.reads (fb.req.Post start) (ownedBy owner B f) →
      fb'.now.Keeps T fb.req.reads (fb.req.Post start) (ownedBy owner B f)) :
    Ledger hT core owner (update fibers f (some fb')) readers B :=
  h.exchange hf hreq h.core (fun _ => .inl ⟨rfl, rfl⟩) hkeeps

/-! ## One lemma for each step -/

variable {req : Request}

/-- What an island call is given it may be given: the blocks it names are allocated. -/
theorem needs {i : Island} {k : Nat → Managed Reply}
    {answer : Option Nat} (hf : fibers f = some ⟨req, .act (.island i) k, answer⟩)
    (hpre : Call.Pre T req.reads (.island i) (ownedBy owner B f)) : i.Needs T B := by
  have howned : ∀ {p : Nat}, ownedBy owner B f p ≠ none → B p ≠ none := by
    intro p hp
    obtain ⟨⟨n, size⟩, he⟩ := Option.ne_none_iff_exists'.mp hp
    rw [(ownedBy_eq_some.mp he).2]
    exact Option.some_ne_none _
  cases i with
  | malloc n => exact trivial
  | memalign align n => exact hpre
  | free p => exact howned hpre
  | size p =>
    rcases hpre with hp | hreads
    · exact howned hp
    · obtain ⟨n, hn⟩ := h.shared f p ((h.reading f p).mpr ⟨_, hf, hreads⟩)
      obtain ⟨size, hsize, -⟩ := h.block_of_owner hn
      show B p ≠ none
      rw [hsize]
      exact Option.some_ne_none _

/-- A new block, in the ledger and as the fiber sees it. -/
theorem granted_transfer {n r : Nat} (hg : Grants B n r B') :
    Granted (ownedBy owner B f) n r (ownedBy
      (if r = 0 then owner else update owner r (some (.fiber f n))) B' f) := by
  rcases hg with ⟨rfl, rfl⟩ | ⟨size, hsize, hne, hfresh, rfl⟩
  · exact .inl ⟨rfl, rfl⟩
  · refine .inr ⟨size, hsize, hne, ownedBy_eq_none fun m => ?_, ?_⟩
    · rw [h.owner_none hfresh]
      simp
    · rw [if_neg hne, ownedBy_update]
      congr 1
      exact if_pos rfl

theorem granted_exchange {n r : Nat} (hg : Grants B n r B')
    (howner : owner' = if r = 0 then owner else update owner r (some (.fiber f n))) (a : Nat) :
    (owner' a = owner a ∧ B' a = B a) ∨
      Moves f owner owner' B' a ∧ ∀ n, owner a ≠ some (.client n) := by
  subst howner
  rcases hg with ⟨rfl, rfl⟩ | ⟨size, hsize, hne, hfresh, rfl⟩
  · exact .inl ⟨rfl, rfl⟩
  · rw [if_neg hne]
    by_cases har : a = r
    · subst har
      have hnone := h.owner_none hfresh
      refine .inr ⟨⟨fun g m _ => ?_, fun g m hgf hw => ?_, ?_, fun w size' hw hs => ?_⟩, fun m => ?_⟩
      · simp [hnone]
      · rw [update_self] at hw
        cases hw
        exact hgf rfl
      · rw [update_self, update_self]
        rfl
      · rw [update_self] at hw hs
        cases hw
        cases hs
        exact hsize
      · simp [hnone]
    · exact .inl ⟨update_of_ne har _ _, update_of_ne har _ _⟩

/-- An island call in one step: the result is no sentinel, and the ledger follows it. -/
theorem serve {i : Island} {k : Nat → Managed Reply}
    (hf : fibers f = some ⟨req, .act (.island i) k, none⟩) :
    ((i.body T H).run core).1 < error ∧ ∃ B', Ledger hT ((i.body T H).run core).2
      (i.transfer f ((i.body T H).run core).1 owner)
      (update fibers f
        (some ⟨req, .act (.island i) k, some ((i.body T H).run core).1⟩)) readers B' := by
  obtain ⟨-, -, hpre, -⟩ := h.running f _ hf
  obtain ⟨B', heffect, hrep⟩ := i.eval_ok h.core (h.needs hf hpre)
  have hlt := heffect.lt_error h.core.holds hrep.holds
  generalize (i.body T H).run core = result at heffect hrep hlt
  refine ⟨hlt, B', h.exchange hf rfl hrep (fun a => ?_) fun start hmeets => hmeets.2 result.1 _ ?_⟩
  · cases i with
    | malloc n => exact h.granted_exchange heffect rfl a
    | memalign align n => exact h.granted_exchange heffect rfl a
    | size p =>
      obtain ⟨-, rfl⟩ := heffect
      exact .inl ⟨rfl, rfl⟩
    | free p =>
      obtain ⟨-, rfl⟩ := heffect
      by_cases hap : a = p
      · subst hap
        -- the freed block belonged to this fiber
        obtain ⟨⟨n, size⟩, he⟩ := Option.ne_none_iff_exists'.mp hpre
        have howner := (ownedBy_eq_some.mp he).1
        have hnone : update owner a none a = none := update_self ..
        refine .inr ⟨⟨fun g m hgf hw => ?_, fun g m _ => ?_, ?_, fun w _ hw => ?_⟩, fun m => ?_⟩
        · cases howner.symm.trans hw
          exact hgf rfl
        · rw [Island.transfer, hnone]
          exact (Option.some_ne_none _).symm
        · rw [Island.transfer, hnone, update_self]
          rfl
        · cases hnone.symm.trans hw
        · rw [howner]
          simp
      · exact .inl ⟨update_of_ne hap _ _, update_of_ne hap _ _⟩
  · cases i with
    | malloc n => exact ⟨hlt, h.granted_transfer heffect⟩
    | memalign align n => exact ⟨hlt, h.granted_transfer heffect⟩
    | size p =>
      obtain ⟨hsize, rfl⟩ := heffect
      refine ⟨hlt, fun (n, size) he => ?_, rfl⟩
      exact Option.some.inj ((ownedBy_eq_some.mp he).2.symm.trans hsize)
    | free p =>
      obtain ⟨-, rfl⟩ := heffect
      exact ⟨hlt, ownedBy_update⟩

theorem start (hf : fibers f = none) (hconsumes : req.consumes = none)
    (hreads : ∀ p, req.reads = some p → ∃ n, owner p = some (.client n)) {readers' : Nat → List Nat}
    (hreaders : ∀ g p, g ∈ readers' p ↔ g ∈ readers p ∨ g = f ∧ req.reads = some p) :
    Ledger hT core owner (update fibers f (some ⟨req, req.code T, none⟩)) readers' B := by
  have hnot : ∀ p, f ∉ readers p := fun p hp => by
    obtain ⟨fb, hfb, -⟩ := (h.reading f p).mp hp
    rw [hf] at hfb
    cases hfb
  refine h.change h.core (fun a => .inl ⟨rfl, rfl⟩) (fun fb hfb => ?_) (fun hnone => by cases hnone)
    (fun p => ?_) (fun g p hgf => ?_) (fun g p hg => ?_)
  · cases hfb
    have howned : ownedBy owner B f = Owned.none := funext fun a => ownedBy_eq_none (h.idle f hf a)
    rw [howned]
    have hstart : req.Starts Owned.none := by
      rw [Request.Starts, hconsumes]
    exact ⟨_, hstart, req.meets hstart⟩
  · rw [hreaders f p]
    simp [hnot p]
  · rw [hreaders g p]
    simp [hgf]
  · rcases (hreaders g p).mp hg with hg | ⟨-, hreads'⟩
    · exact h.shared g p hg
    · exact hreads p hreads'

/-- A request takes a block over from a client. -/
theorem startConsuming {p n : Nat}
    (hf : fibers f = none) (hconsumes : req.consumes = some p) (hreads : req.reads = none)
    (howner : owner p = some (.client n)) (hunread : readers p = []) :
    Ledger hT core (update owner p (some (.fiber f n)))
      (update fibers f (some ⟨req, req.code T, none⟩)) readers B := by
  obtain ⟨size, hsize, hle⟩ := h.block_of_owner howner
  have hself : update owner p (some (.fiber f n)) p = some (.fiber f n) :=
    update_self ..
  refine h.change h.core (fun a => ?_) (fun fb hfb => ?_) (fun hnone => by cases hnone)
    (fun q => ?_) (fun g q _ => Iff.rfl) (fun g q hg => ?_)
  · by_cases hap : a = p
    · subst hap
      refine .inr ⟨fun g m _ => ?_, fun g m hgf hw => ?_, ?_, fun w size' hw hs => ?_⟩
      · simp [howner]
      · cases hself.symm.trans hw
        exact hgf rfl
      · rw [hself, hsize]
        rfl
      · cases hself.symm.trans hw
        cases hsize.symm.trans hs
        exact hle
    · exact .inl ⟨update_of_ne hap _ _, rfl⟩
  · cases hfb
    -- the fiber owns the consumed block and nothing else
    have howned : ownedBy (update owner p (some (.fiber f n))) B f =
        update Owned.none p (some (n, size)) := by
      have hnone : ownedBy owner B f = Owned.none := funext fun a => ownedBy_eq_none (h.idle f hf a)
      have hB : B = update B p (some size) := by
        rw [← hsize, Function.update_eq_self]
      rw [hB, ownedBy_update, hnone]
      congr 1
      exact if_pos rfl
    have hstart : req.Starts (update Owned.none p (some (n, size))) := by
      rw [Request.Starts, hconsumes]
      exact ⟨_, rfl⟩
    rw [howned]
    exact ⟨_, hstart, req.meets hstart⟩
  · rw [h.reading f q, hf]
    simp [hreads]
  · have hqp : q ≠ p := by
      rintro rfl
      rw [hunread] at hg
      exact absurd hg List.not_mem_nil
    rw [update_of_ne hqp]
    exact h.shared g q hg

theorem retire (hsame : ∀ a, (∀ n, owner a ≠ some (.fiber f n)) → owner' a = owner a)
    (hgone : ∀ a n size, owner a = some (.fiber f n) → B a = some size →
      ∃ m ≤ size, owner' a = some (.client m)) :
    Ledger hT core owner' (update fibers f none) (fun p => (readers p).filter (· ≠ f)) B := by
  -- a block of the fiber goes to the client, every other one stays
  have hcases : ∀ a, (owner' a = owner a ∧ ∀ n, owner a ≠ some (.fiber f n)) ∨
      ∃ n m size, owner a = some (.fiber f n) ∧ B a = some size ∧ m ≤ size ∧
        owner' a = some (.client m) := by
    intro a
    by_cases hmine : ∃ n, owner a = some (.fiber f n)
    · obtain ⟨n, hn⟩ := hmine
      obtain ⟨size, hsize, -⟩ := h.block_of_owner hn
      obtain ⟨m, hm, hnew⟩ := hgone a n size hn hsize
      exact .inr ⟨n, m, size, hn, hsize, hm, hnew⟩
    · have hno : ∀ n, owner a ≠ some (.fiber f n) := fun n hn => hmine ⟨n, hn⟩
      exact .inl ⟨hsame a hno, hno⟩
  refine h.change h.core (fun a => ?_) (fun fb hfb => by cases hfb) (fun _ a n ha => ?_) (fun p => ?_)
    (fun g p hgf => ?_) (fun g p hg => ?_)
  · rcases hcases a with ⟨heq, -⟩ | ⟨n, m, size, hn, hB, hm, hnew⟩
    · exact .inl ⟨heq, rfl⟩
    · refine .inr ⟨fun g k hgf hk => ?_, fun g k _ => ?_, ?_, fun w size' hw hs => ?_⟩
      · cases hn.symm.trans hk
        exact hgf rfl
      · simp [hnew]
      · rw [hnew, hB]
        rfl
      · cases hnew.symm.trans hw
        cases hB.symm.trans hs
        exact hm
  · rcases hcases a with ⟨heq, hno⟩ | ⟨_, m, size, -, -, -, hnew⟩
    · exact hno n (heq ▸ ha)
    · cases hnew.symm.trans ha
  · simp
  · simp [hgf]
  · obtain ⟨n, hn⟩ := h.shared g p (List.mem_filter.mp hg).1
    rcases hcases p with ⟨heq, -⟩ | ⟨k, m, size, hk, -⟩
    · exact ⟨n, heq.trans hn⟩
    · cases hk.symm.trans hn

end Ledger

theorem Request.consumes_of_keeps {req : Request} {reply : Reply} {p : Nat}
    (h : req.keeps reply = some p) : req.consumes = some p := by
  cases req with
  | realloc q n =>
    simp only [Request.keeps] at h
    split at h
    · rename_i hq
      cases h
      exact if_neg hq.1
    · cases h
  | _ => cases h

theorem Fiber.island?_eq_some {i : Island} (h : fb.island? = some i) :
    ∃ k, fb = ⟨fb.req, .act (.island i) k, fb.answer⟩ := by
  unfold Fiber.island? at h
  split at h
  · rename_i j k hrest
    cases h
    exact ⟨k, by rw [← hrest]⟩
  · cases h

theorem Fiber.now_resume {a : Nat} (ha : fb.answer = some a) : (fb.resume a).now = fb.now := by
  obtain ⟨req, rest, answer⟩ := fb
  cases ha
  cases rest with
  | ret reply => rfl
  | act o k => cases o <;> rfl

theorem Fiber.resume_req (a : Nat) : (fb.resume a).req = fb.req := by
  unfold Fiber.resume
  split <;> rfl

namespace World

variable {s : World} (h : s.Ledger hT)

include h

theorem request_ledger {req : Request} (hf : s.fibers f = none)
    (hadmits : s.admits req = true) : (s.request T f req).Ledger hT := by
  obtain ⟨B, h⟩ := h
  have hclient : ∀ {p : Nat}, heldByClient (s.owner p) = true → ∃ n, s.owner p = some (.client n) := by
    intro p hp
    unfold heldByClient at hp
    split at hp
    · rename_i n hn
      exact ⟨n, hn⟩
    · cases hp
  refine ⟨B, ?_⟩
  unfold World.request
  unfold World.admits at hadmits
  cases hconsumes : req.consumes with
  | some p =>
    simp only [hconsumes, Bool.and_eq_true, List.isEmpty_iff] at hadmits
    obtain ⟨n, hn⟩ := hclient hadmits.1
    have hreads : req.reads = none := by
      cases req <;> first | rfl | cases hconsumes
    simp only [hreads, hn, Option.map_some]
    exact h.startConsuming hf hconsumes hreads hn hadmits.2
  | none =>
    cases hreads : req.reads with
    | none =>
      refine h.start hf hconsumes (fun p hp => ?_) fun g p => ?_
      · cases hreads.symm.trans hp
      · simp [hreads]
    | some p =>
      simp only [hconsumes, hreads] at hadmits
      refine h.start hf hconsumes (fun q hq => ?_) fun g q => ?_
      · cases hreads.symm.trans hq
        exact hclient hadmits
      · by_cases hqp : q = p
        · subst hqp
          simp [hreads, or_comm]
        · have hpq : p ≠ q := Ne.symm hqp
          simp [hreads, update_of_ne hqp, hpq]

variable {i : Island}

/-- The island call of a fiber that waits for it: the same result as the body alone, and no
sentinel. -/
theorem serve_ledger (hf : s.fibers f = some fb) (hi : fb.island? = some i)
    (ha : fb.answer = none) :
    (s.serve T H f).Ledger hT ∧ (s.serve T H f).core = ((i.body T H).run s.core).2 ∧
      (s.serve T H f).fibers =
        update s.fibers f (some { fb with answer := some ((i.body T H).run s.core).1 }) ∧
      ((i.body T H).run s.core).1 < error := by
  obtain ⟨B, h⟩ := h
  obtain ⟨k, hfb⟩ := Fiber.island?_eq_some hi
  have hserve : s.serve T H f =
      { s with
        core := ((i.body T H).run s.core).2
        owner := i.transfer f ((i.body T H).run s.core).1 s.owner
        fibers := update s.fibers f
          (some { fb with answer := some ((i.body T H).run s.core).1 }) } := by
    simp only [World.serve, hf, hi, ha]
  rw [hserve]
  rw [hfb, ha] at hf ⊢
  obtain ⟨hlt, B', h'⟩ := h.serve hf
  exact ⟨⟨B', h'⟩, rfl, rfl, hlt⟩

theorem deliver_ledger {a : Nat} (hf : s.fibers f = some fb)
    (ha : fb.answer = some a) : (s.deliver f a).Ledger hT := by
  obtain ⟨B, h⟩ := h
  refine ⟨B, ?_⟩
  unfold World.deliver
  rw [hf]
  refine h.advance hf (fb.resume_req a) fun start hmeets => ?_
  rw [Fiber.now_resume ha]
  exact hmeets

theorem proceed_ledger : (s.proceed f).Ledger hT := by
  obtain ⟨B, h⟩ := h
  refine ⟨B, ?_⟩
  unfold World.proceed
  split
  · rename_i hf
    exact h.advance hf rfl fun start hmeets => hmeets.2 () _ rfl
  · rename_i hf
    exact h.advance hf rfl fun start hmeets => hmeets.2 () _ rfl
  · rename_i hf
    exact h.advance hf rfl fun start hmeets => hmeets.2 () _ rfl
  · rename_i hf
    exact h.advance hf rfl fun start hmeets => hmeets.2 (s.errno f) _ rfl
  · exact h

theorem finish_ledger : (s.finish f).Ledger hT := by
  obtain ⟨B, h⟩ := h
  refine ⟨B, ?_⟩
  unfold World.finish
  split
  · rename_i req reply hf
    obtain ⟨start, hstart, hpost⟩ := h.running f _ hf
    show Allocator.Ledger hT s.core (handOver req reply s.owner) (update s.fibers f none)
      (fun p => (s.readers p).filter (· ≠ f)) B
    -- what the fiber owns is one block at most, and it is the one the ledger hands over
    rcases hpost with ⟨hne, n, size, hwanted, heq⟩ | ⟨hzero, hkeeps, heq⟩ | ⟨hzero, hkeeps, heq⟩
    · have hkeeps : req.keeps reply = none := by
        cases req <;> first | rfl | exact if_neg fun h => hne h.2.2
      obtain ⟨hblock, -⟩ := ownedBy_eq_some.mp ((congrFun heq _).trans (update_self ..))
      refine h.retire (fun a hno => ?_) fun a n' size' ho hB => ?_
      · have hab : a ≠ reply.block := by
          rintro rfl
          exact hno n hblock
        rw [handOver, if_neg fun h => hab h.2, hkeeps]
        exact if_neg (by simp)
      · have hmine := (congrFun heq a).symm.trans (ownedBy_eq_some.mpr ⟨ho, hB⟩)
        have hab : a = reply.block := by
          by_contra hab
          rw [update_of_ne hab] at hmine
          cases hmine
        subst hab
        rw [update_self] at hmine
        cases hmine
        exact ⟨req.wanted, hwanted, if_pos ⟨hne, rfl⟩⟩
    · refine h.retire (fun a _ => ?_) fun a n size ho hB => ?_
      · rw [handOver, if_neg fun h => h.1 hzero, hkeeps]
        exact if_neg (by simp)
      · have hmine := (congrFun heq a).symm.trans (ownedBy_eq_some.mpr ⟨ho, hB⟩)
        cases hmine
    · obtain ⟨p, hp⟩ := Option.ne_none_iff_exists'.mp hkeeps
      rw [Request.Starts, Request.consumes_of_keeps hp] at hstart
      obtain ⟨e, rfl⟩ := hstart
      obtain ⟨hblock, -⟩ := ownedBy_eq_some.mp ((congrFun heq p).trans (update_self ..))
      have hhand : ∀ a, handOver req reply s.owner a =
          if p = a then (s.owner a).map fun o => .client o.requested else s.owner a := by
        intro a
        rw [handOver, if_neg fun h => h.1 hzero, hp]
        simp
      refine h.retire (fun a hno => ?_) fun a n size ho hB => ?_
      · have hap : p ≠ a := by
          rintro rfl
          exact hno _ hblock
        rw [hhand, if_neg hap]
      · have hmine := (congrFun heq a).symm.trans (ownedBy_eq_some.mpr ⟨ho, hB⟩)
        have hap : a = p := by
          by_contra hap
          rw [update_of_ne hap] at hmine
          cases hmine
        subst hap
        refine ⟨n, h.sizes a _ size ho hB, ?_⟩
        rw [hhand, if_pos rfl, ho]
        rfl
  · exact h

/-- The exit with `ALLOCATOR_CORRUPT` is never reached. -/
theorem next_ne_exit (hf : s.fibers f = some fb) (code : Int) :
    fb.rest.next? ≠ some (.exit code) := by
  obtain ⟨B, h⟩ := h
  obtain ⟨start, -, hmeets⟩ := h.running f fb hf
  obtain ⟨req, rest, answer⟩ := fb
  intro hnext
  cases rest with
  | ret reply => cases hnext
  | act o k =>
    cases hnext
    -- an answer is only waited for at an island call
    cases answer with
    | none => exact hmeets.1
    | some x => exact hmeets.1

omit h

theorem fibers_update {slot : Option Fiber} {old : Option Fiber} (hold : s.fibers f = old)
    (hnot : ∀ fb, old = some fb → fb.island? = none) (hg : s.fibers g = some fb)
    (hi : fb.island? = some i) : update s.fibers f slot g = some fb := by
  have hgf : g ≠ f := by
    rintro rfl
    rw [hnot fb (hold.symm.trans hg)] at hi
    cases hi
  rw [update_of_ne hgf, hg]

theorem request_fibers {req : Request} (hf : s.fibers f = none) (hg : s.fibers g = some fb)
    (hi : fb.island? = some i) : (s.request T f req).fibers g = some fb :=
  fibers_update hf (fun _ h => by cases h) hg hi

theorem proceed_fibers (hg : s.fibers g = some fb) (hi : fb.island? = some i) :
    (s.proceed f).fibers g = some fb := by
  unfold World.proceed
  split
  all_goals first
    | exact hg
    | rename_i hf
      exact fibers_update hf (fun _ h => by cases h; rfl) hg hi

theorem finish_fibers (hg : s.fibers g = some fb) (hi : fb.island? = some i) :
    (s.finish f).fibers g = some fb := by
  unfold World.finish
  split
  · rename_i hf
    exact fibers_update hf (fun _ h => by cases h; rfl) hg hi
  · exact hg

theorem proceed_core : (s.proceed f).core = s.core := by
  unfold World.proceed
  split <;> rfl

theorem finish_core : (s.finish f).core = s.core := by
  unfold World.finish
  split <;> rfl

end World

end

end BpfCapsule.Allocator
