import BpfCapsule.Plan.Host
import BpfCapsule.Lib.AddressSpace
import Mathlib.Data.Set.Lattice
import Mathlib.Order.CompletePartialOrder

/-!
# BpfCapsule — the life of a handle

`bpf_capsule_configure` changes several things that do not belong to it: properties of the object's
maps, the object's record, and the address space of the process. Every call on the way can fail, and
what was done before it is then taken back. `bpf_capsule_initialize` maps the regions into the window,
and `bpf_capsule_release` gives the window back.

What libbpf, the kernel and the C library answer is a parameter of each call, one answer for each call
site. The mappings that the calls make and remove are kept as a log.
-/

namespace BpfCapsule.Host.Lifetime

open Check AddressSpace

/-! ## The handle and the object -/

/-- `struct bpf_capsule_state`. `prepared` says that its `config` is set. -/
structure State where
  window : Nat
  prepared : Bool
  freplaceRequired : Bool
  freplaceAttached : Bool
  initialized : Bool
  deriving DecidableEq

/-- `struct bpf_capsule`: the object and the private data. -/
structure Handle where
  object : Option Nat
  state : Option State
  deriving DecidableEq

structure MapDef where
  maxEntries : Nat
  mapExtra : Nat
  deriving DecidableEq

/-- A program of the object; `freplace` is the answer of `__bpf_capsule_is_freplace_program`. -/
structure Program where
  freplace : Bool
  flags : Nat
  autoload : Bool
  deriving DecidableEq

structure BpfObject where
  id : Nat
  /-- The initial value of `.rodata.bpfconfig` and its size. -/
  config : Option (ObjectRecord × Nat)
  /-- That map has a file descriptor. -/
  loaded : Bool
  programs : List Program
  maps : String → Option MapDef

structure World where
  handle : Handle
  object : BpfObject
  log : List Event

abbrev Run := EStateM Errno World

def arenaMap : String := "arena"
def heapArrayMap : String := "bpf_heap_array"
def fiberLeasesMap : String := "bpf_capsule_fiber_leases"
def issuedFibersMap : String := "bpf_capsule_issued_fibers"
def freeFibersMap : String := "bpf_capsule_free_fibers"
def continuationClaimsMap : String := "bpf_capsule_continuation_claims"

/-- `BPF_CAPSULE_MEMORY_WINDOW_SIZE`. -/
def memoryWindowSize : Nat := addressLimit + functionTokenSpan

def Handle.window (h : Handle) : Nat :=
  match h.state with
  | some state => state.window
  | none => 0

/-! ## Calls of libbpf and of the kernel -/

/-- What the calls in one run of `bpf_capsule_configure` answer. An error of libbpf is a number other
than zero. -/
structure Answers where
  setAutoload : Nat → Int
  mmap : Option Nat
  calloc : Bool
  setMaxEntries : String → Int
  setMapExtra : Int
  restoreMaxEntries : String → Int
  restoreMapExtra : Int
  munmap : Nat → Bool

/-- The number that libbpf reports, as `errno`. -/
def libbpfError (error : Int) : Errno := .system error.natAbs

def record (event : Event) : Run Unit := modify fun w => { w with log := w.log ++ [event] }

variable (answers : Answers)

def munmap (start size : Nat) : Run Unit :=
  if answers.munmap start then record (.unmap start size) else pure ()

def munmapIf (c : Prop) [Decidable c] (start size : Nat) : Run Unit :=
  if c then munmap answers start size else pure ()

def withMap (maps : String → Option MapDef) (name : String) (f : MapDef → MapDef) :
    String → Option MapDef :=
  fun n => if n = name then (maps n).map f else maps n

def updateMap (name : String) (f : MapDef → MapDef) : Run Unit :=
  modify fun w => { w with object := { w.object with maps := withMap w.object.maps name f } }

def setEntries (entries : Nat) (d : MapDef) : MapDef := { d with maxEntries := entries }

def setExtra (extra : Nat) (d : MapDef) : MapDef := { d with mapExtra := extra }

/-! ## `bpf_capsule_configure` -/

def trim (raw reserve aligned size : Nat) : Run Unit := do
  munmapIf answers (aligned ≠ raw) raw (aligned - raw)
  let tail := reserve - (aligned - raw) - size
  munmapIf answers (tail ≠ 0) (aligned + size) tail

/-- `__bpf_capsule_reserve_window`; zero if the mapping fails. -/
def reserveWindow : Run Nat :=
  match answers.mmap with
  | none => pure 0
  | some raw => do
    record (.map raw windowReserve)
    trim answers raw windowReserve (Host.reserveWindow raw) memoryWindowSize
    pure (Host.reserveWindow raw)

/-- `BPF_F_STRICT_ALIGNMENT` in place of `BPF_F_ANY_ALIGNMENT`. -/
def strictAlignment (flags : Nat) : Nat := (flags &&& Word.not 32 2) ||| 1

def disableFreplace : Nat → List Program → List Program × Option Int
  | _, [] => ([], none)
  | i, program :: programs =>
    let strict := { program with flags := strictAlignment program.flags }
    if program.freplace then
      if answers.setAutoload i ≠ 0 then (strict :: programs, some (answers.setAutoload i))
      else
        let (programs, error) := disableFreplace (i + 1) programs
        ({ strict with autoload := false } :: programs, error)
    else
      let (programs, error) := disableFreplace (i + 1) programs
      (strict :: programs, error)

def fiberMapNames (memoryBackend : Nat) : List String :=
  if memoryBackend = Tier.arena.memoryBackend then
    [issuedFibersMap, freeFibersMap, continuationClaimsMap]
  else [fiberLeasesMap, continuationClaimsMap]

def backendMap (memoryBackend : Nat) : String :=
  if memoryBackend = Tier.arena.memoryBackend then arenaMap else heapArrayMap

def findMap (name : String) : Run MapDef := do
  match (← get).object.maps name with
  | none => throw .ENOENT
  | some d => pure d

def oldEntries : List String → Run (List (String × Nat))
  | [] => pure []
  | name :: names => do
    let d ← findMap name
    let rest ← oldEntries names
    pure ((name, d.maxEntries) :: rest)

/-- `__bpf_capsule_copy_plan`: the plan of a copy of the record. -/
def copyPlan (config : ObjectRecord) (configSize : Nat) (requested : Requested) : Run PlanState := do
  rejectIf (configSize < objectConfigSize) Errno.ENOENT
  match plan configSize requested ⟨config, 0⟩ with
  | .ok _ planned => pure planned
  | .error e _ => throw e

structure Planned where
  configSize : Nat
  freplaceRequired : Bool
  plan : PlanState
  fiberMaps : List (String × Nat)

/-- `bpf_capsule_configure` up to the reservation. -/
def check (requested : Requested) (answers : Answers) : Run Planned := do
  let w ← get
  rejectIf ((w.handle.object.isSome ∧ w.handle.object ≠ some w.object.id) ∨
    (w.handle.object = none ∧ w.handle.state.isSome)) Errno.EBUSY
  match w.object.config with
  | none => throw .ENOENT
  | some (config, configSize) => do
    rejectIf (w.object.loaded = true) Errno.EBUSY
    let (programs, error) := disableFreplace answers 0 w.object.programs
    set { w with object := { w.object with programs } }
    match error with
    | some error => throw (libbpfError error)
    | none => do
      -- A reservation can only be replaced by the handle that owns it.
      rejectIf (config.memoryViewBase ≠ w.handle.window) Errno.EBUSY
      let plan ← copyPlan config configSize requested
      let _ ← findMap (backendMap plan.config.memoryBackend)
      let fiberMaps ← oldEntries (fiberMapNames plan.config.memoryBackend)
      pure ⟨configSize, w.object.programs.any (·.freplace), plan, fiberMaps⟩

def restoreEntries : List (String × Nat) → Run Unit
  | [] => pure ()
  | (name, old) :: changed => do
    if answers.restoreMaxEntries name = 0 then updateMap name (setEntries old)
    restoreEntries changed

def abort {α : Type} (window : Nat) (changed : List (String × Nat)) (error : Int) :
    Run α := do
  restoreEntries answers changed
  munmap answers window memoryWindowSize
  throw (libbpfError error)

def setFiberMaps (window fiberCount : Nat) :
    List (String × Nat) → List (String × Nat) → Run (List (String × Nat))
  | changed, [] => pure changed
  | changed, (name, old) :: rest => do
    if answers.setMaxEntries name ≠ 0 then abort answers window changed (answers.setMaxEntries name)
    else do
      updateMap name (setEntries fiberCount)
      setFiberMaps window fiberCount ((name, old) :: changed) rest

def setBackend (window : Nat) (changed : List (String × Nat)) (plan : PlanState) :
    Run Unit := do
  let name := backendMap plan.config.memoryBackend
  let old ← findMap name
  if answers.setMaxEntries name ≠ 0 then abort answers window changed (answers.setMaxEntries name)
  else do
    updateMap name (setEntries plan.backendEntries)
    if plan.config.memoryBackend = Tier.arena.memoryBackend then
      if answers.setMapExtra ≠ 0 then do
        if answers.restoreMapExtra = 0 then updateMap name (setExtra old.mapExtra)
        abort answers window ((name, old.maxEntries) :: changed) answers.setMapExtra
      else updateMap name (setExtra window)

def adopt (window : Nat) (planned : Planned) : Run Unit := do
  let w ← get
  let state := w.handle.state.getD ⟨0, false, false, false, false⟩
  set (World.mk
    ⟨some w.object.id, some { state with
      window := window
      freplaceRequired := planned.freplaceRequired
      freplaceAttached := false }⟩
    { w.object with config := some (bakeWindow planned.plan.config window, planned.configSize) }
    w.log)
  munmapIf answers (state.window ≠ 0) state.window memoryWindowSize

/-- `bpf_capsule_configure` on pointers that are not null. -/
def configure (requested : Requested) (answers : Answers) : Run Unit := do
  let planned ← check requested answers
  let window ← reserveWindow answers
  rejectIf (window = 0) Errno.ENOMEM
  let w ← get
  if w.handle.state = none ∧ answers.calloc = false then do
    munmap answers window memoryWindowSize
    throw .ENOMEM
  else do
    let changed ← setFiberMaps answers window requested.fiberCount [] planned.fiberMaps
    setBackend answers window changed planned.plan
    adopt answers window planned

/-! ## `bpf_capsule_initialize` and `bpf_capsule_release` -/

/-- What one run of `bpf_capsule_initialize` finds and is answered. -/
structure InitializeAnswers where
  /-- The program `bpf_capsule_init`, if there is one, and the error of its run. -/
  initializer : Option (Option Errno)
  loaded : LoadedObject
  process : Process
  /-- The error of `__bpf_capsule_restore_reservation`. -/
  restore : Option Errno
  /-- The map `.data.bpfrdy`, its word if it has one. -/
  ready : Option (Option Nat)
  /-- The map `.rodata.bpffix`, its slots if it has a value. -/
  fixups : Option (Option (List Nat))

def mapRegions (process : Process) (viewBase : Nat) : Nat → List Nat → Run (Nat × Option Errno)
  | mapped, [] => pure (mapped, process.protectPage)
  | mapped, region :: regions =>
    match viewRegion process region with
    | .error e => pure (mapped, some e)
    | .ok _ => do
      record (.map (viewBase + region * memoryRegionSize) memoryRegionSize)
      mapRegions process viewBase (mapped + 1) regions

def liftCheck (x : Except Errno Unit) : Run Unit :=
  match x with
  | .ok _ => pure ()
  | .error e => throw e

/-- The fixed tier of `__bpf_capsule_prepare_memory`, which maps the reservation again over the regions
it mapped before a failure. -/
def prepareFixed (answers : InitializeAnswers) : Run Unit := do
  let o := answers.loaded
  liftCheck (checkFixed answers.process o)
  let view ← mapRegions answers.process o.config.memoryViewBase 0 (List.range (totalRegions o))
  match view.2 with
  | none => pure ()
  | some e =>
    if view.1 ≠ 0 then
      match answers.restore with
      | some e' => throw e'
      | none => do
        record (.map o.config.memoryViewBase (view.1 * memoryRegionSize))
        throw e
    else throw e

def setState (state : State) : Run Unit :=
  modify fun w => { w with handle := { w.handle with state := some state } }

/-- `__bpf_capsule_prepare_memory` of a handle with a window, with what it does to the process. -/
def prepareMemory (state : State) (answers : InitializeAnswers) : Run Unit := do
  if state.prepared then pure ()
  else do
    let o := answers.loaded
    liftCheck (checkRecord state.window o)
    if o.config.memoryBackend = Tier.arena.memoryBackend then liftCheck (prepareArena answers.process o)
    else prepareFixed answers
    setState { state with prepared := true }

def publish (state : State) (answers : InitializeAnswers) : Run Unit := do
  let done := setState { state with prepared := true, initialized := true }
  match answers.ready with
  | none => done
  | some none => throw .EFAULT
  | some (some ready) =>
    if ready ≠ 0 then done
    else
      match answers.fixups with
      | none => done
      | some none => throw .EFAULT
      | some (some slots) => do
        rejectIf (∃ slot ∈ slots, slot < arenaPageSize ∨ answers.loaded.config.heapBase - 8 < slot)
          Errno.EFAULT
        done

/-- `bpf_capsule_initialize`. -/
def initializeCapsule (answers : InitializeAnswers) : Run Unit := do
  let w ← get
  match w.handle.state with
  | none => throw .EINVAL
  | some state => do
    rejectIf (w.handle.object = none ∨ state.window = 0) Errno.EINVAL
    rejectIf (state.freplaceRequired = true ∧ state.freplaceAttached = false) (Errno.system 67)
    match answers.initializer with
    | some (some e) => throw e
    | _ => do
      prepareMemory state answers
      publish state answers

/-- `bpf_capsule_attach_freplace`, with the error of loading and attaching the extensions. -/
def attachFreplace (attachError : Option Errno) : Run Unit := do
  let w ← get
  match w.handle.state with
  | none => throw .EINVAL
  | some state => do
    rejectIf (w.handle.object = none) Errno.EINVAL
    rejectIf (state.prepared = true) Errno.EBUSY
    rejectIf (state.freplaceRequired = false) Errno.ENOENT
    rejectIf (state.freplaceAttached = true) (Errno.system 114)
    match attachError with
    | some e => throw e
    | none => setState { state with freplaceAttached := true }

/-- `bpf_capsule_release`, with the error of its unmapping. -/
def release (unmapError : Option Errno) : Run Unit := do
  let w ← get
  match w.handle.state with
  | none => set { w with handle := { w.handle with object := none } }
  | some state => do
    if state.window ≠ 0 then
      match unmapError with
      | some e => throw e
      | none => record (.unmap state.window memoryWindowSize)
    modify fun w => { w with handle := ⟨none, none⟩ }

/-! ## The answer of the preparation -/

variable {w : World} {answers : InitializeAnswers}

/-- The run answers as the checks do; an error is another one only if the reservation could not be
mapped again. -/
def AnswersAs (answers : InitializeAnswers) (x : Run Unit) (w : World) : Except Errno Unit → Prop
  | .ok _ => ∃ w', x w = .ok () w'
  | .error e => ∃ e' w', x w = .error e' w' ∧ (answers.restore = none → e' = e)

theorem mapRegions_run (process : Process) (viewBase mapped : Nat) (regions : List Nat) (w : World) :
    ∃ count w', mapRegions process viewBase mapped regions w =
      .ok (count, match viewRegions process regions with | .ok _ => none | .error e => some e) w' := by
  induction regions generalizing mapped w with
  | nil =>
    refine ⟨mapped, w, ?_⟩
    show EStateM.Result.ok (mapped, process.protectPage) w = _
    unfold viewRegions
    cases process.protectPage <;> rfl
  | cons region regions ih =>
    have hview : viewRegions process (region :: regions) =
        (viewRegion process region >>= fun _ => viewRegions process regions) := bind_assoc ..
    rw [hview]
    unfold mapRegions
    cases viewRegion process region with
    | error e => exact ⟨mapped, w, rfl⟩
    | ok _ => exact ih (mapped + 1) _

theorem AnswersAs.check {c d : Except Errno Unit} {x : Run Unit} (h : AnswersAs answers x w d) :
    AnswersAs answers (liftCheck c >>= fun _ => x) w (c >>= fun _ => d) := by
  cases c with
  | ok _ => exact h
  | error e => exact ⟨e, w, rfl, fun _ => rfl⟩

theorem AnswersAs.setState {d : Except Errno Unit} {x : Run Unit} (h : AnswersAs answers x w d)
    (state : State) : AnswersAs answers (x >>= fun _ => setState state) w d := by
  cases d with
  | ok _ =>
    obtain ⟨w', hrun⟩ := h
    exact ⟨_, bind_run_ok hrun⟩
  | error e =>
    obtain ⟨e', w', hrun, he⟩ := h
    exact ⟨e', w', bind_run_error hrun, he⟩

theorem prepareFixed_answersAs (answers : InitializeAnswers) (w : World) :
    AnswersAs answers (prepareFixed answers) w (Host.prepareFixed answers.process answers.loaded) := by
  obtain ⟨count, w', hrun⟩ := mapRegions_run answers.process answers.loaded.config.memoryViewBase 0
    (List.range (totalRegions answers.loaded)) w
  apply AnswersAs.check
  cases hview : viewRegions answers.process (List.range (totalRegions answers.loaded)) with
  | ok _ =>
    rw [hview] at hrun
    exact ⟨w', bind_run_ok hrun⟩
  | error e =>
    rw [hview] at hrun
    unfold AnswersAs
    rw [bind_run_ok hrun]
    by_cases hcount : count = 0
    · exact ⟨e, w', by simp [hcount]; rfl, fun _ => rfl⟩
    · cases hrestore : answers.restore with
      | some e' => exact ⟨e', w', by simp [hcount]; rfl, fun h => (nomatch h)⟩
      | none => exact ⟨e, _, by simp [hcount]; rfl, fun _ => rfl⟩

/-- What the handle's preparation does to the process does not change its answer. -/
theorem prepareMemory_answersAs {state : State} (hstate : state.prepared = false)
    (hwindow : answers.process.window = state.window) :
    AnswersAs answers (prepareMemory state answers) w
      (Host.prepareMemory answers.process answers.loaded) := by
  unfold prepareMemory Host.prepareMemory
  rw [if_neg (by simp [hstate]), hwindow]
  apply AnswersAs.check
  split
  · exact AnswersAs.setState (by cases prepareArena answers.process answers.loaded with
      | ok _ => exact ⟨w, rfl⟩
      | error e => exact ⟨e, w, rfl, fun _ => rfl⟩) _
  · exact (prepareFixed_answersAs answers w).setState _

end BpfCapsule.Host.Lifetime
