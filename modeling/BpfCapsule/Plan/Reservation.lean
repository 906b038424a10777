import BpfCapsule.Plan.Lifetime
import Mathlib.Data.List.Nodup

/-!
# BpfCapsule — no reservation is lost

`Unchanged` says what a failed `bpf_capsule_configure` leaves alone: between the reservation and the
adoption the window is `Held` besides everything else, and the rollback restores the maps that were
`raised`. `Exact` says that the mapped addresses are those of the window in the handle; every call keeps
it, so it holds after every sequence of calls.
-/

namespace BpfCapsule.Host.Lifetime

open Check AddressSpace

/-! ## What the calls promise -/

/-- What is assumed of a run: unmapping and setting a property back succeed, and a fresh mapping lies in
the address space, away from zero and from what is mapped. -/
structure Answers.Fair (answers : Answers) (log : List Event) : Prop where
  munmap : ∀ start, answers.munmap start = true
  restoreMaxEntries : ∀ name, answers.restoreMaxEntries name = 0
  restoreMapExtra : answers.restoreMapExtra = 0
  mmap : ∀ raw, answers.mmap = some raw →
    0 < raw ∧ raw + windowReserve ≤ 2 ^ 64 ∧ Disjoint (live log) (range raw windowReserve)

/-- What a failed call leaves as it was: the handle, the record, the properties of the maps and the
mapped addresses. Nothing was unmapped that was not mapped. -/
structure Unchanged (before after : World) : Prop where
  handle : after.handle = before.handle
  config : after.object.config = before.object.config
  maps : after.object.maps = before.object.maps
  live : live after.log = live before.log
  clean : Clean before.log → Clean after.log

theorem Unchanged.refl (w : World) : Unchanged w w := ⟨rfl, rfl, rfl, rfl, id⟩

/-! ### Maps -/

variable {name : String} {entries start size raw : Nat} {changed : List (String × Nat)}
    {Q : Unit → World → Prop} {E : Errno → World → Prop} {after : World}

variable {maps : String → Option MapDef}

theorem withMap_same {f : MapDef → MapDef}
    (h : (maps name).map f = maps name) : withMap maps name f = maps := by
  funext n
  unfold withMap
  split
  next heq => rw [heq, h]
  next => rfl

theorem withMap_withMap (maps : String → Option MapDef) (name : String) (f g : MapDef → MapDef) :
    withMap (withMap maps name f) name g = withMap maps name (g ∘ f) := by
  funext n
  unfold withMap
  split
  next => rw [Option.map_map]
  next => rfl

def raised (entries : Nat) (maps : String → Option MapDef) :
    List (String × Nat) → String → Option MapDef
  | [] => maps
  | (name, _) :: changed => withMap (raised entries maps changed) name (setEntries entries)

/-- The list has the entries that the maps had, each map once. -/
structure Recorded (maps : String → Option MapDef) (changed : List (String × Nat)) : Prop where
  nodup : (changed.map Prod.fst).Nodup
  old : ∀ p ∈ changed, ∃ d, maps p.1 = some d ∧ d.maxEntries = p.2

theorem raised_of_not_mem (h : name ∉ changed.map Prod.fst) :
    raised entries maps changed name = maps name := by
  induction changed with
  | nil => rfl
  | cons p changed ih =>
    rw [List.map_cons, List.mem_cons, not_or] at h
    unfold raised withMap
    rw [if_neg h.1, ih h.2]

/-- Setting the last map back takes its change away. -/
theorem withMap_raised {old : Nat} (h : Recorded maps ((name, old) :: changed)) :
    withMap (raised entries maps ((name, old) :: changed)) name (setEntries old) =
      raised entries maps changed := by
  show withMap (withMap (raised entries maps changed) name (setEntries entries)) name
    (setEntries old) = raised entries maps changed
  rw [withMap_withMap]
  apply withMap_same
  obtain ⟨d, hd, rfl⟩ := h.old _ List.mem_cons_self
  rw [raised_of_not_mem (List.nodup_cons.mp h.nodup).1, hd]
  rfl

theorem Recorded.tail {p : String × Nat}
    (h : Recorded maps (p :: changed)) : Recorded maps changed :=
  ⟨(List.nodup_cons.mp h.nodup).2, fun q hq => h.old q (List.mem_cons_of_mem _ hq)⟩

def restored (maps : String → Option MapDef) : List (String × Nat) → String → Option MapDef
  | [] => maps
  | (name, old) :: changed => restored (withMap maps name (setEntries old)) changed

theorem restored_raised (entries : Nat)
    (h : Recorded maps changed) : restored (raised entries maps changed) changed = maps := by
  induction changed with
  | nil => rfl
  | cons p changed ih =>
    show restored (withMap (raised entries maps (p :: changed)) p.1 (setEntries p.2)) changed = maps
    rw [withMap_raised h]
    exact ih h.tail

theorem Recorded.of_append {first : List (String × Nat)}
    (h : Recorded maps (first ++ changed)) : Recorded maps changed := by
  induction first with
  | nil => exact h
  | cons p first ih => exact ih h.tail

/-! ### The reservation -/

/-- A window is held besides what `before` has, and the maps are `maps`. -/
structure Held (before after : World) (window : Nat) (maps : String → Option MapDef) : Prop where
  handle : after.handle = before.handle
  id : after.object.id = before.object.id
  config : after.object.config = before.object.config
  maps : after.object.maps = maps
  live : live after.log = live before.log ∪ range window memoryWindowSize
  disjoint : Disjoint (AddressSpace.live before.log) (range window memoryWindowSize)
  clean : Clean before.log → Clean after.log

variable {answers : Answers} {before w : World} {window : Nat}

theorem record_post {event : Event} (h : Q () { w with log := w.log ++ [event] }) :
    Post (record event) w Q E := h

theorem munmap_post (hmunmap : ∀ start, answers.munmap start = true)
    (h : Q () { w with log := w.log ++ [.unmap start size] }) :
    Post (munmap answers start size) w Q E := by
  unfold munmap
  rw [if_pos (hmunmap start)]
  exact h

theorem munmapIf_post (hmunmap : ∀ start, answers.munmap start = true) {c : Prop} [Decidable c]
    (h : c → Q () { w with log := w.log ++ [.unmap start size] }) (h' : ¬ c → Q () w) :
    Post (munmapIf answers c start size) w Q E := by
  unfold munmapIf
  split
  next hc => exact munmap_post hmunmap (h hc)
  next hc => exact h' hc

/-- Giving the window back leaves what there was. -/
theorem Held.unmap (h : Held before w window before.object.maps) :
    Unchanged before { w with log := w.log ++ [.unmap window memoryWindowSize] } where
  handle := h.handle
  config := h.config
  maps := h.maps
  live := by
    rw [live_unmap, h.live, Set.union_sdiff_right]
    exact h.disjoint.sdiff_eq_left
  clean hclean := by
    apply (h.clean hclean).unmap
    rw [h.live]
    exact Set.subset_union_right

/-- Rounding up to 4 GiB stays in the mapping, with room for the window behind it. -/
theorem reserveWindow_bounds (hraw : 0 < raw) (hend : raw + windowReserve ≤ 2 ^ 64) :
    raw ≤ Host.reserveWindow raw ∧
      Host.reserveWindow raw + memoryWindowSize < raw + windowReserve := by
  unfold windowReserve functionTokenSpan addressLimit at hend
  have hround : Host.reserveWindow raw = (raw + 2 ^ 32 - 1) / 2 ^ 32 * 2 ^ 32 :=
    Word.add_pred_and_not_mask (by omega)
  unfold windowReserve memoryWindowSize functionTokenSpan addressLimit
  omega

/-- Cutting a mapping down to a window inside it. -/
theorem live_cut {log : List Event} {reserve : Nat} (hlow : raw ≤ window)
    (hhigh : window + size ≤ raw + reserve) (hfree : Disjoint (live log) (range raw reserve)) :
    ((live log ∪ range raw reserve) \ range raw (window - raw)) \
        range (window + size) (reserve - (window - raw) - size) =
      live log ∪ range window size := by
  ext a
  have hnot : a ∈ live log → ¬ (raw ≤ a ∧ a < raw + reserve) := fun ha hmem =>
    Set.disjoint_left.mp hfree ha hmem
  simp only [Set.mem_sdiff, Set.mem_union, mem_range]
  by_cases ha : a ∈ live log
  · have := hnot ha
    simp only [ha, true_or, true_and, iff_true]
    omega
  · simp only [ha, false_or]
    omega

/-- After the cuts, the window is what the mapping left. -/
theorem trim_post (hmunmap : ∀ start, answers.munmap start = true) {reserve aligned : Nat}
    (hlow : raw ≤ aligned) (hhigh : aligned + size < raw + reserve)
    (hfree : Disjoint (live w.log) (range raw reserve)) :
    Post (trim answers raw reserve aligned size) { w with log := w.log ++ [.map raw reserve] }
      (fun _ w' => w'.handle = w.handle ∧ w'.object = w.object ∧
        live w'.log = live w.log ∪ range aligned size ∧ (Clean w.log → Clean w'.log)) E := by
  -- The part behind the window is never empty; the part in front of it may be.
  have htail : ∀ log, live log = (live w.log ∪ range raw reserve) \ range raw (aligned - raw) →
      (Clean w.log → Clean log) →
      Post (munmapIf answers (reserve - (aligned - raw) - size ≠ 0) (aligned + size)
          (reserve - (aligned - raw) - size)) { w with log }
        (fun _ w' => w'.handle = w.handle ∧ w'.object = w.object ∧
          live w'.log = live w.log ∪ range aligned size ∧ (Clean w.log → Clean w'.log)) E := by
    intro log hlive hclean
    apply munmapIf_post hmunmap
    · intro _
      refine ⟨rfl, rfl, ?_, fun hlog => (hclean hlog).unmap ?_⟩
      · show live (log ++ [_]) = _
        rw [live_unmap, hlive]
        exact live_cut hlow (Nat.le_of_lt hhigh) hfree
      · rw [hlive]
        intro a ha
        simp only [Set.mem_sdiff, Set.mem_union, mem_range] at ha ⊢
        omega
    · omega
  apply Post.bind
  apply munmapIf_post hmunmap
  · intro _
    apply htail
    · rw [live_unmap, live_map]
    · intro hlog
      apply (hlog.map _ _).unmap
      rw [live_map]
      intro a ha
      simp only [Set.mem_union, mem_range] at ha ⊢
      omega
  · intro heq
    apply htail
    · rw [live_map, not_not.mp heq, Nat.sub_self]
      simp [range]
    · exact fun hlog => hlog.map _ _

theorem reserveWindow_post (hfair : answers.Fair w.log) :
    Post (reserveWindow answers) w
      (fun window w' => window = 0 ∧ w' = w ∨ window ≠ 0 ∧ Held w w' window w.object.maps) E := by
  unfold reserveWindow
  cases hmmap : answers.mmap with
  | none => exact .inl ⟨rfl, rfl⟩
  | some raw =>
    obtain ⟨hraw, hend, hfree⟩ := hfair.mmap raw hmmap
    obtain ⟨hlow, hhigh⟩ := reserveWindow_bounds hraw hend
    dsimp only
    generalize Host.reserveWindow raw = window at hlow hhigh ⊢
    apply Post.bind
    apply record_post
    apply Post.bind
    apply (trim_post hfair.munmap hlow hhigh hfree).mono
    intro _ w' h
    obtain ⟨hhandle, hobject, hlive, hclean⟩ := h
    have hpos : window ≠ 0 := Nat.ne_of_gt (Nat.lt_of_lt_of_le hraw hlow)
    refine .inr ⟨hpos, hhandle, by rw [hobject], by rw [hobject], by rw [hobject], hlive, ?_, hclean⟩
    exact hfree.mono_right (range_subset_range hlow (Nat.le_of_lt hhigh))

/-! ### The rollback -/

theorem updateMap_post {f : MapDef → MapDef}
    (h : Q () { w with object := { w.object with maps := withMap w.object.maps name f } }) :
    Post (updateMap name f) w Q E := h

theorem Held.withMap (h : Held before w window maps) (name : String) (f : MapDef → MapDef) :
    Held before { w with object := { w.object with maps := withMap w.object.maps name f } } window
      (withMap maps name f) where
  handle := h.handle
  id := h.id
  config := h.config
  maps := congrArg (Lifetime.withMap · name f) h.maps
  live := h.live
  disjoint := h.disjoint
  clean := h.clean

theorem restoreEntries_post (hrestore : ∀ name, answers.restoreMaxEntries name = 0)
    (h : Held before w window maps) :
    Post (restoreEntries answers changed) w
      (fun _ w' => Held before w' window (restored maps changed)) E := by
  induction changed generalizing w maps with
  | nil => exact h
  | cons p changed ih =>
    unfold restoreEntries
    rw [if_pos (hrestore p.1)]
    apply Post.bind
    apply updateMap_post
    exact ih (h.withMap p.1 (setEntries p.2))

theorem abort_post {α : Type} (hfair : answers.Fair before.log) (h : Held before w window maps)
    (hback : restored maps changed = before.object.maps) (error : Int) {Q : α → World → Prop} :
    Post (abort answers window changed error) w Q (fun _ w' => Unchanged before w') := by
  apply Post.bind
  apply (restoreEntries_post hfair.restoreMaxEntries h).mono
  intro _ w' hheld
  rw [hback] at hheld
  apply Post.bind
  apply munmap_post hfair.munmap
  exact hheld.unmap

theorem setFiberMaps_post (hfair : answers.Fair before.log) {fiberCount : Nat}
    {rest : List (String × Nat)} (hrecorded : Recorded before.object.maps (rest.reverse ++ changed))
    (h : Held before w window (raised fiberCount before.object.maps changed)) :
    Post (setFiberMaps answers window fiberCount changed rest) w
      (fun changed' w' => changed' = rest.reverse ++ changed ∧
        Held before w' window (raised fiberCount before.object.maps changed'))
      (fun _ w' => Unchanged before w') := by
  induction rest generalizing w changed with
  | nil => exact ⟨rfl, h⟩
  | cons p rest ih =>
    obtain ⟨name, old⟩ := p
    rw [List.reverse_cons, List.append_assoc, List.singleton_append] at hrecorded ⊢
    unfold setFiberMaps
    split
    · exact abort_post hfair h (restored_raised _ hrecorded.of_append.tail) _
    · apply Post.bind
      apply updateMap_post
      exact ih hrecorded (h.withMap name (setEntries fiberCount))

/-! ### The whole call -/

theorem findMap_post {Q : MapDef → World → Prop} (hQ : ∀ d, w.object.maps name = some d → Q d w)
    (hE : w.object.maps name = none → E .ENOENT w) : Post (findMap name) w Q E := by
  apply Post.bind
  apply Post.get
  cases h : w.object.maps name with
  | none => exact hE h
  | some d => exact hQ d h

theorem setBackend_post (hfair : answers.Fair before.log) {plan : PlanState} {old : MapDef}
    (hold : before.object.maps (backendMap plan.config.memoryBackend) = some old)
    (hnot : backendMap plan.config.memoryBackend ∉ changed.map Prod.fst)
    (hrecorded : Recorded before.object.maps changed)
    (h : Held before w window (raised entries before.object.maps changed)) :
    Post (setBackend answers window changed plan) w
      (fun _ w' => ∃ maps, Held before w' window maps) (fun _ w' => Unchanged before w') := by
  unfold setBackend
  generalize backendMap plan.config.memoryBackend = name at hold hnot
  have hname : w.object.maps name = some old := by rw [h.maps, raised_of_not_mem hnot, hold]
  apply Post.bind
  apply findMap_post
  rotate_left
  · intro hnone
    rw [hname] at hnone
    cases hnone
  intro d hd
  obtain rfl : old = d := Option.some.inj (hname.symm.trans hd)
  dsimp only
  split
  · exact abort_post hfair h (restored_raised _ hrecorded) _
  · apply Post.bind
    apply updateMap_post
    have hheld := h.withMap name (setEntries plan.backendEntries)
    split
    · split
      · -- `map_extra` and the entries are set back before the fiber maps.
        rw [if_pos hfair.restoreMapExtra]
        apply Post.bind
        apply updateMap_post
        have hextra := hheld.withMap name (setExtra old.mapExtra)
        apply abort_post hfair hextra
        show restored (withMap (withMap (withMap (raised entries before.object.maps changed) name
            (setEntries plan.backendEntries)) name (setExtra old.mapExtra)) name
            (setEntries old.maxEntries)) changed = before.object.maps
        rw [withMap_withMap, withMap_withMap, withMap_same, restored_raised _ hrecorded]
        rw [raised_of_not_mem hnot, hold]
        rfl
      · exact ⟨_, hheld.withMap name (setExtra window)⟩
    · exact ⟨_, hheld⟩

structure Checked (before after : World) : Prop where
  handle : after.handle = before.handle
  id : after.object.id = before.object.id
  config : after.object.config = before.object.config
  maps : after.object.maps = before.object.maps
  log : after.log = before.log

theorem Checked.unchanged (h : Checked before after) : Unchanged before after where
  handle := h.handle
  config := h.config
  maps := h.maps
  live := congrArg AddressSpace.live h.log
  clean hclean := h.log ▸ hclean

theorem Unchanged.trans {middle : World} (h : Unchanged before middle)
    (h' : Unchanged middle after) : Unchanged before after where
  handle := h'.handle.trans h.handle
  config := h'.config.trans h.config
  maps := h'.maps.trans h.maps
  live := h'.live.trans h.live
  clean hclean := h'.clean (h.clean hclean)

/-- The old entries are those of the maps, under the names that were asked for. -/
theorem oldEntries_post (hchecked : Checked before w) (names : List String) :
    Post (oldEntries names) w
      (fun fiberMaps w' => w' = w ∧ fiberMaps.map Prod.fst = names ∧
        ∀ p ∈ fiberMaps, ∃ d, before.object.maps p.1 = some d ∧ d.maxEntries = p.2)
      (fun _ w' => Unchanged before w') := by
  induction names with
  | nil => exact ⟨rfl, rfl, fun p hp => absurd hp List.not_mem_nil⟩
  | cons name names ih =>
    apply Post.bind
    apply findMap_post
    · intro d hd
      apply Post.bind
      apply ih.mono
      intro rest w' h
      obtain ⟨hw, hnames, hrest⟩ := h
      refine ⟨hw, by rw [List.map_cons, hnames], fun p hp => ?_⟩
      rcases List.mem_cons.mp hp with rfl | hp
      · exact ⟨d, hchecked.maps ▸ hd, rfl⟩
      · exact hrest p hp
    · exact fun _ => hchecked.unchanged

theorem copyPlan_post (hchecked : Checked before w) (config : ObjectRecord) (configSize : Nat)
    (requested : Requested) :
    Post (copyPlan config configSize requested) w (fun _ w' => w' = w)
      (fun _ w' => Unchanged before w') := by
  apply Post.bind
  apply Post.rejectIf
  · exact fun _ => hchecked.unchanged
  · intro _
    cases plan configSize requested ⟨config, 0⟩ with
    | ok _ planned => exact rfl
    | error e _ => exact hchecked.unchanged

structure Ready (before after : World) (planned : Planned) : Prop extends Checked before after where
  backend : ∃ d, before.object.maps (backendMap planned.plan.config.memoryBackend) = some d
  names : planned.fiberMaps.map Prod.fst = fiberMapNames planned.plan.config.memoryBackend
  old : ∀ p ∈ planned.fiberMaps, ∃ d, before.object.maps p.1 = some d ∧ d.maxEntries = p.2

theorem check_post (requested : Requested) (answers : Answers) (w : World) :
    Post (check requested answers) w (fun planned w' => Ready w w' planned)
      (fun _ w' => Unchanged w w') := by
  apply Post.bind
  apply Post.get
  apply Post.bind
  apply Post.rejectIf
  · exact fun _ => .refl w
  intro _
  cases hconfig : w.object.config with
  | none => exact .refl w
  | some c =>
    apply Post.bind
    apply Post.rejectIf
    · exact fun _ => .refl w
    intro _
    generalize hdisable : disableFreplace answers 0 w.object.programs = disabled
    obtain ⟨programs, error⟩ := disabled
    -- from here on the programs may differ, and nothing else
    have hchecked : Checked w { w with object := { w.object with programs } } :=
      ⟨rfl, rfl, rfl, rfl, rfl⟩
    apply Post.bind
    apply Post.set
    cases error with
    | some error => exact hchecked.unchanged
    | none =>
      apply Post.bind
      apply Post.rejectIf
      · exact fun _ => hchecked.unchanged
      intro _
      apply Post.bind
      apply (copyPlan_post hchecked _ _ _).mono
      intro plan w' hw'
      subst hw'
      apply Post.bind
      apply findMap_post
      · intro d hbackend
        apply Post.bind
        apply (oldEntries_post hchecked _).mono
        intro fiberMaps w' h
        obtain ⟨rfl, hnames, hold⟩ := h
        exact ⟨hchecked, ⟨d, hbackend⟩, hnames, hold⟩
      · exact fun _ => hchecked.unchanged

/-! ### The window in the handle -/

def Handle.reserved (h : Handle) : Set Nat :=
  if h.window = 0 then ∅ else range h.window memoryWindowSize

/-- The mapped addresses are those of the window in the handle, and nothing was unmapped that was not
mapped. -/
structure Exact (handle : Handle) (log : List Event) : Prop where
  live : live log = handle.reserved
  clean : Clean log

theorem Exact.unchanged (h : Exact before.handle before.log)
    (hunchanged : Unchanged before after) : Exact after.handle after.log where
  live := by rw [hunchanged.live, hunchanged.handle, h.live]
  clean := hunchanged.clean h.clean

/-- The new window takes the place of the one before. -/
theorem adopt_post (hmunmap : ∀ start, answers.munmap start = true) {planned : Planned}
    (hwindow : window ≠ 0) (h : Held before w window maps) :
    Post (adopt answers window planned) w
      (fun _ after => Exact before.handle before.log → Exact after.handle after.log) E := by
  apply Post.bind
  apply Post.get
  apply Post.bind
  apply Post.set
  have hold : (w.handle.state.getD ⟨0, false, false, false, false⟩).window = before.handle.window := by
    rw [h.handle]
    unfold Handle.window
    cases before.handle.state <;> rfl
  rw [hold]
  apply munmapIf_post hmunmap
  · intro hne hexact
    have hreserved : live before.log = range before.handle.window memoryWindowSize := by
      rw [hexact.live, Handle.reserved, if_neg hne]
    constructor
    · show live (w.log ++ [_]) = if window = 0 then ∅ else range window memoryWindowSize
      rw [if_neg hwindow, live_unmap, h.live, hreserved, Set.union_sdiff_left]
      exact (hreserved ▸ h.disjoint).symm.sdiff_eq_left
    · apply (h.clean hexact.clean).unmap
      rw [h.live, hreserved]
      exact Set.subset_union_left
  · intro hzero hexact
    have hreserved : live before.log = ∅ := by
      rw [hexact.live, Handle.reserved, if_pos (not_not.mp hzero)]
    constructor
    · show live w.log = if window = 0 then ∅ else range window memoryWindowSize
      rw [if_neg hwindow, h.live, hreserved, Set.empty_union]
    · exact h.clean hexact.clean

theorem backendMap_not_mem (memoryBackend : Nat) :
    backendMap memoryBackend ∉ fiberMapNames memoryBackend := by
  unfold backendMap fiberMapNames
  split <;> decide

theorem fiberMapNames_nodup (memoryBackend : Nat) : (fiberMapNames memoryBackend).Nodup := by
  unfold fiberMapNames
  split <;> decide

/-- A failed call changes nothing, and one that succeeds keeps the mapped addresses exact. -/
theorem configure_post (requested : Requested) (hfair : answers.Fair before.log) :
    Post (configure requested answers) before
      (fun _ after => Exact before.handle before.log → Exact after.handle after.log)
      (fun _ after => Unchanged before after) := by
  apply Post.bind
  apply (check_post requested answers before).mono
  intro planned w hready
  have hchecked := hready.toChecked
  have hfair' : answers.Fair w.log := hchecked.log ▸ hfair
  -- From here on everything is compared with the world after the checks.
  apply Post.imp (Q := fun _ after => Exact w.handle w.log → Exact after.handle after.log)
    (E := fun _ after => Unchanged w after)
  rotate_left
  · intro _ after h hexact
    exact h (hexact.unchanged hchecked.unchanged)
  · exact fun _ after h => hchecked.unchanged.trans h
  apply Post.bind
  apply (reserveWindow_post hfair').mono
  intro window w₁ hreserve
  apply Post.bind
  apply Post.rejectIf
  · intro hzero
    rcases hreserve with ⟨-, rfl⟩ | ⟨hne, -⟩
    · exact .refl _
    · exact absurd hzero hne
  intro hwindow
  obtain ⟨hzero, -⟩ | ⟨-, hheld⟩ := hreserve
  · exact absurd hzero hwindow
  apply Post.bind
  apply Post.get
  split
  · apply Post.bind
    apply munmap_post hfair.munmap
    exact hheld.unmap
  · have hnames := hready.names
    have hrecorded : Recorded w.object.maps (planned.fiberMaps.reverse ++ []) := by
      rw [List.append_nil]
      constructor
      · rw [List.map_reverse, List.nodup_reverse, hnames]
        exact fiberMapNames_nodup _
      · intro p hp
        rw [hchecked.maps]
        exact hready.old p (List.mem_reverse.mp hp)
    obtain ⟨old, hold⟩ := hready.backend
    apply Post.bind
    apply (setFiberMaps_post hfair' hrecorded hheld).mono
    intro changed w₂ h
    obtain ⟨rfl, hheld₂⟩ := h
    apply Post.bind
    refine (setBackend_post hfair' (hchecked.maps ▸ hold) ?_ hrecorded hheld₂).mono ?_
    · rw [List.append_nil, List.map_reverse, List.mem_reverse, hnames]
      exact backendMap_not_mem _
    · intro _ w₃ hheld₃
      obtain ⟨maps, hheld₃⟩ := hheld₃
      exact adopt_post hfair.munmap hwindow hheld₃

/-! ### The other calls -/

structure Kept (before after : World) : Prop where
  window : after.handle.window = before.handle.window
  live : live after.log = live before.log
  clean : Clean before.log → Clean after.log

theorem Kept.refl (w : World) : Kept w w := ⟨rfl, rfl, id⟩

theorem Exact.kept (h : Exact before.handle before.log) (hkept : Kept before after) :
    Exact after.handle after.log where
  live := by
    unfold Handle.reserved
    rw [hkept.live, hkept.window]
    exact h.live
  clean := hkept.clean h.clean

/-- A mapping over mapped addresses. -/
theorem Kept.map (h : Kept before w) (hmapped : range start size ⊆ AddressSpace.live before.log) :
    Kept before { w with log := w.log ++ [.map start size] } where
  window := h.window
  live := (live_map_of_subset (h.live ▸ hmapped)).trans h.live
  clean hclean := (h.clean hclean).map _ _

theorem rejectIf_kept (h : Kept before w) {c : Prop} [Decidable c] {e : Errno} (hQ : ¬ c → Q () w) :
    Post (rejectIf c e : Run Unit) w Q (fun _ => Kept before) :=
  .rejectIf (fun _ => h) hQ

theorem setState_post (h : Kept before w) (state : State)
    (hwindow : state.window = before.handle.window) :
    Post (setState state) w (fun _ => Kept before) E :=
  ⟨hwindow, h.live, h.clean⟩

theorem liftCheck_post (h : Kept before w) (x : Except Errno Unit) :
    Post (liftCheck x) w (fun _ w' => Kept before w' ∧ x = .ok ()) (fun _ => Kept before) := by
  cases x with
  | ok _ => exact ⟨h, rfl⟩
  | error e => exact h

/-- The loop maps regions of the view, and no more than there are. -/
theorem mapRegions_post (process : Process) {viewBase : Nat} {regions : List Nat}
    (hmapped : ∀ region ∈ regions, range (viewBase + region * memoryRegionSize) memoryRegionSize ⊆ live before.log)
    (mapped : Nat) (h : Kept before w) :
    Post (mapRegions process viewBase mapped regions) w
      (fun view w' => Kept before w' ∧ view.1 ≤ mapped + regions.length) E := by
  induction regions generalizing w mapped with
  | nil => exact ⟨h, Nat.le_refl _⟩
  | cons region regions ih =>
    unfold mapRegions
    cases viewRegion process region with
    | error e => exact ⟨h, Nat.le_add_right _ _⟩
    | ok _ =>
      apply Post.bind
      apply record_post
      apply (ih (fun r hr => hmapped r (List.mem_cons_of_mem _ hr)) (mapped + 1)
        (h.map (hmapped region List.mem_cons_self))).mono
      intro view w' hview
      refine ⟨hview.1, ?_⟩
      rw [List.length_cons]
      omega

/-- The first regions of a view lie in the 4 GiB from its base. -/
theorem regions_subset (viewBase : Nat) {total : Nat} (htotal : total ≤ addressLimit / memoryRegionSize)
    {first count : Nat} (h : first + count ≤ total) :
    range (viewBase + first * memoryRegionSize) (count * memoryRegionSize) ⊆
      range viewBase addressLimit := by
  apply range_subset_range (Nat.le_add_right _ _)
  rw [Nat.add_assoc, ← Nat.add_mul]
  apply Nat.add_le_add_left
  calc (first + count) * memoryRegionSize
      ≤ addressLimit / memoryRegionSize * memoryRegionSize :=
        Nat.mul_le_mul_right _ (Nat.le_trans h htotal)
    _ ≤ addressLimit := Nat.div_mul_le_self _ _

variable {answers : InitializeAnswers}

theorem prepareFixed_post
    (hview : range answers.loaded.config.memoryViewBase addressLimit ⊆ live before.log)
    (h : Kept before w) :
    Post (prepareFixed answers) w (fun _ => Kept before) (fun _ => Kept before) := by
  apply Post.bind
  apply (liftCheck_post h _).mono
  intro _ w₁ ⟨h₁, hchecked⟩
  have htotal : totalRegions answers.loaded ≤ addressLimit / memoryRegionSize := by
    obtain ⟨_, _, hbase⟩ := bind_eq_ok.mp (rejectIf_bind_eq_ok.mp hchecked).2
    have husable := rejectIf_eq_ok.mp (rejectIf_bind_eq_ok.mp hbase).2
    rw [not_or, not_or, not_or, not_or, not_or] at husable
    exact Nat.le_of_not_lt husable.2.2.2.2.1
  apply Post.bind
  refine (mapRegions_post _ ?_ 0 h₁).mono ?_
  · intro region hregion
    have hsub := regions_subset answers.loaded.config.memoryViewBase htotal
      (show region + 1 ≤ _ from List.mem_range.mp hregion)
    exact hsub.trans hview
  · intro view w₂ hview₂
    obtain ⟨h₂, hcount⟩ := hview₂
    obtain ⟨mapped, error⟩ := view
    cases error with
    | none => exact h₂
    | some e =>
      dsimp only at hcount ⊢
      split
      · cases answers.restore with
        | some e' => exact h₂
        | none =>
          apply Post.bind
          apply record_post
          rw [List.length_range, Nat.zero_add] at hcount
          have hsub := regions_subset answers.loaded.config.memoryViewBase htotal
            (show 0 + mapped ≤ _ by omega)
          exact h₂.map (hsub.trans hview)
      · exact h₂

theorem prepareMemory_post {state : State}
    (hstate : state.window = before.handle.window) (hwindow : before.handle.window ≠ 0)
    (hexact : Exact before.handle before.log) (h : Kept before w) :
    Post (prepareMemory state answers) w (fun _ => Kept before) (fun _ => Kept before) := by
  unfold prepareMemory
  split
  · exact h
  · apply Post.bind
    apply (liftCheck_post h _).mono
    intro _ w₁ ⟨h, hchecked⟩
    have hbase := (rejectIf_bind_eq_ok.mp (rejectIf_bind_eq_ok.mp hchecked).2).1
    split
    · apply Post.bind
      apply (liftCheck_post h _).mono
      intro _ w₁ ⟨h₁, _⟩
      apply setState_post h₁
      exact hstate
    · have hview : range answers.loaded.config.memoryViewBase addressLimit ⊆ live before.log := by
        rw [hexact.live, Handle.reserved, if_neg hwindow, not_not.mp hbase, hstate]
        exact range_subset_range (Nat.le_refl _) (Nat.add_le_add_left (Nat.le_add_right _ _) _)
      apply Post.bind
      apply (prepareFixed_post hview h).mono
      intro _ w₁ h₁
      apply setState_post h₁
      exact hstate

theorem publish_post {state : State}
    (hstate : state.window = before.handle.window) (h : Kept before w) :
    Post (publish state answers) w (fun _ => Kept before) (fun _ => Kept before) := by
  have hdone : Post (setState { state with prepared := true, initialized := true }) w
      (fun _ => Kept before) (fun _ => Kept before) := by
    apply setState_post h
    exact hstate
  unfold publish
  cases answers.ready with
  | none => exact hdone
  | some ready =>
    cases ready with
    | none => exact h
    | some ready =>
      dsimp only
      split
      · exact hdone
      · cases answers.fixups with
        | none => exact hdone
        | some fixups =>
          cases fixups with
          | none => exact h
          | some slots =>
            apply Post.bind
            apply rejectIf_kept h
            exact fun _ => hdone

theorem initializeCapsule_post (answers : InitializeAnswers) (hexact : Exact w.handle w.log) :
    Post (initializeCapsule answers) w (fun _ => Kept w) (fun _ => Kept w) := by
  apply Post.bind
  apply Post.get
  cases hstate : w.handle.state with
  | none => exact .refl w
  | some state =>
    have hwindow : state.window = w.handle.window := by rw [Handle.window, hstate]
    apply Post.bind
    apply rejectIf_kept (.refl w)
    intro hne
    apply Post.bind
    apply rejectIf_kept (.refl w)
    intro _
    have hrest : Post (do prepareMemory state answers; publish state answers) w
        (fun _ => Kept w) (fun _ => Kept w) := by
      apply Post.bind
      apply (prepareMemory_post hwindow (hwindow ▸ (not_or.mp hne).2) hexact (.refl w)).mono
      exact fun _ w₁ h₁ => publish_post hwindow h₁
    cases answers.initializer with
    | none => exact hrest
    | some outcome =>
      cases outcome with
      | none => exact hrest
      | some e => exact .refl w

theorem attachFreplace_post (attachError : Option Errno) (w : World) :
    Post (attachFreplace attachError) w (fun _ => Kept w) (fun _ => Kept w) := by
  apply Post.bind
  apply Post.get
  cases hstate : w.handle.state with
  | none => exact .refl w
  | some state =>
    have hwindow : state.window = w.handle.window := by rw [Handle.window, hstate]
    iterate 4
      apply Post.bind
      apply rejectIf_kept (.refl w)
      intro _
    cases attachError with
    | some e => exact .refl w
    | none =>
      apply setState_post (.refl w)
      exact hwindow

theorem release_post (hexact : Exact w.handle w.log) :
    Post (release none) w (fun _ after => Exact after.handle after.log)
      (fun _ after => Exact after.handle after.log) := by
  apply Post.bind
  apply Post.get
  cases hstate : w.handle.state with
  | none =>
    have hzero : w.handle.window = 0 := by rw [Handle.window, hstate]
    refine ⟨?_, hexact.clean⟩
    rw [hexact.live, Handle.reserved, if_pos hzero]
    show ∅ = Handle.reserved ⟨none, w.handle.state⟩
    rw [hstate]
    rfl
  | some state =>
    have hwindow : state.window = w.handle.window := by rw [Handle.window, hstate]
    dsimp only
    split
    next hne =>
      have hlive : live w.log = range state.window memoryWindowSize := by
        rw [hexact.live, Handle.reserved, if_neg (hwindow ▸ hne), hwindow]
      apply Post.bind
      apply record_post
      refine ⟨?_, hexact.clean.unmap (Eq.subset hlive.symm)⟩
      show live (w.log ++ [_]) = ∅
      rw [live_unmap, hlive, Set.sdiff_self]
    next hzero =>
      refine ⟨?_, hexact.clean⟩
      show live w.log = ∅
      rw [hexact.live, Handle.reserved, if_pos (hwindow ▸ not_not.mp hzero)]

/-! ## Every sequence of calls -/

/-- A handle and the mappings that a sequence of calls leads to. Each call is made on any object, in any
state, and is answered in any fair way; releasing a window succeeds. -/
inductive Reached : Handle → List Event → Prop
  | start : Reached ⟨none, none⟩ []
  | configure {handle : Handle} {log : List Event} (h : Reached handle log) (object : BpfObject)
    (requested : Requested) (answers : Answers) (hfair : answers.Fair log) {after : World}
    (hcall : Ends (configure requested answers) ⟨handle, object, log⟩ after) :
    Reached after.handle after.log
  | attachFreplace {handle : Handle} {log : List Event} (h : Reached handle log) (object : BpfObject)
    (attachError : Option Errno) {after : World}
    (hcall : Ends (attachFreplace attachError) ⟨handle, object, log⟩ after) :
    Reached after.handle after.log
  | initializeCapsule {handle : Handle} {log : List Event} (h : Reached handle log) (object : BpfObject)
    (answers : InitializeAnswers) {after : World}
    (hcall : Ends (initializeCapsule answers) ⟨handle, object, log⟩ after) :
    Reached after.handle after.log
  | release {handle : Handle} {log : List Event} (h : Reached handle log) (object : BpfObject)
    {after : World} (hcall : Ends (release none) ⟨handle, object, log⟩ after) :
    Reached after.handle after.log

theorem Reached.exact {handle : Handle} {log : List Event} (h : Reached handle log) :
    Exact handle log := by
  induction h with
  | start =>
    refine ⟨?_, .nil⟩
    rfl
  | configure h object requested answers hfair hcall ih =>
    exact hcall.of_post (P := fun after => Exact after.handle after.log)
      (configure_post requested hfair) (fun _ hexact => hexact ih) fun _ hunchanged => ih.unchanged hunchanged
  | attachFreplace h object attachError hcall ih =>
    exact hcall.of_post (P := fun after => Exact after.handle after.log)
      (attachFreplace_post attachError _) (fun _ hkept => ih.kept hkept) fun _ hkept => ih.kept hkept
  | initializeCapsule h object answers hcall ih =>
    exact hcall.of_post (P := fun after => Exact after.handle after.log)
      (initializeCapsule_post answers ih) (fun _ hkept => ih.kept hkept) fun _ hkept => ih.kept hkept
  | release h object hcall ih =>
    exact hcall.of_post (P := fun after => Exact after.handle after.log)
      (release_post ih) (fun _ hexact => hexact) fun _ hexact => hexact

/-- A failed `bpf_capsule_configure` leaves the handle, the record, the properties of all maps and the
mapped addresses as they were, wherever it fails; and after every sequence of calls the mapped addresses
are exactly the window in the handle, and nothing was unmapped that was not mapped. -/
theorem configure_atomic :
    (∀ (requested : Requested) (answers : Answers) (w : World) (e : Errno) (after : World),
      answers.Fair w.log → configure requested answers w = .error e after → Unchanged w after) ∧
    ∀ (handle : Handle) (log : List Event), Reached handle log → Exact handle log :=
  ⟨fun requested _ _ _ _ hfair hcall => (configure_post requested hfair).of_error hcall,
    fun _ _ h => h.exact⟩

private def arenaObject : BpfObject where
  id := 1
  config := some (⟨⟨4096, 0, 0, 0, 1, 4096, 8, 1, 0, abiMagic, abiVersion, 0⟩, 1⟩, 56)
  loaded := false
  programs := []
  maps _ := some ⟨1, 0⟩

/-- Everything succeeds but the setting of `map_extra`. -/
private def extraFails : Answers where
  setAutoload _ := 0
  mmap := some 4096
  calloc := true
  setMaxEntries _ := 0
  setMapExtra := -22
  restoreMaxEntries _ := 0
  restoreMapExtra := 0
  munmap _ := true

/-- The maps are resized and the window is reserved when `map_extra` cannot be set, and all of it is
taken back. -/
theorem configure_atomic_mapExtra : ∃ after,
    configure ⟨4, 8192, by decide, by decide⟩ extraFails ⟨⟨none, none⟩, arenaObject, []⟩ =
      .error (.system 22) after ∧
    after.log.length = 4 ∧ Unchanged ⟨⟨none, none⟩, arenaObject, []⟩ after := by
  have hfair : extraFails.Fair [] := by
    refine ⟨fun _ => rfl, fun _ => rfl, rfl, ?_⟩
    intro raw hraw
    cases hraw
    exact ⟨by decide, by decide, Set.empty_disjoint _⟩
  have hrun : ∃ after,
      configure ⟨4, 8192, by decide, by decide⟩ extraFails ⟨⟨none, none⟩, arenaObject, []⟩ =
        .error (.system 22) after ∧ after.log.length = 4 := ⟨_, rfl, rfl⟩
  obtain ⟨after, hcall, hlog⟩ := hrun
  exact ⟨after, hcall, hlog, configure_atomic.1 _ _ _ _ _ hfair hcall⟩

end BpfCapsule.Host.Lifetime
