import PrismaBuild.NameOrder

namespace PrismaBuild.ComposeMap

open List

structure Entry where
  (stagePath sha256 : Name)
  bytes : Nat
  ramPath : Option Name := none
deriving DecidableEq

def ramTier (tierId : Name) : Bool := "ram:".toList.isPrefixOf tierId

/-- A validated fragment; one of a ram tier is dated by its epoch. -/
structure Fragment where
  (consumer mover tierId stageRoot manifest : Name)
  epoch : Option Name
  entries : List (Name × Entry)
  dated : ramTier tierId = true → epoch.getD [] ≠ []

structure Overlay where
  (tierId root epoch : Name)
deriving DecidableEq

structure Mapping where
  (tierId stageRoot manifest : Name)
  leads : List Name
  generation : Nat
  entries : List (Name × Entry)
  ram : Option Overlay
deriving DecidableEq

def mergeEntry (entries : List (Name × Entry)) (e : Name × Entry) : Option (List (Name × Entry)) :=
  match entries.lookup e.1 with
  | some existing => if existing = e.2 then some entries else none
  | none => some (e :: entries)

def compose : List Fragment → Option Mapping
  | [] => none
  | first :: rest =>
    if rest.all fun f => f.consumer = first.consumer ∧ f.tierId = first.tierId ∧
      f.stageRoot = first.stageRoot ∧
        f.manifest = first.manifest then
      (((first :: rest).flatMap Fragment.entries).foldlM mergeEntry []).map fun entries =>
        ⟨first.tierId, first.stageRoot, first.manifest,
          sortNames ((first :: rest).map Fragment.mover),
          rest.length + 1, entries, none⟩
    else none

def layEntry (laid : List (Name × Entry) × Nat) (e : Name × Entry) :
    Option (List (Name × Entry) × Nat) :=
  match laid.1.lookup e.1 with
  | none => some laid
  | some existing =>
    if e.2.bytes ≠ existing.bytes ∨ e.2.sha256 ≠ existing.sha256 then none
    else if existing.ramPath.any (· ≠ e.2.stagePath) then none
    else some (laid.1.map fun row => if row.1 = e.1 then
      (row.1, { row.2 with ramPath := some e.2.stagePath }) else row, laid.2 + 1)

/-- `accepts` stands for the checks of `validate_map` on the overlaid document. -/
def overlayRam (accepts : Mapping → Bool) (m : Mapping) (fragments : List Fragment) (o : Overlay) :
    Option Mapping := do
  guard (fragments.all fun f => f.tierId = o.tierId)
  let laid ← (fragments.flatMap Fragment.entries).foldlM layEntry (m.entries, 0)
  if laid.2 = 0 then some m
  else if accepts { m with entries := laid.1, ram := some o } then
    some { m with entries := laid.1, ram := some o }
  else none

structure Record where
  isRam : Bool
  (mountpoint epoch : Option Name)

/-- The announced tiers by id. -/
structure Tiers where
  records : List (Name × Record)
  nodup : (records.map Prod.fst).Nodup

def overlayRow (row : Name × Record) : Option (Name × Name × Name) :=
  if row.2.isRam then some (row.1, row.2.mountpoint.getD [], row.2.epoch.getD []) else none

def layRam (accepts : Mapping → Bool) (tiers : Tiers) (ram : List Fragment) (m : Mapping) :
    Option Mapping :=
  match ram with
  | [] => some m
  | first :: _ =>
    match (tiers.records.lookup first.tierId).filter Record.isRam with
    | none => some m
    | some record =>
      match record.epoch with
      | none => some m
      | some epoch =>
        let live := ram.filter fun f => f.epoch.getD [] = epoch
        if live.isEmpty then some m else overlayRam accepts m live
          ⟨first.tierId, record.mountpoint.getD [], epoch⟩

def emptied (m : Mapping) : Mapping := { m with leads := [], entries := [], ram := none }

/-- What the call leaves of the map where it does not skip; `none` where it raises. -/
def recompose (accepts : Mapping → Bool) (tiers : Tiers) (running mapFails : Bool)
    (fragments : List Fragment)
    (map : Option Mapping) : Option (Option Mapping) :=
  let stage := fragments.filter fun f => !ramTier f.tierId
  if stage.isEmpty then some (if running && !mapFails then map.map emptied else none)
  else ((compose stage).bind (layRam accepts tiers (fragments.filter fun f =>
    ramTier f.tierId))).map some

abbrev File := Name × Int × Nat

structure Fingerprint where
  stamped : List File
  overlay : List (Name × Name × Name)
  running : Bool
deriving DecidableEq

structure State where
  files : List File
  tiers : Tiers
  map : Option Mapping
  memory : Option (Fingerprint × Bool)

/-- What goes wrong in one call: a stamp, the listing, some fragments, the map as read, or the
write. -/
structure Faults where
  (stamps listing mapRead write : Bool)
  fragments : List Name

def Faults.clean (faults : Faults) (files : List File) : Bool :=
    !faults.listing && files.all fun f => f.1 ∉ faults.fragments

section

variable (accepts : Mapping → Bool) (content : File → Option Fragment)

def readFragments (faults : Faults) (files : List File) : List Fragment :=
  if faults.listing then [] else (files.filter fun f => f.1 ∉ faults.fragments).filterMap content

def fingerprint (s : State) (running : Bool) (faults : Faults) : Option Fingerprint :=
  if faults.stamps then none else some ⟨s.files, s.tiers.records.filterMap overlayRow, running⟩

def skips (s : State) (running : Bool) (faults : Faults) : Bool :=
  (fingerprint s running faults).any fun f => s.memory = some (f, s.map.isSome)

/-- The state after the call, and whether it returned. -/
def composeMap (s : State) (running : Bool) (faults : Faults) : State × Bool :=
  let print := fingerprint s running faults
  if skips s running faults then (s, true)
  else
    let raised := if print.isNone then { s with memory := none } else s
    match recompose accepts s.tiers running faults.mapRead (readFragments content faults s.files)
      s.map with
    | none => (raised, false)
    | some map =>
      if faults.write then (raised, false) else
        ({ s with map, memory := print.map (·, map.isSome) }, true)

inductive Event
  | files (files : List File)
  | announce (tiers : Tiers)
  | unlinkMap
  | call (running : Bool) (faults : Faults)

/-- Beside the state, whether the call that recorded the memory in force read everything it listed.
-/
def next : State × Bool → Event → State × Bool
  | (s, clean), .files files => ({ s with files }, clean)
  | (s, clean), .announce tiers => ({ s with tiers }, clean)
  | (s, clean), .unlinkMap => ({ s with map := none }, clean)
  | (s, clean), .call running faults =>
    let after := composeMap accepts content s running faults
    (after.1, if skips s running faults || !after.2 then clean else faults.clean s.files)

variable {accepts content}

theorem lookup_overlay {records : List (Name × Record)} (hn : (records.map Prod.fst).Nodup)
    (id : Name) :
    (records.filterMap overlayRow).lookup id =
      ((records.lookup id).filter Record.isRam).map fun r =>
      (r.mountpoint.getD [], r.epoch.getD []) := by
  induction records with
  | nil => rfl
  | cons row records ih =>
    obtain ⟨key, record⟩ := row
    obtain ⟨ho, hre⟩ := nodup_cons.mp hn
    by_cases hid : id = key
    · subst hid
      have hno := lookup_eq_none_iff.mpr fun p hp =>
        bne_iff_ne.mpr fun he => ho (mem_map.mpr ⟨p, hp, he.symm⟩)
      cases hr : record.isRam with
      | true => simp [overlayRow, hr, Option.filter]
      | false => simp [overlayRow, hr, ih hre, hno, Option.filter]
    · have hb := beq_false_of_ne hid
      cases hr : record.isRam <;> simp [overlayRow, hr, lookup_cons, hb, ih hre]

theorem layRam_congr {tiers tiers' : Tiers}
    (h : tiers.records.filterMap overlayRow = tiers'.records.filterMap overlayRow)
    {ram : List Fragment} (hra : ∀ f ∈ ram, ramTier f.tierId = true) (m : Mapping) :
    layRam accepts tiers ram m = layRam accepts tiers' ram m := by
  cases ram with
  | nil => rfl
  | cons first rest =>
    have hl := lookup_overlay tiers.nodup first.tierId
    rw [h, lookup_overlay tiers'.nodup] at hl
    have hn : (first :: rest).filter (fun f => decide (f.epoch.getD [] = [])) = [] :=
      filter_eq_nil_iff.mpr fun f hf => by simpa using f.dated (hra f hf)
    unfold layRam
    dsimp only
    cases hr : (tiers.records.lookup first.tierId).filter Record.isRam <;>
      cases hr' : (tiers'.records.lookup first.tierId).filter Record.isRam <;>
      simp only [hr, hr', Option.map_some, Option.map_none, reduceCtorEq, Option.some.injEq,
        Prod.mk.injEq] at hl
    next => rfl
    next r r' =>
      cases he : r.epoch <;> cases he' :
        r'.epoch <;> simp only [he, he', Option.getD_some, Option.getD_none] at hl ⊢
      · rw [hl.2, hn]
        rfl
      · rw [← hl.2, hn]
        rfl
      · rw [hl.1, hl.2]

theorem recompose_again {tiers tiers' : Tiers}
    (h : tiers.records.filterMap overlayRow = tiers'.records.filterMap overlayRow)
    {running mapFails : Bool} {fragments : List Fragment} {map map' : Option Mapping}
    (hr : recompose accepts tiers running mapFails fragments map = some map') :
    recompose accepts tiers' running false fragments map' = some map' := by
  unfold recompose at hr ⊢
  dsimp only at hr ⊢
  split at hr
  next hs =>
    rw [if_pos hs]
    cases hr
    cases running <;> cases mapFails <;> cases map <;> rfl
  next hs =>
    rw [if_neg hs, ← hr]
    congr 2
    funext m
    exact (layRam_congr h (fun f hf => (mem_filter.mp hf).2) m).symm

/-- The memory in force was recorded with a map that composing the same inputs leaves as it is;
since then the map has at most been removed. -/
def Sound (accepts : Mapping → Bool) (content : File → Option Fragment) (s : State × Bool) : Prop :=
  s.2 = true → ∀ print present, s.1.memory = some (print, present) → ∃ map : Option Mapping,
    present = map.isSome ∧
    (s.1.map = map ∨ s.1.map = none) ∧ ∀ tiers : Tiers,
    print.overlay = tiers.records.filterMap overlayRow →
      recompose accepts tiers print.running false (print.stamped.filterMap content) map = some map

theorem readFragments_clean {faults : Faults} {files : List File} (h : faults.clean files = true) :
    readFragments content faults files = files.filterMap content := by
  obtain ⟨hl, hf⟩ := (Bool.and_eq_true _ _).mp h
  unfold readFragments
  rw [if_neg (by simpa using hl), filter_eq_self.mpr (all_eq_true.mp hf)]

theorem Sound.next {s : State × Bool} (h : Sound accepts content s) (e : Event) :
    Sound accepts content (next accepts content s e) := by
  obtain ⟨s, clean⟩ := s
  cases e with
  | files | announce => exact h
  | unlinkMap =>
    intro hc print present hm
    obtain ⟨map, hp, -, hr⟩ := h hc print present hm
    exact ⟨map, hp, .inr rfl, hr⟩
  | call running faults =>
    have hra : Sound accepts content
        (if (fingerprint s running faults).isNone then { s with memory := none } else
        s, clean) := by
      split
      · exact fun _ _ _ hm => by cases hm
      · exact h
    unfold ComposeMap.next composeMap
    dsimp only
    by_cases hs : skips s running faults = true
    · simpa [hs] using h
    rw [if_neg hs, Bool.eq_false_iff.mpr hs]
    cases hr : recompose accepts s.tiers running faults.mapRead
      (readFragments content faults s.files) s.map with
    | none => exact hra
    | some map =>
      dsimp only
      split
      · exact hra
      · intro hc print present hm
        obtain ⟨print', hf, he⟩ := Option.map_eq_some_iff.mp hm
        cases he
        rw [readFragments_clean hc] at hr
        unfold fingerprint at hf
        split at hf
        · cases hf
        · cases hf
          exact ⟨map, rfl, .inl rfl, fun tiers ht => recompose_again ht hr⟩

theorem run_sound {s : State × Bool} (h : Sound accepts content s) (events : List Event) :
    Sound accepts content (events.foldl (next accepts content) s) := by
  induction events generalizing s with
  | nil => exact h
  | cons e events ih => exact ih (h.next e)

def Entry.bare (e : Entry) : Entry := { e with ramPath := none }

def bareRow (row : Name × Entry) : Name × Entry := (row.1, row.2.bare)

theorem lookup_merged {entries merged : List (Name × Entry)} (rows : List (Name × Entry))
    (h : rows.foldlM mergeEntry entries = some merged) (key : Name) (e : Entry) :
    merged.lookup key = some e ↔ entries.lookup key = some e ∨ (key, e) ∈ rows := by
  induction rows generalizing entries with
  | nil =>
    cases h
    simp
  | cons row rows ih =>
    rw [foldlM_cons] at h
    obtain ⟨entries', hm, h⟩ := Option.bind_eq_some_iff.mp h
    rw [ih h]
    obtain ⟨k, e'⟩ := row
    unfold mergeEntry at hm
    split at hm
    next existing hl =>
      split at hm
      next he =>
        cases hm
        cases he
        by_cases hk : (key, e) = (k, e')
        · cases hk
          simp [hl]
        · simp [hk]
      next => cases hm
    next hl =>
      cases hm
      by_cases hk : key = k
      · subst hk
        simp only [lookup_cons_self, hl, Option.some.injEq, reduceCtorEq, mem_cons, Prod.mk.injEq,
          true_and, false_or]
        exact or_congr_left eq_comm
      · simp [lookup_cons, beq_false_of_ne hk, hk]

theorem layEntry_bare {laid laid' : List (Name × Entry) × Nat} {e : Name × Entry}
    (h : layEntry laid e = some laid') :
    laid'.1.map bareRow = laid.1.map bareRow := by
  unfold layEntry at h
  repeat' split at h
  all_goals cases h
  · rfl
  · rw [map_map]
    refine map_congr_left fun row _ => ?_
    rw [Function.comp_apply]
    split <;> rfl

theorem foldlM_layEntry_bare (rows : List (Name × Entry)) {laid laid' : List (Name × Entry) × Nat}
    (h : rows.foldlM layEntry laid = some laid') : laid'.1.map bareRow = laid.1.map bareRow := by
  induction rows generalizing laid with
  | nil =>
    cases h
    rfl
  | cons e rows ih =>
    rw [foldlM_cons] at h
    obtain ⟨mid, hm, h⟩ := Option.bind_eq_some_iff.mp h
    rw [ih h, layEntry_bare hm]

theorem lookup_bare (rows : List (Name × Entry)) (key : Name) :
    (rows.map bareRow).lookup key = (rows.lookup key).map Entry.bare := by
  induction rows with
  | nil => rfl
  | cons row rows ih =>
    rw [map_cons, lookup_cons, lookup_cons, ih, bareRow]
    cases key == row.1 <;> rfl

theorem layRam_bare {tiers : Tiers} {ram : List Fragment} {m m' : Mapping}
    (h : layRam accepts tiers ram m = some m') :
    m'.entries.map bareRow = m.entries.map bareRow := by
  unfold layRam at h
  dsimp only at h
  repeat' split at h
  any_goals cases h; rfl
  obtain ⟨-, -, h⟩ := Option.bind_eq_some_iff.mp h
  obtain ⟨laid, hl, h⟩ := Option.bind_eq_some_iff.mp h
  have hb := foldlM_layEntry_bare _ hl
  repeat' split at h
  all_goals cases h
  · rfl
  · exact hb

theorem recompose_entries {tiers : Tiers} {running mapFails : Bool} {fragments : List Fragment}
    {map map' : Option Mapping}
    (h : recompose accepts tiers running mapFails fragments map = some map') (key : Name)
      (e : Entry) :
    (∃ m, map' = some m ∧ (m.entries.map bareRow).lookup key = some e) ↔
      ∃ f ∈ fragments, ramTier f.tierId = false ∧ (key, e) ∈ f.entries.map bareRow := by
  unfold recompose at h
  dsimp only at h
  split at h
  next hs =>
    cases h
    refine iff_of_false ?_ ?_
    · rintro ⟨m, hm, hl⟩
      split at hm
      · obtain ⟨m0, -, rfl⟩ := Option.map_eq_some_iff.mp hm
        cases hl
      · cases hm
    · rintro ⟨f, hf, hr, -⟩
      have hn := filter_eq_nil_iff.mp (List.isEmpty_iff.mp hs) f hf
      simp [hr] at hn
  next hs =>
    obtain ⟨m, hm, rfl⟩ := Option.map_eq_some_iff.mp h
    obtain ⟨m0, hc, hl⟩ := Option.bind_eq_some_iff.mp hm
    have hen : ∀ e0, m0.entries.lookup key = some e0 ↔
        ∃ f ∈ fragments, ramTier f.tierId = false ∧ (key, e0) ∈ f.entries := by
      intro e0
      unfold compose at hc
      split at hc
      next => cases hc
      next first rest hst =>
        split at hc
        · obtain ⟨entries, hf, rfl⟩ := Option.map_eq_some_iff.mp hc
          rw [lookup_merged _ hf, ← hst]
          simp [and_assoc]
        · cases hc
    have hb := layRam_bare hl
    simp only [Option.some.injEq, exists_eq_left', hb]
    simp only [lookup_bare, Option.map_eq_some_iff, hen, mem_map, bareRow]
    constructor
    · rintro ⟨e0, ⟨f, hf, hr, hin⟩, rfl⟩
      exact ⟨f, hf, hr, (key, e0), hin, rfl⟩
    · rintro ⟨f, hf, hr, ⟨k, e0⟩, hin, he⟩
      cases he
      exact ⟨e0, ⟨f, hf, hr, hin⟩, rfl⟩

variable {s after : State} {running : Bool} {faults : Faults} (hma : faults.mapRead = false)
  (hre : faults.clean s.files = true)
include hma hre

theorem recompose_of_returned {clean : Bool} (h : Sound accepts content (s, clean))
    (hme : s.memory.isSome = true → clean = true)
    (hc : composeMap accepts content s running faults = (after, true)) :
    recompose accepts s.tiers running false (s.files.filterMap content) s.map = some after.map := by
  unfold composeMap at hc
  dsimp only at hc
  by_cases hs : skips s running faults = true
  · rw [if_pos hs] at hc
    cases hc
    have hst : faults.stamps = false := by
      refine Bool.eq_false_iff.mpr fun hst => ?_
      simp [skips, fingerprint, hst] at hs
    simp only [skips, fingerprint, hst, Bool.false_eq_true, if_false, Option.any_some,
      decide_eq_true_eq] at hs
    obtain ⟨map, hp, hm, hr⟩ := h (hme (by rw [hs]; rfl)) _ _ hs
    obtain rfl : s.map = map := by
      rcases hm with hm | hm
      · exact hm
      · rw [hm] at hp ⊢
        exact (Option.isNone_iff_eq_none.mp (Option.isSome_eq_false_iff.mp hp.symm)).symm
    exact hr s.tiers rfl
  · rw [if_neg hs, readFragments_clean hre, hma] at hc
    split at hc
    next => cases hc
    next map hr =>
      split at hc
      · cases hc
      · cases hc
        exact hr

theorem fresh_map {map : Option Mapping}
    (h : recompose accepts s.tiers running false (s.files.filterMap content) s.map = some map) :
    (composeMap accepts content { s with memory := none } running faults).1.map =
      if faults.write then s.map else map := by
  have hs : skips { s with memory := none } running faults = false := by simp [skips]
  unfold composeMap
  simp only [hs, readFragments_clean hre, hma, h]
  cases faults.write <;> cases (fingerprint { s with memory := none } running faults).isNone <;> rfl

end

/-- Skipping a rewrite never changes the map as long as the memory in force was recorded by a call
that read everything. -/
theorem composed_as_if_fresh (accepts : Mapping → Bool) (content : File → Option Fragment)
    (files : List File) (tiers : Tiers)
    (map : Option Mapping) (events : List Event) (s : State) (clean : Bool)
    (hrun : events.foldl (next accepts content) (⟨files, tiers, map, none⟩, true) = (s, clean))
    (hmemory : s.memory.isSome = true → clean = true) (running : Bool) (faults : Faults)
    (hmap : faults.mapRead = false) (hreads : faults.clean s.files = true) (after : State)
    (hcall : composeMap accepts content s running faults = (after, true)) :
    after.map = (composeMap accepts content { s with memory := none } running faults).1.map ∧
    ∀ key e, (∃ m, after.map = some m ∧ (m.entries.map bareRow).lookup key = some e) ↔
      ∃ f ∈ s.files.filterMap content, ramTier f.tierId = false ∧
      (key, e) ∈ f.entries.map bareRow := by
  have hso := hrun ▸ run_sound (fun _ _ _ hm => by cases hm) events
  have hr := recompose_of_returned hmap hreads hso hmemory hcall
  refine ⟨?_, recompose_entries hr⟩
  rw [fresh_map hmap hreads hr]
  split
  next hw =>
    -- a call whose write fails returns only where it skips
    unfold composeMap at hcall
    split at hcall
    · cases hcall; rfl
    · split at hcall
      · cases hcall
      · cases hcall
  next => rfl

def landed : Fragment :=
  ⟨"c", "m", "fast", "/stage", "sha", none, [("k", ⟨"/stage/k", "sha", 1, none⟩)], by decide⟩

def noFaults : Faults := ⟨false, false, false, false, []⟩

def oneFile : State := ⟨[("m.json", 1, 1)], ⟨[], .nil⟩, none, none⟩

def demo : State → Faults → State × Bool :=
    fun s faults => composeMap (fun _ => true) (fun _ => some landed) s false faults

/-- A call that composes and records, and a call that skips. -/
theorem composed_then_skipped : ∃ s, s = (demo oneFile noFaults).1 ∧ skips s false noFaults = true ∧
    s.map.isSome = true ∧ (demo s noFaults).1.map =
    (demo { s with memory := none } noFaults).1.map :=
  ⟨_, rfl, by decide +kernel, by decide +kernel,
    (composed_as_if_fresh (fun _ => true) (fun _ => some landed) oneFile.files oneFile.tiers none
    [.call false noFaults]
      (demo oneFile noFaults).1 true (by rfl) (fun _ => rfl) false noFaults rfl (by decide +kernel)
      (demo (demo oneFile noFaults).1 noFaults).1 (Prod.ext rfl (by decide +kernel))).1⟩

/-- One read fails, and is remembered as the map of the fragments that were there. -/
def afterFailedRead : State := (demo oneFile { noFaults with fragments := ["m.json"] }).1

theorem failed_read_remembered : (demo afterFailedRead noFaults).2 = true ∧
    (demo afterFailedRead noFaults).1.map = none ∧
    (demo { afterFailedRead with memory := none } noFaults).1.map.isSome = true := by
  decide +kernel

end PrismaBuild.ComposeMap
