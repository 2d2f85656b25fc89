import PrismaBuild.ActionKey
import PrismaBuild.ChunkCuts
import PrismaBuild.ManifestAgree

namespace PrismaBuild.DataManifest

open Contract Spans List

variable {F : Type}

section

variable {m : Manifest F} {plan : ReadPlan}

theorem fields_entries (m : Manifest F) :
    Json.get? m.fields "entries" = some (.arr (m.entries.map Entry.toJson)) := rfl

theorem fields_total (m : Manifest F) :
    Json.get? m.fields "total_bytes" = some (.int m.totalBytes) := by
  unfold Manifest.fields
  cases m.readPlan <;> rfl

theorem fields_plan (h : m.readPlan = some plan) :
    Json.get? m.fields "read_plan" = some plan.toJson := by
  unfold Manifest.fields
  rw [h]
  rfl

theorem isV2_fields (h : m.readPlan = some plan) : isV2 m.fields = true := by
  unfold isV2 Manifest.fields
  rw [h]
  rfl

end

section

variable {entries : List Entry}

def readAt (entries : List Entry) (index : Nat) : Json F :=
    ((entries[index]?).map Entry.toJson).getD .null

def ReadPlan.order (plan : ReadPlan) : List Nat := plan.phases.flatMap Phase.entryIndices

theorem mapM_ok {α β ε : Type} {f : α → Except ε β} {g : α → β} {items : List α}
    (h : ∀ x ∈ items, f x = .ok (g x)) :
    items.mapM f = .ok (items.map g) := by
  induction items with
  | nil => rfl
  | cons x items ih =>
    rw [mapM_cons, h x (.head _), ih fun y hy => h y (.tail _ hy)]
    rfl

variable {index : Nat} {plan : ReadPlan}

theorem entryAt_of (h : index < entries.length) :
    entryAt (entries.map (Entry.toJson (F := F))) (.int index) = .ok (readAt entries index) := by
  have hn : ¬ ((index : Int) < 0) := by omega
  simp [entryAt, readAt, hn, h]

theorem phaseEntries_of {p : Phase} (h : ∀ i ∈ p.entryIndices, i < entries.length) :
    phaseEntries (entries.map (Entry.toJson (F := F))) p.toJson =
    .ok (p.entryIndices.map (readAt entries)) := by
  obtain ⟨fields, hp⟩ := exists_fields p
  rw [hp, phaseEntries, get_indices p hp]
  show mapM _ (p.entryIndices.map _) = _
  rw [mapM_map]
  exact mapM_ok fun i hi => entryAt_of (h i hi)

theorem indices_lt {cumulative : Nat} {names : List Name} {phases : List Phase}
    (h : PhasesFrom entries cumulative names phases) : ∀ p ∈ phases, ∀ i ∈ p.entryIndices,
    i < entries.length := by
  induction phases generalizing cumulative names with
  | nil => nofun
  | cons q phases ih =>
    obtain ⟨-, hb, -, -, -, hr⟩ := h
    intro p hp
    rcases mem_cons.mp hp with rfl | hp
    · exact hb
    · exact ih hr p hp

theorem readEntries_of {m : Manifest F} (hpl : m.readPlan = some plan)
    (h : Planned m.entries plan) :
    readEntries m.fields = .ok (plan.order.map (readAt m.entries)) := by
  have hph : (plan.phases.map (Phase.toJson (F := F))).mapM
    (phaseEntries (m.entries.map Entry.toJson)) =
      .ok (plan.phases.map fun p => p.entryIndices.map (readAt m.entries)) := by
    rw [mapM_map]
    exact mapM_ok fun p hp => phaseEntries_of (indices_lt h.phases p hp)
  have hg : planEntries (m.entries.map (Entry.toJson (F := F))) (some plan.toJson) =
      (plan.phases.map Phase.toJson).mapM (phaseEntries (m.entries.map Entry.toJson)) >>=
      fun read => pure read.flatten := rfl
  rw [readEntries, fields_entries]
  simp only [isV2_fields hpl, fields_plan hpl, if_true]
  rw [hg, hph]
  show Except.ok _ = _
  rw [ReadPlan.order, map_flatMap, flatMap_def]

theorem sizeAt_pos (h : index < entries.length) : 0 < sizeAt entries index := by
  rw [sizeAt, getElem?_eq_getElem h]
  exact (entries[index]).positive

theorem order_lt (h : Planned entries plan) : ∀ i ∈ plan.order, i < entries.length := by
  intro i hi
  obtain ⟨p, hp, hi⟩ := mem_flatMap.mp hi
  exact indices_lt h.phases p hp i hi

theorem readSize_pos (h : Planned entries plan) {i : Nat} (hi : i ∈ plan.order) :
    0 < readSize entries i := by
  have := sizeAt_pos (order_lt h i hi)
  rw [readSize]
  omega

variable [FloatFormat F]

theorem entrySizes_of {α : Type} {items : List α} {json : α → Json F} {size : α → Int}
    (h : ∀ x ∈ items, ∃ fields, json x = .obj fields ∧
    Json.get? fields "bytes" = some (.int (size x))) :
    entrySizes (items.map json) = .ok (some (items.map size)) := by
  induction items with
  | nil => rfl
  | cons x items ih =>
    obtain ⟨fields, hj, hb⟩ := h x (.head _)
    rw [map_cons, hj, entrySizes, hb, ih fun y hy => h y (.tail _ hy)]
    rfl

theorem entrySizes_toJson (items : List Entry) :
    entrySizes (items.map (Entry.toJson (F := F))) =
    .ok (some (items.map fun e => (e.bytes : Int))) :=
  entrySizes_of fun _ _ => ⟨_, rfl, rfl⟩

theorem entrySizes_readAt {refs : List Nat} (h : ∀ i ∈ refs, i < entries.length) :
    entrySizes (refs.map (readAt (F := F) entries)) = .ok (some (refs.map (readSize entries))) := by
  refine entrySizes_of fun i hi => ?_
  rw [readAt, readSize, sizeAt, getElem?_eq_getElem (h i hi)]
  exact ⟨_, rfl, rfl⟩

end

section

variable {m : Manifest F} {plan : ReadPlan}

theorem getD_sizes (entries : List Entry) (index : Nat) :
    (entries.map fun e => (e.bytes : Int)).getD index 0 = readSize entries index := by
  rw [readSize, sizeAt, getD_eq_getElem?_getD, getElem?_map]
  cases entries[index]? <;> rfl

theorem sum_bytes (entries : List Entry) :
    (entries.map fun e => (e.bytes : Int)).sum = ((entries.map Entry.bytes).sum : Nat) := by
  induction entries with
  | nil => rfl
  | cons e entries ih => rw [map_cons, sum_cons, ih, map_cons, sum_cons, Int.natCast_add]

def readBoundaries (entries : List Entry) (plan : ReadPlan) : List Int :=
  runningSums 0 (plan.order.map (readSize entries))

theorem planBoundaries_of (h : Planned m.entries plan) :
    planBoundaries (plan.phases.map (Phase.toJson (F := F))) (some (.int plan.readBytes))
        (m.entries.map fun e => (e.bytes : Int)) =
      checkedPhaseBoundaries plan.readBytes (readBoundaries m.entries plan) 0 []
        (plan.phases.map (Phase.toJson (F := F))) := by
  have hs : plan.order.map (fun index => (m.entries.map fun e => (e.bytes : Int)).getD index 0) =
      plan.order.map (readSize m.entries) := map_congr_left fun i _ => getD_sizes m.entries i
  have hsu : (plan.order.map (readSize m.entries)).sum = plan.readBytes := by
    rw [h.readBytes]
    exact sum_refs h.phases
  rw [planBoundaries, length_map, readOrderIndices_of h.phases, Option.bind_some]
  rw [← ReadPlan.order, hs, if_neg (not_not.mpr hsu)]
  rfl

variable [FloatFormat F]

theorem manifestReadLayout_of (hp : m.readPlan = some plan)
    (ht : m.totalBytes = (m.entries.map Entry.bytes).sum)
    (h : Planned m.entries plan) : manifestReadLayout m.fields =
      .ok ((checkedPhaseBoundaries plan.readBytes (readBoundaries m.entries plan) 0 []
      (plan.phases.map (Phase.toJson (F := F)))).map fun checked =>
      (checked, plan.order.map (readAt m.entries))) := by
  have he : (plan.phases.map (Phase.toJson (F := F))).isEmpty = false := by
    simp [h.nonempty]
  have ho : ((plan.phases.map (Phase.toJson (F := F))).any fun phase => !isObject phase) =
    false := by
    simp [Phase.toJson, isObject]
  have hl : layoutV2 m.fields = layoutOfPlan m.fields (plan.phases.map Phase.toJson)
    (some (.int plan.readBytes)) := by
    rw [layoutV2, fields_plan hp]
    show (if ((plan.phases.map (Phase.toJson)).isEmpty || _) = true then _ else _) = _
    rw [he, ho]
    rfl
  have hs : (m.entries.map fun e => (e.bytes : Int)).sum = (m.totalBytes : Int) := by
    rw [ht, sum_bytes]
  rw [manifestReadLayout, if_pos (isV2_fields hp), hl, layoutOfPlan, fields_entries, fields_total]
  dsimp only [Option.getD_some, itemsOf, intOrZero, bind, Except.bind]
  rw [entrySizes_toJson]
  dsimp only
  rw [if_neg (not_not.mpr hs), planBoundaries_of h, readEntries_of hp h]
  cases checkedPhaseBoundaries plan.readBytes (readBoundaries m.entries plan) 0 []
    (plan.phases.map (Phase.toJson)) <;> rfl

end

section

variable {entries : List Entry}

def Phase.range (p : Phase) : PhaseRange :=
    ⟨p.name.1, (p.cumulativeBytes : Int) - p.bytes, p.cumulativeBytes⟩

def rangesOf (phases : List Phase) : List PhaseRange :=
    (phases.filter fun p => 0 < p.bytes).map Phase.range

variable {p : Phase} {cumulative : Nat} {names : List Name} {phases : List Phase}

theorem rangesOf_cons_empty (h : p.bytes = 0) (phases : List Phase) :
    rangesOf (p :: phases) = rangesOf phases := by
  simp [rangesOf, h]

theorem rangesOf_cons (h : 0 < p.bytes) (phases : List Phase) :
    rangesOf (p :: phases) = p.range :: rangesOf phases := by
  simp [rangesOf, h]

variable (h : PhasesFrom entries cumulative names phases)

include h

theorem rangesFrom_of :
    rangesFrom cumulative (phases.map fun p => (p.name.1, (p.cumulativeBytes : Int))) =
    rangesOf phases := by
  induction phases generalizing cumulative names with
  | nil => rfl
  | cons p phases ih =>
    obtain ⟨-, -, -, -, hs, hr⟩ := h
    rw [map_cons, rangesFrom, ih hr]
    by_cases hz : p.bytes = 0
    · rw [if_neg (by omega), rangesOf_cons_empty hz]
    · rw [if_pos (by omega), rangesOf_cons (by omega), Phase.range,
        show (p.cumulativeBytes : Int) - p.bytes = cumulative by omega]

theorem rangesOf_tiles :
    Tiles cumulative ((rangesOf phases).map fun range => (range.startBytes, range.endBytes))
    (cumulative + cumulativeEnd phases) := by
  induction phases generalizing cumulative names with
  | nil =>
    show (cumulative : Int) = cumulative + ((0 : Nat) : Int)
    omega
  | cons p phases ih =>
    obtain ⟨-, -, -, -, hs, hr⟩ := h
    have ht := ih hr
    have he : (cumulative : Int) + cumulativeEnd (p :: phases) = p.cumulativeBytes +
      cumulativeEnd phases := by
      rw [cumulativeEnd_cons]
      omega
    rw [he]
    by_cases hz : p.bytes = 0
    · rw [rangesOf_cons_empty hz, show cumulative = p.cumulativeBytes by omega]
      exact ht
    · rw [rangesOf_cons (by omega), map_cons]
      refine ⟨?_, ?_, ht⟩
      · show (p.cumulativeBytes : Int) - p.bytes = cumulative
        omega
      · show (cumulative : Int) < p.cumulativeBytes
        omega

theorem exists_stretch (hp : p ∈ phases) :
    ∃ before after, phases.flatMap Phase.entryIndices = before ++ p.entryIndices ++ after ∧
      (p.cumulativeBytes : Int) - p.bytes = cumulative + total (readSize entries) before ∧
      (p.bytes : Int) = total (readSize entries) p.entryIndices := by
  induction phases generalizing cumulative names with
  | nil => cases hp
  | cons q phases ih =>
    obtain ⟨-, -, -, hb, hsu, hr⟩ := h
    have hq : total (readSize entries) q.entryIndices = q.bytes := sum_phase hb
    rcases mem_cons.mp hp with rfl | hp
    · refine ⟨[], phases.flatMap Phase.entryIndices, rfl, ?_, hq.symm⟩
      rw [total_nil]
      omega
    · obtain ⟨before, after, hs, hst, ho⟩ := ih hr hp
      refine ⟨q.entryIndices ++ before, after, ?_, ?_, ho⟩
      · rw [flatMap_cons, hs]
        simp
      · rw [total_append, hq]
        omega

omit h

theorem range_accepted {plan : ReadPlan} (h : Planned entries plan) {range : PhaseRange}
    (hr : range ∈ rangesOf plan.phases) :
    Boundary id (plan.order.map (readSize entries)) range.startBytes ∧
      Boundary id (plan.order.map (readSize entries)) range.endBytes ∧ ∀ chunkBytes : Int,
      0 < chunkBytes → ∃ chunks,
        splitRangeIntoChunks range.startBytes range.endBytes chunkBytes
          (plan.order.map (readSize entries)) none = .ok chunks := by
  obtain ⟨p, hp, rfl⟩ := mem_map.mp hr
  obtain ⟨hp, hb⟩ := mem_filter.mp hp
  have hb : 0 < p.bytes := of_decide_eq_true hb
  obtain ⟨before, after, hs, hst, how⟩ := exists_stretch h.phases hp
  have ho : plan.order = before ++ p.entryIndices ++ after := hs
  have hpos : ∀ i ∈ before ++ p.entryIndices ++ after, 0 < readSize entries i := by
    intro i hi
    rw [← ho] at hi
    exact readSize_pos h hi
  have hne : p.entryIndices ≠ [] := by
    intro hn
    rw [hn, total_nil] at how
    omega
  have hf : p.range.startBytes = total (readSize entries) before := by
    show (p.cumulativeBytes : Int) - p.bytes = _
    omega
  have hl : p.range.endBytes = total (readSize entries) before + total (readSize entries)
    p.entryIndices := by
    show (p.cumulativeBytes : Int) = _
    omega
  rw [ho, hf, hl]
  refine ⟨boundary_map ⟨before, _, append_assoc _ _ _, rfl⟩, boundary_map boundary_append,
    fun chunkBytes hc => ?_⟩
  have hpo : ∀ window ∈ (none : Option Int), 0 < window := nofun
  have hw : WithinWindow (readSize entries) none p.entryIndices := nofun
  obtain ⟨groups, -, -, hok⟩ := splitRangeIntoChunks_aligned hpos hne hc hpo hw
  exact ⟨_, hok⟩

end

section

variable [FloatFormat F]

/-- The reader takes a normalized manifest as the validator accepted it. -/
structure Agrees (m : Manifest F) (plan : ReadPlan) : Prop where
  layout : manifestReadLayout m.fields ≠ .ok none
  ranges : manifestPhaseRanges m.fields = .ok (rangesOf plan.phases)
  tiles : Tiles 0 ((rangesOf plan.phases).map fun range => (range.startBytes, range.endBytes))
    plan.readBytes
  entries : manifestReadEntries m.fields = readEntries m.fields
  accepted : ∃ read sizes, readEntries m.fields = .ok read ∧ entrySizes read = .ok (some sizes) ∧
    ∀ range ∈ rangesOf plan.phases, Boundary id sizes range.startBytes ∧
    Boundary id sizes range.endBytes ∧
      ∀ chunkBytes : Int, 0 < chunkBytes → ∃ chunks,
        splitRangeIntoChunks range.startBytes range.endBytes chunkBytes sizes none = .ok chunks

variable {m : Manifest F} {plan : ReadPlan} {entries : List Entry}

theorem cumulative_mem_of_first (h : Planned entries plan)
    (hfi : ∀ p ∈ plan.phases.head?, p.entryIndices ≠ []) :
    ∀ p ∈ plan.phases, (p.cumulativeBytes : Int) ∈ readBoundaries entries plan := by
  obtain ⟨first, rest, hph⟩ := exists_cons_of_ne_nil h.nonempty
  have hf := h.phases
  rw [hph] at hf
  obtain ⟨-, hb, -, hby, hsu, hl⟩ := hf
  intro p hp
  have hs : 0 < first.bytes := by
    obtain ⟨i, is, hi⟩ := exists_cons_of_ne_nil (hfi first (by simp [hph]))
    have := sizeAt_pos (hb i (by simp [hi]))
    rw [hby, hi, map_cons, sum_cons]
    omega
  have hlt : 0 < p.cumulativeBytes := by
    rw [hph] at hp
    rcases mem_cons.mp hp with rfl | hp
    · omega
    · have := cumulative_ge hl p hp
      omega
  exact cumulative_mem h.phases hp hlt

theorem first_notMem (h : Planned entries plan) {first : Phase} {rest : List Phase}
    (hp : plan.phases = first :: rest) (he : first.entryIndices = []) :
    (first.cumulativeBytes : Int) ∉ readBoundaries entries plan := by
  have hf := h.phases
  rw [hp] at hf
  obtain ⟨-, -, -, hb, hsu, -⟩ := hf
  rw [he, map_nil, sum_nil] at hb
  intro hm
  have hlt := lt_of_mem_runningSums (fun size hs => by
    obtain ⟨i, hi, rfl⟩ := mem_map.mp hs
    exact readSize_pos h hi) hm
  omega

theorem agrees_of_layout (hp : m.readPlan = some plan) (h : Planned m.entries plan)
    (hl : manifestReadLayout m.fields =
      .ok (some (plan.phases.map fun p => (p.name.1, (p.cumulativeBytes : Int)),
      plan.order.map (readAt m.entries)))) :
    Agrees m plan := by
  have hre := readEntries_of hp h
  refine ⟨?_, ?_, ?_, ?_, plan.order.map (readAt m.entries), plan.order.map (readSize m.entries),
    hre,
    entrySizes_readAt (order_lt h), fun range hr => range_accepted h hr⟩
  · rw [hl]
    nofun
  · rw [manifestPhaseRanges, hl]
    show Except.ok (rangesFrom ((0 : Nat) : Int) _) = _
    rw [rangesFrom_of h.phases]
  · have ht := rangesOf_tiles h.phases
    rw [← h.readBytes] at ht
    simpa using ht
  · rw [manifestReadEntries, hl, hre]
    rfl

/-- The reader takes an accepted plan as the validator accepted it exactly when the plan's first
phase reads an entry. -/
theorem agrees_iff_firstPhase (value : Json F) (h : validateDataManifest value = .ok m)
    (hplan : m.readPlan = some plan) :
    Agrees m plan ↔ ∀ p ∈ plan.phases.head?, p.entryIndices ≠ [] := by
  obtain ⟨ht, hpl⟩ := validateDataManifest_ok h hplan
  have hl := manifestReadLayout_of hplan ht hpl
  constructor
  · intro ha p hp he
    obtain ⟨first, rest, hph⟩ := exists_cons_of_ne_nil hpl.nonempty
    obtain rfl : first = p := by simpa [hph] using hp
    apply ha.layout
    have ho := first_notMem hpl hph he
    rw [hl, hph, checkedPhaseBoundaries_none ho]
    rfl
  · intro hf
    have hm := cumulative_mem_of_first hpl hf
    have hen : ((0 : Nat) : Int) + cumulativeEnd plan.phases = plan.readBytes := by
      rw [hpl.readBytes]
      omega
    have hc := checkedPhaseBoundaries_of (F := F) hpl.phases hen hm
    apply agrees_of_layout hplan hpl
    rw [hl]
    show Except.ok (Option.map _ (checkedPhaseBoundaries _ _ ((0 : Nat) : Int) [] _)) = _
    rw [hc]
    rfl

def oneEntry (phases : List (Json Action.ZeroOne)) : Json Action.ZeroOne :=
  .obj [("annotations", .obj []),
    ("entries", .arr [.obj [("bytes", .int 1), ("offset", .int 0), ("path", .str "/m/a"),
    ("sha256", .null)]]),
    ("entry_count", .int 1), ("mount_prefix", .str "/m"), ("produced_by", .obj []),
    ("read_plan", .obj [("phases", .arr phases), ("read_bytes", .int 1)]),
    ("schema", .str schemaV2), ("total_bytes", .int 1)]

def loadPhase : Json Action.ZeroOne :=
  .obj [("bytes", .int 1), ("cumulative_bytes", .int 1), ("entry_indices", .arr [.int 0]),
    ("name", .str "load")]

def emptyPhase (name : Name) (cumulative : Int) : Json Action.ZeroOne :=
  .obj [("bytes", .int 0), ("cumulative_bytes", .int cumulative), ("entry_indices", .arr []),
    ("name", .str name)]

theorem loadThenEmpty_agrees : ∃ m plan,
    validateDataManifest (oneEntry [loadPhase, emptyPhase "rest" 1]) = .ok m ∧
    m.readPlan = some plan ∧ Agrees m plan := by
  refine ⟨_, _, rfl, rfl, (agrees_iff_firstPhase (oneEntry [loadPhase, emptyPhase "rest" 1]) rfl
    rfl).mpr ?_⟩
  decide

theorem emptyThenLoad_unread : ∃ m plan,
    validateDataManifest (oneEntry [emptyPhase "first" 0, loadPhase]) = .ok m ∧
    m.readPlan = some plan ∧ manifestReadLayout m.fields = .ok none ∧
    manifestPhaseRanges m.fields = .ok [] ∧
    manifestReadEntries m.fields = .ok [] ∧ ¬ Agrees m plan := by
  exact ⟨_, _, rfl, rfl, rfl, rfl, rfl, fun h => h.layout rfl⟩

end

end PrismaBuild.DataManifest
