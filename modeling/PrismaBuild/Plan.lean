import PrismaBuild.PartitionCover

namespace PrismaBuild.Decomposition

open Contract List

variable {F : Type} [FloatFormat F]

def LogicalTask.toJson (t : LogicalTask F) : Json F :=
  .obj [("estimate_evidence", .str t.estimateEvidence.1),
    ("estimated_seconds", .float t.estimatedSeconds.1),
    ("id", .str t.id.1), ("output_id", .str t.outputId.1), ("payload", t.payload),
    ("residency_key", .str t.residencyKey.1)]

def Roster.toJson (r : Roster F) : Json F :=
  .obj [("schema", .str rosterSchema), ("tasks", .arr (r.tasks.map LogicalTask.toJson))]

def Residency.toJson (r : Residency F) : Json F :=
  .obj [("key", .str r.key.1), ("setup_evidence", .str r.setupEvidence.1),
    ("setup_seconds", .float r.setupSeconds.1)]

def BatchPolicy.toJson (p : BatchPolicy F) : Json F :=
  .obj [("max_estimated_wall_seconds", .float p.maxEstimatedWallSeconds.1),
    ("max_setup_fraction", p.declaredFraction),
    ("residencies", .arr (p.residencies.map Residency.toJson)), ("schema", .str policySchema)]

/-- A request that passed `validate_logical_request`, as far as its plan depends on it. The length
of a list is a machine word. -/
structure LogicalRequest (F : Type) [FloatFormat F] where
  argv : List Name
  roster : Roster F
  batchPolicy : BatchPolicy F
  priced : batchPolicy.Prices roster
  sized : roster.tasks.length < 2 ^ 63
  taskDataManifest : Option (Json F)

structure FrozenCommon (F : Type) where
  argv : List Name
  actionCommon : List (Name × Json F)

def FrozenCommon.params (c : FrozenCommon F) : List (Name × Json F) :=
  match entry c.actionCommon "params" with
  | .obj fields => fields
  | _ => []

def frozenSchema : Name := "prismabuild.frozen_common.v1"

def FrozenCommon.toJson (c : FrozenCommon F) : Json F :=
  .obj [("action_common", .obj c.actionCommon), ("argv", .arr (c.argv.map .str)),
    ("schema", .str frozenSchema)]

def parentSchema : Name := "prismabuild.logical_parent_identity.v1"

def parentIdentity (c : FrozenCommon F) (r : LogicalRequest F) : Json F :=
  .obj [("batch_policy", r.batchPolicy.toJson), ("common", c.toJson), ("roster", r.roster.toJson),
    ("schema", .str parentSchema)]

abbrev Partitions :=
    { batches : List (List (Text idText)) // batches ≠ [] ∧ ∀ batch ∈ batches, batch ≠ [] }

structure Blueprint where
  parentKey : Text sha256Text
  algorithmVersion : Text plainText
  partitions : Partitions

def planSchema : Name := "prismabuild.decomposition_plan.v1"

section

omit [FloatFormat F]

def batchJson (batch : List (Text idText)) : Json F := .arr (batch.map fun id => .str id.1)

def partitionsPath : Name := "decomposition plan partitions"

/-- The loop of `_validate_plan`. -/
def planBatches (ordinal : Nat) : List (Json F) → Checked (List (List (Text idText)))
  | [] => .ok []
  | .arr [] :: _ =>
    fail (item partitionsPath ordinal) "is empty; every batch covers at least one task"
  | .arr (id :: ids) :: rest => do
    let batch ← Action.texts idText (item partitionsPath ordinal) 0 (id :: ids)
    let rest ← planBatches (ordinal + 1) rest
    pure (batch :: rest)
  | _ :: _ => fail (item partitionsPath ordinal) "must be an array of task ids"

variable {batches : List (List (Text idText))}

theorem planBatches_json (ordinal : Nat) (h : ∀ batch ∈ batches, batch ≠ []) :
    planBatches ordinal (batches.map (batchJson (F := F))) = .ok batches := by
  induction batches generalizing ordinal with
  | nil => rfl
  | cons batch rest ih =>
    have hr := ih (ordinal + 1) fun b hb => h b (by simp [hb])
    cases batch with
    | nil => exact absurd rfl (h [] (by simp))
    | cons id ids =>
      have ht := Action.texts_str (F := F) (item partitionsPath ordinal) 0 (id :: ids)
      rw [map_cons] at ht
      rw [map_cons, batchJson, map_cons, planBatches, ht, hr]
      rfl

theorem planBatches_ok {ordinal : Nat} {js : List (Json F)}
    (h : planBatches ordinal js = .ok batches) : js = batches.map batchJson ∧ ∀ batch ∈ batches,
    batch ≠ [] := by
  induction js generalizing ordinal batches with
  | nil => cases h; exact ⟨rfl, by simp⟩
  | cons j js ih =>
    unfold planBatches at h
    split at h
    next he => cases he
    next => cases h
    next id ids rest he =>
      cases he
      obtain ⟨batch, hb, h1⟩ := bind_ok.mp h
      obtain ⟨more, hm, he⟩ := bind_ok.mp h1
      cases he
      obtain ⟨rfl, hne⟩ := ih hm
      have hi := Action.texts_ok hb
      refine ⟨by rw [hi]; rfl, forall_mem_cons.mpr ⟨?_, hne⟩⟩
      rintro rfl
      cases hi
    next => cases h

def planPartitions : Json F → Checked Partitions
  | .arr [] => fail "decomposition plan" "must contain at least one batch"
  | .arr (first :: rest) =>
    match h : planBatches 0 (first :: rest) with
    | .error e => .error e
    | .ok batches =>
      .ok ⟨batches, fun hnil => List.cons_ne_nil _ _ (hnil ▸ (planBatches_ok h).1),
        (planBatches_ok h).2⟩
  | _ => fail partitionsPath "must be an array"

def Partitions.toJson (p : Partitions) : Json F := .arr (p.1.map batchJson)

theorem planPartitions_toJson (p : Partitions) : planPartitions (p.toJson : Json F) = .ok p := by
  obtain ⟨batches, hne, hb⟩ := p
  cases batches with
  | nil => exact absurd rfl hne
  | cons first rest =>
    have h := planBatches_json (F := F) 0 hb
    rw [map_cons] at h
    rw [Partitions.toJson, map_cons, planPartitions]
    split
    next he =>
      rw [h] at he
      cases he
    next he =>
      rw [h] at he
      cases he
      rfl

def Blueprint.toJson (b : Blueprint) : Json F :=
  .obj [("algorithm_version", .str b.algorithmVersion.1), ("parent_key", .str b.parentKey.1),
    ("partitions", b.partitions.toJson), ("schema", .str planSchema)]

end

def planKeys : List Name := ["algorithm_version", "parent_key", "partitions", "plan_key", "schema"]

theorem planKeys_sorted : KeysSorted planKeys := by decide +kernel

variable [HashFunction]

structure Plan (F : Type) [FloatFormat F] [HashFunction] extends Blueprint where
  planKey : Text sha256Text
  bound : canonicalSha256 (toBlueprint.toJson : Json F) = .ok planKey

def Plan.fields (p : Plan F) : List (Name × Json F) :=
  [("algorithm_version", .str p.algorithmVersion.1), ("parent_key", .str p.parentKey.1),
    ("partitions", p.partitions.toJson), ("plan_key", .str p.planKey.1),
    ("schema", .str planSchema)]

def Plan.toJson (p : Plan F) : Json F := .obj p.fields

def bindPlan (b : Blueprint) (recorded : Text sha256Text) : Checked (Plan F) :=
  match h : canonicalSha256 (b.toJson : Json F) with
  | .error e => .error e
  | .ok key =>
    if he : key = recorded then .ok ⟨b, recorded, he ▸ h⟩
    else fail "decomposition plan plan_key" "does not match its blueprint"

theorem bindPlan_planKey (p : Plan F) : bindPlan p.toBlueprint p.planKey = .ok p := by
  unfold bindPlan
  split
  next h =>
    rw [p.bound] at h
    cases h
  next key h =>
    rw [p.bound] at h
    cases h
    rw [dif_pos rfl]

def validatePlan (j : Json F) : Checked (Plan F) := do
  let fields ← exactMapping planKeys "decomposition plan" j
  if (entry fields "schema").pyEq (.str planSchema) = false then
    fail "decomposition plan schema" "must be 'prismabuild.decomposition_plan.v1'"
  else do
    let partitions ← planPartitions (entry fields "partitions")
    let parentKey ← sha256 "decomposition plan parent_key" (entry fields "parent_key")
    let version ← text plainText "decomposition plan algorithm_version"
      (entry fields "algorithm_version")
    let recorded ← sha256 "decomposition plan plan_key" (entry fields "plan_key")
    bindPlan ⟨parentKey, version, partitions⟩ recorded

theorem validatePlan_toJson (p : Plan F) : validatePlan p.toJson = .ok p := by
  have hk := planKeys_sorted
  have hke : p.fields.map Prod.fst = planKeys := rfl
  rw [validatePlan, Plan.toJson, exactMapping_obj _ hke]
  simp only [bind, Except.bind, entry_at hk hke (i := 4) rfl, entry_at hk hke (i := 2) rfl,
    entry_at hk hke (i := 1) rfl, entry_at hk hke (i := 0) rfl, entry_at hk hke (i := 3) rfl,
    pyEq_str_self, if_false,
    text_str, sha256, planPartitions_toJson]
  exact bindPlan_planKey p

inductive BuildError
  | contract (e : Error)
  | partition (e : PartitionError)

def algorithmVersion : Text plainText := ⟨"contiguous-residency-exact-cover.v1", by decide +kernel⟩

def dataPolicyParam : Name := "logical_task_data_policy"

/-- The `build_plan` document of a partition. -/
def planJson (parentKey planKey : Text sha256Text) (partitions : List (List Name)) : Json F :=
  .obj [("algorithm_version", .str algorithmVersion.1), ("parent_key", .str parentKey.1),
    ("partitions", .arr (partitions.map fun batch => .arr (batch.map .str))),
    ("plan_key", .str planKey.1),
    ("schema", .str planSchema)]

def blueprintJson (parentKey : Text sha256Text) (partitions : List (List Name)) : Json F :=
  .obj [("algorithm_version", .str algorithmVersion.1), ("parent_key", .str parentKey.1),
    ("partitions", .arr (partitions.map fun batch => .arr (batch.map .str))),
    ("schema", .str planSchema)]

/-- `build_plan` of a validated request and a validated frozen common. -/
def buildPlan (r : LogicalRequest F) (c : FrozenCommon F) : Except BuildError (Json F) :=
  if c.argv ≠ r.argv then
    .error (.contract ⟨"frozen common argv",
      .text "differs from the request's; the plan would be keyed on a command no child runs"⟩)
  else if (entry c.params dataPolicyParam).pyEq (r.taskDataManifest.getD .null) = false then
    .error (.contract ⟨"task data projection policy", .text "must be sealed in the frozen parent"⟩)
  else do
    let partitions ← (partitionRoster r.roster r.batchPolicy).mapError .partition
    let parentKey ← (canonicalSha256 (parentIdentity c r)).mapError .contract
    let planKey ← (canonicalSha256 (blueprintJson parentKey partitions : Json F)).mapError .contract
    pure (planJson parentKey planKey partitions)

def Partitions.ofGroups {policy : BatchPolicy F} {tasks : List (LogicalTask F)}
    {groups : List (List (LogicalTask F))}
    (hne : tasks ≠ []) (h : Covers policy tasks groups) : Partitions :=
  ⟨groups.map fun g => g.map LogicalTask.id, by
    refine ⟨fun hnil => hne ?_, fun batch hb => ?_⟩
    · rw [← h.exact, List.map_eq_nil_iff.mp hnil, List.flatten_nil]
    · obtain ⟨g, hg, rfl⟩ := List.mem_map.mp hb
      exact fun hnil => (h.batch g hg).nonempty (List.map_eq_nil_iff.mp hnil)⟩

theorem buildPlan_ok {r : LogicalRequest F} {c : FrozenCommon F} {j : Json F}
    (h : buildPlan r c = .ok j) :
    ∃ p : Plan F, j = p.toJson ∧ p.partitions.1.flatten = r.roster.tasks.map LogicalTask.id ∧
      canonicalSha256 (parentIdentity c r) = .ok p.parentKey := by
  unfold buildPlan at h
  obtain ⟨-, h⟩ := guard_ok.mp h
  obtain ⟨-, h⟩ := guard_ok.mp h
  obtain ⟨partitions, hp, h1⟩ := bind_ok.mp h
  obtain ⟨parentKey, hpa, h2⟩ := bind_ok.mp h1
  obtain ⟨planKey, hk, he⟩ := bind_ok.mp h2
  cases he
  rcases partitionRoster_cases r.priced with ⟨groups, hc, hok⟩ | ⟨refusal, her, -⟩
  · cases hok.symm.trans (except_mapError_ok hp)
    have hj : (.arr ((groups.map fun g => g.map fun t => t.id.1).map fun batch =>
      .arr (batch.map .str)) : Json F) =
        (Partitions.ofGroups r.roster.nonempty hc).toJson := by
      simp [Partitions.toJson, Partitions.ofGroups, batchJson]
    have hb := except_mapError_ok hk
    rw [blueprintJson, hj] at hb
    refine ⟨⟨⟨parentKey, algorithmVersion, _⟩, planKey, hb⟩, ?_, ?_, except_mapError_ok hpa⟩
    · rw [planJson, hj]
      rfl
    · exact map_flatten.symm.trans (congrArg _ hc.exact)
  · cases her.symm.trans (except_mapError_ok hp)

end PrismaBuild.Decomposition
