import PrismaBuild.Plan

namespace PrismaBuild.Decomposition

open Contract

variable {F : Type} [FloatFormat F]

/-- The children a frozen plan authorizes, one batch input and one key each. -/
structure PublicationIndex where
  (parentKey planKey : Text sha256Text)
  (batchInputSha256 childActionKeys : List (Text sha256Text))
  paired : batchInputSha256.length = childActionKeys.length

def publicationSchema : Name := "prismabuild.decomposition_publication.v1"

def publicationKeys : List Name :=
    ["batch_input_sha256", "child_action_keys", "parent_key", "plan_key", "schema"]

theorem publicationKeys_sorted : KeysSorted publicationKeys := by decide +kernel

def textsJson {spec : TextSpec} (l : List (Text spec)) : Json F := .arr (l.map fun s => .str s.1)

def indexFields (parentKey planKey : Text sha256Text) (digests keys : List (Text sha256Text)) :
    List (Name × Json F) :=
  [("batch_input_sha256", textsJson digests), ("child_action_keys", textsJson keys),
    ("parent_key", .str parentKey.1),
    ("plan_key", .str planKey.1), ("schema", .str publicationSchema)]

def indexPath : Name := "decomposition publication index"

def sha256Array (path : Name) : Json F → Checked (List (Text sha256Text))
  | .arr items => Action.texts sha256Text path 0 items
  | _ => fail path "must be an array"

omit [FloatFormat F] in
theorem sha256Array_ok {path : Name} {j : Json F} {l : List (Text sha256Text)}
    (h : sha256Array path j = .ok l) : j = textsJson l := by
  unfold sha256Array at h
  split at h
  · rw [Action.texts_ok h]; rfl
  · cases h

def pairIndex (parentKey planKey : Text sha256Text) (digests keys : List (Text sha256Text)) :
    Checked PublicationIndex :=
  if h : digests.length = keys.length then .ok ⟨parentKey, planKey, digests, keys, h⟩
  else
    let carried := digests.length
    let named := keys.length
    fail indexPath s!"must carry one batch digest per child key: {carried} digests, {named} keys"

def shortKey (key : Text sha256Text) : String := String.ofList (key.1.take 12)

variable [HashFunction]

def indexOfPlan (plan : Plan F) (i : PublicationIndex) : Checked PublicationIndex :=
  let parent := shortKey i.parentKey
  let planParent := shortKey plan.parentKey
  let named := shortKey i.planKey
  let expected := shortKey plan.planKey
  let children := i.childActionKeys.length
  let batches := plan.partitions.1.length
  if i.parentKey.1 ≠ plan.parentKey.1 then
    fail indexPath s!"names parent {parent}, not this plan's {planParent}"
  else if i.planKey.1 ≠ plan.planKey.1 then fail indexPath s!"names plan {named}, not {expected}"
  else if children ≠ batches then fail indexPath
    s!"names {children} children for a plan with {batches} batches"
  else .ok i

def validatePublicationIndex (plan : Option (Plan F)) (j : Json F) : Checked PublicationIndex := do
  let fields ← exactMapping publicationKeys indexPath j
  if (entry fields "schema").pyEq (.str publicationSchema) = false then
    fail (indexPath ++ " schema".toList) "must be 'prismabuild.decomposition_publication.v1'"
  else do
    let parentKey ← sha256 (indexPath ++ " parent_key".toList) (entry fields "parent_key")
    let planKey ← sha256 (indexPath ++ " plan_key".toList) (entry fields "plan_key")
    let digests ← sha256Array (indexPath ++ " batch_input_sha256".toList)
      (entry fields "batch_input_sha256")
    let keys ← sha256Array (indexPath ++ " child_action_keys".toList)
      (entry fields "child_action_keys")
    let index ← pairIndex parentKey planKey digests keys
    match plan with
    | none => .ok index
    | some plan => indexOfPlan plan index

variable {plan : Plan F}

theorem indexOfPlan_ok {i i' : PublicationIndex} (h : indexOfPlan plan i = .ok i') :
    i' = i ∧ i.parentKey = plan.parentKey ∧ i.planKey = plan.planKey ∧
    i.childActionKeys.length = plan.partitions.1.length := by
  unfold indexOfPlan at h
  obtain ⟨hp, h⟩ := guard_ok.mp h
  obtain ⟨hpl, h⟩ := guard_ok.mp h
  obtain ⟨hl, h⟩ := guard_ok.mp h
  cases h
  exact ⟨rfl, Subtype.ext (not_not.mp hp), Subtype.ext (not_not.mp hpl), not_not.mp hl⟩

theorem validatePublicationIndex_ok {fields : List (Name × Json F)} {i : PublicationIndex}
    (h : validatePublicationIndex (some plan) (.obj fields) = .ok i) :
    i.parentKey = plan.parentKey ∧ i.planKey = plan.planKey ∧
      i.childActionKeys.length = plan.partitions.1.length ∧
      entry fields "parent_key" = .str i.parentKey.1 ∧ entry fields "plan_key" = .str i.planKey.1 ∧
      entry fields "child_action_keys" = textsJson i.childActionKeys := by
  obtain ⟨fields', hf, h1⟩ := bind_ok.mp h
  have hs : fields' = fields := by
    obtain ⟨-, hf⟩ := ite_ok.mp hf
    exact (Except.ok.inj hf).symm
  subst hs
  obtain ⟨-, h1⟩ := guard_ok.mp h1
  obtain ⟨parentKey, hpa, h2⟩ := bind_ok.mp h1
  obtain ⟨planKey, hpl, h3⟩ := bind_ok.mp h2
  obtain ⟨digests, -, h4⟩ := bind_ok.mp h3
  obtain ⟨keys, hke, h5⟩ := bind_ok.mp h4
  obtain ⟨index, hi, h6⟩ := bind_ok.mp h5
  obtain ⟨rfl, hp, hk, hl⟩ := indexOfPlan_ok h6
  unfold pairIndex at hi
  split at hi
  · cases hi
    exact ⟨hp, hk, hl, text_ok hpa, text_ok hpl, sha256Array_ok hke⟩
  · cases hi

theorem validatePublicationIndex_fields (plan : Plan F) {digests keys : List (Text sha256Text)}
    (hd : digests.length = keys.length) (hk : keys.length = plan.partitions.1.length) :
    validatePublicationIndex (some plan)
      (.obj (indexFields plan.parentKey plan.planKey digests keys)) =
      .ok ⟨plan.parentKey, plan.planKey, digests, keys, hd⟩ := by
  have hs := publicationKeys_sorted
  have hke : (indexFields plan.parentKey plan.planKey digests keys : List (Name × Json F)).map
    Prod.fst =
    publicationKeys := rfl
  have hp : pairIndex plan.parentKey plan.planKey digests keys = .ok ⟨_, _, _, _, hd⟩ := dif_pos hd
  have hpl : indexOfPlan plan ⟨plan.parentKey, plan.planKey, digests, keys, hd⟩ =
      .ok ⟨plan.parentKey, plan.planKey, digests, keys, hd⟩ := by
    simp [indexOfPlan, hk]
  rw [validatePublicationIndex, exactMapping_obj _ hke]
  simp only [bind, Except.bind, entry_at hs hke (i := 4) rfl, entry_at hs hke (i := 2) rfl,
    entry_at hs hke (i := 3) rfl, entry_at hs hke (i := 0) rfl, entry_at hs hke (i := 1) rfl,
    pyEq_str_self, if_false,
    sha256, text_str, sha256Array, textsJson, Action.texts_str, hp, hpl]

def publicationIndex (plan : Plan F) (digests keys : List (Json F)) : Checked (Json F) :=
  let count := plan.partitions.1.length
  let given := digests.length
  let named := keys.length
  if given ≠ count ∨ named ≠ count then
    fail "publication index"
      s!"must carry one batch digest and one child key per batch: plan has {count}, got {given} digests and {named} keys"
  else do
    let digests ← Action.texts sha256Text "publication index batch_input_sha256" 0 digests
    let keys ← Action.texts sha256Text "publication index child_action_keys" 0 keys
    pure (.obj (indexFields plan.parentKey plan.planKey digests keys))

end PrismaBuild.Decomposition
