import PrismaBuild.Manifest
import PrismaBuild.Publication

namespace PrismaBuild.Decomposition

open Contract

variable {F : Type} [FloatFormat F]

/-- A record that can be written in canonical form, as a receipt read back from the store can. -/
abbrev Record (F : Type) [FloatFormat F] := { v : Json F // v.printable = true }

/-- What `_read_child_result_document` gives for one child: no receipt, a native failure, or the
receipt and the decoded value of its result. -/
inductive ChildDocument (F : Type) [FloatFormat F]
  | absent
  | unreadable
  | stored (receipt : Record F) (value : Json F)

structure Child (F : Type) [FloatFormat F] where
  actionKey : Name
  params : Json F
  document : ChildDocument F

def logicalBatchParam : Name := "logical_batch"

def logicalBatchSchema : Name := "prismabuild.logical_batch.v1"

inductive GroupError
  | contract (e : Error)
  | unreadable
  | childCount (batches children : Nat)
  | otherIndex
  | otherMembership (ordinal : Nat)
  | missingChildResult (ordinal count : Nat)
  | otherOrdinal (ordinal reported : Nat)
  | cover (e : CoverError)
  | otherReceipt

structure ChildResult (F : Type) [FloatFormat F] where
  receipt : Record F
  manifest : Manifest

def Child.logicalBatch (c : Child F) : Option (List (Name × Json F)) :=
  match c.params with
  | .obj params =>
    match Json.get? params logicalBatchParam with
    | some (.obj batch) => some batch
    | _ => none
  | _ => none

def taskNames : List (Json F) → Option (List Name)
  | [] => some []
  | .str s :: rest => (taskNames rest).map (s :: ·)
  | _ :: _ => none

def sorted (names : List Name) : List Name := names.insertionSort fun a b => nameLe a b = true

def sameTasks (reported tasks : List Name) : Bool :=
  sorted reported == sorted tasks && reported.dedup.length == tasks.length

variable [HashFunction]

/-- The tests of `child_result` on a manifest and the child's own membership. -/
def carriesMembership (key : Name) (batch : List (Name × Json F)) (plan publication : Json F)
    (m : Manifest) : Bool :=
  (entry batch "parent_key").pyEq (.str m.parentKey.1) && (entry batch "plan_key").pyEq
    (.str m.planKey.1) &&
    !key.isEmpty &&
    match entry batch "child_ordinal", entry batch "ordered_task_ids" with
    | .int ordinal, .arr (first :: more) =>
      (m.childOrdinal : Int) == ordinal &&
        match taskNames (first :: more), validatePlan plan with
        | some tasks, .ok checked =>
          match validatePublicationIndex (some checked) publication with
          | .ok index =>
            m.parentKey.1 == checked.parentKey.1 && m.planKey.1 == checked.planKey.1 &&
              (index.childActionKeys[m.childOrdinal]?.map Subtype.val) == some key &&
              checked.ids[m.childOrdinal]? == some tasks && sameTasks (m.results.map Reported.id)
                tasks
          | .error _ => false
        | _, _ => false
    | _, _ => false

def childResult (c : Child F) (key : Name) (plan publication : Json F) :
    Except GroupError (Option (ChildResult F)) :=
  match c.document with
  | .absent => .ok none
  | .unreadable => .error .unreadable
  | .stored receipt value => do
    let m ← (validateChildResultManifest value).mapError .contract
    match c.logicalBatch with
    | none => pure none
    | some batch =>
      pure (if carriesMembership key batch plan publication m then some ⟨receipt, m⟩ else none)

structure PreparedBatches where
  (rosterSha256 batchPolicySha256 : Text sha256Text)

/-- `PreparedBatches.__init__`. -/
def prepareBatches (r : LogicalRequest F) : Checked PreparedBatches := do
  let roster ← canonicalSha256 r.roster.toJson
  let policy ← canonicalSha256 r.batchPolicy.toJson
  pure ⟨roster, policy⟩

def membershipFields (b : PreparedBatches) (plan : Plan F) (ordinal : Nat)
    (batch : List (Text idText)) : List (Name × Json F) :=
  [("batch_policy_sha256", .str b.batchPolicySha256.1), ("child_ordinal", .int ordinal),
    ("ordered_task_ids", batchJson batch), ("parent_key", .str plan.parentKey.1),
    ("plan_key", .str plan.planKey.1),
    ("roster_sha256", .str b.rosterSha256.1), ("schema", .str logicalBatchSchema)]

def PreparedBatches.membership (b : PreparedBatches) (plan : Plan F) (ordinal : Nat) :
    Checked (Json F) :=
  match plan.partitions.1[ordinal]? with
  | none => fail [] "child ordinal is outside the frozen plan"
  | some batch => .ok (.obj (membershipFields b plan ordinal batch))

/-- One turn of the loop of `complete_group`: the child's manifest and its evidence. -/
def groupChild (b : PreparedBatches) (plan : Plan F) (count ordinal : Nat) (c : Child F) :
    Except GroupError (Json F × Json F) := do
  let expected ← (b.membership plan ordinal).mapError .contract
  match c.params with
  | .obj params =>
    if (entry params logicalBatchParam).pyEq expected = false then .error (.otherMembership ordinal)
    else
      match c.document with
      | .absent => .error (.missingChildResult ordinal count)
      | .unreadable => .error .unreadable
      | .stored _ .null => .error (.missingChildResult ordinal count)
      | .stored receipt value => do
        let m ← (validateChildResultManifest value).mapError .contract
        if m.childOrdinal ≠ ordinal then .error (.otherOrdinal ordinal m.childOrdinal)
        else do
          let raw ← (canonicalFileBytes receipt.1).mapError .contract
          pure (value, .obj [("action_key", .str c.actionKey),
            ("receipt_sha256", .str (HashFunction.digest raw).1)])
  | _ => .error (.otherMembership ordinal)

def groupChildren (b : PreparedBatches) (plan : Plan F) (count ordinal : Nat) :
    List (Child F) → Except GroupError (List (Json F × Json F))
  | [] => .ok []
  | c :: rest => do
    let first ← groupChild b plan count ordinal c
    let rest ← groupChildren b plan count (ordinal + 1) rest
    pure (first :: rest)

def groupSchema : Name := "prismabuild.group_receipt.v1"

def GroupReceipt.toJson (r : GroupReceipt) (children : List (Json F)) : Json F :=
  .obj [("child_count", .int r.childCount), ("children", .arr children),
    ("merged_result_sha256", .str r.mergedResultSha256.1), ("parent_key", .str r.parentKey.1),
    ("plan_key", .str r.planKey.1), ("schema", .str groupSchema), ("task_count", .int r.taskCount)]

/-- `_publish_group_receipt`, with the record already stored if there is one. -/
def publishGroupReceipt (stored : Option (Json F)) (receipt : Json F) :
    Except GroupError (Json F) := do
  let raw ← (canonicalFileBytes receipt).mapError .contract
  match stored with
  | none => pure receipt
  | some other => do
    let present ← (canonicalFileBytes other).mapError .contract
    if present ≠ raw then .error .otherReceipt else pure receipt

def LogicalRequest.rows (r : LogicalRequest F) : List RosterRow :=
    r.roster.tasks.map fun t => ⟨t.id.1, t.outputId.1⟩

/-- The test of `complete_group` on the stored publication index. -/
def matchesIndex (plan : Plan F) (children : List (Child F)) (fields : List (Name × Json F)) :
    Bool :=
  (entry fields "parent_key").pyEq (.str plan.parentKey.1) && (entry fields "plan_key").pyEq
    (.str plan.planKey.1) &&
    (entry fields "child_action_keys").pyEq (.arr (children.map fun c => .str c.actionKey))

/-- `complete_group`, with the publication index and the group receipt as they are stored. -/
def completeGroup (r : LogicalRequest F) (plan : Plan F) (children : List (Child F))
    (publication group : Option (Json F)) : Except GroupError (Json F) :=
  if children.length ≠ plan.partitions.1.length then
    .error (.childCount plan.partitions.1.length children.length)
  else
    match publication with
    | some (.obj fields) =>
      if matchesIndex plan children fields = false then .error .otherIndex
      else do
        let _ ← (validatePublicationIndex (some plan) (.obj fields)).mapError .contract
        let b ← (prepareBatches r).mapError .contract
        let found ← groupChildren b plan children.length 0 children
        let receipt ← (verifyExactCover r.rows plan (found.map Prod.fst)).mapError .cover
        publishGroupReceipt group (receipt.toJson (found.map Prod.snd))
    | _ => .error .otherIndex

end PrismaBuild.Decomposition
