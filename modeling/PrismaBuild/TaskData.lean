import PrismaBuild.DataManifest
import PrismaBuild.Roster

namespace PrismaBuild.Decomposition

open Contract DataManifest

variable {F : Type} [FloatFormat F]

inductive RamPolicy
  | auto
  | off
  deriving DecidableEq

/-- A task data policy that passed its check. The reader's declaration is optional. -/
structure TaskDataPolicy where
  payloadField : Text idText
  mountPrefix : Text plainText
  residencyTier : Option (Text plainText)
  residencyRam : RamPolicy
  (moverReaders moverMemGb : Nat)
  (prefetchDepthGib readMbS : Option Nat)

def taskDataSchema : Name := "prismabuild.task_data_manifest.v1"

/-- The keys of a policy that declares these of the reader's keys. -/
def taskDataKeys (fields : List (Name × Json F)) : List Name :=
  let reader : List Name := ["prefetch_depth_gib", "read_mb_s"]
  let before : List Name := ["mount_prefix", "mover_mem_gb", "mover_readers", "payload_field"]
  let after : List Name := ["residency_ram", "residency_tier", "schema"]
  before ++ reader.filter (fun key => (Json.get? fields key).isSome) ++ after

def checkTier : Json F → Checked (Option (Text plainText))
  | .null => .ok none
  | value => do
    let tier ← text plainText "task data residency tier" value
    pure (some tier)

def checkRamPolicy (value : Json F) : Checked RamPolicy :=
  if value.pyEq (.str "auto") then .ok .auto
  else if value.pyEq (.str "off") then .ok .off
  else fail "task data residency_ram" "must be auto or off"

def manifestV1 (mount : Name) (producedBy annotations : List (Name × Json F)) (entries : List (Json F)) (entryCount : Nat)
    (totalBytes : Int) : Json F :=
  .obj [("annotations", .obj annotations), ("entries", .arr entries), ("entry_count", .int entryCount),
    ("mount_prefix", .str mount), ("produced_by", .obj producedBy), ("schema", .str schemaV1), ("total_bytes", .int totalBytes)]

def readerNumber (key path : Name) (fields : List (Name × Json F)) : Checked (Option Nat) :=
  match Json.get? fields key with
  | none => .ok none
  | some value => do
    let n ← nonnegativeInteger path value
    pure (some n)

def validateTaskDataPolicy : Json F → Checked TaskDataPolicy
  | .obj value => do
    let policy ← exactMapping (taskDataKeys value) "task data manifest policy" (.obj value)
    if (entry policy "schema").pyEq (.str taskDataSchema) = false then
      fail "task data manifest policy schema" "is unsupported"
    else do
      let payloadField ← text idText "task data payload field" (entry policy "payload_field")
      let tier ← checkTier (entry policy "residency_tier")
      let ram ← checkRamPolicy (entry policy "residency_ram")
      let readers ← nonnegativeInteger "task data mover readers" (entry policy "mover_readers")
      let memory ← nonnegativeInteger "task data mover memory" (entry policy "mover_mem_gb")
      if readers < 1 ∨ memory < 1 then fail "task data mover CPU/readers and memory" "must be positive"
      else do
        let mount ← text plainText "task data mount prefix" (entry policy "mount_prefix")
        -- the path and manifest rules are those of the ordinary data contract
        let validation : Json F := .obj [("bytes", .int 1), ("offset", .int 0), ("path", .str (mount.1 ++ "/validation".toList)),
          ("sha256", .null)]
        let _ ← validateDataManifest (manifestV1 mount.1 [] [] [validation] 1 1)
        let depth ← readerNumber "prefetch_depth_gib" "task data prefetch depth" policy
        let rate ← readerNumber "read_mb_s" "task data read rate" policy
        if rate = some 0 then fail "task data read rate" "must be positive"
        else pure ⟨payloadField, mount, tier, ram, readers, memory, depth, rate⟩
  | _ => fail "task data manifest policy" "must be an object"

def expandEntry (mount : Name) : Json F → Json F
  | .obj fields =>
    match Json.get? fields "path" with
    | some (.str path) =>
      if ['/'].isPrefixOf path then .obj fields
      else .obj (fields.map fun p => if p.1 = "path".toList then (p.1, .str (mount ++ '/' :: path)) else p)
    | _ => .obj fields
  | raw => raw

def declaredBytes : Json F → Int
  | .obj fields =>
    match Json.get? fields "bytes" with
    | some (.int n) => n
    | _ => 0
  | _ => 0

/-- The entries one task declares. A task that declares no reads has none. -/
def taskReads (policy : TaskDataPolicy) (task : LogicalTask F) : Checked (List Entry) :=
  match task.payload with
  | .obj payload =>
    match Json.get? payload policy.payloadField.1 with
    | some (.arr []) => .ok []
    | some (.arr reads) => do
      let checked ← validateDataManifest (manifestV1 policy.mountPrefix.1 [] [] (reads.map (expandEntry policy.mountPrefix.1))
        reads.length (reads.map declaredBytes).sum)
      pure checked.entries
    | _ => fail ("task ".toList ++ task.id.1) "needs an explicit declared reads array"
  | _ => fail "task data projection" "needs an object payload"

def identity (e : Entry) : Name × Nat := (e.path.1, e.offset)

def mergeEntries : List Entry → List Entry → Checked (List Entry)
  | entries, [] => .ok entries
  | entries, e :: rest =>
    match entries.find? fun other => identity other = identity e with
    | some other =>
      if other ≠ e then fail "conflicting task reads" "name one physical entry" else mergeEntries entries rest
    | none => mergeEntries (entries ++ [e]) rest

def projectTasks (policy : TaskDataPolicy) : List Entry → List (LogicalTask F) → Checked (List Entry)
  | entries, [] => .ok entries
  | entries, task :: tasks => do
    let reads ← taskReads policy task
    let merged ← mergeEntries entries reads
    projectTasks policy merged tasks

structure Envelope (F : Type) [FloatFormat F] where
  tasks : List (LogicalTask F)
  parentKey : Json F := .null
  planKey : Json F := .null
  childOrdinal : Json F := .null

def Envelope.producedBy (envelope : Envelope F) : List (Name × Json F) :=
  [("child_ordinal", envelope.childOrdinal), ("parent_key", envelope.parentKey), ("plan_key", envelope.planKey),
    ("tool", .str "prismabuild.decomposition")]

def batchPhase (total : Nat) : List (Name × Json F) :=
  [("phases", .arr [.obj [("cumulative_bytes", .int total), ("name", .str "batch")]])]

def taskDataManifest (policy : Json F) (envelope : Envelope F) : Checked (Option (DataManifest.Manifest F)) := do
  let policy ← validateTaskDataPolicy policy
  let entries ← projectTasks policy [] envelope.tasks
  let total := (entries.map Entry.bytes).sum
  if entries = [] then pure none
  else do
    let manifest ← validateDataManifest (manifestV1 policy.mountPrefix.1 envelope.producedBy (batchPhase total)
      (entries.map Entry.toJson) entries.length total)
    pure (some manifest)

end PrismaBuild.Decomposition
