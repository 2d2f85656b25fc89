import PrismaBuild.Plan

namespace PrismaBuild.Decomposition

open Contract List

variable {F : Type} [FloatFormat F]

structure Reported where
  (taskId outputId : Text idText)
  valueSha256 : Text sha256Text

abbrev Reported.id (e : Reported) : Name := e.taskId.1

structure Manifest where
  (parentKey planKey : Text sha256Text)
  childOrdinal : Nat
  results : List Reported
  nonempty : results ≠ []

def manifestSchema : Name := "prismabuild.child_result_manifest.v1"

def manifestKeys : List Name := ["child_ordinal", "parent_key", "plan_key", "results", "schema"]

def resultKeys : List Name := ["output_id", "task_id", "value_sha256"]

def manifestPath : Name := "child result manifest"

def manifestResults (index : Nat) : List (Json F) → Checked (List Reported)
  | [] => .ok []
  | j :: rest => do
    let path := item (manifestPath ++ " results".toList) index
    let fields ← exactMapping resultKeys path j
    let taskId ← text idText (field path "task_id") (entry fields "task_id")
    let outputId ← text idText (field path "output_id") (entry fields "output_id")
    let value ← sha256 (field path "value_sha256") (entry fields "value_sha256")
    let rest ← manifestResults (index + 1) rest
    pure (⟨taskId, outputId, value⟩ :: rest)

omit [FloatFormat F] in
theorem manifestResults_ne_nil {index : Nat} {j : Json F} {js : List (Json F)}
    {results : List Reported}
    (h : manifestResults index (j :: js) = .ok results) : results ≠ [] := by
  obtain ⟨fields, -, h1⟩ := bind_ok.mp h
  obtain ⟨taskId, -, h2⟩ := bind_ok.mp h1
  obtain ⟨outputId, -, h3⟩ := bind_ok.mp h2
  obtain ⟨value, -, h4⟩ := bind_ok.mp h3
  obtain ⟨rest, -, he⟩ := bind_ok.mp h4
  cases he
  exact cons_ne_nil _ _

def validateChildResultManifest (j : Json F) : Checked Manifest := do
  let fields ← exactMapping manifestKeys manifestPath j
  if (entry fields "schema").pyEq (.str manifestSchema) = false then
    fail (manifestPath ++ " schema".toList) "must be 'prismabuild.child_result_manifest.v1'"
  else
    match entry fields "results" with
    | .arr [] => fail manifestPath "must carry at least one result"
    | .arr (first :: more) =>
      match h : manifestResults 0 (first :: more) with
      | .error e => .error e
      | .ok results => do
        let parentKey ← sha256 (manifestPath ++ " parent_key".toList) (entry fields "parent_key")
        let planKey ← sha256 (manifestPath ++ " plan_key".toList) (entry fields "plan_key")
        let ordinal ← nonnegativeInteger (manifestPath ++ " child_ordinal".toList)
          (entry fields "child_ordinal")
        pure ⟨parentKey, planKey, ordinal, results, manifestResults_ne_nil h⟩
    | _ => fail (manifestPath ++ " results".toList) "must be an array"

def Reported.fields (e : Reported) : List (Name × Json F) :=
  [("output_id", .str e.outputId.1), ("task_id", .str e.taskId.1),
    ("value_sha256", .str e.valueSha256.1)]

def Manifest.fields (m : Manifest) : List (Name × Json F) :=
  [("child_ordinal", .int m.childOrdinal), ("parent_key", .str m.parentKey.1),
    ("plan_key", .str m.planKey.1),
    ("results", .arr (m.results.map fun e => .obj e.fields)), ("schema", .str manifestSchema)]

def Manifest.toJson (m : Manifest) : Json F := .obj m.fields

theorem resultKeys_sorted : KeysSorted resultKeys := by decide +kernel

theorem manifestKeys_sorted : KeysSorted manifestKeys := by decide +kernel

omit [FloatFormat F] in
theorem manifestResults_fields (index : Nat) (results : List Reported) :
    manifestResults index (results.map fun e => (.obj e.fields : Json F)) = .ok results := by
  induction results generalizing index with
  | nil => rfl
  | cons e results ih =>
    have hk := resultKeys_sorted
    have hke : (e.fields : List (Name × Json F)).map Prod.fst = resultKeys := rfl
    rw [map_cons, manifestResults, exactMapping_obj _ hke]
    simp only [bind, Except.bind, entry_at hk hke (i := 0) rfl, entry_at hk hke (i := 1) rfl,
      entry_at hk hke (i := 2) rfl, text_str, sha256, ih]
    rfl

theorem validateChildResultManifest_toJson (m : Manifest) :
    validateChildResultManifest (m.toJson : Json F) = .ok m := by
  have hk := manifestKeys_sorted
  have hke : (m.fields : List (Name × Json F)).map Prod.fst = manifestKeys := rfl
  obtain ⟨parentKey, planKey, ordinal, results, hne⟩ := m
  obtain ⟨first, more, rfl⟩ := exists_cons_of_ne_nil hne
  have hr := manifestResults_fields (F := F) 0 (first :: more)
  rw [map_cons] at hr
  rw [validateChildResultManifest, Manifest.toJson, exactMapping_obj _ hke]
  simp only [bind, Except.bind, entry_at hk hke (i := 4) rfl, entry_at hk hke (i := 3) rfl,
    map_cons,
    entry_at hk hke (i := 2) rfl, entry_at hk hke (i := 1) rfl, entry_at hk hke (i := 0) rfl,
    pyEq_str_self, if_false,
    text_str, sha256, nonnegativeInteger_int]
  split
  next h =>
    rw [hr] at h
    cases h
  next h =>
    rw [hr] at h
    cases h
    rfl

structure RosterRow where
  (id outputId : Name)

/-- Why a set of manifests does not cover a roster. `unknownTask` is the `KeyError` of a batch that
names a task the roster does not have. -/
inductive CoverError
  | contract (e : Error)
  | manifestCount (batches manifests : Nat)
  | ordinalOutside (ordinal batches : Nat)
  | otherParent (ordinal : Nat) (reported expected : Name)
  | otherPlan (ordinal : Nat) (reported expected : Name)
  | ordinalTwice (ordinal : Nat)
  | noManifest (ordinal : Nat)
  | outsideBatch (ordinal : Nat) (task : Name)
  | unknownTask (task : Name)
  | otherOutput (ordinal : Nat) (task reported expected : Name)
  | answeredTwice (task : Name) (first again : Nat)
  | batchUnanswered (ordinal missing size : Nat) (first : Name)
  | rosterUnanswered (missing : Nat) (first : Name)

section

variable [HashFunction]

def checkManifest (plan : Plan F) (j : Json F) : Except CoverError Manifest := do
  let m ← (validateChildResultManifest j).mapError .contract
  if plan.partitions.1.length ≤ m.childOrdinal then
    .error (.ordinalOutside m.childOrdinal plan.partitions.1.length)
  else if m.parentKey.1 ≠ plan.parentKey.1 then
    .error (.otherParent m.childOrdinal m.parentKey.1 plan.parentKey.1)
  else if m.planKey.1 ≠ plan.planKey.1 then
    .error (.otherPlan m.childOrdinal m.planKey.1 plan.planKey.1)
  else .ok m

def checkManifests (plan : Plan F) : List (Json F) → Except CoverError (List Manifest)
  | [] => .ok []
  | j :: rest => do
    let m ← checkManifest plan j
    let rest ← checkManifests plan rest
    pure (m :: rest)

end

def checkOrdinals (seen : List Nat) : List Manifest → Except CoverError Unit
  | [] => .ok ()
  | m :: rest =>
    if m.childOrdinal ∈ seen then .error (.ordinalTwice m.childOrdinal)
    else checkOrdinals (m.childOrdinal :: seen) rest

def byOrdinal (validated : List Manifest) (ordinal : Nat) : Option Manifest :=
  validated.find? fun m => m.childOrdinal == ordinal

/-- The last task of that id, as a dictionary built over the rows has it. -/
def outputByTask (rows : List RosterRow) (task : Name) : Option Name :=
  (rows.reverse.find? fun r => r.id == task).map RosterRow.outputId

abbrev Answered := List (Name × Nat)

def Answered.tasks (answered : Answered) : List Name := answered.map Prod.fst

def answerResults (rows : List RosterRow) (ordinal : Nat) (batch : List Name)
    (answered : Answered) :
    List Reported → Except CoverError Answered
  | [] => .ok answered
  | e :: rest =>
    if e.taskId.1 ∉ batch then .error (.outsideBatch ordinal e.taskId.1)
    else
      match outputByTask rows e.taskId.1 with
      | none => .error (.unknownTask e.taskId.1)
      | some output =>
        if output ≠ e.outputId.1 then .error (.otherOutput ordinal e.taskId.1 e.outputId.1 output)
        else
          match answered.find? fun p => p.1 == e.taskId.1 with
          | some (_, first) => .error (.answeredTwice e.taskId.1 first ordinal)
          | none => answerResults rows ordinal batch (answered ++ [(e.taskId.1, ordinal)]) rest

def answerBatches (rows : List RosterRow) (manifestAt : Nat → Option Manifest) (ordinal : Nat)
    (answered : Answered) :
    List (List Name) → Except CoverError Answered
  | [] => .ok answered
  | batch :: rest =>
    match manifestAt ordinal with
    | none => .error (.noManifest ordinal)
    | some m => do
      let answered ← answerResults rows ordinal batch answered m.results
      match batch.filter fun task => decide (task ∉ answered.tasks) with
      | first :: more => .error (.batchUnanswered ordinal (more.length + 1) batch.length first)
      | [] => answerBatches rows manifestAt (ordinal + 1) answered rest

structure GroupReceipt where
  (parentKey planKey : Text sha256Text)
  (taskCount childCount : Nat)
  mergedResultSha256 : Text sha256Text

def Reported.row (e : Reported) : Json F :=
    .arr [.str e.taskId.1, .str e.outputId.1, .str e.valueSha256.1]

def mergedResults (manifestAt : Nat → Option Manifest) (count : Nat) : List Reported :=
  (List.range count).flatMap fun ordinal => (manifestAt ordinal).elim [] Manifest.results

variable [HashFunction]

def Plan.ids (plan : Plan F) : List (List Name) :=
    plan.partitions.1.map fun batch => batch.map Subtype.val

/-- The part of `verify_exact_cover` after the manifests are in a dictionary by ordinal. -/
def coverReceipt (rows : List RosterRow) (plan : Plan F) (manifestAt : Nat → Option Manifest) :
    Except CoverError GroupReceipt := do
  let answered ← answerBatches rows manifestAt 0 [] plan.ids
  match rows.filter fun r => decide (r.id ∉ answered.tasks) with
  | first :: more => .error (.rosterUnanswered (more.length + 1) first.id)
  | [] => do
    let merged ← (canonicalSha256 (.arr
      ((mergedResults manifestAt plan.ids.length).map Reported.row) : Json F)).mapError .contract
    pure ⟨plan.parentKey, plan.planKey, rows.length, plan.ids.length, merged⟩

def verifyExactCover (rows : List RosterRow) (plan : Plan F) (manifests : List (Json F)) :
    Except CoverError GroupReceipt :=
  if manifests.length ≠ plan.partitions.1.length then
    .error (.manifestCount plan.partitions.1.length manifests.length)
  else do
    let validated ← checkManifests plan manifests
    let _ ← checkOrdinals [] validated
    coverReceipt rows plan (byOrdinal validated)

end PrismaBuild.Decomposition
