import PrismaBuild.ActionParams

namespace PrismaBuild.DataManifest

open Contract

structure Entry where
  path : Text plainText
  (offset bytes : Nat)
  sha256 : Option (Text sha256Text)
  positive : 0 < bytes
  deriving DecidableEq

/-- One phase of a read plan: the entries it reads, by position, and the running sum of the bytes read. -/
structure Phase where
  name : Text plainText
  entryIndices : List Nat
  (bytes cumulativeBytes : Nat)
  residentBeforeLaunch : Bool

structure ReadPlan where
  phases : List Phase
  readBytes : Nat

/-- A normalized data manifest; one with a read plan has the second schema. -/
structure Manifest (F : Type) where
  (producedBy annotations : List (Name × Json F))
  mountPrefix : Text plainText
  entries : List Entry
  (entryCount totalBytes : Nat)
  readPlan : Option ReadPlan

def schemaV1 : Name := "prismaquant.prismabuild.data_manifest.v1"
def schemaV2 : Name := "prismaquant.prismabuild.data_manifest.v2"

def maxEntries : Nat := 1000000
def maxReads : Nat := 4000000

def manifestKeys : List Name :=
  ["annotations", "entries", "entry_count", "mount_prefix", "produced_by", "schema", "total_bytes"]

def manifestV2Keys : List Name :=
  ["annotations", "entries", "entry_count", "mount_prefix", "produced_by", "read_plan", "schema", "total_bytes"]

def readPlanKeys : List Name := ["phases", "read_bytes"]
def readPhaseKeys : List Name := ["bytes", "cumulative_bytes", "entry_indices", "name"]
def prelaunchKey : Name := "resident_before_launch"
def entryKeys : List Name := ["bytes", "offset", "path", "sha256"]

def manifestPath : Name := "data manifest"
def entriesPath : Name := "data manifest entries"
def phasesPath : Name := "data manifest read_plan.phases"

section

/-- One component of a path joins those before it: empty and `.` go, `..` takes the last one back. -/
def joinComponent (rooted : Bool) (done : List Name) (comp : Name) : List Name :=
  if comp = [] ∨ comp = ['.'] then done
  else if comp ≠ ['.', '.'] ∨ (rooted = false ∧ done = []) ∨ done.getLast? = some ['.', '.'] then done ++ [comp]
  else done.dropLast

def leadingSlashes (path : Name) : Nat :=
  if ['/', '/', '/'].isPrefixOf path then 1
  else if ['/', '/'].isPrefixOf path then 2
  else if ['/'].isPrefixOf path then 1
  else 0

def normpath (path : Name) : Name :=
  let slashes := leadingSlashes path
  let comps := (path.splitOn '/').foldl (joinComponent (slashes != 0)) []
  let joined := List.replicate slashes '/' ++ ['/'].intercalate comps
  if joined = [] then ['.'] else joined

end

variable {F : Type}

/-- `_manifest_path`: one absolute path inside the declared mount. -/
def checkPath (mount path : Name) (value : Json F) : Checked (Text plainText) := do
  let s ← text plainText path value
  if (mount ++ ['/']).isPrefixOf s.1 = false then fail path ("must be inside " ++ String.ofList mount)
  else if normpath s.1 ≠ s.1 then fail path "must already be normalized"
  else pure s

variable (path : Name)

def checkDigest : Json F → Checked (Option (Text sha256Text))
  | .null => .ok none
  | value => do
    let digest ← sha256 path value
    pure (some digest)

def checkEntry (mount path : Name) (raw : Json F) : Checked Entry := do
  let fields ← exactMapping entryKeys path raw
  let name ← checkPath mount (field path "path") (entry fields "path")
  let offset ← nonnegativeInteger (field path "offset") (entry fields "offset")
  let size ← nonnegativeInteger (field path "bytes") (entry fields "bytes")
  if h : size = 0 then fail (field path "bytes") "must be positive"
  else do
    let digest ← checkDigest (field path "sha256") (entry fields "sha256")
    pure ⟨name, offset, size, digest, Nat.pos_of_ne_zero h⟩

def checkEntries (mount : Name) (index : Nat) (seen : List (Name × Nat)) : List (Json F) → Checked (List Entry)
  | [] => .ok []
  | raw :: rest => do
    let e ← checkEntry mount (item entriesPath index) raw
    if (e.path.1, e.offset) ∈ seen then fail entriesPath "must not repeat a (path, offset)"
    else do
      let more ← checkEntries mount (index + 1) ((e.path.1, e.offset) :: seen) rest
      pure (e :: more)

def sizeAt (entries : List Entry) (ref : Nat) : Nat := (entries[ref]?.map Entry.bytes).getD 0

/-- The references of one phase: positions of entries, none of them twice. -/
def checkRefs (count : Nat) (path : Name) (seen : List Nat) : List (Json F) → Checked (List Nat)
  | [] => .ok []
  | raw :: rest => do
    let ref ← nonnegativeInteger (field path "entry_indices") raw
    if count ≤ ref then fail (field path "entry_indices") "references an absent entry"
    else if ref ∈ seen then fail (field path "entry_indices") "repeats an entry within a phase"
    else do
      let more ← checkRefs count path (ref :: seen) rest
      pure (ref :: more)

/-- The prelaunch declaration of a phase, a literal `true` or nothing, and the phase without it. -/
def takePrelaunch : Json F → Checked (Bool × Json F)
  | .obj fields =>
    match Json.get? fields prelaunchKey with
    | none => .ok (false, .obj fields)
    | some (.bool true) => .ok (true, .obj (fields.filter fun p => p.1 != prelaunchKey))
    | some _ => fail (field path "resident_before_launch") "must be true when present"
  | raw => .ok (false, raw)

def checkPhaseName (names : List Name) (value : Json F) : Checked (Text plainText) := do
  let name ← text plainText (field path "name") value
  if Action.strip name.1 ≠ name.1 ∨ Action.hasNul name.1 = true then
    fail (field path "name") "must match a progress phase name"
  else if name.1 ∈ names then fail "data manifest read phase names" "must be unique"
  else pure name

def arrayItems : Json F → Checked (List (Json F))
  | .arr items => .ok items
  | _ => fail path "must be an array"

/-- One phase: `reads` references and `cumulative` bytes come before it. -/
def checkPhase (entries : List Entry) (path : Name) (names : List Name) (reads cumulative : Nat) (raw : Json F) :
    Checked Phase := do
  let declared ← takePrelaunch path raw
  let fields ← exactMapping readPhaseKeys path declared.2
  let name ← checkPhaseName path names (entry fields "name")
  let indices ← arrayItems (field path "entry_indices") (entry fields "entry_indices")
  if maxReads < reads + indices.length then fail "data manifest read references" "exceed 4000000"
  else do
    let refs ← checkRefs entries.length path [] indices
    let size := (refs.map (sizeAt entries)).sum
    let bytes ← nonnegativeInteger (field path "bytes") (entry fields "bytes")
    if bytes ≠ size then fail (field path "bytes") "disagrees with entry references"
    else do
      let sum ← nonnegativeInteger (field path "cumulative_bytes") (entry fields "cumulative_bytes")
      if sum ≠ cumulative + size then fail (field path "cumulative_bytes") "disagrees with entry references"
      else pure ⟨name, refs, size, cumulative + size, declared.1⟩

def checkPhases (entries : List Entry) (index : Nat) (names : List Name) (reads cumulative : Nat) :
    List (Json F) → Checked (List Phase)
  | [] => .ok []
  | raw :: rest => do
    let phase ← checkPhase entries (item phasesPath index) names reads cumulative raw
    let more ← checkPhases entries (index + 1) (phase.name.1 :: names) (reads + phase.entryIndices.length)
      phase.cumulativeBytes rest
    pure (phase :: more)

def nonEmptyArray : Json F → Checked (List (Json F))
  | .arr (first :: rest) => .ok (first :: rest)
  | _ => fail path "must be a non-empty array"

def objectFields : Json F → Checked (List (Name × Json F))
  | .obj fields => .ok fields
  | _ => fail path "must be an object"

def used (phases : List Phase) : List Nat := (phases.flatMap Phase.entryIndices).dedup

def cumulativeEnd (phases : List Phase) : Nat := (phases.map Phase.bytes).sum

def checkReadPlan (entries : List Entry) (value : Json F) : Checked ReadPlan := do
  let plan ← exactMapping readPlanKeys "data manifest read_plan" value
  let raw ← nonEmptyArray phasesPath (entry plan "phases")
  let phases ← checkPhases entries 0 [] 0 0 raw
  if (used phases).length ≠ entries.length then fail "data manifest read_plan" "must reference every unique entry"
  else do
    let readBytes ← nonnegativeInteger "data manifest read_plan.read_bytes" (entry plan "read_bytes")
    if readBytes ≠ cumulativeEnd phases then fail "data manifest read_plan.read_bytes" "disagrees with phases"
    else pure ⟨phases, cumulativeEnd phases⟩

def schemaIsV2 : Option (Json F) → Checked Bool
  | some (.str s) =>
    if s = schemaV2 then .ok true
    else if s = schemaV1 then .ok false
    else fail "data manifest schema" "must be a supported version"
  | _ => fail "data manifest schema" "must be a supported version"

def checkMount (value : Json F) : Checked (Text plainText) := do
  let mount ← text plainText "data manifest mount_prefix" value
  if ['/'].isPrefixOf mount.1 = false ∨ mount.1 ≠ normpath mount.1 then
    fail "data manifest mount_prefix" "must be a normalized absolute path"
  else if mount.1 = ['/'] then fail "data manifest mount_prefix" "must name a mount, not the root"
  else pure mount

/-- The read plan of a manifest of the second schema; one of the first has none. -/
def checkPlanOf (v2 : Bool) (entries : List Entry) (annotations manifest : List (Name × Json F)) :
    Checked (Option ReadPlan) :=
  if v2 = false then .ok none
  else if (Json.get? annotations "phases").isSome then
    fail "data manifest v2" "uses read_plan, not annotations.phases"
  else do
    let plan ← checkReadPlan entries (entry manifest "read_plan")
    pure (some plan)

def validateDataManifest : Json F → Checked (Manifest F)
  | .obj value => do
    let v2 ← schemaIsV2 (Json.get? value "schema")
    let manifest ← exactMapping (if v2 then manifestV2Keys else manifestKeys) manifestPath (.obj value)
    let producedBy ← objectFields "data manifest produced_by" (entry manifest "produced_by")
    let annotations ← objectFields "data manifest annotations" (entry manifest "annotations")
    let mount ← checkMount (entry manifest "mount_prefix")
    let raw ← nonEmptyArray entriesPath (entry manifest "entries")
    if maxEntries < raw.length then fail entriesPath "exceed 1000000"
    else do
      let entries ← checkEntries mount.1 0 [] raw
      let count ← nonnegativeInteger "data manifest entry_count" (entry manifest "entry_count")
      if count ≠ entries.length then fail "data manifest entry_count" "disagrees with entries"
      else do
        let total ← nonnegativeInteger "data manifest total_bytes" (entry manifest "total_bytes")
        if total ≠ (entries.map Entry.bytes).sum then fail "data manifest total_bytes" "disagrees with entries"
        else do
          let plan ← checkPlanOf v2 entries annotations manifest
          pure ⟨producedBy, annotations, mount, entries, entries.length, (entries.map Entry.bytes).sum, plan⟩
  | _ => fail manifestPath "must be an object"

section

def Entry.toJson (e : Entry) : Json F :=
  .obj [("bytes", .int e.bytes), ("offset", .int e.offset), ("path", .str e.path.1),
    ("sha256", match e.sha256 with
      | none => .null
      | some digest => .str digest.1)]

def Phase.toJson (p : Phase) : Json F :=
  .obj (("bytes", .int p.bytes) :: ("cumulative_bytes", .int p.cumulativeBytes) ::
    ("entry_indices", .arr (p.entryIndices.map fun i : Nat => .int i)) :: ("name", .str p.name.1) ::
    if p.residentBeforeLaunch then [(prelaunchKey, .bool true)] else [])

def ReadPlan.toJson (plan : ReadPlan) : Json F :=
  .obj [("phases", .arr (plan.phases.map Phase.toJson)), ("read_bytes", .int plan.readBytes)]

/-- The object that `validate_data_manifest` returns. -/
def Manifest.fields (m : Manifest F) : List (Name × Json F) :=
  ("annotations", .obj m.annotations) :: ("entries", .arr (m.entries.map Entry.toJson)) ::
    ("entry_count", .int m.entryCount) :: ("mount_prefix", .str m.mountPrefix.1) :: ("produced_by", .obj m.producedBy) ::
    match m.readPlan with
    | none => [("schema", .str schemaV1), ("total_bytes", .int m.totalBytes)]
    | some plan => [("read_plan", plan.toJson), ("schema", .str schemaV2), ("total_bytes", .int m.totalBytes)]

end

end PrismaBuild.DataManifest
