import PrismaBuild.Json
import PrismaBuild.Weight
import PrismaBuild.Trace

namespace PrismaBuild.Batch

open List Option

inductive ArtifactClass
  | payload
  | checkpoint
  | temp
  deriving DecidableEq

def ArtifactClass.text : ArtifactClass → String
  | .payload => "payload"
  | .checkpoint => "checkpoint"
  | .temp => "temp"

def classes : List ArtifactClass := [.payload, .checkpoint, .temp]

structure ClassBytes where
  (payload checkpoint temp : Nat)
  deriving DecidableEq

def ClassBytes.get (b : ClassBytes) : ArtifactClass → Nat
  | .payload => b.payload
  | .checkpoint => b.checkpoint
  | .temp => b.temp

inductive Lifetime
  | retain
  | consumed
  deriving DecidableEq

structure Attempt where
  (nonce scopeId : Name)
  deriving DecidableEq

structure Instance where
  ownerActionKey : Name
  ownerAttempt : Attempt

structure Template where
  sha256 : Name
  permittedTiers : List Name
  slots : AList fun _ : Name => ArtifactClass
  maxima : ClassBytes
  writeOnly : Bool

structure Descriptor where
  slot : Name
  artifactClass : ArtifactClass
  path : Name
  bytes : Int
  sha256 : Option Name
  (producerGeneration ownerActionKey : Name)
  ownerAttempt : Attempt
  deriving DecidableEq

/-- `output_manifest_sha256`. -/
class ManifestDigest where
  outputManifestSha256 : List Descriptor → Name

export ManifestDigest (outputManifestSha256)

/-- The record of a write that may happen: who reserved it, its ceilings and its planned paths. -/
structure Prewrite where
  tier : Name
  classBytes : ClassBytes
  paths : List Name
  ownerActionKey : Name
  ownerAttempt : Attempt
  deriving DecidableEq

/-- The immutable record of a batch without its commit time and without what every record of the
instance shares. -/
structure BatchRecord where
  (manifestDigest tier : Name)
  classBytes : ClassBytes
  (totalBytes entryCount : Nat)
  entries : List Descriptor
  originIdentity : List (Name × Nat)
  lifetime : Lifetime
  deriving DecidableEq

/-- The commitments entry of a batch that was committed at its origin. -/
structure Entry where
  (manifestDigest tier : Name)
  classBytes : ClassBytes
  paths : List Name
  lifetime : Lifetime
  originReclaimed : Bool
  deriving DecidableEq

structure Ledger where
  admitted : Bool
  batches : AList fun _ : Name => Entry
  prewrites : AList fun _ : Name => Prewrite
  records : AList fun _ : Name => BatchRecord

def Ledger.admission : Ledger := ⟨true, ∅, ∅, ∅⟩

inductive FileState
  | absent
  | unstatable (message : String)
  | present (size : Nat) (identity : Nat)

/-- A funding intent of the pool as far as `abort` looks at it. -/
structure Intent where
  (batchId tierId templateSha256 ownerNonce ownerScopeId moverActionKey state : Name)

inductive Publishing
  | works
  | raises (message : String) (landed : Bool)

/-- Where a commit dies: with the batch record filed, or with the commitments filed too. -/
inductive Death
  | afterRecord
  | afterEntry
  deriving DecidableEq

/-- What a call meets outside the records of its instance. A message says why something could not be
read or done. -/
structure Surroundings where
  bound : Bool
  contained : Name → Bool
  (locks liveOwner commitments prewrites batchRecord : Option String)
  foreignOwner : Except String (Option Name)
  disk : Name → FileState
  census : Except String (List Intent × Bool)
  publishing : Publishing
  (filing unlinking : Option String)
  death : Option Death

/-- The identities a spool's receipt gives: their paths, whether a read before the locks finds other
bytes, and whether under the locks each origin is the landed copy. -/
structure Landed where
  paths : List Name
  (otherBytes sameCopy : Bool)

inductive Stop
  | refused (refusal : String) (details : List (String × Name))
  | raised (message : String)

def refuse {α : Type} (refusal : String) : Except Stop α := .error (.refused refusal [])

def demand (c : Prop) [Decidable c] (stop : Stop) : Except Stop Unit :=
    if c then .ok () else .error stop

variable {c : Prop} {stop : Stop}

theorem demand_ok [Decidable c] {u : Unit} : demand c stop = .ok u ↔ c := by
  unfold demand
  split
  next hc => exact ⟨fun _ => hc, fun _ => rfl⟩
  next hc => exact ⟨nofun, fun h => absurd h hc⟩

theorem demand_of [Decidable c] (h : c) : demand c stop = .ok () := if_pos h

def proceed (tag : String) : Option String → Except Stop Unit
  | none => .ok ()
  | some message => refuse (tag ++ message)

inductive Answer
  | stopped (stop : Stop)
  | reserved (batchId : Name) (classBytes : ClassBytes) (paths : List Name) (duplicate : Bool)
  | committed (batchId : Name) (record : BatchRecord)
  | duplicate (batchId : Name) (manifestDigest : Name)
  | aborted (batchId : Name) (aborted : Bool)
  | reclaimed (batchId : Name) (reclaimed : Bool)
  | died

section

def outputName (name : Name) (what : String) : Except Stop Unit :=
  demand (name ≠ [] ∧ '/' ∉ name) (.raised (what ++ " must be a non-empty name with no '/'"))

def normalComponents (rest : Name) : Bool :=
  rest.isEmpty || (rest.splitOn '/').all fun c => !c.isEmpty && c != ['.'] && c != ['.', '.']

/-- Whether an absolute path is its own `os.path.normpath`, which keeps two leading slashes. -/
def isNormal : Name → Bool
  | '/' :: '/' :: rest => normalComponents rest
  | '/' :: rest => normalComponents rest
  | _ => false

def absoluteOutputPath (path : Name) (what : String) : Except Stop Unit := do
  demand (path.head? = some '/') (.raised (what ++ " must be an absolute path"))
  demand (isNormal path = true) (.raised (what ++ " must be normalized"))

def outputPath (w : Surroundings) (what : String) (path : Name) : Except Stop Unit := do
  absoluteOutputPath path what
  demand (w.contained path = true) (.raised (what ++ " escapes the output prefix"))

def hexDigest (s : Name) : Bool :=
    s.length == 64 && s.all fun c => c.isDigit || decide (c ∈ "abcdef".toList)

def validateDescriptor (t : Template) (i : Instance) (w : Surroundings) (d : Descriptor) :
    Except Stop Unit := do
  outputName d.slot "descriptor slot"
  demand (t.slots.lookup d.slot ≠ none)
    (.raised "descriptor slot is not in the template's authorized slots")
  demand (t.slots.lookup d.slot = some d.artifactClass)
    (.raised "descriptor class disagrees with its slot")
  outputPath w "descriptor path" d.path
  demand (0 < d.bytes) (.raised "descriptor bytes must be a positive integer")
  demand (∀ digest ∈ d.sha256, hexDigest digest = true)
    (.raised "descriptor sha256 must be 64 lowercase hex")
  demand (d.producerGeneration ≠ [] ∧ '/' ∉ d.producerGeneration)
    (.raised "descriptor producer_generation must be a non-empty name")
  demand (d.ownerActionKey = i.ownerActionKey)
    (.raised "descriptor owner must equal the instance owner")
  demand (d.ownerAttempt = i.ownerAttempt)
    (.raised "descriptor attempt must equal the instance attempt")
  demand (d.bytes ≤ t.maxima.get d.artifactClass)
    (.raised ("descriptor bytes exceed the " ++ d.artifactClass.text ++ " durable maxima"))

def classTotal (descriptors : List Descriptor) (c : ArtifactClass) : Nat :=
  (descriptors.map fun d => if d.artifactClass = c then d.bytes.toNat else 0).sum

def classBytesOf (descriptors : List Descriptor) : ClassBytes :=
  ⟨classTotal descriptors .payload, classTotal descriptors .checkpoint,
    classTotal descriptors .temp⟩

theorem classBytesOf_get (descriptors : List Descriptor) (c : ArtifactClass) :
    (classBytesOf descriptors).get c = classTotal descriptors c := by
  cases c <;> rfl

end

section

/-- `_class_sums`: a committed batch is charged until its origin is reclaimed. -/
def classSums (batches : AList fun _ : Name => Entry) (c : ArtifactClass) : Nat :=
  weight (fun _ e => if e.originReclaimed then 0 else e.classBytes.get c) batches

/-- `_outstanding_sums`: the charge of the batches and of every prewrite but the caller's own. -/
def outstandingSums (s : Ledger) (exclude : Name) (c : ArtifactClass) : Nat :=
  classSums s.batches c + weight (fun id p => if id = exclude then 0 else p.classBytes.get c)
    s.prewrites

def exceeded (sums : ArtifactClass → Nat) (added maxima : ClassBytes) : Option ArtifactClass :=
  classes.find? fun c => maxima.get c < sums c + added.get c

theorem le_of_exceeded_none {sums : ArtifactClass → Nat} {added maxima : ClassBytes}
    (h : exceeded sums added maxima = none) (c : ArtifactClass) :
    sums c + added.get c ≤ maxima.get c := by
  have hc : c ∈ classes := by cases c <;> decide
  have hn := find?_eq_none.mp h c hc
  simpa using hn

end

section

inductive OwnerKind
  | batch
  | prewrite
  deriving DecidableEq

def OwnerKind.text : OwnerKind → Name
  | .batch => "batch"
  | .prewrite => "prewrite"

structure Owner where
  kind : OwnerKind
  id : Name
  paths : List Name

def prewriteName (id : Name) : Name := id ++ ".prewrite.json".toList

def batchOwner (s : Ledger) (id : Name) : Option Owner :=
  match s.batches.lookup id with
  | none => none
  | some e => if e.originReclaimed then none else some ⟨.batch, id, e.paths⟩

def prewriteOwner (s : Ledger) (id : Name) : Option Owner :=
  (s.prewrites.lookup id).map fun p => ⟨.prewrite, id, p.paths⟩

/-- The live writers in the order in which `own_write_owner` meets them: batches by id, prewrites by
file name. -/
def owners (s : Ledger) (exclude : Name) : List Owner :=
  (sortNames (s.batches.keys.filter (· ≠ exclude))).filterMap (batchOwner s) ++
    ((s.prewrites.keys.filter (· ≠ exclude)).insertionSort fun a b =>
      nameLe (prewriteName a) (prewriteName b)).filterMap (prewriteOwner s)

def ownWriteOwner (s : Ledger) (planned : List Name) (exclude : Name) : Option (Name × Owner) :=
  (sortNames planned).findSome? fun path =>
    ((owners s exclude).find? fun o => decide (path ∈ o.paths)).map fun o => (path, o)

/-- An id whose outstanding prewrite, or whose committed and unreclaimed batch, names a path. -/
inductive Owns (s : Ledger) (id path : Name) : Prop
  | prewrite {p : Prewrite} (filed : s.prewrites.lookup id = some p) (named : path ∈ p.paths)
  | batch {e : Entry} (filed : s.batches.lookup id = some e) (live : e.originReclaimed = false)
    (named : path ∈ e.paths)

variable {exclude id : Name} {s : Ledger}

theorem mem_owners_of_batch {e : Entry} (hid : id ≠ exclude)
    (filed : s.batches.lookup id = some e) (live : e.originReclaimed = false) :
    ⟨.batch, id, e.paths⟩ ∈ owners s exclude := by
  refine mem_append_left _ (mem_filterMap.mpr ⟨id, ?_, ?_⟩)
  · have hk := AList.lookup_isSome.mp (isSome_of_eq_some filed)
    rw [mem_sortNames, mem_filter]
    exact ⟨hk, decide_eq_true hid⟩
  · unfold batchOwner
    rw [filed]
    dsimp only
    rw [live]
    rfl

theorem mem_owners_of_prewrite {p : Prewrite} (hid : id ≠ exclude)
    (filed : s.prewrites.lookup id = some p) : ⟨.prewrite, id, p.paths⟩ ∈ owners s exclude := by
  refine mem_append_right _ (mem_filterMap.mpr ⟨id, ?_, ?_⟩)
  · have hk := AList.lookup_isSome.mp (isSome_of_eq_some filed)
    rw [mem_insertionSort, mem_filter]
    exact ⟨hk, decide_eq_true hid⟩
  · unfold prewriteOwner
    rw [filed]
    rfl

theorem not_owns_of_ownWriteOwner {planned : List Name}
    (h : ownWriteOwner s planned exclude = none) {id path : Name} (hid : id ≠ exclude)
    (hp : path ∈ planned) : ¬ Owns s id path := by
  have hn := findSome?_eq_none_iff.mp h path (mem_sortNames.mpr hp)
  have hf := find?_eq_none.mp (map_eq_none_iff.mp hn)
  intro ho
  cases ho with
  | prewrite filed named => exact hf _ (mem_owners_of_prewrite hid filed) (decide_eq_true named)
  | batch filed live named => exact hf _ (mem_owners_of_batch hid filed live) (decide_eq_true named)

end

variable (t : Template) (i : Instance)

section

def nonnegative (given : AList fun _ : Name => Int) (c : ArtifactClass) : Except Stop Nat :=
  match given.lookup c.text.toList with
  | some n => do
    demand (0 ≤ n) (.raised ("prewrite class_bytes." ++ c.text ++ " must be non-negative"))
    .ok n.toNat
  | none => refuse "prewrite-classes-must-name-all-three"

def plannedBytes (given : AList fun _ : Name => Int) : Except Stop ClassBytes := do
  demand (sortNames given.keys = ["checkpoint".toList, "payload".toList, "temp".toList])
    (.refused "prewrite-classes-must-name-all-three" [])
  let payload ← nonnegative given .payload
  let checkpoint ← nonnegative given .checkpoint
  let temp ← nonnegative given .temp
  .ok ⟨payload, checkpoint, temp⟩

def prewritePaths (w : Surroundings) (paths : List Name) : Except Stop (List Name) := do
  demand (paths ≠ []) (.refused "prewrite-paths-required" [])
  paths.forM (outputPath w "prewrite paths[]")
  demand paths.Nodup (.refused "prewrite-paths-must-be-distinct" [])
  .ok (sortNames paths)

/-- What `reserve` asks under the locks before it files. -/
def checkReservation (s : Ledger) (w : Surroundings) (batchId : Name) (planned : ClassBytes)
    (paths : List Name) :
    Except Stop Unit := do
  proceed "" w.liveOwner
  proceed "unknown-retain: " w.commitments
  proceed "" w.prewrites
  demand (s.admitted = true) (.refused "prewrite-not-admitted" [])
  match exceeded (outstandingSums s batchId) planned t.maxima with
  | some c => .error (.refused ("prewrite-exceeds-" ++ c.text ++ "-maxima") [("class", c.text)])
  | none =>
    match ownWriteOwner s paths batchId with
    | some (path, o) =>
      .error (.refused "prewrite-path-owned-by-live-batch"
        [("path", path), ("owner_kind", o.kind.text), ("owner_batch_id", o.id)])
    | none =>
      match w.foreignOwner with
      | .error message => refuse ("unknown-retain: " ++ message)
      | .ok (some owner) =>
        .error (.refused "prewrite-path-owned-by-live-action" [("owner_action_key", owner)])
      | .ok none => .ok ()

def authorizeReserve (s : Ledger) (w : Surroundings) (batchId tier : Name)
    (given : AList fun _ : Name => Int)
    (paths : List Name) : Except Stop Prewrite := do
  demand (w.bound = true) (.refused "template-mismatch" [])
  outputName batchId "batch_id"
  demand (tier ∈ t.permittedTiers) (.refused "tier-not-permitted" [])
  let planned ← plannedBytes given
  let plannedPaths ← prewritePaths w paths
  proceed "" w.locks
  checkReservation t s w batchId planned plannedPaths
  .ok ⟨tier, planned, plannedPaths, i.ownerActionKey, i.ownerAttempt⟩

/-- The exception of `publish_prewrite`, and the records it leaves. -/
def publishPrewrite (s : Ledger) (w : Surroundings) (batchId : Name) (p : Prewrite) :
    Option String × Ledger :=
  match s.prewrites.lookup batchId, w.publishing with
  | none, .works => (none, { s with prewrites := s.prewrites.insert batchId p })
  | none, .raises message true =>
    (some message, { s with prewrites := s.prewrites.insert batchId p })
  | none, .raises message false => (some message, s)
  | some existing, .works =>
    (if existing = p then none
      else some "produced-output prewrite conflicts with the immutable record already filed", s)
  | some _, .raises message _ => (some message, s)

def sameReservation (existing : Option Prewrite) (p : Prewrite) : Bool :=
  match existing with
  | some e => e.tier == p.tier && e.classBytes == p.classBytes && e.paths == p.paths
  | none => false

def reserve (s : Ledger) (w : Surroundings) (batchId tier : Name)
    (given : AList fun _ : Name => Int)
    (paths : List Name) : Answer × Ledger :=
  match authorizeReserve t i s w batchId tier given paths with
  | .error stop => (.stopped stop, s)
  | .ok p =>
    match publishPrewrite s w batchId p with
    | (none, s') => (.reserved batchId p.classBytes p.paths false, s')
    | (some message, s') =>
      if sameReservation (s'.prewrites.lookup batchId) p then
        (.reserved batchId p.classBytes p.paths true, s')
      else (.stopped (.refused ("prewrite-conflict: " ++ message) []), s')

end

section

variable [ManifestDigest]

/-- `origin_identity_at_commit`: one `lstat` for each descriptor. -/
def originIdentityAtCommit (w : Surroundings) : List Descriptor → Except Stop (List (Name × Nat))
  | [] => .ok []
  | d :: rest =>
    match w.disk d.path with
    | .absent => refuse "descriptor-unstatable: No such file or directory"
    | .unstatable message => refuse ("descriptor-unstatable: " ++ message)
    | .present size identity => do
      demand (d.bytes = size) (.refused "descriptor-size-mismatch" [("path", d.path)])
      let others ← originIdentityAtCommit w rest
      .ok ((d.path, identity) :: others)

def actualWithinCeiling (p : Prewrite) (descriptors : List Descriptor) : Bool :=
  classes.all fun c => classTotal descriptors c ≤ p.classBytes.get c

def plannedOmittedAbsent (w : Surroundings) (p : Prewrite) (descriptors : List Descriptor) : Bool :=
  p.paths.all fun path =>
    descriptors.any (fun d => d.path == path) ||
      match w.disk path with
      | .absent => true
      | _ => false

def prewriteMatches (p : Prewrite) (descriptors : List Descriptor) : Prop :=
  p.tier ∈ t.permittedTiers ∧ actualWithinCeiling p descriptors = true ∧
    (∀ d ∈ descriptors, d.path ∈ p.paths) ∧
    p.ownerActionKey = i.ownerActionKey ∧ p.ownerAttempt = i.ownerAttempt

instance (p : Prewrite) (descriptors : List Descriptor) :
    Decidable (prewriteMatches t i p descriptors) :=
  inferInstanceAs (Decidable (_ ∧ _))

def originRecord (descriptors : List Descriptor) (tier : Name) (originIdentity : List (Name × Nat))
    (lifetime : Lifetime) : BatchRecord :=
  { manifestDigest := outputManifestSha256 descriptors
    tier
    classBytes := classBytesOf descriptors
    totalBytes := classTotal descriptors .payload + classTotal descriptors .checkpoint +
      classTotal descriptors .temp
    entryCount := descriptors.length
    entries := descriptors
    originIdentity
    lifetime }

def originEntry (record : BatchRecord) : Entry :=
  { manifestDigest := record.manifestDigest
    tier := record.tier
    classBytes := record.classBytes
    paths := sortNames (record.entries.map Descriptor.path)
    lifetime := record.lifetime
    originReclaimed := false }

/-- What `commit_origin` asks of a batch id that is not committed. -/
def checkCommit (s : Ledger) (w : Surroundings) (descriptors : List Descriptor) (batchId : Name)
    (originIdentity : List (Name × Nat)) (lifetime : Lifetime) : Except Stop BatchRecord := do
  proceed "" w.liveOwner
  proceed "prewrite-unreadable: " w.prewrites
  match s.prewrites.lookup batchId with
  | none => refuse "prewrite-reservation-missing"
  | some p => do
    demand (prewriteMatches t i p descriptors) (.refused "prewrite-mismatch" [])
    demand (plannedOmittedAbsent w p descriptors = true) (.refused "planned-path-present-retain" [])
    match exceeded (classSums s.batches) (classBytesOf descriptors) t.maxima with
    | some c => refuse ("commit-exceeds-" ++ c.text ++ "-maxima")
    | none => do
      let record := originRecord descriptors p.tier originIdentity lifetime
      demand (∀ filed ∈ s.records.lookup batchId, filed = record)
        (.refused "batch-conflict: produced-output batch conflicts with the immutable record already filed" [])
      .ok record

/-- What a commit goes on to do: finish one that stands, or file the record. -/
inductive Commitment
  | replay (manifestDigest : Name)
  | fresh (record : BatchRecord)

/-- The part of `commit_origin` before the locks. -/
def checkDescriptors (w : Surroundings) (descriptors : List Descriptor) (batchId : Name)
    (landed : Option Landed) :
    Except Stop Unit := do
  demand (w.bound = true) (.refused "template-mismatch" [])
  outputName batchId "batch_id"
  demand (t.writeOnly = true ∨ landed.isSome) (.refused "template-reads-back" [])
  demand (descriptors ≠ []) (.refused "batch-has-no-entries" [])
  descriptors.forM (validateDescriptor t i w)
  demand (∀ d ∈ descriptors, d.sha256 ≠ none) (.refused "origin-batch-needs-sha256" [])
  demand (∀ l ∈ landed, sortNames l.paths = sortNames (descriptors.map Descriptor.path))
    (.refused "origin-is-not-the-landed-copy" [])
  demand (∀ l ∈ landed, l.otherBytes = false) (.refused "origin-is-not-the-landed-copy" [])

def authorizeCommit (s : Ledger) (w : Surroundings) (descriptors : List Descriptor) (batchId : Name)
    (landed : Option Landed) (lifetime : Lifetime) : Except Stop Commitment := do
  checkDescriptors t i w descriptors batchId landed
  proceed "" w.locks
  let originIdentity ← originIdentityAtCommit w descriptors
  demand (∀ l ∈ landed, l.sameCopy = true) (.refused "origin-is-not-the-landed-copy" [])
  proceed "unknown-retain: " w.commitments
  match s.batches.lookup batchId with
  | some existing => do
    demand (existing.manifestDigest = outputManifestSha256 descriptors)
      (.refused "batch-id-in-use" [])
    demand (existing.lifetime = lifetime) (.refused "batch-lifetime-mismatch" [])
    .ok (.replay existing.manifestDigest)
  | none => do
    let record ← checkCommit t i s w descriptors batchId originIdentity lifetime
    .ok (.fresh record)

def Ledger.fileRecord (s : Ledger) (batchId : Name) (record : BatchRecord) : Ledger :=
  { s with records := s.records.insert batchId record }

def Ledger.fileEntry (s : Ledger) (batchId : Name) (e : Entry) : Ledger :=
  { s with batches := s.batches.insert batchId e }

def Ledger.unlinkPrewrite (s : Ledger) (batchId : Name) : Ledger :=
  { s with prewrites := s.prewrites.erase batchId }

def commitOrigin (s : Ledger) (w : Surroundings) (descriptors : List Descriptor) (batchId : Name)
    (landed : Option Landed) (lifetime : Lifetime) : Answer × Ledger :=
  match authorizeCommit t i s w descriptors batchId landed lifetime with
  | .error stop => (.stopped stop, s)
  | .ok (.replay manifestDigest) =>
    if w.death.isSome then (.died, s) else
      (.duplicate batchId manifestDigest, s.unlinkPrewrite batchId)
  | .ok (.fresh record) =>
    let recorded := s.fileRecord batchId record
    let filed := recorded.fileEntry batchId (originEntry record)
    match w.death with
    | some .afterRecord => (.died, recorded)
    | some .afterEntry => (.died, filed)
    | none => (.committed batchId record, filed.unlinkPrewrite batchId)

end

section

def Intent.namesPrewrite (r : Intent) (batchId : Name) (p : Prewrite) : Prop :=
  r.batchId = batchId ∧ r.tierId = p.tier ∧ r.templateSha256 = t.sha256 ∧
    r.ownerNonce = i.ownerAttempt.nonce ∧
    r.ownerScopeId = i.ownerAttempt.scopeId

instance (r : Intent) (batchId : Name) (p : Prewrite) : Decidable (r.namesPrewrite t i batchId p) :=
  inferInstanceAs (Decidable (_ ∧ _))

def requireAbsent (w : Surroundings) (present : String) : List Name → Except Stop Unit
  | [] => .ok ()
  | path :: rest =>
    match w.disk path with
    | .absent => requireAbsent w present rest
    | .unstatable message => refuse ("unknown-retain: " ++ message)
    | .present _ _ => .error (.refused present [("path", path)])

/-- `abort` up to the unlink: whether there is a prewrite to remove. -/
def authorizeAbort (s : Ledger) (w : Surroundings) (batchId : Name) : Except Stop Bool := do
  demand (w.bound = true) (.refused "template-mismatch" [])
  outputName batchId "batch_id"
  proceed "unknown-retain: " w.commitments
  demand (s.batches.lookup batchId = none) (.refused "batch-committed" [])
  proceed "unknown-retain: " w.prewrites
  match s.prewrites.lookup batchId with
  | none => .ok false
  | some p =>
    match w.census with
    | .error message => refuse ("unknown-retain: " ++ message)
    | .ok (_, true) => refuse "unknown-retain: funding-census"
    | .ok (intents, false) =>
      match intents.find? fun r => decide (r.namesPrewrite t i batchId p) with
      | some r =>
        .error (.refused "prepaid-intent-exists-retain"
          [("mover_action_key", r.moverActionKey), ("intent_state", r.state)])
      | none => do
        requireAbsent w "abort-files-present-retain" p.paths
        proceed "unknown-retain: " w.unlinking
        .ok true

def abort (s : Ledger) (w : Surroundings) (batchId : Name) : Answer × Ledger :=
  match authorizeAbort t i s w batchId with
  | .error stop => (.stopped stop, s)
  | .ok false => (.aborted batchId false, s)
  | .ok true => (.aborted batchId true, s.unlinkPrewrite batchId)

end

section

variable [ManifestDigest]

def Stop.asRefusal : Stop → Stop
  | .refused refusal details => .refused refusal details
  | .raised message => .refused message []

/-- `BatchLedger.open`: the batch record read back and checked against its entry. -/
def openBatch (s : Ledger) (w : Surroundings) (e : Entry) (batchId : Name) :
    Except Stop (List Descriptor) := do
  proceed "unknown-retain: " w.batchRecord
  match s.records.lookup batchId with
  | none => refuse "unknown-retain: batch-record-missing"
  | some filed => do
    demand (filed.manifestDigest = e.manifestDigest)
      (.refused "unknown-retain: batch-record-binding-mismatch" [])
    demand (filed.entries ≠ []) (.refused "unknown-retain: batch-record-no-entries" [])
    filed.entries.forM (validateDescriptor t i w)
    demand (filed.entryCount = filed.entries.length)
      (.refused "unknown-retain: batch-record-count" [])
    demand (classBytesOf filed.entries = e.classBytes)
      (.refused "unknown-retain: batch-record-classes" [])
    demand (classTotal filed.entries .payload + classTotal filed.entries .checkpoint + classTotal
      filed.entries .temp =
      filed.totalBytes) (.refused "unknown-retain: batch-record-total" [])
    demand (outputManifestSha256 filed.entries = filed.manifestDigest)
      (.refused "unknown-retain: batch-record-manifest" [])
    .ok filed.entries

/-- `reclaim` up to the filing: the entry whose origin is proven gone, if it is not reclaimed yet.
-/
def authorizeReclaim (s : Ledger) (w : Surroundings) (batchId : Name) :
    Except Stop (Option Entry) := do
  demand (w.bound = true)
    (.refused "unknown-retain: template-mismatch: instance bound to another template" [])
  outputName batchId "batch_id"
  proceed "unknown-retain: " w.commitments
  match s.batches.lookup batchId with
  | none => refuse "unknown-batch"
  | some e =>
    if e.originReclaimed then .ok none
    else do
      let descriptors ← (openBatch t i s w e batchId).mapError Stop.asRefusal
      requireAbsent w "origin-present-retain" (sortNames (descriptors.map Descriptor.path))
      match w.filing with
      | some message => .error (.raised message)
      | none => .ok (some e)

def reclaim (s : Ledger) (w : Surroundings) (batchId : Name) : Answer × Ledger :=
  match authorizeReclaim t i s w batchId with
  | .error stop => (.stopped stop, s)
  | .ok none => (.reclaimed batchId false, s)
  | .ok (some e) =>
    (.reclaimed batchId true, s.fileEntry batchId { e with originReclaimed := true })

end

section

variable [ManifestDigest]

inductive Call
  | reserve (batchId tier : Name) (classBytes : AList fun _ : Name => Int) (paths : List Name)
  | commitOrigin (descriptors : List Descriptor) (batchId : Name) (landed : Option Landed)
    (lifetime : Lifetime)
  | abort (batchId : Name)
  | reclaim (batchId : Name)

structure Event where
  call : Call
  world : Surroundings

def perform (s : Ledger) (e : Event) : Answer × Ledger :=
  match e.call with
  | .reserve batchId tier classBytes paths => reserve t i s e.world batchId tier classBytes paths
  | .commitOrigin descriptors batchId landed lifetime =>
    commitOrigin t i s e.world descriptors batchId landed lifetime
  | .abort batchId => abort t i s e.world batchId
  | .reclaim batchId => reclaim t i s e.world batchId

def next (s : Ledger) (e : Event) : Ledger := (perform t i s e).2

/-- The records after a sequence of calls on an admitted instance. -/
def batchRun (events : List Event) : Ledger := runTrace (next t i) Ledger.admission events

end

end PrismaBuild.Batch
