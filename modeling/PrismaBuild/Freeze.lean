import PrismaBuild.Concurrent
import PrismaBuild.Publication

namespace PrismaBuild.Decomposition

open Contract

/-- `json.loads`, as far as the records need it: it reads back what `document_bytes` wrote. -/
class JsonLoads (F : Type) [FloatFormat F] where
  loads : ByteArray → Option (Document F)
  loads_documentBytes : ∀ {d : Document F} {raw : ByteArray}, canonicalFileBytes d.1 = .ok raw →
    loads raw = some d

inductive RecordFile
  | plan
  | publication
  deriving DecidableEq

structure RecordPath where
  parentKey : Text sha256Text
  file : RecordFile
  deriving DecidableEq

abbrev Records := RecordPath → Option ByteArray

inductive RecordOp
  | read (path : RecordPath)
  | publishImmutable (path : RecordPath) (raw : ByteArray)

inductive ReadAnswer
  | missing
  | failed
  | bytes (raw : ByteArray)

abbrev RecordAnswer : RecordOp → Type
  | .read _ => ReadAnswer
  | .publishImmutable _ _ => Bool

/-- The records directory. A fault makes a read fail; publishing is one atomic create-if-absent. -/
def recordsWorld : World RecordOp RecordAnswer Bool Records where
  step _
    | .read path, fault, s =>
      if fault then some (.failed, s)
      else
        match s path with
        | none => some (.missing, s)
        | some raw => some (.bytes raw, s)
    | .publishImmutable path raw, _, s =>
      match s path with
      | none => some (true, Function.update s path (some raw))
      | some _ => some (false, s)
  exit _ s := s

variable {F : Type} [FloatFormat F] [HashFunction]

inductive RecordError
  | contract (e : Error)
  | build (e : BuildError)
  | unreadable (path : RecordPath)
  | notJson (path : RecordPath)
  | otherParent (path : RecordPath) (parentKey : Text sha256Text)
  | otherChildren (path : RecordPath)

inductive Frozen (F : Type) [FloatFormat F] [HashFunction]
  | plan (p : Plan F)
  | published

abbrev RecordProg (α : Type) := Prog RecordOp RecordAnswer (Except RecordError α)

def storedRecord [JsonLoads F] (path : RecordPath) : RecordProg (Option (Document F)) :=
  .call (.read path) fun
    | .missing => .ret (.ok none)
    | .failed => .ret (.error (.unreadable path))
    | .bytes raw =>
      match JsonLoads.loads raw with
      | none => .ret (.error (.notJson path))
      | some d => .ret (.ok (some d))

/-- The end of `freeze_plan`: adopt the plan that is stored. -/
def adoptPlan (key : Text sha256Text) (stored : Option (Document F)) :
    Except RecordError (Frozen F) := do
  let plan ← (validatePlan ((stored.map Subtype.val).getD .null)).mapError .contract
  if plan.parentKey.1 ≠ key.1 then .error (.otherParent ⟨key, .plan⟩ plan.parentKey)
  else .ok (.plan plan)

/-- `freeze_plan`, by a submitter whose own batcher derives `derived`. -/
def freezePlan [JsonLoads F] (key : Text sha256Text) (derived : Except BuildError (Plan F)) :
    RecordProg (Frozen F) :=
  (storedRecord ⟨key, .plan⟩).andThen fun
    | some d => .ret (adoptPlan key (some d))
    | none =>
      match derived with
      | .error e => .ret (.error (.build e))
      | .ok plan =>
        match canonicalFileBytes plan.toJson with
        | .error e => .ret (.error (.contract e))
        | .ok raw =>
          .call (.publishImmutable ⟨key, .plan⟩ raw) fun
            | true => .ret (.ok (.plan plan))
            | false => (storedRecord ⟨key, .plan⟩).andThen fun stored => .ret (adoptPlan key stored)

/-- The end of `publish_children`: the stored index has to be this one. -/
def sameChildren (path : RecordPath) (raw : ByteArray) (stored : Option (Document F)) :
    Except RecordError (Frozen F) := do
  let present ← (canonicalFileBytes ((stored.map Subtype.val).getD .null)).mapError .contract
  if present ≠ raw then .error (.otherChildren path) else .ok .published

def publishChildren [JsonLoads F] (plan : Plan F) (digests keys : List (Json F)) :
    RecordProg (Frozen F) :=
  match publicationIndex plan digests keys with
  | .error e => .ret (.error (.contract e))
  | .ok index =>
    match canonicalFileBytes index with
    | .error e => .ret (.error (.contract e))
    | .ok raw =>
      (storedRecord ⟨plan.parentKey, .publication⟩).andThen fun
        | some d => .ret (sameChildren ⟨plan.parentKey, .publication⟩ raw (some d))
        | none =>
          .call (.publishImmutable ⟨plan.parentKey, .publication⟩ raw) fun
            | true => .ret (.ok .published)
            | false => (storedRecord ⟨plan.parentKey, .publication⟩).andThen fun stored =>
                .ret (sameChildren ⟨plan.parentKey, .publication⟩ raw stored)

inductive RecordCall (F : Type) [FloatFormat F] [HashFunction]
  | freezePlan (key : Text sha256Text) (derived : Except BuildError (Plan F))
  | publishChildren (plan : Plan F) (digests keys : List (Json F))

def RecordCall.prog [JsonLoads F] : RecordCall F → RecordProg (Frozen F)
  | .freezePlan key derived => Decomposition.freezePlan key derived
  | .publishChildren plan digests keys => Decomposition.publishChildren plan digests keys

end PrismaBuild.Decomposition
