import PrismaBuild.Contract
import PrismaBuild.Trace
import PrismaBuild.Chain

namespace PrismaBuild.ActionEdges

open Contract

/-- A pending id or an action key, past `_hex64`. -/
abbrev SubmissionId := Text sha256Text

def short (id : SubmissionId) : String := String.ofList (id.1.take 12)

inductive ProducerKind
  | key
  | pending
  deriving DecidableEq

structure Supersession where
  new : SubmissionId
  newKind : ProducerKind
  deriving DecidableEq

/-- A release record: the key it pins, and the rest of the resolution. -/
structure Release (Body : Type) where
  actionKey : SubmissionId
  pinned : Body
  deriving DecidableEq

structure Publication where
  actionKey : SubmissionId
  publishedUnix : Int
  deriving DecidableEq

inductive QueueState
  | claimed
  | ready
  | done
  | failed
  | withdrawn
  deriving DecidableEq

def QueueState.text : QueueState → String
  | .claimed => "claimed"
  | .ready => "ready"
  | .done => "done"
  | .failed => "failed"
  | .withdrawn => "withdrawn"

structure RowRecord where
  executed : Bool
  nonce : Name

inductive Standing
  | row (state : QueueState) (record : RowRecord)
  | moving
  | absent
  | unknown

def Standing.text : Standing → String
  | .row state _ => state.text
  | .moving => "moving"
  | .absent => "absent"
  | .unknown => "unknown"

/-- What deferred submissions are made of: the digest of one, and what `validate_deferred` finds wrong with it. -/
class Deferral (Body : Type) where
  pendingId : Body → SubmissionId
  problem : Body → Option String

/-- The records under the queue root, where each key stands, and the one attempt of a producer that
holds committed batches of a template. -/
structure Records (Body : Type) where
  deferred : SubmissionId → Option Body
  releases : SubmissionId → Option (Release Body)
  published : SubmissionId → Option Publication
  supersessions : SubmissionId → Option Supersession
  standing : SubmissionId → Standing
  committedAttempt : SubmissionId → Name → Option Name

def Records.empty (Body : Type) : Records Body :=
  ⟨fun _ => none, fun _ => none, fun _ => none, fun _ => none, fun _ => .absent, fun _ _ => none⟩

def maxLinks : Nat := 64

/-- `_file`: the first writer wins, the same record finds itself, and any other is refused. -/
def file {R : Type} [DecidableEq R] (what : String) (filed : SubmissionId → Option R) (id : SubmissionId) (r : R) :
    Except String (SubmissionId → Option R) :=
  match filed id with
  | none => .ok (Function.update filed id (some r))
  | some winner => if winner = r then .ok filed else .error (what ++ " conflicts with the immutable record already filed")

variable {Body : Type} [DecidableEq Body] [Deferral Body] (s : Records Body)

def fileDeferred (body : Body) : Except String (Records Body) := do
  match Deferral.problem body with
  | some problem => .error problem
  | none => return { s with deferred := ← file "deferred submission" s.deferred (Deferral.pendingId body) body }

def fileRelease (pendingId : SubmissionId) (r : Release Body) : Except String (Records Body) := do
  return { s with releases := ← file "deferred release" s.releases pendingId r }

def filePublished (pendingId : SubmissionId) (p : Publication) : Except String (Records Body) := do
  return { s with published := ← file "deferred release publication" s.published pendingId p }

/-- The walk of `check_supersession` along the supersessions of `new`. -/
def refuseLoop (s : Records Body) (old new : SubmissionId) : Nat → List SubmissionId → SubmissionId → Except String Unit
  | 0, _, _ => .ok ()
  | n + 1, seen, current =>
    match s.supersessions current with
    | none => .ok ()
    | some successor =>
      if successor.new = old ∨ successor.new ∈ seen then
        .error (short new ++ " already leads back to " ++ short old ++
          " through supersessions; this link would close a loop")
      else refuseLoop s old new n (successor.new :: seen) successor.new

/-- Whether `old` has ended: an unreleased pending id, or a failed or withdrawn key. -/
def refuseUnended (old : SubmissionId) : Except String Unit :=
  match s.deferred old with
  | some _ =>
    match s.releases old with
    | some _ => .error (short old ++ " is already released; supersede the key it was released as once that key has failed")
    | none => .ok ()
  | none =>
    match s.standing old with
    | .row .failed _ => .ok ()
    | .row .withdrawn _ => .ok ()
    | other => .error (short old ++ " cannot be superseded: its latest generation is " ++ other.text ++
        ", and only a failed or withdrawn key has ended")

def checkSupersession (old : SubmissionId) (r : Supersession) : Except String Supersession := do
  if old = r.new then .error "a submission cannot supersede itself" else
    refuseUnended s old
    refuseLoop s old r.new maxLinks [r.new] r.new
    match s.supersessions old with
    | none => return r
    | some filed =>
      if filed = r then return r
      else .error ("supersession of " ++ short old ++ " conflicts with the immutable record already filed, which names " ++
        short filed.new)

def fileSupersession (old : SubmissionId) (r : Supersession) : Except String (Records Body) := do
  let record ← checkSupersession s old r
  return { s with supersessions := ← file "supersession" s.supersessions old record }

/-- One link of a chain: the supersession filed, else the key a pending id was published as. -/
def hop (current : SubmissionId) (kind : ProducerKind) : Option (SubmissionId × ProducerKind) :=
  match s.supersessions current with
  | some successor => some (successor.new, successor.newKind)
  | none =>
    match kind with
    | .key => none
    | .pending => (s.published current).map fun p => (p.actionKey, .key)

structure Successor where
  id : SubmissionId
  kind : ProducerKind
  path : List SubmissionId
  deriving DecidableEq

/-- The loop of `successor_of`. -/
def successorLoop (s : Records Body) (old : SubmissionId) :
    Nat → List SubmissionId → List SubmissionId → SubmissionId → ProducerKind → Except String (Option Successor)
  | 0, _, _, _, _ => .error ("the supersessions of " ++ short old ++ " do not end")
  | n + 1, seen, path, current, kind =>
    match hop s current kind with
    | none => .ok (if path = [] then none else some ⟨current, kind, path⟩)
    | some (next, nextKind) =>
      if next ∈ seen then .error ("the supersessions of " ++ short old ++ " lead back to " ++ short next)
      else successorLoop s old n (next :: seen) (path ++ [next]) next nextKind

def successorOf (old : SubmissionId) : Except String (Option Successor) :=
  successorLoop s old maxLinks [old] [] old .key

inductive ProducerState
  | done
  | live
  | pending
  | failed
  | withdrawn
  | noCommittedAttempt
  | absent
  | unknown
  | supersededLoop
  deriving DecidableEq

structure Resolution where
  state : ProducerState
  key : Option SubmissionId
  nonce : Option Name
  path : List SubmissionId

/-- What `resolve_producer` answers for the key a chain ends at. -/
def resolveKey (templateId : Name) (current : SubmissionId) (path : List SubmissionId) : Resolution :=
  match s.standing current with
  | .row .claimed _ | .row .ready _ | .moving => ⟨.live, some current, none, path⟩
  | .row .failed _ => ⟨.failed, some current, none, path⟩
  | .row .withdrawn _ => ⟨.withdrawn, some current, none, path⟩
  | .absent => ⟨.absent, some current, none, path⟩
  | .unknown => ⟨.unknown, some current, none, path⟩
  | .row .done record =>
    if record.executed ∧ record.nonce ≠ [] then ⟨.done, some current, some record.nonce, path⟩
    else
      match s.committedAttempt current templateId with
      | some nonce => ⟨.done, some current, some nonce, path⟩
      | none => ⟨.noCommittedAttempt, some current, none, path⟩

/-- The loop of `resolve_producer`. -/
def resolveLoop (s : Records Body) (templateId : Name) :
    Nat → List SubmissionId → List SubmissionId → SubmissionId → ProducerKind → Resolution
  | 0, _, path, _, _ => ⟨.supersededLoop, none, none, path⟩
  | n + 1, seen, path, current, kind =>
    if current ∈ seen then ⟨.supersededLoop, none, none, path⟩
    else
      match hop s current kind with
      | some (next, nextKind) => resolveLoop s templateId n (current :: seen) (path ++ [current]) next nextKind
      | none =>
        match kind with
        | .pending => ⟨.pending, none, none, path ++ [current]⟩
        | .key => resolveKey s templateId current (path ++ [current])

def resolveProducer (producer : SubmissionId) (kind : ProducerKind) (templateId : Name) : Resolution :=
  resolveLoop s templateId maxLinks [] [] producer kind

/-- The calls that file records, and what the rest of the fleet does to keys and attempts. -/
inductive Call (Body : Type)
  | deferred (body : Body)
  | release (pendingId : SubmissionId) (r : Release Body)
  | published (pendingId : SubmissionId) (p : Publication)
  | supersession (old : SubmissionId) (r : Supersession)
  | fleet (standing : SubmissionId → Standing) (committedAttempt : SubmissionId → Name → Option Name)

def Call.result : Call Body → Except String (Records Body)
  | .deferred body => fileDeferred s body
  | .release pendingId r => fileRelease s pendingId r
  | .published pendingId p => filePublished s pendingId p
  | .supersession old r => fileSupersession s old r
  | .fleet standing committedAttempt => .ok { s with standing, committedAttempt }

def Records.next (c : Call Body) : Records Body :=
  match c.result s with
  | .ok t => t
  | .error _ => s

/-- A release pins a submission that is filed, and the publication after it names the key that was pinned. -/
def Allowed : Call Body → Prop
  | .release pendingId _ => (s.deferred pendingId).isSome
  | .published pendingId p => (s.releases pendingId).map Release.actionKey = some p.actionKey
  | _ => True

instance (s : Records Body) (c : Call Body) : Decidable (Allowed s c) :=
  match c with
  | .release pendingId _ => inferInstanceAs (Decidable ((s.deferred pendingId).isSome = true))
  | .published pendingId p =>
    inferInstanceAs (Decidable ((s.releases pendingId).map Release.actionKey = some p.actionKey))
  | .deferred _ => .isTrue trivial
  | .supersession _ _ => .isTrue trivial
  | .fleet _ _ => .isTrue trivial

/-- What a submission is followed to: its supersession, else the key it was published as. -/
def Records.link (id : SubmissionId) : Option SubmissionId :=
  match s.supersessions id with
  | some successor => some successor.new
  | none => (s.published id).map Publication.actionKey

def Records.successor (id : SubmissionId) : Option SubmissionId :=
  (s.supersessions id).map Supersession.new

end PrismaBuild.ActionEdges
