import PrismaBuild.FileStore
import PrismaBuild.NameOrder

namespace PrismaBuild.Withdrawal

open Prog

/-- A finite `published_unix`. Only its equality and order matter. -/
abbrev Generation := Int

/-- The files of one action key that a cancellation reads or writes. Captured and superseded
files carry the fresh part of their name. -/
inductive Path
  | ready
  | claimed
  | done
  | failed
  | marker
  | decision (generation : Generation)
  | capturedMarker (fresh : Nat)
  | capturedReady (fresh : Nat)
  | superseded (fresh : Nat)
  | readySource (fresh : Nat)
  deriving DecidableEq

inductive Origin
  | claimed
  | ready
  deriving DecidableEq

/-- What `withdraw` stamps on a record: its presence is the status `withdrawn`. -/
structure Stamp where
  origin : Option Origin
  (byWhom reason : Name)
  preemptedBy : Option Name
  handoff : Bool
  deriving DecidableEq

/-- A queue record: the generation if `published_unix` is a finite number, the identity of the
claim, and the cancellation. -/
structure Doc where
  generation : Option Generation
  claim : Option Name
  stamp : Option Stamp
  deriving DecidableEq

abbrev Store := FileStore Path Doc
abbrev Op := FileOp Path Doc
abbrev WithdrawalProg := Prog Op FileOp.Answer

def read (p : Path) : WithdrawalProg (Except Failure (Option Doc)) := perform (FileOp.read p : Op)
def create (p : Path) (d : Doc) : WithdrawalProg (Except Failure Bool) :=
    perform (FileOp.create p d : Op)
def replace (p : Path) (d : Doc) : WithdrawalProg (Except Failure Unit) :=
    perform (FileOp.replace p d : Op)
def rename (p q : Path) : WithdrawalProg (Except Failure Unit) := perform (FileOp.rename p q : Op)
def link (p q : Path) : WithdrawalProg (Except Failure Unit) := perform (FileOp.link p q : Op)
def unlink (p : Path) : WithdrawalProg (Except Failure Unit) := perform (FileOp.unlink p : Op)
def list (select : Path → Bool) : WithdrawalProg (Except Failure (List Path)) :=
    perform (FileOp.list select : Op)

def unlinkMissingOk (p : Path) : WithdrawalProg (Except Failure Unit) := do
  match ← unlink p with
  | .error .noent => pure (.ok ())
  | answer => pure answer

def decisionPath (d : Doc) : Option Path := d.generation.map Path.decision

/-- `withdrawal_decision`: the document under a decision address, refused unless it is one. -/
def withdrawalDecision (p : Path) : WithdrawalProg (Except Failure Doc) :=
  (read p).andThen fun
    | some d =>
      if d.stamp.isSome ∧ decisionPath d = some p then pure (.ok d)
      else pure (.error (.contract "invalid withdrawal decision"))
    | none => pure (.error (.contract "invalid withdrawal decision"))

def fileWithdrawalDecision (d : Doc) : WithdrawalProg (Except Failure Doc) :=
  match decisionPath d with
  | none => pure (.ok d)
  | some p => (create p d).andThen fun _ => withdrawalDecision p

/-- The visible marker covers a record of its own generation, and any record when one of the two
has no generation to compare. -/
def markerCovers (d : Doc) : WithdrawalProg (Except Failure (Option Doc)) :=
  (read .marker).andThen fun
    | none => pure (.ok none)
    | some m =>
      match d.generation, m.generation with
      | some mine, some theirs => pure (.ok (if mine = theirs then some m else none))
      | _, _ => pure (.ok (some m))

def withdrawalCovers (d : Doc) : WithdrawalProg (Except Failure (Option Doc)) :=
  match decisionPath d with
  | none => markerCovers d
  | some p =>
    (list fun q => q = p).andThen fun
      | [] => markerCovers d
      | _ :: _ => (withdrawalDecision p).andThen fun decision => pure (.ok (some decision))

variable (fresh : Nat)

/-- What `_supersede_withdrawal` does with the marker it captured, inside its `try`. -/
def keepSuperseded : WithdrawalProg (Except Failure Doc) :=
  (read (.capturedMarker fresh)).andThen fun
    | none => pure (.error (.contract "empty withdrawal marker"))
    | some m =>
      (fileWithdrawalDecision m).andThen fun _ =>
        (replace (.superseded fresh) m).andThen fun _ => pure (.ok m)

def putMarkerBack : WithdrawalProg (Except Failure Unit) := do
  match ← link (.capturedMarker fresh) .marker with
  | .error .exist => pure (.ok ())
  | .error e => pure (.error e)
  | .ok _ => unlink (.capturedMarker fresh)

def supersedeWithdrawal : WithdrawalProg (Except Failure (Option Doc)) := do
  match ← rename .marker (.capturedMarker fresh) with
  | .error .noent => pure (.ok none)
  | .error e => pure (.error e)
  | .ok _ =>
    match ← keepSuperseded fresh with
    | .error e => (putMarkerBack fresh).andThen fun _ => pure (.error e)
    | .ok m => (unlink (.capturedMarker fresh)).andThen fun _ => pure (.ok (some m))

/-- The judgement of `_withdraw_ready` on the bytes it captured: the record, once a cancellation
of its generation is durable. -/
def judgeReady : WithdrawalProg (Except Failure (Option Doc)) :=
  (read (.capturedReady fresh)).andThen fun
    | none => pure (.ok none)
    | some moved =>
      (withdrawalCovers moved).andThen fun
        | none => pure (.ok none)
        | some m =>
          (fileWithdrawalDecision m).andThen fun _ => do
            match ← rename (.capturedReady fresh) (.readySource fresh) with
            | .ok _ | .error .noent => pure (.ok (some moved))
            | .error e => pure (.error e)

def restoreReady : WithdrawalProg (Except Failure Unit) := do
  match ← link (.capturedReady fresh) .ready with
  | .error _ => pure (.ok ())
  | .ok _ => unlinkMissingOk (.capturedReady fresh)

def withdrawReady : WithdrawalProg (Except Failure (Option Doc)) := do
  match ← rename .ready (.capturedReady fresh) with
  | .error .noent => pure (.ok none)
  | .error e => pure (.error e)
  | .ok _ =>
    match ← judgeReady fresh with
    | .ok (some moved) => pure (.ok (some moved))
    | _ => (restoreReady fresh).andThen fun _ => pure (.ok none)

/-- The part of `publish` that concerns cancellation: the marker is retired and the item of the
new generation replaces whatever is ready. -/
def publish (generation : Generation) (fresh : Nat) : WithdrawalProg (Except Failure Unit) :=
  (supersedeWithdrawal fresh).andThen fun _ => replace .ready ⟨some generation, none, none⟩

/-- A request to `withdraw`. `handoff` is the result of the membership proof when one was asked
for; `holderAmbiguous` and `held` are the refusals raised before anything is filed. -/
structure Request where
  (byWhom reason : Name)
  (preemptedBy expectedClaim : Option Name)
  handoff : Option Bool
  (holderAmbiguous held : Bool)

inductive Outcome
  | claimChanged
  | alreadyFinished (state : Path)
  | withdrawn (target : Option Doc) (already : Bool) (filed : Doc)

/-- The record the request is about. A repeated request may name a newer submission queued behind
an attempt that is still stopping; a proven handoff never does. -/
def chooseRecord (q : Request) (claimed : Option Doc) :
    WithdrawalProg (Except Failure (Option (Doc × Origin))) :=
  match claimed with
  | none => (read .ready).andThen fun ready => pure (.ok (ready.map fun d => (d, .ready)))
  | some c =>
    if q.handoff.isSome then pure (.ok (some (c, .claimed)))
    else
      (withdrawalCovers c).andThen fun
        | none => pure (.ok (some (c, .claimed)))
        | some _ =>
          (read .ready).andThen fun
            | none => pure (.ok (some (c, .claimed)))
            | some waiting =>
              (withdrawalCovers waiting).andThen fun
                | none => pure (.ok (some (waiting, .ready)))
                | some _ => pure (.ok (some (c, .claimed)))

def isDecision : Path → Bool
  | .decision _ => true
  | _ => false

def newest : List Path → Option Generation
  | [] => none
  | .decision g :: rest => some (match newest rest with
    | none => g
    | some g' => max g g')
  | _ :: rest => newest rest

/-- Nothing is queued and no marker is visible: the ending that is there, or the newest decision. -/
def endedOrDecided : WithdrawalProg (Except Failure (Outcome ⊕ Doc)) :=
  (read .done).andThen fun
    | some _ => pure (.ok (.inl (.alreadyFinished .done)))
    | none =>
      (read .failed).andThen fun
        | some _ => pure (.ok (.inl (.alreadyFinished .failed)))
        | none =>
          (list isDecision).andThen fun paths =>
            match newest paths with
            | none => pure (.error (.contract "no such action in the queue"))
            | some g => (withdrawalDecision (.decision g)).andThen fun d => pure (.ok (.inr d))

def stampOf (q : Request) (origin : Origin) : Stamp :=
  ⟨some origin, q.byWhom, q.reason, q.preemptedBy, q.handoff.isSome⟩

/-- `withdraw` on a record that no decision and no marker of its generation covers yet. -/
def fileNew (q : Request) (record : Doc) (origin : Origin) (fresh : Nat) :
    WithdrawalProg (Except Failure Outcome) :=
  (fileWithdrawalDecision { record with stamp := some (stampOf q origin) }).andThen fun filed =>
    (replace .marker filed).andThen fun _ =>
      (withdrawReady fresh).andThen fun _ => pure (.ok (.withdrawn (some record) false filed))

def fileExisting (existing : Doc) (record : Option Doc) (fresh : Nat) :
    WithdrawalProg (Except Failure Outcome) :=
  (fileWithdrawalDecision existing).andThen fun filed =>
    (withdrawReady fresh).andThen fun _ => pure (.ok (.withdrawn record true filed))

def operatorHold : Failure := .contract "operator hold prevents admission preemption"

def withdrawRecord (q : Request) (existing : Option Doc) (record : Doc) (origin : Origin)
    (fresh : Nat) :
    WithdrawalProg (Except Failure Outcome) :=
  if origin = .claimed ∧ q.holderAmbiguous then pure (.error (.contract "ambiguous claim holder"))
  else
    match existing with
    | none =>
      if q.preemptedBy.isSome ∧ q.held then pure (.error operatorHold)
      else fileNew q record origin fresh
    | some m =>
      (withdrawalCovers record).andThen fun
        | some _ => fileExisting m (some record) fresh
        | none =>
          if q.preemptedBy.isSome ∧ q.held then pure (.error operatorHold)
          else (supersedeWithdrawal fresh).andThen fun _ => fileNew q record origin fresh

def withdraw (q : Request) (fresh : Nat) : WithdrawalProg (Except Failure Outcome) :=
  (read .marker).andThen fun existing =>
    (read .claimed).andThen fun claimed =>
      if q.expectedClaim.isSome ∧ (claimed.bind Doc.claim) ≠ q.expectedClaim then
        pure (.ok .claimChanged)
      else if q.handoff = some false ∨ q.handoff.isSome ∧ claimed.isNone then
        pure (.error (.contract "membership handoff refused"))
      else
        (chooseRecord q claimed).andThen fun
          | some (record, origin) => withdrawRecord q existing record origin fresh
          | none =>
            match existing with
            | some m => fileExisting m none fresh
            | none =>
              endedOrDecided.andThen fun
                | .inl outcome => pure (.ok outcome)
                | .inr decision => fileExisting decision none fresh

end PrismaBuild.Withdrawal
