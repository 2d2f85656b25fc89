import PrismaBuild.Contract
import PrismaBuild.Directory

namespace PrismaBuild.Turn

open Contract Directory Prog

inductive TurnFile
  | turn (epoch : Nat)
  | reserved (epoch : Nat) (tierDigest : Name)
  | done (epoch : Nat)
  deriving DecidableEq

inductive Doc
  | turn (epoch : Nat) (unit : Name)
  | reserved (epoch : Nat) (tierId : Name)
  | done (epoch : Nat) (reason : Name)
  deriving DecidableEq

/-- A step of a caller: on the turn directory, or the question whether a unit has holdings. -/
abbrev TurnProg := Prog (Op TurnFile Doc Name) Answer

def listing : TurnProg (Option (List TurnFile)) := perform (Op.listing : Op TurnFile Doc Name)
def readReceipt (file : TurnFile) : TurnProg (Reading Doc) :=
    perform (Op.read file : Op TurnFile Doc Name)
def linkNew (file : TurnFile) (doc : Doc) : TurnProg (Option Bool) :=
    perform (Op.linkNew file doc : Op TurnFile Doc Name)
def hasHoldings (unit : Name) : TurnProg (Option Bool) :=
    perform (Op.ask unit : Op TurnFile Doc Name)

inductive Current
  | none
  | unknown (reason : Name)
  | opened (epoch : Nat) (unit : Name) (reserved : List Name)
  | done (epoch : Nat) (unit : Name) (reserved : List Name) (reason : Name)

def TurnFile.epoch? : TurnFile → Option Nat
  | .turn epoch => some epoch
  | _ => none

def TurnFile.marker? (epoch : Nat) : TurnFile → Option Name
  | .reserved e digest => if e = epoch then some digest else none
  | _ => none

def readTiers (epoch : Nat) : List Name → List Name → TurnProg (Except Name (List Name))
  | [], tiers => pure (.ok (tiers.mergeSort nameLe))
  | digest :: digests, tiers => do
    match ← readReceipt (.reserved epoch digest) with
    | .found (.reserved _ tier) =>
      if tier = [] then pure (.error "marker names no tier") else
        readTiers epoch digests (tiers ++ [tier])
    | .found _ => pure (.error "marker names no tier")
    | _ => pure (.error "marker unreadable")

/-- The end of `current_turn`, once the latest epoch listed and its unit are read. -/
def turnState (names : List TurnFile) (epoch : Nat) (unit : Name) : TurnProg Current := do
  match ← readTiers epoch ((names.filterMap (TurnFile.marker? epoch)).mergeSort nameLe) [] with
  | .error reason => pure (.unknown reason)
  | .ok tiers =>
    if .done epoch ∈ names then
      match ← readReceipt (.done epoch) with
      | .found (.done _ reason) =>
        if reason = [] then pure (.unknown "turn done names no reason") else
          pure (.done epoch unit tiers reason)
      | .found _ => pure (.unknown "turn done names no reason")
      | _ => pure (.unknown "turn done unreadable")
    else pure (.opened epoch unit tiers)

def currentTurn : TurnProg Current := do
  match ← listing with
  | none => pure .none
  | some names =>
    match (names.filterMap TurnFile.epoch?).max? with
    | none => pure .none
    | some epoch =>
      match ← readReceipt (.turn epoch) with
      | .found (.turn e unit) =>
        if e = epoch then turnState names epoch unit else pure (.unknown "turn names nobody")
      | .found _ => pure (.unknown "turn names nobody")
      | _ => pure (.unknown "turn unreadable")

variable {F : Type} [FloatFormat F]

structure Ticket (F : Type) where
  unit : Name
  priority : Int
  publishedUnix : F
  tierDemands : List (Name × Int)

/-- The time of a ticket as a float, `none` where it cannot rank; the conversion may overflow. -/
def ticketTime : Json F → Except String (Option F)
  | .int n =>
    match FloatFormat.ofInt n with
    | none => .error "int too large to convert to float"
    | some x => .ok (if n < 0 then none else some x)
  | .float x => .ok (if FloatFormat.finite x ∧ FloatFormat.value x < 0 then none else some x)
  | _ => .ok none

def tierDemand : Name × Json F → Option (Name × Int)
  | (tier, .int gib) => if tier = [] ∨ gib ≤ 0 then none else some (tier, gib)
  | _ => none

def checkTicket (ticket : Json F) : Except String (Option (Ticket F)) :=
  match ticket with
  | .obj fields =>
    match entry fields "unit", entry fields "priority" with
    | .str unit, .int priority => do
      if unit = [] then return none
      else
        match ← ticketTime (entry fields "published_unix"), entry fields "tier_demands" with
        | some publishedUnix, .obj demands =>
          if demands = [] then return none
          else return (demands.mapM tierDemand).map fun tierDemands =>
            ⟨unit, priority, publishedUnix, tierDemands⟩
        | _, _ => return none
    | _, _ => .ok none
  | _ => .ok none

def Ticket.before (a b : Ticket F) : Bool :=
  decide (b.priority < a.priority) || (a.priority == b.priority &&
    (decide (FloatFormat.value a.publishedUnix < FloatFormat.value b.publishedUnix) ||
      (FloatFormat.value a.publishedUnix == FloatFormat.value b.publishedUnix && nameLe a.unit
      b.unit)))

def rankTickets (tickets : List (Json F)) : Except String (List (Ticket F)) := do
  let checked ← tickets.mapM checkTicket
  return (checked.filterMap id).mergeSort Ticket.before

inductive TakeStatus
  | unknown
  | standing
  | noCandidate
  | created
  deriving DecidableEq

structure TakeTurn where
  epoch : Option Nat
  unit : Option Name
  won : Bool
  status : TakeStatus

def firstFree : List (Ticket F) → TurnProg (Option (Ticket F))
  | [] => pure none
  | ticket :: tickets => do
    match ← hasHoldings ticket.unit with
    | some false => pure (some ticket)
    | _ => firstFree tickets

/-- The second half of `take_turn`: create the epoch after the last. -/
def createTurn (epoch : Nat) (tickets : List (Json F)) : TurnProg (Except String TakeTurn) :=
  match rankTickets tickets with
  | .error raised => pure (.error raised)
  | .ok ranked => do
    match ← firstFree ranked with
    | none => pure (.ok ⟨none, none, false, .noCandidate⟩)
    | some winner =>
      match ← linkNew (.turn epoch) (.turn epoch winner.unit) with
      | some true => pure (.ok ⟨some epoch, some winner.unit, true, .created⟩)
      | none => pure (.ok ⟨none, none, false, .unknown⟩)
      | some false =>
        match ← readReceipt (.turn epoch) with
        | .found (.turn _ unit) =>
          if unit = [] then pure (.ok ⟨some epoch, none, false, .unknown⟩)
          else pure (.ok ⟨some epoch, some unit, false, .standing⟩)
        | _ => pure (.ok ⟨some epoch, none, false, .unknown⟩)

def takeTurn (tickets : List (Json F)) : TurnProg (Except String TakeTurn) := do
  match ← currentTurn with
  | .unknown _ => pure (.ok ⟨none, none, false, .unknown⟩)
  | .opened epoch unit _ => pure (.ok ⟨some epoch, some unit, false, .standing⟩)
  | .none => createTurn 0 tickets
  | .done epoch _ _ _ => createTurn (epoch + 1) tickets

inductive Adopted
  | filed
  | unknown
  | standing
  | conflict

def linkOrAdopt (file : TurnFile) (doc : Doc) : TurnProg Adopted := do
  match ← linkNew file doc with
  | some true => pure .filed
  | none => pure .unknown
  | some false =>
    match ← readReceipt file with
    | .found standing => if standing = doc then pure .standing else pure .conflict
    | _ => pure .conflict

/-- The marker or end of an epoch, filed or found; another one there is a conflict. -/
def markTurn (file : TurnFile) (doc : Doc) (conflict : String) : TurnProg (Except String Bool) := do
  match ← linkOrAdopt file doc with
  | .filed => pure (.ok true)
  | .standing => pure (.ok true)
  | .unknown => pure (.ok false)
  | .conflict => pure (.error conflict)

variable [HashFunction]

def tierDigest (tierId : Name) : Name := (HashFunction.digest (encodeUtf8 tierId)).1.take 12

def recordReserved (epoch : Int) (tierId : Name) : TurnProg (Except String Bool) :=
  if epoch < 0 then pure (.error "a turn epoch is a non-negative whole number")
  else markTurn (.reserved epoch.toNat (tierDigest tierId)) (.reserved epoch.toNat tierId)
    "this marker already names another tier"

def finishTurn (epoch : Int) (reason : Name) : TurnProg (Except String Bool) :=
  if epoch < 0 then pure (.error "a turn epoch is a non-negative whole number")
  else if reason = [] then pure (.error "a finished turn names its reason")
  else markTurn (.done epoch.toNat) (.done epoch.toNat reason) "this epoch already closed otherwise"

inductive TurnCall (F : Type)
  | takeTurn (tickets : List (Json F))
  | recordReserved (epoch : Int) (tierId : Name)
  | finishTurn (epoch : Int) (reason : Name)

inductive TurnResult
  | raised (message : String)
  | turn (taken : TakeTurn)
  | marked (filed : Bool)

def TurnCall.prog : TurnCall F → TurnProg TurnResult
  | .takeTurn tickets => do
    match ← Turn.takeTurn tickets with
    | .ok taken => pure (.turn taken)
    | .error message => pure (.raised message)
  | .recordReserved epoch tierId => do
    match ← Turn.recordReserved epoch tierId with
    | .ok filed => pure (.marked filed)
    | .error message => pure (.raised message)
  | .finishTurn epoch reason => do
    match ← Turn.finishTurn epoch reason with
    | .ok filed => pure (.marked filed)
    | .error message => pure (.raised message)

end PrismaBuild.Turn
