import PrismaBuild.ResidencyPlan

namespace PrismaBuild.Residency

open Contract

inductive MoverRole
  | moverRow
  | ramMoverRow
  deriving DecidableEq

/-- What a window publishes, holds and evicts: a whole phase or one chunk of it. The egress row of a
ram leg may be null. -/
structure Leg where
  phase : Name
  chunkIndex : Option Nat
  (startBytes endBytes stageGib : Nat)
  moverRow : Row
  egressRow : Option Row
  deriving DecidableEq

def Leg.key (leg : Leg) : Name := leg.moverRow.actionKey.1

inductive WindowError
  | undefinedLeg (phase : Name)
  | plan (error : PlanError)

def Chunk.leg (phase : Name) (c : Chunk) : Leg :=
  ⟨phase, some c.chunkIndex, c.startBytes, c.endBytes, c.stageGib, c.moverRow, some c.egressRow⟩

def Phase.chunkTable (phase : Phase) : MoverRole → Given (List Chunk)
  | .moverRow => phase.stageChunks
  | .ramMoverRow => phase.ramChunks

def Phase.mover (phase : Phase) : MoverRole → Given Row
  | .moverRow => phase.moverRow
  | .ramMoverRow => phase.ramMoverRow

def Phase.egress (phase : Phase) : MoverRole → Given Row
  | .moverRow => phase.egressRow
  | .ramMoverRow => phase.ramEgressRow

/-- The legs of one phase. A null mover row has no key to read, and a missing egress row is a
missing field. -/
def Phase.legs (role : MoverRole) (phase : Phase) : Except WindowError (List Leg) :=
  match (phase.chunkTable role).get with
  | some chunks => .ok (chunks.map (Chunk.leg phase.name))
  | none =>
    match phase.mover role, phase.egress role with
    | .absent, _ => .ok []
    | .null, _ => .error (.undefinedLeg phase.name)
    | .value _, .absent => .error (.undefinedLeg phase.name)
    | .value mover, egress =>
      .ok [⟨phase.name, none, phase.startBytes, phase.endBytes, phase.stageGib, mover, egress.get⟩]

def legsOf (role : MoverRole) : List Phase → Except WindowError (List Leg)
  | [] => .ok []
  | phase :: rest => do
    let first ← phase.legs role
    let later ← legsOf role rest
    pure (first ++ later)

def ResidencyPlan.legs (plan : ResidencyPlan) (role : MoverRole) : Except WindowError (List Leg) :=
  legsOf role plan.phases

def phaseIndex (names : List Name) (phaseName : Option Name) : Option Nat :=
  names.findIdx? fun name => some name == phaseName

def ResidencyPlan.remaining (plan : ResidencyPlan) (acceptedPhase : Option Name) : List Phase :=
  plan.phases.drop ((phaseIndex plan.names acceptedPhase).getD 0)

def ResidencyPlan.accepted (plan : ResidencyPlan) (acceptedPhase : Option Name) : Bool :=
  (phaseIndex plan.names acceptedPhase).isSome

def tighten (budget cap : Option Int) : Option Int :=
  match budget, cap with
  | some b, some c => some (min b c)
  | b, _ => b

def budgetFromStep (step : Nat) (hasAccepted : Bool) (capacityGib runaheadCapGib : Option Int) :
    Planned (Option Int) := do
  require (∀ cap ∈ runaheadCapGib, 0 < cap) "runahead_cap_gib must be a positive whole GiB"
  let budget := if hasAccepted then capacityGib.map fun c => max 0 (c - (step : Int)) else some
    (step : Int)
  pure (tighten budget runaheadCapGib)

structure LegObservation where
  published : List Name := []
  staged : List Name := []
  rowed : List Name := []
  moverRole : MoverRole := .moverRow
  horizonEndBytes : Option Int := none

structure WindowBudget where
  freeGib : Int
  capacityGib : Option Int := none
  runaheadCapGib : Option Int := none
  withdrawn : List Name := []
  prelaunchHeld : Option Bool := none
  prelaunchNeedGib : Option Int := none

structure ConsumerWindow where
  plan : ResidencyPlan
  acceptedPhase : Option Name
  leg : LegObservation
  budget : WindowBudget

structure PublishRow where
  phase : Name
  chunkIndex : Option Nat
  moverActionKey : Name
  (startBytes endBytes stageGib : Nat)
  moverRow : Row
  deriving DecidableEq

structure EvictRow where
  phase : Name
  chunkIndex : Option Nat
  moverActionKey : Name
  egressRow : Option Row
  stageGib : Nat
  deriving DecidableEq

def Leg.publishRow (leg : Leg) : PublishRow :=
  ⟨leg.phase, leg.chunkIndex, leg.key, leg.startBytes, leg.endBytes, leg.stageGib, leg.moverRow⟩

def Leg.evictRow (leg : Leg) : EvictRow :=
    ⟨leg.phase, leg.chunkIndex, leg.key, leg.egressRow, leg.stageGib⟩

inductive StallReason
  | runaheadBudget
  | noAcceptedProgress
  | prelaunchWaitingForRoom
  deriving DecidableEq

structure Stall where
  (consumerActionKey tierId : Name)
  (acceptedPhase readingPhase : Option Name)
  blockedPhase : Name
  blockedGib : Int
  runaheadGib : Nat
  runaheadBudgetGib : Option Int
  freeGib : Int
  capacityGib : Option Int
  reason : StallReason
  waitingFor : String
  chunkIndex : Option Nat
  needGib : Option Int
  deriving DecidableEq

structure Decision where
  publish : List PublishRow
  evict : List EvictRow
  stall : Option Stall
  deriving DecidableEq

def gibOf (legs : List Leg) : Nat := (legs.map Leg.stageGib).sum

/-- What the publication loop reads besides the room left and the run-ahead so far. -/
structure Frame where
  (aheadNames declared : List Name)
  current : Option Name
  (already cancelled : List Name)
  (horizonEndBytes budget : Option Int)

inductive Brake
  | horizon
  | budget
  | room
  deriving DecidableEq

def Frame.brake (f : Frame) (room : Int) (runahead : Nat) (leg : Leg) : Option Brake :=
  if some leg.phase ≠ f.current ∧ ∃ h ∈ f.horizonEndBytes, h ≤ (leg.startBytes : Int) then
    some .horizon
  else if some leg.phase ≠ f.current ∧ ∃ b ∈ f.budget, b < (runahead : Int) + leg.stageGib then
    some .budget
  else if room < leg.stageGib then some .room
  else none

def Frame.wanted (f : Frame) (leg : Leg) : Bool :=
  leg.phase ∈ f.aheadNames ∧ leg.key ∉ f.already ∧ leg.key ∉ f.cancelled

/-- The publication loop: the legs it publishes, and the leg and run-ahead its budget stalled at. -/
def Frame.publishLegs (f : Frame) : Int → Nat → List Leg → List Leg × Option (Leg × Nat)
  | _, _, [] => ([], none)
  | room, runahead, leg :: rest =>
    if f.wanted leg = false then f.publishLegs room runahead rest
    else if leg.phase ∈ f.declared then
      -- the held group already pays for a declared leg
      let (published, stalled) := f.publishLegs room runahead rest
      (leg :: published, stalled)
    else
      match f.brake room runahead leg with
      | some .budget => ([], some (leg, runahead))
      | some _ => ([], none)
      | none =>
        let (published, stalled) := f.publishLegs (room - leg.stageGib)
          (if some leg.phase = f.current then runahead else runahead + leg.stageGib) rest
        (leg :: published, stalled)

namespace ConsumerWindow

variable (w : ConsumerWindow)

def ahead : List Phase := w.plan.remaining w.acceptedPhase

def aheadNames : List Name := w.ahead.map Phase.name

def currentName : Option Name := w.aheadNames.head?

def passed : List Name :=
  (w.plan.phases.take (w.plan.phases.length - w.ahead.length)).map Phase.name

def hasAccepted : Bool := w.plan.accepted w.acceptedPhase

def future (legs : List Leg) : List Leg :=
  legs.filter fun leg => leg.phase ∈ w.aheadNames.tail ∧ leg.phase ∉ w.plan.declared

def step (legs : List Leg) : Nat := ((w.future legs).map Leg.stageGib).foldr max 0

def runahead (legs : List Leg) : Nat :=
  gibOf ((w.future legs).filter fun leg => leg.key ∈ w.leg.published)

def streamCurrent : Option Name := w.aheadNames.find? (· ∉ w.plan.declared)

def effectiveCurrent : Option Name :=
  if w.plan.declared = [] then w.currentName else w.streamCurrent

def evicted (legs : List Leg) : List Leg :=
  legs.filter fun leg => leg.phase ∉ w.plan.declared ∧ leg.phase ∈ w.passed ∧ leg.key ∈ w.leg.staged

def pending (legs : List Leg) : List Leg :=
  if w.plan.declared = [] ∨ w.budget.prelaunchHeld = some true then []
  else legs.filter fun leg =>
    leg.phase ∈ w.plan.declared ∧ leg.phase ∈ w.aheadNames ∧ leg.key ∉ w.leg.published

def frame (budget : Option Int) : Frame where
  aheadNames := w.aheadNames
  declared := w.plan.declared
  current := w.effectiveCurrent
  already := w.leg.published
  cancelled := w.budget.withdrawn
  horizonEndBytes := w.leg.horizonEndBytes
  budget := budget

def prelaunchStall (legs : List Leg) (budget : Option Int) (first : Leg) (waiting : List Leg) :
    Stall where
  consumerActionKey := w.plan.consumerActionKey.1
  tierId := w.plan.tierId
  acceptedPhase := w.acceptedPhase
  readingPhase := w.currentName
  blockedPhase := first.phase
  blockedGib := w.budget.prelaunchNeedGib.getD (gibOf waiting)
  runaheadGib := w.runahead legs
  runaheadBudgetGib := budget
  freeGib := w.budget.freeGib
  capacityGib := w.budget.capacityGib
  reason := .prelaunchWaitingForRoom
  waitingFor := "the prelaunch group reservation"
  chunkIndex := none
  needGib := w.budget.prelaunchNeedGib

def budgetStall (budget : Option Int) (leg : Leg) (runahead : Nat) : Stall where
  consumerActionKey := w.plan.consumerActionKey.1
  tierId := w.plan.tierId
  acceptedPhase := w.acceptedPhase
  readingPhase := w.currentName
  blockedPhase := leg.phase
  blockedGib := leg.stageGib
  runaheadGib := runahead
  runaheadBudgetGib := budget
  freeGib := w.budget.freeGib
  capacityGib := w.budget.capacityGib
  reason := if w.hasAccepted then .runaheadBudget else .noAcceptedProgress
  waitingFor := if w.hasAccepted then
    "accepted progress past " ++ String.ofList (w.acceptedPhase.getD [])
    else "the consumer's first accepted progress record"
  chunkIndex := leg.chunkIndex
  needGib := none

def runaheadBudget (legs : List Leg) : Except WindowError (Option Int) :=
  (budgetFromStep (w.step legs) w.hasAccepted w.budget.capacityGib w.budget.runaheadCapGib).mapError
    .plan

def published (legs : List Leg) (budget : Option Int) : List Leg × Option (Leg × Nat) :=
  (w.frame budget).publishLegs w.budget.freeGib (w.runahead legs) legs

/-- The answer once the legs and the budget are known: a wait for the prelaunch group, or what the
loop published. -/
def conclude (legs : List Leg) (budget : Option Int) : Decision :=
  let evict := (w.evicted legs).map Leg.evictRow
  match w.pending legs with
  | first :: rest => ⟨[], evict, some (w.prelaunchStall legs budget first (first :: rest))⟩
  | [] =>
    let (published, stalled) := w.published legs budget
    ⟨published.map Leg.publishRow, evict, stalled.map fun s => w.budgetStall budget s.1 s.2⟩

def decision : Except WindowError Decision := do
  let legs ← w.plan.legs w.leg.moverRole
  let budget ← w.runaheadBudget legs
  pure (w.conclude legs budget)

end ConsumerWindow

end PrismaBuild.Residency
