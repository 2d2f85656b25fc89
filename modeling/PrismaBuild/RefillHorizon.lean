import PrismaBuild.Window

namespace PrismaBuild.Residency

open Contract

/-- The operations of floating point arithmetic, whatever they round to, and the exact comparison
with an integer. -/
class FloatArith (F : Type) where
  add : F → F → F
  sub : F → F → F
  mul : F → F → F
  div : F → F → F
  ofNat : Nat → F
  ofInt : Int → F
  lt : F → F → Bool
  atMost : F → Int → Bool

variable {F : Type} [FloatFormat F] [FloatArith F]

structure Pace (F : Type) where
  claimedUnix : Option F := none
  reportedUnix : Option F := none
  readaheadBytes : Option Int
  landingBytesPerS : Option F
  reportLatencyS : F
  declaredBytesPerS : Option F := none
  consumptionBytesPerS : Option F
  declaredWaitEndBytes : Option Int := none

inductive RateBasis
  | given
  | measured
  | declared
  deriving DecidableEq

structure Beyond (F : Type) where
  leg : Leg
  secondsUntilNeeded : F

structure Horizon (F : Type) where
  consumerActionKey : Name
  acceptedPhase : Option Name
  consumptionBytesPerS : F
  consumptionBasis : RateBasis
  readThroughBytes : Nat
  (readaheadBytes reachEndBytes : Int)
  (landingS landingBytesPerS latencyS refillBytes : F)
  (horizonEndBytes declaredWaitEndBytes : Option Int)
  extendedByDeclaredWait : Bool
  advance : Option Name
  beyond : List (Beyond F)

def positive (x : F) : Bool := FloatFormat.finite x ∧ 0 < FloatFormat.value x

def landingSeconds (rangeBytes : Nat) (landingBytesPerS : F) : F :=
  FloatArith.div (FloatArith.ofNat rangeBytes) landingBytesPerS

/-- The rate measured from the claim to the report of the accepted phase. -/
def measuredRate (readBytes : Nat) (pace : Pace F) : Option F :=
  match pace.claimedUnix, pace.reportedUnix with
  | some claimed, some reported =>
    if FloatFormat.finite claimed ∧ FloatFormat.finite reported ∧
      FloatArith.lt claimed reported then
      some (FloatArith.div (FloatArith.ofNat readBytes) (FloatArith.sub reported claimed))
    else none
  | _, _ => none

def consumptionRate (readBytes : Nat) (pace : Pace F) : Option (F × RateBasis) :=
  match pace.consumptionBytesPerS with
  | some rate => if positive rate then some (rate, .given) else none
  | none =>
    let measured := measuredRate readBytes pace
    match pace.declaredBytesPerS.filter fun rate =>
      positive rate && measured.all (FloatArith.lt · rate) with
    | some rate => some (rate, .declared)
    | none => measured.map (·, .measured)

def refillEnd (reachEnd : Int) (refillBytes : F) : Nat → List Leg → Option Int
  | _, [] => none
  | refilled, leg :: rest =>
    if (leg.startBytes : Int) < reachEnd then refillEnd reachEnd refillBytes refilled rest
    else if refilled ≠ 0 ∧ FloatArith.atMost refillBytes refilled then some leg.startBytes
    else refillEnd reachEnd refillBytes (refilled + (leg.endBytes - leg.startBytes)) rest

/-- A horizon that ends before the leg the consumer is blocked on is taken through that leg. -/
def extendHorizon (future : List Leg) (waitEnd horizonEnd : Option Int) : Option Int × Bool :=
  match waitEnd, horizonEnd with
  | some wait, some ended =>
    if ended < wait then
      ((future.find? fun leg => wait ≤ (leg.startBytes : Int)).map fun leg =>
        (leg.startBytes : Int), true)
    else (some ended, false)
  | _, ended => (ended, false)

/-- The phase being read and the rates the horizon there is priced with. -/
structure Pricing (F : Type) where
  reading : Phase
  readahead : Int
  (landing rate : F)
  basis : RateBasis

variable (plan : ResidencyPlan)

/-- No horizon without accepted progress, a read-ahead, a landing rate and a consumption rate. -/
def pricing (acceptedPhase : Option Name) (pace : Pace F) : Option (Pricing F) := do
  guard (plan.accepted acceptedPhase)
  let readahead ← pace.readaheadBytes.filter (0 ≤ ·)
  let landing ← pace.landingBytesPerS.filter positive
  let reading ← (plan.remaining acceptedPhase).head?
  let firstStart := (plan.phases.head?.map Phase.startBytes).getD 0
  let (rate, basis) ← consumptionRate (reading.endBytes - firstStart) pace
  guard (FloatArith.atMost rate 0 = false)
  pure ⟨reading, readahead, landing, rate, basis⟩

def pricedHorizon (acceptedPhase : Option Name) (legs : List Leg) (pace : Pace F)
    (q : Pricing F) : Horizon F :=
  let laterNames := ((plan.remaining acceptedPhase).map Phase.name).tail
  let future := legs.filter (·.phase ∈ laterNames)
  let largest := (future.map fun leg => leg.endBytes - leg.startBytes).foldr max 0
  let landingS := landingSeconds largest q.landing
  let latency := FloatArith.add pace.reportLatencyS landingS
  let reachEnd := q.reading.endBytes + q.readahead
  let refillBytes := FloatArith.mul q.rate latency
  let (horizonEnd, extended) := extendHorizon future pace.declaredWaitEndBytes
    (refillEnd reachEnd refillBytes 0 future)
  let outside := future.filter fun leg => horizonEnd.any (· ≤ (leg.startBytes : Int))
  { consumerActionKey := plan.consumerActionKey.1
    acceptedPhase := acceptedPhase
    consumptionBytesPerS := q.rate
    consumptionBasis := q.basis
    readThroughBytes := q.reading.endBytes
    readaheadBytes := q.readahead
    reachEndBytes := reachEnd
    landingS := landingS
    landingBytesPerS := q.landing
    latencyS := latency
    refillBytes := refillBytes
    horizonEndBytes := horizonEnd
    declaredWaitEndBytes := pace.declaredWaitEndBytes
    extendedByDeclaredWait := extended
    advance := outside.head?.map Leg.key
    beyond := outside.tail.map fun leg =>
      ⟨leg, FloatArith.div (FloatArith.ofInt ((leg.startBytes : Int) - q.reading.endBytes)) q.rate⟩
        }

def refillHorizon (acceptedPhase : Option Name) (pace : Pace F) (role : MoverRole) :
    Except WindowError (Option (Horizon F)) :=
  match pricing plan acceptedPhase pace with
  | none => .ok none
  | some q => do
    let legs ← plan.legs role
    pure (some (pricedHorizon plan acceptedPhase legs pace q))

structure Rates (F : Type) where
  readaheadBytes : Option Int
  (landingBytesPerS consumptionBytesPerS : Option F)
  reportLatencyS : F

def Rates.pace (rates : Rates F) : Pace F where
  readaheadBytes := rates.readaheadBytes
  landingBytesPerS := rates.landingBytesPerS
  reportLatencyS := rates.reportLatencyS
  consumptionBytesPerS := rates.consumptionBytesPerS

def horizonEnd (horizon : Option (Horizon F)) : Option Int := horizon.bind Horizon.horizonEndBytes

def emptyTier (name : Name) (role : MoverRole) (ended : Option Int) (capacityGib : Int) :
    ConsumerWindow :=
  ⟨plan, some name, { moverRole := role, horizonEndBytes := ended },
    { freeGib := capacityGib, capacityGib := capacityGib }⟩

def rowsGib (rows : List PublishRow) : Nat := (rows.map PublishRow.stageGib).sum

def footprintAt (capacityGib : Int) (rates : Rates F) (role : MoverRole) (name : Name) :
    Except WindowError Nat := do
  let horizon ← refillHorizon plan (some name) rates.pace role
  let decision ← (emptyTier plan name role (horizonEnd horizon) capacityGib).decision
  pure (rowsGib decision.publish)

def largestFootprint (plan : ResidencyPlan) (capacityGib : Int) (rates : Rates F)
    (role : MoverRole) :
    Nat → List Phase → Except WindowError Nat
  | largest, [] => .ok largest
  | largest, phase :: rest => do
    let own ← footprintAt plan capacityGib rates role phase.name
    largestFootprint plan capacityGib rates role (max largest own) rest

def readFootprint (acceptedPhase : Option Name) (capacityGib : Int) (rates : Rates F)
    (role : MoverRole) : Except WindowError Nat :=
  largestFootprint plan capacityGib rates role 0 (plan.remaining acceptedPhase)

end PrismaBuild.Residency
