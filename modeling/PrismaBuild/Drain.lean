import PrismaBuild.Dict
import PrismaBuild.NameOrder

namespace PrismaBuild.Drain

def starvationFloor : Int := 3

def withholdCeilingS : Rat := 900

def measurementUnmeasuredCeilingS : Rat := 180

/-- `cpu_admission.MAX_INTERVAL_S + cpu_admission.MAX_SAMPLE_AGE_S`. -/
def holderTailS : Rat := 60 + 5

def gpuMaxSampleAgeS : Rat := 5

inductive Mode
  | exclusive
  | tokens
  | gpu
  | heldCpus
  deriving DecidableEq

structure DrainQuestion where
  key : Name
  need : List (Name × Int)
  mode : Mode
  adaptive : Bool := false
  foreign : Bool := false
  heldCpus : Option (List Int) := none
  cpuTiersSupplied : Bool := false
  measurement : Bool := false
  measurementGeneration : Option Name := none
  measurementForeignClear : Bool := false
  measurementUnmeasured : Bool := false

inductive NoteField
  | blockedUnix
  | foreignUnix
  | epochUnix
  | expiredUnix
  | measurementUntilUnix
  | unmeasuredUntilUnix
  deriving DecidableEq

/-- A field of the stored notes: not there, there and not a finite number, or a time. -/
inductive Clock
  | absent
  | unreadable
  | time (t : Rat)
  deriving DecidableEq

def Clock.stamp : Clock → Option Rat
  | .time t => some t
  | _ => none

abbrev Clocks := NoteField → Clock

abbrev Changes := List (NoteField × Option Rat)

structure Episode where
  generation : Option Name
  clocks : Clocks

structure Prior where
  measurementDrains : List (Name × Episode)
  passes : Int
  firstUnix : Option Rat
  clocks : Clocks

structure PreparedDrain where
  question : DrainQuestion
  now : Rat
  host : Name
  measurementWait : Bool
  clocks : Clocks
  passes : Int
  age : Rat

def PreparedDrain.stamp (prepared : PreparedDrain) (field : NoteField) : Option Rat :=
    (prepared.clocks field).stamp

/-- The clocks of the host's episode if it is of this generation. -/
def episodeClocks (episodes : List (Name × Episode)) (host : Name) (generation : Option Name) :
    Clocks :=
  match episodes.lookup host with
  | some episode => if episode.generation = generation then episode.clocks else fun _ => .absent
  | none => fun _ => .absent

def prepareDrain (question : DrainQuestion) (prior : Prior) (now : Rat) (host : Name) :
    PreparedDrain :=
  let measurementWait := question.measurement &&
    (question.mode = .exclusive || question.mode = .tokens)
  { question := question
    now := now
    host := host
    measurementWait := measurementWait
    clocks := if measurementWait then episodeClocks prior.measurementDrains host
      question.measurementGeneration else prior.clocks
    passes := prior.passes
    age := (prior.firstUnix.map fun first => max 0 (now - first)).getD 0 }

inductive Why
  | notATokenShortage
  | foreignLoad
  | measurementDrainExpired
  | verdictUnreadable
  | measurementBaselineUnknown
  | drainingForMeasurement
  | holderTail
  | inFlight
  | unknownPastCeiling
  | holdersCannotCover
  | holderDoesNotDrainSoon
  | refilledPastCeiling
  | drainsSoon
  deriving DecidableEq

structure Verdict where
  eligible : Bool := false
  withhold : Bool := false
  why : Option Why := none
  gpuFirst : Bool := false
  foreignAgeS : Option Rat := none
  drainUntilUnix : Option Rat := none
  episodeAgeS : Option Rat := none
  measurementUnmeasured : Bool := false
  unmeasuredUntilUnix : Option Rat := none
  measurementDrainUntilUnix : Option Rat := none
  drainResolves : Option Bool := none

inductive BoundKind
  | transient
  | unknown
  | unbounded
  | overdue
  | long
  deriving DecidableEq

structure Bound where
  actionKey : Name
  bound : BoundKind
  (claimedUnix requestedTimeoutS : Option Rat)

structure PendingDrain where
  prepared : PreparedDrain
  verdict : Verdict := {}
  notes : Changes := []
  unmeasuredUntil : Option Rat := none
  until? : Option Rat := none
  epoch : Option Rat := none
  short : List (Name × Int) := []
  inWay : List Bound := []
  bounds : List Bound := []
  draining : List Bound := []
  covered : List (Name × Int) := []
  wantedCpus : List Int := []

variable (p : PendingDrain)

def PendingDrain.note (field : NoteField) (value : Option Rat) : PendingDrain :=
  { p with notes := Dict.set field value p.notes }

def PendingDrain.judge (verdict : Verdict) : PendingDrain := { p with verdict := verdict }

inductive DrainError
  | soft
  | hard
  deriving DecidableEq

inductive DrainNotes
  | ordinary (changes : Changes)
  | measurement (host : Name) (generation : Option Name) (changes : Changes)

inductive Outcome
  | assessment (verdict : Verdict) (notes : Option DrainNotes)
  | failure (error : DrainError) (notes : Option DrainNotes)

/-- The verdict on a baseline that was never measured ends with its own ceiling. -/
def PendingDrain.ceiled : Verdict :=
  if p.prepared.measurementWait ∧ p.prepared.question.measurementUnmeasured then
    let verdict := { p.verdict with measurementUnmeasured := true }
    let verdict :=
      match p.unmeasuredUntil with
      | none => verdict
      | some ceiling =>
        { verdict with
          unmeasuredUntilUnix := some ceiling
          measurementDrainUntilUnix := verdict.drainUntilUnix
          drainUntilUnix := verdict.drainUntilUnix.map fun original => min original ceiling }
    if p.unmeasuredUntil.all (· ≤ p.prepared.now) then
      { verdict with
        withhold := false
        drainResolves := some false
        why := if verdict.why = some .foreignLoad ∨ verdict.why = some .verdictUnreadable then
          verdict.why
          else some .measurementBaselineUnknown }
    else verdict
  else p.verdict

def PendingDrain.drainNotes : Option DrainNotes :=
  if p.notes = [] then none
  else if p.prepared.measurementWait then
    some (.measurement p.prepared.host p.prepared.question.measurementGeneration p.notes)
  else some (.ordinary p.notes)

def complete (error : Option DrainError) : Outcome :=
  match error with
  | none => .assessment p.ceiled p.drainNotes
  | some error => .failure error p.drainNotes

def failedDrain : DrainError → Outcome
  | .soft =>
    complete (p.judge { p.verdict with withhold := false, why := some .verdictUnreadable }) none
  | .hard => complete p (some .hard)

inductive ForeignProcesses
  | unknown
  | clear
  | present
  deriving DecidableEq

structure GpuSample where
  foreign : ForeignProcesses
  sampledUnix : Option Rat
  schemaAttributionDeclared : Bool

def GpuSample.clear (now : Rat) (sample : GpuSample) : Bool :=
  sample.foreign = .clear && sample.sampledUnix.any fun t =>
    0 ≤ now - t && now - t ≤ gpuMaxSampleAgeS

def amount (counts : List (Name × Int)) (kind : Name) : Int := (counts.lookup kind).getD 0

def generationText (generation : Option Name) : Bool :=
  generation.any fun text => text.length = 64 && text.all fun c => c ∈ "0123456789abcdef".toList

/-- The part of `begin_drain` that is only for a measurement. What it raises, it raises with the
notes so far. -/
def armMeasurement : Except PendingDrain PendingDrain :=
  if !p.prepared.measurementWait then .ok p
  else if !generationText p.prepared.question.measurementGeneration then .error p
  else if !p.prepared.question.measurementUnmeasured then .ok p
  else
    match p.prepared.clocks .unmeasuredUntilUnix with
    | .absent =>
      let ceiling := p.prepared.now + measurementUnmeasuredCeilingS
      .ok ({ p with unmeasuredUntil := some ceiling }.note .unmeasuredUntilUnix (some ceiling))
    | .unreadable => .error (p.note .unmeasuredUntilUnix (some 0))
    | .time ceiling => .ok { p with unmeasuredUntil := some ceiling }

def refuseForeign : Option Rat → Except Outcome PendingDrain
  | none => .ok p
  | some seen =>
    let age := p.prepared.now - seen
    if age ≤ withholdCeilingS then
      let p := if p.prepared.measurementWait then
        p else (p.note .epochUnix none).note .expiredUnix none
      .error (complete
        (p.judge { p.verdict with why := some .foreignLoad, foreignAgeS := some age }) none)
    else .ok p

/-- What `begin_drain` does about foreign load. -/
def settleForeign (foreign gpuForeignClear : Bool) : Except Outcome PendingDrain :=
  let clearForeign := p.prepared.measurementWait && p.prepared.question.measurementForeignClear &&
    gpuForeignClear && !foreign
  refuseForeign (if clearForeign then p.note .foreignUnix none else p)
    (if foreign then some p.prepared.now else if clearForeign then
    none else p.prepared.stamp .foreignUnix)

/-- What `begin_drain` does about the deadline. -/
def openWindow : Except Outcome PendingDrain :=
  let p := { p with until? := p.prepared.stamp .measurementUntilUnix, epoch := p.prepared.stamp .epochUnix }
  match p.until?, p.prepared.measurementWait with
  | some ending, true =>
    let now := p.prepared.now
    let p := p.judge { p.verdict with drainUntilUnix := some ending, episodeAgeS := some (now -
      p.epoch.getD now) }
    if ending ≤ now then
      .error (complete (p.judge { p.verdict with why := some .measurementDrainExpired }) none)
    else .ok p
  | _, _ => .ok p

/-- The tokens that are missing of each kind, for a drain that waits for tokens. -/
def DrainQuestion.shortage (q : DrainQuestion) (available : List (Name × Int)) :
    List (Name × Int) :=
  if q.mode = .tokens then
    (q.need.filter fun item => amount available item.1 < item.2).map fun item =>
      (item.1, item.2 - amount available item.1)
  else []

/-- What `begin_drain` counts the holders against. -/
def openCounts : Except Outcome PendingDrain :=
  let q := p.prepared.question
  let p := { p with covered := p.short.map fun item => (item.1, 0) }
  if q.mode = .heldCpus then
    match q.heldCpus.filter (· ≠ []), q.cpuTiersSupplied with
    | some cpus, true => .ok { p with wantedCpus := cpus }
    | _, _ => .error (failedDrain p .soft)
  else .ok p

/-- `begin_drain` once the sample and the tokens were read. -/
def beginEligible (foreign eligible gpuForeignClear : Bool) : Except Outcome PendingDrain :=
  match armMeasurement p with
  | .error p => .error (failedDrain p .soft)
  | .ok p =>
    let p := if foreign then p.note .foreignUnix (some p.prepared.now) else p
    if !eligible then .error (complete p none)
    else settleForeign p foreign gpuForeignClear >>= openWindow >>= openCounts

def beginDrain (prepared : PreparedDrain) (available : List (Name × Int))
    (gpuSample : Option GpuSample) :
    Except Outcome PendingDrain :=
  let q := prepared.question
  let gpuNeed := amount q.need "gpu"
  let facts := if gpuNeed ≠ 0 then gpuSample else none
  let gpuClear := facts.map (GpuSample.clear prepared.now)
  let foreign := q.foreign || facts.any fun sample => sample.foreign = .present
  let gpuFirst := q.mode ≠ .gpu && gpuNeed ≠ 0 && gpuNeed ≤ amount available "gpu" && gpuClear ≠
    some false
  let gpuForeignClear := gpuNeed = 0 || gpuClear = some true &&
    facts.any GpuSample.schemaAttributionDeclared
  let short := q.shortage available
  if q.mode = .tokens ∧ q.adaptive ∧ short = [] then
    .error (complete
      { prepared := prepared, short := short, verdict := { why := some .notATokenShortage } } none)
  else
    let eligible := prepared.measurementWait || decide (starvationFloor ≤ prepared.passes + 1) ||
      gpuFirst
    beginEligible
      { prepared := prepared, short := short, verdict := { eligible := eligible, gpuFirst := gpuFirst } }
      foreign eligible gpuForeignClear

def cover (covered : List (Name × Int)) : List (Name × Int) → Option (List (Name × Int))
  | [] => some covered
  | (kind, count) :: counts =>
    match covered.lookup kind with
    | none => none
    | some sum => cover (Dict.set kind (sum + count) covered) counts

def addHolder (bound : Bound) (counts : List (Name × Int)) : Except Outcome PendingDrain :=
  let p := { p with bounds := p.bounds ++ [bound] }
  if bound.bound = .transient ∨ bound.bound = .unknown ∧ p.prepared.age ≤ withholdCeilingS then
    let p := { p with draining := p.draining ++ [bound] }
    match cover p.covered counts with
    | none => .error (failedDrain p .hard)
    | some covered => .ok { p with covered := covered }
  else .ok { p with inWay := p.inWay ++ [bound] }

def deadline (now : Rat) (bounds : List Bound) : Rat :=
  (bounds.filterMap fun bound => do pure ((← bound.claimedUnix) +
    (← bound.requestedTimeoutS))).foldl max (now + withholdCeilingS)

/-- The branch of `finish_drain` that withholds for a measurement. -/
def finishMeasurement : Outcome :=
  let now := p.prepared.now
  let (epoch, ending) :=
    match p.until? with
    | some ending => (p.epoch, ending)
    | none => (some now, deadline now p.bounds)
  let p := (p.note .epochUnix epoch).note .measurementUntilUnix (some ending)
  complete (p.judge { p.verdict with
    withhold := now < ending
    why := some (if now < ending then .drainingForMeasurement else .measurementDrainExpired)
    drainUntilUnix := some ending
    episodeAgeS := some (now - epoch.getD now) }) none

/-- The branch of `finish_drain` for a box where nothing is in the way. -/
def finishEmpty : Outcome :=
  let now := p.prepared.now
  if p.prepared.question.mode = .exclusive then
    if (p.prepared.stamp .blockedUnix).any fun blocked => now - blocked ≤ holderTailS then
      complete (p.judge { p.verdict with withhold := true, why := some .holderTail }) none
    else
      let p := p.note .foreignUnix (some now)
      let p := if p.prepared.measurementWait then
        p else (p.note .epochUnix none).note .expiredUnix none
      complete (p.judge { p.verdict with why := some .foreignLoad }) none
  else
    let drains := p.prepared.age ≤ withholdCeilingS
    complete (p.judge { p.verdict with
      withhold := drains, why := some (if drains then .inFlight else .unknownPastCeiling) }) none

def PendingDrain.fits : Bool :=
  if p.prepared.question.mode = .tokens then p.short.all fun item =>
    item.2 ≤ amount p.covered item.1 else p.inWay.isEmpty

def refuseHolders : Outcome :=
  let p := (p.note .epochUnix none).note .expiredUnix none
  let why : Why := if p.inWay.isEmpty then .holdersCannotCover
    else if p.inWay.all fun bound => bound.bound = .unknown then .unknownPastCeiling
    else .holderDoesNotDrainSoon
  complete (p.judge { p.verdict with why := some why }) none

/-- The start of the episode and the end that refills have brought it, if they have. -/
def PendingDrain.refilled : Rat × Option Rat :=
  let now := p.prepared.now
  let epoch := (p.prepared.stamp .epochUnix).getD now
  let expired := p.prepared.stamp .expiredUnix
  let refills := p.draining.filter fun bound =>
    bound.claimedUnix.any fun claimed => epoch < claimed && expired.all (claimed < ·)
  if expired.isSome ∧ refills.isEmpty then (now, none)
  else if expired.isNone ∧ !refills.isEmpty ∧ now - epoch > withholdCeilingS then (epoch, some now)
  else (epoch, expired)

def settleRefills (epoch : Rat) (expired : Option Rat) : Outcome :=
  let p := (p.note .epochUnix (some epoch)).note .expiredUnix expired
  let p := p.judge { p.verdict with episodeAgeS := some (p.prepared.now - epoch) }
  match expired with
  | some _ => complete (p.judge { p.verdict with why := some .refilledPastCeiling }) none
  | none => complete (p.judge { p.verdict with withhold := true, why := some .drainsSoon }) none

/-- The branch of `finish_drain` for holders that are to be waited for. -/
def finishHolders : Outcome :=
  if !p.fits then refuseHolders p else settleRefills p p.refilled.1 p.refilled.2

def PendingDrain.noteBlocked : PendingDrain :=
  if p.draining ≠ [] ∨ p.inWay ≠ [] then p.note .blockedUnix (some p.prepared.now) else p

def finishNoted : Outcome :=
  if p.prepared.measurementWait ∧ (p.bounds ≠ [] ∨ p.prepared.question.mode = .tokens) then
    finishMeasurement p
  else if p.draining = [] ∧ p.inWay = [] then finishEmpty p
  else finishHolders p

def finishDrain : Outcome := finishNoted p.noteBlocked

def noteField (changes : Changes) (previous : Clocks) (field : NoteField) : Clock :=
  let value : Clock :=
    match changes.lookup field with
    | some (some t) => .time t
    | some none => .unreadable
    | none => previous field
  match value with
  | .time t => .time t
  | .absent => .absent
  | .unreadable => if field = .unmeasuredUntilUnix then .time 0 else .absent

def measurementNoteFields (episodes : List (Name × Episode)) : Option DrainNotes →
    List (Name × Episode)
  | some (.measurement host generation changes) =>
    Dict.set host ⟨generation, noteField changes (episodeClocks episodes host generation)⟩ episodes
  | _ => episodes

end PrismaBuild.Drain
