import PrismaBuild.Rounding

namespace PrismaBuild.Idle

def idleWindow : Nat := 256

def provisionalMinSamples : Nat := 5

def provisionalMinSpanS : Rat := 180

variable {F I : Type}

structure IdleSample (F : Type) where
  sampledUnix : Rat
  value : F → Rat
  provisional : Bool := false

structure HostSample (F : Type) where
  (sampledUnix intervalS : Rat)
  value : F → Rat

structure IdleState (F I : Type) where
  identity : I
  samples : List (IdleSample F) := []
  holdersSeenUnix : Option Rat := none
  excursionUnix : Option Rat := none

inductive Basis
  | measured
  | unmeasured
  deriving DecidableEq

inductive Sight
  | holdersPresent
  | holderTail
  | idle
  deriving DecidableEq

structure Verdict where
  state : Sight
  basis : Option Basis
  exceeds : Bool
  samples : Option Nat
  excursionS : Option Rat := none

/-- The `max` of `_idle_statistics`, as it is recorded. -/
def recordedMax (field : F) : List (IdleSample F) → Rat
  | [] => 0
  | sample :: samples =>
    Rounding.round ((samples.map fun s => s.value field).foldl max (sample.value field)) 6

def judgeIdle (reference : List (IdleSample F)) (current : F → Rat) (fields : List F)
    (priorRule : Option ((F → Rat) → Bool)) :
    Basis × Bool :=
  if reference ≠ [] then (.measured, fields.any fun field => recordedMax field reference < current
    field)
  else (.unmeasured, priorRule.all fun rule => rule current)

def older (time : Rat) (samples : List (IdleSample F)) : List (IdleSample F) :=
    samples.filter fun s => s.sampledUnix < time

variable (samples : List (IdleSample F))

def idleReference (now : Rat) (excursionUnix : Option Rat) :
    List (IdleSample F) × Option Rat :=
  let prior := older now samples
  match excursionUnix with
  | none => (prior, none)
  | some run =>
    match older run prior with
    | [] => (prior, none)
    | oldest :: rest =>
      if now - run < run - oldest.sampledUnix then (oldest :: rest, some run) else (prior, none)

def firm : List (IdleSample F) := samples.filter fun s => !s.provisional

def pending : List (IdleSample F) := samples.filter fun s => s.provisional

/-- `samples[-IDLE_WINDOW:]`. -/
def remember : List (IdleSample F) := samples.drop (samples.length - idleWindow)

def completes (pending : List (IdleSample F)) (now : Rat) : Bool :=
  decide (provisionalMinSamples ≤ pending.length + 1) &&
    pending.head?.any fun first => decide (provisionalMinSpanS ≤ now - first.sampledUnix)

/-- The reference of a sample with no holders, its excursion run, and whether it completes the gate.
-/
def chooseReference (state : IdleState F I) (now : Rat) : List (IdleSample F) × Option Rat × Bool :=
  if firm state.samples ≠ [] then
    let (reference, run) := idleReference (firm state.samples) now state.excursionUnix
    (reference, run, false)
  else if completes (pending state.samples) now then (pending state.samples, none, true)
  else ([], none, false)

def join (state : IdleState F I) (sample : HostSample F) (reference : List (IdleSample F))
    (run : Option Rat)
    (completed : Bool) (basis : Basis) (exceeds hasRule : Bool) : IdleState F I :=
  let refusedSeed := basis = .unmeasured && exceeds && hasRule
  let samples := if completed then state.samples.map fun s => { s with provisional := false } else
    state.samples
  if samples.any fun s => s.sampledUnix = sample.sampledUnix then { state with samples := samples }
  else if !refusedSeed then
    { state with
      samples := remember (samples ++ [⟨sample.sampledUnix, sample.value, false⟩])
      excursionUnix := if exceeds ∧ reference ≠ [] then some (run.getD sample.sampledUnix) else
        none }
  else
    { state with
      samples := remember (samples ++ [⟨sample.sampledUnix, sample.value, true⟩])
      excursionUnix := if completed then state.excursionUnix else none }

section

variable [DecidableEq I]

/-- The history of this host, and a new one if the host is another. -/
def ofIdentity (state : Option (IdleState F I)) (identity : I) : IdleState F I :=
  match state with
  | some state => if state.identity = identity then state else { identity := identity }
  | none => { identity := identity }

/-- `idle_judgement_with_reference`. -/
def idleJudgement (fields : List F) (priorRule : Option ((F → Rat) → Bool)) (identity : I)
    (holders : Bool)
    (state : Option (IdleState F I)) (sample : HostSample F) :
      Verdict × IdleState F I × Option (List (IdleSample F)) :=
  let state := ofIdentity state identity
  let now := sample.sampledUnix
  if holders then
    let reference := firm state.samples
    let (basis, exceeds) := judgeIdle reference sample.value fields priorRule
    let seen := if state.holdersSeenUnix.all (· < now) then some now else state.holdersSeenUnix
    (⟨.holdersPresent, some basis, exceeds, some reference.length, none⟩,
      { state with holdersSeenUnix := seen }, some reference)
  else if state.holdersSeenUnix.any (now - sample.intervalS ≤ ·) then
    (⟨.holderTail, none, true, none, none⟩, state, none)
  else
    let (reference, run, completed) := chooseReference state now
    let (basis, exceeds) := judgeIdle reference sample.value fields priorRule
    let verdict : Verdict := ⟨.idle, some basis, exceeds, some reference.length,
      if exceeds then run.map fun run => Rounding.round (now - run) 3 else none⟩
    (verdict, join state sample reference run completed basis exceeds priorRule.isSome,
      some reference)

end

end PrismaBuild.Idle
