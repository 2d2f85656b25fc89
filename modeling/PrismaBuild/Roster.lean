import PrismaBuild.ActionParams

namespace PrismaBuild.Decomposition

open Contract List

variable {F : Type} [FloatFormat F]

def finiteProblem (x : F) : Option String :=
  if FloatFormat.finite x then none else some "must be finite"

def positiveProblem (x : F) : Option String :=
  (finiteProblem x).or (if 0 < FloatFormat.value x then none else some "must be greater than zero")

def nonnegativeProblem (x : F) : Option String :=
  (finiteProblem x).or (if FloatFormat.value x < 0 then some "must not be negative" else none)

def fractionProblem (x : F) : Option String :=
  if FloatFormat.finite x ∧ 0 < FloatFormat.value x ∧ FloatFormat.value x ≤ 1 then
    none else some "must be in (0, 1]"

/-- A duration that passed `_finite_positive`. -/
abbrev Positive (F : Type) [FloatFormat F] := { x : F // positiveProblem x = none }

/-- A duration that passed `_finite_nonnegative`. -/
abbrev Nonnegative (F : Type) [FloatFormat F] := { x : F // nonnegativeProblem x = none }

abbrev Fraction (F : Type) [FloatFormat F] := { x : F // fractionProblem x = none }

theorem positive_of_accepted (x : Positive F) : 0 < FloatFormat.value x.1 := by
  have h := x.2
  unfold positiveProblem at h
  by_contra hneg
  rw [if_neg hneg] at h
  cases hf : finiteProblem x.1 <;> simp [hf] at h

theorem fraction_of_accepted (x : Fraction F) : 0 < FloatFormat.value x.1 ∧
    FloatFormat.value x.1 ≤ 1 := by
  have h := x.2
  unfold fractionProblem at h
  split at h
  next hx => exact hx.2
  next => cases h

structure LogicalTask (F : Type) [FloatFormat F] where
  id : Text idText
  payload : Json F
  residencyKey : Text idText
  estimatedSeconds : Positive F
  estimateEvidence : Text plainText
  outputId : Text idText

def LogicalTask.seconds (t : LogicalTask F) : ℚ := FloatFormat.value t.estimatedSeconds.1

theorem LogicalTask.seconds_pos (t : LogicalTask F) :
    0 < t.seconds := positive_of_accepted t.estimatedSeconds

/-- A task list: at least one task, and no id and no output id twice. -/
structure Roster (F : Type) [FloatFormat F] where
  tasks : List (LogicalTask F)
  nonempty : tasks ≠ []
  ids : (tasks.map fun t => t.id.1).Nodup
  outputs : (tasks.map fun t => t.outputId.1).Nodup

def rosterSchema : Name := "prismabuild.logical_task_roster.v1"

structure Residency (F : Type) [FloatFormat F] where
  key : Text idText
  setupSeconds : Nonnegative F
  setupEvidence : Text plainText

/-- The limits a batch is cut by: each residency priced once. `declaredFraction` is the fraction as
it was written. -/
structure BatchPolicy (F : Type) [FloatFormat F] where
  residencies : List (Residency F)
  keys : (residencies.map fun r => r.key.1).Nodup
  declaredFraction : Json F
  maxSetupFraction : Fraction F
  maxEstimatedWallSeconds : Positive F

def policySchema : Name := "prismabuild.roster_batch_policy.v1"

def BatchPolicy.setupSeconds (p : BatchPolicy F) (key : Name) : Option ℚ :=
  (p.residencies.find? fun r => r.key.1 == key).map fun r => FloatFormat.value r.setupSeconds.1

def BatchPolicy.Prices (p : BatchPolicy F) (r : Roster F) : Prop :=
  ∀ t ∈ r.tasks, (p.setupSeconds t.residencyKey.1).isSome = true

end PrismaBuild.Decomposition
