import PrismaBuild.Roster
import PrismaBuild.SuffixTable

namespace PrismaBuild.Decomposition

structure Limits where
  (setup fraction wall : ℚ)

def Limits.maxWork (l : Limits) : ℚ := l.wall - l.setup

def Limits.minWork (l : Limits) : ℚ := l.setup * (1 - l.fraction) / l.fraction

def unreachable : Int := -1

section

variable (l : Limits) (seconds : List ℚ)

def sums : List ℚ := seconds.scanl (· + ·) 0

/-- The estimated work of the tasks from one position to another. -/
def work (start finish : Nat) : ℚ := (sums seconds).getD finish 0 - (sums seconds).getD start 0

/-- The half-open range of batch ends that are feasible from `start`, by two bisections. -/
def window (start : Nat) : Nat × Nat :=
  (bisectFirst (fun m => decide (l.minWork ≤ work seconds start m)) (seconds.length - start)
    (start + 1)
      (seconds.length + 1) (seconds.length + 1),
    bisectLast (fun m => decide (work seconds start m ≤ l.maxWork)) (seconds.length - start)
      (start + 1)
      (seconds.length + 1) start + 1)

def ends (start : Nat) : List Nat :=
  List.range' (window l seconds start).1
    (min (window l seconds start).2 (seconds.length + 1) - (window l seconds start).1)

def bestCount (table : List Int) (finishes : List Nat) : Int :=
  finishes.foldl (fun best finish =>
    if table.getD finish unreachable ≠ unreachable ∧ best < table.getD finish unreachable + 1 then
      table.getD finish unreachable + 1
    else best) unreachable

def batches : List Int :=
  fillDown (fun table start => bestCount table (ends l seconds start)) seconds.length
    (List.replicate seconds.length unreachable ++ [0])

def batchesAt (start : Nat) : Int := (batches l seconds).getD start unreachable

def wallOf (start finish : Nat) : ℚ := l.setup + work seconds start finish

def bestWall (table : List (WithTop ℚ)) (start : Nat) : WithTop ℚ :=
  (ends l seconds start).foldl (fun best finish =>
    if batchesAt l seconds finish ≠ batchesAt l seconds start - 1 then best
    else if max (wallOf l seconds start finish : WithTop ℚ) (table.getD finish ⊤) < best then
      max (wallOf l seconds start finish : WithTop ℚ) (table.getD finish ⊤)
    else best) ⊤

/-- Pass two: the least largest batch among the cuts of each suffix into that many. -/
def walls : List (WithTop ℚ) :=
  fillDown (fun table start => if batchesAt l seconds start = unreachable then
    ⊤ else bestWall l seconds table start)
    seconds.length (List.replicate seconds.length ⊤ ++ [0])

def wallsAt (start : Nat) : WithTop ℚ := (walls l seconds).getD start ⊤

def cuts : Nat → Nat → Option (List (Nat × Nat))
  | 0, start => if start < seconds.length then none else some []
  | fuel + 1, start =>
    if start < seconds.length then
      match (ends l seconds start).find? fun finish =>
          batchesAt l seconds finish = batchesAt l seconds start - 1 ∧
            (wallOf l seconds start finish : WithTop ℚ) ≤ wallsAt l seconds 0 ∧
            wallsAt l seconds finish ≤ wallsAt l seconds 0 with
      | none => none
      | some finish => (cuts fuel finish).map fun rest => (start, finish) :: rest
    else some []

end

variable {F : Type} [FloatFormat F]

structure Run where
  (first stop : Nat)
  key : Name

variable (tasks : List (LogicalTask F))

def residencyAt (i : Nat) : Name := (tasks[i]?.map fun t => t.residencyKey.1).getD []

def runs : List Run :=
  ((List.range' 1 tasks.length).foldl (fun (state : Nat × List Run) index =>
    if index = tasks.length ∨ residencyAt tasks index ≠ residencyAt tasks state.1 then
      (index, state.2 ++ [⟨state.1, index, residencyAt tasks state.1⟩])
    else state) (0, [])).2

inductive Reason
  | setupMeetsWall
  | floorAboveCeiling
  | taskPastCeiling (id : Name) (seconds : ℚ)
  | noPartition
  | noReconstruction

/-- A `PartitionRefused`: the run, its estimate, the limits, and why they admit no cover. -/
structure Refusal where
  run : Run
  estimated : ℚ
  limits : Limits
  reason : Reason

def slice (r : Run) : List (LogicalTask F) := (tasks.drop r.first).take (r.stop - r.first)

def partitionRun (r : Run) (l : Limits) : Except Refusal (List (List Nat)) :=
  let seconds := (slice tasks r).map LogicalTask.seconds
  let refuse := fun reason => .error ⟨r, seconds.sum, l, reason⟩
  if l.maxWork ≤ 0 then refuse .setupMeetsWall
  else if l.maxWork < l.minWork then refuse .floorAboveCeiling
  else
    match (slice tasks r).find? fun t => l.maxWork < t.seconds with
    | some t => refuse (.taskPastCeiling t.id.1 t.seconds)
    | none =>
      if batchesAt l seconds 0 = unreachable then refuse .noPartition
      else
        match cuts l seconds seconds.length 0 with
        | none => refuse .noReconstruction
        | some pairs => .ok (pairs.map fun c => List.range' (r.first + c.1) (c.2 - c.1))

inductive PartitionError
  | refused (refusal : Refusal)
  | unpriced (key : Name)

def idsAt (indices : List Nat) : List Name :=
  indices.filterMap fun i => tasks[i]?.map fun t => t.id.1

def partitionRuns (tasks : List (LogicalTask F)) (policy : BatchPolicy F) :
    List Run → Except PartitionError (List (List Name))
  | [] => .ok []
  | r :: rest =>
    match policy.setupSeconds r.key with
    | none => .error (.unpriced r.key)
    | some setup =>
      match partitionRun tasks r ⟨setup, FloatFormat.value policy.maxSetupFraction.1,
          FloatFormat.value policy.maxEstimatedWallSeconds.1⟩ with
      | .error refusal => .error (.refused refusal)
      | .ok indices => do
        let more ← partitionRuns tasks policy rest
        pure (indices.map (idsAt tasks) ++ more)

def partitionRoster (roster : Roster F) (policy : BatchPolicy F) :
    Except PartitionError (List (List Name)) :=
  partitionRuns roster.tasks policy (runs roster.tasks)

end PrismaBuild.Decomposition
