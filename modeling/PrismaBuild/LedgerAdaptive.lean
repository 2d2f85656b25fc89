import PrismaBuild.LedgerTransfer

namespace PrismaBuild.ResourceLedger

open Prog

/-- The configured CPUs. A token's ordinal counts through the preferred ones and then the fallback
ones. -/
structure CpuTiers where
  (preferred fallback : List Int)

namespace CpuTiers

def all (tiers : CpuTiers) : List Int := tiers.preferred ++ tiers.fallback

def restrict (tiers : CpuTiers) (cpus : List Int) : CpuTiers where
  preferred := tiers.preferred.filter (· ∈ cpus)
  fallback := tiers.fallback.filter (· ∈ cpus)

end CpuTiers

/-- What the CPU decision hands to an acquisition. `funded` has the CPUs of a producer's allowance,
and `dependentAllowance` how many CPUs a producer sets aside for its dependents. -/
structure Adaptive where
  preferredBorrow : Int
  eligibleCpus : Option (List Int)
  borrowing : Bool
  borrowableCpus : List Int
  funded : Option (List Int)
  dependentAllowance : Option Int

/-- Everything an acquisition is told besides its demand. `adaptiveGpu` is the GPU decision, with
its `probe`; `recorded` is the allocation in a CPU record that already lies in the directory.
`passes` says that the mutation lock was free and the filesystem floor, where one is bound, let the
demand through. -/
structure Terms where
  passes : Bool
  adaptive : Option Adaptive
  cpuTiers : Option CpuTiers
  adaptiveGpu : Option Bool
  recorded : Option CpuTiers
  (pid nonce : Nat)

namespace Terms

def funded (t : Terms) : Option (List Int) := t.adaptive.bind Adaptive.funded

def borrow (t : Terms) : Int := (t.adaptive.map Adaptive.preferredBorrow).getD 0

def need (t : Terms) (kind : Name) (wanted : Int) : Int :=
    if kind = cpuKind then wanted - t.borrow else wanted

def mayFallShort (t : Terms) (kind : Name) : Bool :=
  kind == cpuKind && t.adaptive.any Adaptive.borrowing || kind == gpuKind && t.adaptiveGpu.any id

end Terms

/-- `int(token.name.split("-")[-1])`. -/
def ordinalOf (n : Name) : Option Nat :=
  let digits := (n.reverse.takeWhile (· ≠ '-')).reverse
  if digits ≠ [] ∧ digits.all Char.isDigit then
    some (digits.foldl (fun index c => 10 * index + (c.toNat - '0'.toNat)) 0) else none

def cpuIds (tiers : CpuTiers) : List Name → Except Failure (List Int)
  | [] => .ok []
  | token :: tokens =>
    match ordinalOf token with
    | none => .error (.contract "invalid literal for int()")
    | some index =>
      match tiers.all[index]? with
      | none => .error (.contract "CPU token exceeds configured topology")
      | some cpu => (cpuIds tiers tokens).map (cpu :: ·)

def freeCpuTokens (tiers : Option CpuTiers) (eligibleCpus : Option (List Int)) :
    LedgerProg (Except Failure (List Name)) :=
  (matchOptional .free).andThen fun listing =>
    let tokens := listing.filter (ofKind cpuKind)
    match eligibleCpus, tiers with
    | none, _ => pure (.ok tokens)
    | some _, none => pure (.error (.contract "eligible CPU selection needs a topology"))
    | some allowed, some tiers =>
      pure ((cpuIds tiers tokens).map fun cpus =>
        ((tokens.zip cpus).filter fun e => e.2 ∈ allowed).map Prod.fst)

def freeTokens (t : Terms) (kind : Name) : LedgerProg (Except Failure (List Name)) :=
  if kind = cpuKind then freeCpuTokens t.cpuTiers (t.adaptive.bind Adaptive.eligibleCpus)
  else (matchOptional .free).andThen fun listing => pure (.ok (listing.filter (ofKind kind)))

def takeWanted (destination : Place) (t : Terms) : List (Name × Int) → LedgerProg Taking
  | [] => pure .complete
  | (kind, wanted) :: rest => do
    match ← freeTokens t kind with
    | .error e => pure (.raised e)
    | .ok tokens =>
      match ← takeTokens destination (t.need kind wanted) tokens 0 with
      | .error e => pure (.raised e)
      | .ok taken =>
        if (taken : Int) < t.need kind wanted ∧ ¬ t.mayFallShort kind then pure .short
        else takeWanted destination t rest

variable (destination : Place)

def writeGpu (t : Terms) : LedgerProg (Except Failure Unit) :=
  match t.adaptiveGpu with
  | none => pure (.ok ())
  | some _ =>
    (matchOptional destination).andThen fun _ =>
      writeJsonAtomic destination gpuMetadata t.pid t.nonce

def heldCpus (tiers : CpuTiers) : LedgerProg (Except Failure (List Int)) :=
  (matchOptional destination).andThen fun listing =>
    pure (cpuIds tiers (listing.filter (ofKind cpuKind)))

/-- A record that has an allocation is believed; without one the tokens decide. -/
def cpuAllocation (recorded : Option CpuTiers) (tiers : CpuTiers) :
    LedgerProg (Except Failure CpuTiers) := do
  match ← stat destination cpuMetadata, recorded with
  | .ok _, some allocation => pure (.ok allocation)
  | .ok _, none | .error .noent, _ =>
    (heldCpus destination tiers).andThen fun cpus => pure (.ok (tiers.restrict cpus))
  | .error e, _ => pure (.error e)

/-- The lendable CPUs of one tier, taken until the demand is covered. -/
def borrowFrom (tier : List Int) (wanted : Int) : List Int → List Int → List Int
  | [], assigned => assigned
  | cpu :: cpus, assigned =>
    if cpu ∉ tier then borrowFrom tier wanted cpus assigned
    else if (assigned.length : Int) ≥ wanted then assigned
    else if cpu ∈ assigned then borrowFrom tier wanted cpus assigned
    else borrowFrom tier wanted cpus (assigned ++ [cpu])

/-- The CPUs of the claim, unless they are not as many as it wants. -/
def assignedCpus (a : Adaptive) (tiers allocation : CpuTiers) (wanted : Int) : Option (List Int) :=
  match a.funded with
  | some cpus =>
    let assigned := (allocation.all ++ cpus).dedup
    if assigned.length = wanted + cpus.length then some assigned else none
  | none =>
    let preferred := borrowFrom tiers.preferred wanted a.borrowableCpus allocation.all.dedup
    let assigned := borrowFrom tiers.fallback wanted a.borrowableCpus preferred
    if assigned.length = wanted then some assigned else none

/-- A producer's allowance is some of the CPUs it holds tokens for, and not all of them. -/
def allowanceFits (count : Int) (allocation : CpuTiers) (own : List Int) : Bool :=
  let ordered := allocation.all.filter (· ∈ own)
  0 < count && count < ordered.length

/-- The tokens that the borrowed CPUs are counted against; funded CPUs are not borrowed. -/
def ownTokens (a : Adaptive) : LedgerProg (Except Failure (List Name)) :=
  if a.funded.isSome then pure (.ok []) else matchOptional destination

/-- The counting and the carving before the CPU record is written, each of which lists the directory
again. -/
def formCpuRecord (a : Adaptive) (tiers : CpuTiers) (assigned : List Int) : LedgerProg Taking := do
  match ← ownTokens destination a, a.dependentAllowance with
  | .error e, _ => pure (.raised e)
  | .ok _, none => pure .complete
  | .ok _, some count =>
    match ← heldCpus destination tiers with
    | .error e => pure (.raised e)
    | .ok own =>
      pure (if allowanceFits count (tiers.restrict assigned) own then .complete else .short)

def writeCpu (t : Terms) (wanted : List (Name × Int)) : LedgerProg Taking :=
  match t.adaptive, t.cpuTiers with
  | some a, some tiers => do
    match ← cpuAllocation destination t.recorded tiers with
    | .error e => pure (.raised e)
    | .ok allocation =>
      match assignedCpus a tiers allocation ((wanted.lookup cpuKind).getD 0) with
      | none => pure .short
      | some assigned =>
        match ← formCpuRecord destination a tiers assigned with
        | .complete =>
          match ← writeJsonAtomic destination cpuMetadata t.pid t.nonce with
          | .error e => pure (.raised e)
          | .ok _ => pure .complete
        | ended => pure ended
  | _, _ => pure .complete

/-- The body between the first rename and the last metadata write. -/
def takeAll (t : Terms) (wanted : List (Name × Int)) : LedgerProg Taking := do
  match ← takeWanted destination t wanted with
  | .complete =>
    match ← writeGpu destination t with
    | .error e => pure (.raised e)
    | .ok _ => writeCpu destination t wanted
  | ended => pure ended

/-- `begin_acquire` with its CPU and GPU terms: the handle of a whole demand, or nothing. -/
def beginAcquireOn (handle : Name) (demand : List (Name × Int)) (t : Terms) :
    LedgerProg (Except Failure (Option Name)) :=
  let wanted := sortedItems (demand.filter fun d => d.2 > 0)
  if !t.passes then pure (.ok none)
  else if wanted.isEmpty && t.funded.isNone then pure (.ok (some handle))
  else
    (mkdir (.held handle)).andThen fun _ => do
      match ← takeAll (.held handle) t wanted with
      | .complete => pure (.ok (some handle))
      | .short => (emptyIntoFree (.held handle)).andThen fun _ => pure (.ok none)
      | .raised e => (emptyIntoFree (.held handle)).andThen fun _ => pure (.error e)

def plainTerms (passes : Bool) : Terms where
  passes := passes
  adaptive := none
  cpuTiers := none
  adaptiveGpu := none
  recorded := none
  pid := 1
  nonce := 1

/-- `acquire`: begin and commit at once. A commit that came short gives everything back. -/
def acquire (key handle : Name) (demand : List (Name × Int)) (lockFree passes : Bool) :
    LedgerProg (Except Failure Bool) :=
  if !lockFree then pure (.ok false)
  else
    (beginAcquireOn handle demand (plainTerms passes)).andThen fun
      | none => pure (.ok false)
      | some handle =>
        (commitAcquire key handle fun _ => 0).andThen fun moved =>
          if moved < ((demand.filter fun d => d.2 > 0).map Prod.snd).sum then
            (abandonAcquire handle).andThen fun _ => (release key).andThen fun _ => pure (.ok false)
          else pure (.ok true)

end PrismaBuild.ResourceLedger
