import PrismaBuild.LedgerCapacity

namespace PrismaBuild.ResourceLedger

open Prog

def acquiringPrefix : Name := ['c', 'l', 'a', 'i', 'm', 'i', 'n', 'g', '.']
variable (key : Name)

def isPrivateHolder : Bool := acquiringPrefix.isPrefixOf key

/-- `token.name.rsplit("-", 1)[0]`. -/
def kindOf (n : Name) : Name :=
  if isToken n then ((n.reverse.dropWhile (· ≠ '-')).drop 1).reverse else n

def dropEmptyHolder (holder : Place) : LedgerProg Unit := do
  match ← scanOptional holder with
  | .error _ => pure ()
  | .ok listing =>
    if listing.all isMetadata then
      let dropped ← (unlinkMissingOk holder cpuMetadata).andThen fun _ =>
        unlinkMissingOk holder gpuMetadata
      match dropped with
      | .error _ => pure ()
      | .ok _ => let _ ← rmdir holder; pure ()
    else pure ()

def makeDead (dead : Bool) : LedgerProg (Except Failure Unit) :=
  if dead then pure (.ok ()) else mkdir .dead

/-- The token loop of `retire_held` for one kind. `dead` says whether `minted/dead` has been
made by this call; while it cannot be made, tokens stay where they are. -/
def retireHeldTokens (holder : Place) (want : Int) :
    List Name → Nat → Bool → LedgerProg (Nat × Bool)
  | [], taken, dead => pure (taken, dead)
  | token :: tokens, taken, dead =>
    if (taken : Int) ≥ want then pure (taken, dead)
    else if isMetadata token then retireHeldTokens holder want tokens taken dead
    else do
      match ← makeDead dead with
      | .error _ => retireHeldTokens holder want tokens taken false
      | .ok _ =>
        match ← rename holder token .dead token with
        | .ok _ => retireHeldTokens holder want tokens (taken + 1) true
        | .error .noent =>
          if ← exist .dead token then retireHeldTokens holder want tokens (taken + 1) true
          else retireHeldTokens holder want tokens taken true
        | .error _ => retireHeldTokens holder want tokens taken true

def retireHeldKinds (holder : Place) : List (Name × Int) → List (Name × Nat) → Bool →
    LedgerProg (Except Failure (List (Name × Nat)))
  | [], destroyed, _ => pure (.ok destroyed)
  | (kind, want) :: rest, destroyed, dead =>
    if want ≤ 0 then retireHeldKinds holder rest destroyed dead
    else
      (matchOptional holder).andThen fun listing => do
        let (taken, dead) ← retireHeldTokens holder want (listing.filter (ofKind kind)).reverse 0
          dead
        retireHeldKinds holder rest (if taken = 0 then destroyed else destroyed ++ [(kind, taken)])
          dead

def retireHeld (counts : List (Name × Int)) :
    LedgerProg (Except Failure (List (Name × Nat))) := do
  if ← isDir (.held key) then
    (retireHeldKinds (.held key) (sortedItems counts) [] false).andThen fun destroyed => do
      dropEmptyHolder (.held key)
      pure (.ok destroyed)
  else pure (.ok [])

/-- The loop behind every return of tokens to `free/`: at most `want` of the tokens that `pick`
selects, a rename that fails leaving its token held. The flag says whether one did. -/
def returnTokens (holder : Place) (pick : Name → Bool) (want : Option Int) :
    List Name → Nat → Bool → LedgerProg (Nat × Bool)
  | [], released, incomplete => pure (released, incomplete)
  | token :: tokens, released, incomplete =>
    if want.any (fun w => (released : Int) ≥ w) then pure (released, incomplete)
    else if isMetadata token || !pick token then
      returnTokens holder pick want tokens released incomplete
    else do
      match ← rename holder token .free token with
      | .error _ => returnTokens holder pick want tokens released true
      | .ok _ => returnTokens holder pick want tokens (released + 1) incomplete

def releaseCountKinds (holder : Place) : List (Name × Int) → List (Name × Nat) →
    LedgerProg (Except Failure (List (Name × Nat)))
  | [], released => pure (.ok released)
  | (kind, want) :: rest, released =>
    if want ≤ 0 then releaseCountKinds holder rest released
    else
      (matchOptional holder).andThen fun listing => do
        let (taken, _) ← returnTokens holder (fun _ => true) (some want)
          (listing.filter (ofKind kind)) 0 false
        releaseCountKinds holder rest (if taken = 0 then released else released ++ [(kind, taken)])

def releaseCount (counts : List (Name × Int)) :
    LedgerProg (Except Failure (List (Name × Nat))) := do
  if ← isDir (.held key) then
    (mkdir .free).andThen fun _ =>
      (releaseCountKinds (.held key) (sortedItems counts) []).andThen fun released => do
        dropEmptyHolder (.held key)
        pure (.ok released)
  else pure (.ok [])

/-- `release_kinds` and `release_except`: the tokens that `pick` selects go back and the holder
directory stays. -/
def releasePicked (pick : Name → Bool) : LedgerProg (Except Failure Nat) := do
  if ← isDir (.held key) then
    (mkdir .free).andThen fun _ =>
      (scanOptional (.held key)).andThen fun listing => do
        let (released, _) ← returnTokens (.held key) pick none listing 0 false
        pure (.ok released)
  else pure (.ok 0)

def releaseKinds (kinds : List Name) : LedgerProg (Except Failure Nat) :=
  releasePicked key fun token => kindOf token ∈ kinds

def releaseExcept (keep : List Name) : LedgerProg (Except Failure Nat) :=
  releasePicked key fun token => token ∉ keep

def unlinkMetadata (holder : Place) : List Name → LedgerProg (Except Failure Unit)
  | [] => pure (.ok ())
  | marker :: markers =>
    (unlinkMissingOk holder marker).andThen fun _ => unlinkMetadata holder markers

def emptyIntoFree (holder : Place) : LedgerProg (Except Failure Nat) := do
  if ← isDir holder then
    (mkdir .free).andThen fun _ =>
      (scanOptional holder).andThen fun listing => do
        let (released, incomplete) ← returnTokens holder (fun _ => true) none listing 0 false
        if incomplete then pure (.ok released)
        else
          (unlinkMetadata holder (listing.filter isMetadata)).andThen fun _ => do
            let _ ← rmdir holder
            pure (.ok released)
  else pure (.ok 0)

def release : LedgerProg (Except Failure Nat) := emptyIntoFree (.held key)

def abandonAcquire (handle : Name) : LedgerProg (Except Failure Nat) := emptyIntoFree (.held handle)

/-- `stale` is the judgement the sweep forms from a holder's stamp, the clock, the grace and the
claimant's process; it reads no token. -/
def sweepHolders (stale : Name → Bool) : List Name → List Name →
    LedgerProg (Except Failure (List Name))
  | [], swept => pure (.ok swept)
  | h :: hs, swept =>
    if isPrivateHolder h then do
      if ← isDir (.held h) then
        if stale h then
          (emptyIntoFree (.held h)).andThen fun _ => sweepHolders stale hs (swept ++ [h])
        else sweepHolders stale hs swept
      else sweepHolders stale hs swept
    else sweepHolders stale hs swept

def sweepStaleAcquisitions (stale : Name → Bool) : LedgerProg (Except Failure (List Name)) :=
  holders.andThen fun hs => sweepHolders stale hs []

/-- How taking the demand ended: `short` is the private `_Insufficient`. -/
inductive Taking
  | complete
  | short
  | raised (e : Failure)

/-- What an acquisition is told besides its demand: the adaptive CPU and GPU decisions, of which
only the parts that steer the token loop are kept, and the stamp of its temporary files.
`cpuOutcome` is how forming the CPU allocation from the tokens taken ended. -/
structure Admission where
  cpuBorrow : Int
  cpuSelectable : Bool
  cpuEligible : Name → Bool
  (cpuBorrowing gpuProbe funded gpuRecord cpuRecord : Bool)
  cpuOutcome : Taking
  (pid nonce : Nat)

def cpuKind : Name := ['c', 'p', 'u']
def gpuKind : Name := ['g', 'p', 'u']

/-- `.{name}.{pid}.{uuid}.tmp`. -/
def temporaryName (name : Name) (pid nonce : Nat) : Name :=
  '.' :: name ++ '.' :: Nat.toDigits 10 pid ++ '.' :: Nat.toDigits 16 nonce ++ ['.', 't', 'm', 'p']

def writeJsonAtomic (p : Place) (name : Name) (pid nonce : Nat) :
    LedgerProg (Except Failure Unit) :=
  let temporary := temporaryName name pid nonce
  (mkdir p).andThen fun _ => (create p temporary).andThen fun _ => do
    match ← rename p temporary p name with
    | .ok _ => pure (.ok ())
    | .error e => (unlinkMissingOk p temporary).andThen fun _ => pure (.error e)

def takeTokens (destination : Place) (need : Int) :
    List Name → Nat → LedgerProg (Except Failure Nat)
  | [], taken => pure (.ok taken)
  | token :: tokens, taken =>
    if (taken : Int) ≥ need then pure (.ok taken)
    else do
      match ← rename .free token destination token with
      | .ok _ => takeTokens destination need tokens (taken + 1)
      | .error .noent => takeTokens destination need tokens taken
      | .error e => pure (.error e)

def mayFallShort (a : Admission) (kind : Name) : Bool :=
  kind == cpuKind && a.cpuBorrowing || kind == gpuKind && a.gpuProbe

def takeKinds (destination : Place) (a : Admission) : List (Name × Int) → LedgerProg Taking
  | [] => pure .complete
  | (kind, wanted) :: rest => do
    let need := if kind = cpuKind then wanted - a.cpuBorrow else wanted
    match ← matchOptional .free with
    | .error e => pure (.raised e)
    | .ok listing =>
      if kind = cpuKind ∧ ¬ a.cpuSelectable then
        pure (.raised (.contract "CPU token exceeds configured topology"))
      else
        let tokens := listing.filter fun n => ofKind kind n && (kind ≠ cpuKind || a.cpuEligible n)
        match ← takeTokens destination need tokens 0 with
        | .error e => pure (.raised e)
        | .ok taken =>
          if (taken : Int) < need ∧ ¬ mayFallShort a kind then pure .short
          else takeKinds destination a rest

def writeGpuRecord (destination : Place) (a : Admission) : LedgerProg (Except Failure Unit) :=
  if a.gpuRecord then
    (matchOptional destination).andThen fun _ =>
      writeJsonAtomic destination gpuMetadata a.pid a.nonce
  else pure (.ok ())

def writeRecords (destination : Place) (a : Admission) : LedgerProg Taking := do
  match ← writeGpuRecord destination a with
  | .error e => pure (.raised e)
  | .ok _ =>
    if a.cpuRecord then
      match a.cpuOutcome with
      | .complete =>
        match ← writeJsonAtomic destination cpuMetadata a.pid a.nonce with
        | .ok _ => pure .complete
        | .error e => pure (.raised e)
      | ended => pure ended
    else pure .complete

def takeDemand (destination : Place) (wanted : List (Name × Int)) (a : Admission) :
    LedgerProg Taking := do
  match ← takeKinds destination a wanted with
  | .complete => writeRecords destination a
  | ended => pure ended

/-- `_begin_acquire_locked`. `handle` is the fresh private name; `none` is a refused demand. -/
def beginAcquire (handle : Name) (demand : List (Name × Int)) (a : Admission) :
    LedgerProg (Except Failure (Option Name)) :=
  let wanted := sortedItems (demand.filter fun d => d.2 > 0)
  if wanted.isEmpty && !a.funded then pure (.ok (some handle))
  else
    (mkdir (.held handle)).andThen fun _ => do
      match ← takeDemand (.held handle) wanted a with
      | .complete => pure (.ok (some handle))
      | .short => (emptyIntoFree (.held handle)).andThen fun _ => pure (.ok none)
      | .raised e => (emptyIntoFree (.held handle)).andThen fun _ => pure (.error e)

end PrismaBuild.ResourceLedger
