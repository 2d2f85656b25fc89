import PrismaBuild.LedgerStore

namespace PrismaBuild.ResourceLedger

open Prog

variable (p : Place)

def mkdir : LedgerProg (Except Failure Unit) := perform (LedgerOp.mkdir p)
def rmdir : LedgerProg (Except Failure Unit) := perform (LedgerOp.rmdir p)
def isDir : LedgerProg Bool := perform (LedgerOp.isDir p)
def holderIsDir : LedgerProg (Except Failure Bool) := perform (LedgerOp.statDir p)
def exist (n : Name) : LedgerProg Bool := perform (LedgerOp.exist p n)
def stat (n : Name) : LedgerProg (Except Failure Unit) := perform (LedgerOp.stat p n)
def scanRequired : LedgerProg (Except Failure (List Name)) := perform (LedgerOp.scan p)
def matchOptional : LedgerProg (Except Failure (List Name)) := perform (LedgerOp.glob p)
def holders : LedgerProg (Except Failure (List Name)) := perform LedgerOp.holders
def create (n : Name) : LedgerProg (Except Failure Unit) := perform (LedgerOp.create p n)
def rename (n : Name) (q : Place) (m : Name) : LedgerProg (Except Failure Unit) :=
  perform (LedgerOp.rename p n q m)
def unlink (n : Name) : LedgerProg (Except Failure Unit) := perform (LedgerOp.unlink p n)

def cpuMetadata : Name := ['.', 'a', 'd', 'a', 'p', 't', 'i', 'v', 'e', '.', 'j', 's', 'o', 'n']
def gpuMetadata : Name := ['.', 'g', 'p', 'u', '.', 'j', 's', 'o', 'n']
def isMetadata (n : Name) : Bool := n == cpuMetadata || n == gpuMetadata

/-- The names that `*-*` matches: the token files, never the metadata. -/
def isToken (n : Name) : Bool := '-' ∈ n

/-- The kinds that a file pattern takes literally. -/
def globFree (kind : Name) : Bool := kind.all fun c => c ∉ ['*', '?', '[', '/']

/-- The names that `<kind>-*` matches, for a kind that is taken literally. -/
def ofKind (kind n : Name) : Bool := (kind ++ ['-']).isPrefixOf n

/-- `f"{kind}-{index:04d}"`. -/
def tokenName (kind : Name) (index : Nat) : Name :=
  let digits := Nat.toDigits 10 index
  kind ++ '-' :: (List.replicate (4 - digits.length) '0' ++ digits)

def sortedItems (counts : List (Name × Int)) : List (Name × Int) :=
  counts.insertionSort (fun a b => nameLe a.1 b.1)

def scanOptional : LedgerProg (Except Failure (List Name)) := do
  match ← scanRequired p with
  | .error .noent => pure (.ok [])
  | listing => pure listing

def unlinkMissingOk (n : Name) : LedgerProg (Except Failure Unit) := do
  match ← unlink p n with
  | .error .noent => pure (.ok ())
  | answer => pure answer

variable (strict : Bool)

def censusScan (p : Place) : LedgerProg (Except Failure (List Name)) :=
  if strict then scanRequired p else scanOptional p

def censusGlob (p : Place) : LedgerProg (Except Failure (List Name)) :=
  if strict then scanRequired p else matchOptional p

def presentUnder (strict : Bool) : List Name → List Name → LedgerProg (Except Failure (List Name))
  | [], present => pure (.ok present)
  | h :: hs, present =>
    (holderIsDir (.held h)).andThen fun
      | false => presentUnder strict hs present
      | true => (censusGlob strict (.held h)).andThen fun listing =>
          presentUnder strict hs (present ++ listing.filter isToken)

def adoptNames (minted : List Name) : List Name → List Name →
    LedgerProg (Except Failure (List Name))
  | [], adopted => pure (.ok adopted)
  | n :: ns, adopted =>
    if n ∈ minted then adoptNames minted ns adopted
    else do
      match ← create .minted n with
      | .ok _ | .error .exist => adoptNames minted ns (n :: adopted)
      | .error _ => adoptNames minted ns adopted

def adoptPresentTokens (minted : List Name) : LedgerProg (Except Failure (List Name)) :=
  (censusGlob strict .free).andThen fun free =>
    holders.andThen fun hs =>
      (presentUnder strict hs (free.filter isToken)).andThen fun present =>
        adoptNames minted (sortNames present) []

def tokenIsHeldBy (strict : Bool) (name : Name) : List Name → LedgerProg (Except Failure Bool)
  | [] => pure (.ok false)
  | h :: hs =>
    (holderIsDir (.held h)).andThen fun
      | false => tokenIsHeldBy strict name hs
      | true =>
        if strict then
          (scanRequired (.held h)).andThen fun listing =>
            if name ∈ listing then pure (.ok true) else tokenIsHeldBy strict name hs
        else do
          match ← stat (.held h) name with
          | .ok _ => pure (.ok true)
          | .error .noent => tokenIsHeldBy strict name hs
          | .error e => pure (.error e)

def tokenIsHeld (name : Name) : LedgerProg (Except Failure Bool) :=
  holders.andThen (tokenIsHeldBy strict name)

/-- The index loop of one kind; `rest` is the loop over the later kinds, which a strict ledger
never reaches when a holder cannot be read. -/
def mintNames (strict : Bool) (rest : List Name → LedgerProg (Except Failure Unit)) :
    List Name → List Name → LedgerProg (Except Failure Unit)
  | [], minted => rest minted
  | name :: names, minted =>
    if name ∈ minted then mintNames strict rest names minted
    else do
      match ← create .minted name with
      | .error .exist => mintNames strict rest names minted
      | .error e => pure (.error e)
      | .ok _ =>
        match ← tokenIsHeld strict name with
        | .error e =>
          (unlinkMissingOk .minted name).andThen fun _ =>
            pure (if strict then .ok () else .error e)
        | .ok true => mintNames strict rest names (name :: minted)
        | .ok false =>
          match ← create .free name with
          | .error .exist => mintNames strict rest names (name :: minted)
          | .error e => pure (.error e)
          | .ok _ => mintNames strict rest names (name :: minted)

def negativeCapacity (kind : Name) : Failure :=
  .contract ("capacity for '" ++ String.ofList kind ++ "' must not be negative")

def mintKinds (strict : Bool) : List (Name × Int) → List Name → LedgerProg (Except Failure Unit)
  | [], _ => pure (.ok ())
  | (kind, total) :: rest, minted =>
    if total < 0 then pure (.error (negativeCapacity kind))
    else mintNames strict (mintKinds strict rest) ((List.range total.toNat).map (tokenName kind))
      minted

def mintedCensus : LedgerProg (Except Failure (List Name)) :=
  (censusScan strict .minted).andThen fun minted =>
    (adoptPresentTokens strict minted).andThen fun adopted => pure (.ok (minted ++ adopted))

def ensureCapacity (capacity : List (Name × Int)) : LedgerProg (Except Failure Unit) :=
  (mkdir .free).andThen fun _ => (mkdir .minted).andThen fun _ => do
    match ← mintedCensus strict with
    | .error e => pure (if strict then .ok () else .error e)
    | .ok minted => mintKinds strict (sortedItems capacity) minted

def heldTokens : List Name → List Name → Bool → LedgerProg (List Name × Bool)
  | [], tokens, unreadable => pure (tokens, unreadable)
  | h :: hs, tokens, unreadable => do
    let listing ← (holderIsDir (.held h)).andThen fun
      | false => pure (.ok [])
      | true => scanRequired (.held h)
    match listing with
    | .ok listing => heldTokens hs (tokens ++ listing.filter isToken) unreadable
    | .error .noent => heldTokens hs tokens unreadable
    | .error _ => heldTokens hs tokens true

def mintedAndDeadNames : LedgerProg (Except Failure (List Name × List Name)) :=
  (scanRequired .minted).andThen fun markers =>
    (scanOptional .dead).andThen fun dead => pure (.ok (markers, dead))

/-- How many free tokens of one kind a retirement deletes. `bound` is absent when every holder
was read, and `some none` when the markers that bound an unreadable holder were unreadable too. -/
def retireExcess (kind : Name) (target : Nat) (free held : List Name)
    (bound : Option (Option (List Name × List Name))) : Nat :=
  match bound with
  | none => free.length + (held.filter (ofKind kind)).length - target
  | some none => free.length
  | some (some (markers, dead)) =>
    let unseen := (markers.filter (ofKind kind)).filter fun n => n ∉ free ∧ n ∉ dead
    free.length + (unseen ++ held.filter (ofKind kind)).dedup.length - target

def retireTokens : List Name → Nat → LedgerProg (Except Failure Nat)
  | [], retired => pure (.ok retired)
  | token :: tokens, retired =>
    (unlinkMissingOk .minted token).andThen fun _ => do
      match ← unlink .free token with
      | .error _ => retireTokens tokens retired
      | .ok _ => retireTokens tokens (retired + 1)

def retireKinds (held : List Name) (bound : Option (Option (List Name × List Name))) :
    List (Name × Int) → List (Name × Nat) → LedgerProg (Except Failure (List (Name × Nat)))
  | [], retired => pure (.ok retired)
  | (kind, target) :: rest, retired =>
    if target < 0 then pure (.error (negativeCapacity kind))
    else
      (matchOptional .free).andThen fun listing =>
        let free := listing.filter (ofKind kind)
        (retireTokens (free.reverse.take (retireExcess kind target.toNat free held bound))
          0).andThen
          fun count => retireKinds held bound rest (if count = 0 then retired else
            retired ++ [(kind, count)])

def retireFreeCapacity (capacity : List (Name × Int)) :
    LedgerProg (Except Failure (List (Name × Nat))) :=
  holders.andThen fun hs => do
    let (held, unreadable) ← heldTokens hs [] false
    if unreadable then
      match ← mintedAndDeadNames with
      | .ok names => retireKinds held (some (some names)) (sortedItems capacity) []
      | .error _ => retireKinds held (some none) (sortedItems capacity) []
    else retireKinds held none (sortedItems capacity) []

end PrismaBuild.ResourceLedger
