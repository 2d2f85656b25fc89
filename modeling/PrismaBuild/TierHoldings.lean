import PrismaBuild.LedgerTokens

namespace PrismaBuild.TierHoldings

open Prog ResourceLedger Ledger

def ramCapacityKind : Name := "ram_gib"
def fillKind : Name := "fill_mb_s_pool_side"
def hostMemoryKind : Name := "mem_gb"
def ramHostMemoryPrefix : Name := "ram-host:"

def mirrorOf (holder : Name) : Name := ramHostMemoryPrefix ++ holder

/-- The ledger of one tier and the ledger of the host whose memory backs it. -/
structure Holdings where
  (tier host : Ledger)

/-- What one call meets: the clock and the host, process and nonce that name its private
directories, and whether the mutation lock and the filesystem floor let an acquisition begin. -/
structure Entry where
  (usec claimant : Name)
  (tierAdmits hostAdmits : Bool)

/-- `claiming.<usec>.<holder>.<host>.<pid>.<nonce>`. -/
def Entry.handleOf (e : Entry) (holder : Name) : Name :=
  acquiringPrefix ++ (e.usec ++ '.' :: (holder ++ '.' :: e.claimant))

def run {α : Type} (p : LedgerProg α) (s : Ledger) : α × Ledger := exec quiet () p s

section

def arrived (p : Place) (before after : Ledger) : List Name :=
  (after.names p).filter fun n => n ∉ before.names p ∧ isMetadata n = false

def returnNames (holder : Place) : List Name → Nat → LedgerProg Nat
  | [], returned => pure returned
  | name :: names, returned => do
    match ← rename holder name .free name with
    | .error _ => returnNames holder names returned
    | .ok _ => returnNames holder names (returned + 1)

def returnTaken (holder : Name) (names : List Name) : LedgerProg Nat := do
  match ← mkdir .free with
  | .error _ => pure 0
  | .ok _ =>
    let returned ← returnNames (.held holder) names 0
    dropEmptyHolder (.held holder)
    pure returned

structure Took where
  outcome : Except Failure Bool
  names : List Name
  after : Ledger

def takeFrom (s : Ledger) (admits : Bool) (e : Entry) (holder : Name) (demand : List (Name × Int)) :
    Took :=
  if admits then
    match run (beginAcquire (e.handleOf holder) demand plainAdmission) s with
    | (.error failure, begun) => ⟨.error failure, [], begun⟩
    | (.ok none, begun) => ⟨.ok false, [], begun⟩
    | (.ok (some handle), begun) =>
      let wanted : Nat := (demand.map fun d => d.2.toNat).sum
      let committed := run (commitAcquire holder handle fun _ => 0) begun
      let names := arrived (.held holder) begun committed.2
      let undone := (run (returnTaken holder names) (run (abandonAcquire handle) committed.2).2).2
      match committed.1 with
      | .error failure => ⟨.error failure, [], undone⟩
      | .ok moved =>
        if moved < (wanted : Int) then ⟨.ok false, [], undone⟩ else ⟨.ok true, names, committed.2⟩
  else ⟨.ok false, [], s⟩

def holdHost (s : Holdings) (e : Entry) (grant : Name) (gib : Int) : Took :=
  takeFrom s.host e.hostAdmits e (mirrorOf grant) [(hostMemoryKind, gib)]

def rollbackHostTake (s : Holdings) (grant : Name) (names : List Name) : Holdings :=
  { s with host := (run (returnTaken (mirrorOf grant) names) s.host).2 }

def demanded (demand : List (Name × Int)) (kind : Name) : Int :=
  match demand.lookup kind with
  | some count => count
  | none => 0

def take (ram : Bool) (s : Holdings) (e : Entry) (holder : Name) (demand : List (Name × Int)) :
    Except Failure Bool × Holdings :=
  let gib := if ram then demanded demand ramCapacityKind else 0
  if gib > 0 then
    let hold := holdHost s e holder gib
    match hold.outcome with
    | .ok true =>
      let taken := takeFrom s.tier e.tierAdmits e holder demand
      match taken.outcome with
      | .ok true => (.ok true, ⟨taken.after, hold.after⟩)
      | outcome => (outcome, rollbackHostTake ⟨taken.after, hold.after⟩ holder hold.names)
    | _ => (.ok false, { s with host := hold.after })
  else
    let taken := takeFrom s.tier e.tierAdmits e holder demand
    (taken.outcome, { s with tier := taken.after })

inductive Advance
  | taken
  | unknown
  | hostShort
  | tierShort

/-- The tier half of `take_advance`. -/
def advanceTier (s : Holdings) (e : Entry) (grant : Name) (gib : Int) (kind : Name) :
    Advance × Holdings :=
  let taken := takeFrom s.tier e.tierAdmits e grant [(kind, gib)]
  match taken.outcome with
  | .error _ => (.unknown, { s with tier := taken.after })
  | .ok false => (.tierShort, { s with tier := taken.after })
  | .ok true => (.taken, { s with tier := taken.after })

def rateKind (kind : Name) : Failure :=
  .contract ("rate kind '" ++ String.ofList kind ++
    "' is not an occupancy kind: RAM host mirrors hold GiB, never a fill ration (#1245 review r2)")

def takeAdvance (ram : Bool) (s : Holdings) (e : Entry) (grant : Name) (gib : Int) (kind : Name) :
    Except Failure Advance × Holdings :=
  if kind = fillKind then (.error (rateKind kind), s)
  else if ram then
    let hold := holdHost s e grant gib
    match hold.outcome with
    | .error _ => (.ok .unknown, { s with host := hold.after })
    | .ok false => (.ok .hostShort, { s with host := hold.after })
    | .ok true =>
      match advanceTier { s with host := hold.after } e grant gib kind with
      | (.taken, s') => (.ok .taken, s')
      | (ended, s') => (.ok ended, rollbackHostTake s' grant hold.names)
  else
    let advanced := advanceTier s e grant gib kind
    (.ok advanced.1, advanced.2)

end

section

def onHost {α : Type} (ram : Bool) (p : LedgerProg α) (s : Holdings) : Holdings :=
  if ram then { s with host := (run p s.host).2 } else s

def handover (ram : Bool) (s : Holdings) (fromKey toKey : Name) : Except Failure Int × Holdings :=
  match run (transfer fromKey toKey) s.tier with
  | (.error e, tier) => (.error e, { s with tier })
  | (.ok moved, tier) =>
    (.ok moved, onHost ram (transfer (mirrorOf fromKey) (mirrorOf toKey)) { s with tier })

def handoverCount (ram : Bool) (s : Holdings) (fromKey toKey : Name) (count : Int) :
    Except Failure Int × Holdings :=
  match run (transferCount fromKey toKey count) s.tier with
  | (.error e, tier) => (.error e, { s with tier })
  | (.ok moved, tier) =>
    (.ok moved, onHost ram (transferCount (mirrorOf fromKey) (mirrorOf toKey) moved)
      { s with tier })

def handoverNamed (ram : Bool) (s : Holdings) (source target : Name) (names : List Name) :
    Except Failure Nat × Holdings :=
  match run (transferTokens source target names) s.tier with
  | (.error e, tier) => (.error e, { s with tier })
  | (.ok moved, tier) =>
    let occupancy := (arrived (.held target) s.tier tier).countP fun n =>
      kindOf n == ramCapacityKind
    if occupancy = 0 then (.ok moved, { s with tier })
    else
      (.ok moved, onHost ram (transferCount (mirrorOf source) (mirrorOf target) occupancy)
        { s with tier })

end

section

def trimHostToOccupancy (s : Holdings) (holder : Name) : Holdings :=
  let target := s.tier.tokens (.held holder) ramCapacityKind
  let current := s.host.tokens (.held (mirrorOf holder)) hostMemoryKind
  if current ≤ target then s
  else
    { s with host :=
        (run (releaseCount (mirrorOf holder) [(hostMemoryKind, (current : Int) - target)]) s.host).2
          }

/-- What a release does on the tier, and then the trim of the host half. -/
def released {α : Type} (ram : Bool) (p : LedgerProg (Except Failure α)) (s : Holdings)
    (holder : Name) :
    Except Failure α × Holdings :=
  match run p s.tier with
  | (.error e, tier) => (.error e, { s with tier })
  | (.ok value, tier) =>
    (.ok value, if ram then trimHostToOccupancy { s with tier } holder else { s with tier })

inductive Unspent
  | whole
  | keep (names : List Name)
  | counts (counts : List (Name × Int))

inductive Returned
  | count (n : Nat)
  | kinds (counts : List (Name × Nat))

def releaseUnspent (ram : Bool) (s : Holdings) (holder : Name) :
    Unspent → Except Failure Returned × Holdings
  | .whole => released ram ((release holder).andThen fun n => pure (.ok (.count n))) s holder
  | .keep names =>
    released ram ((releaseExcept holder names).andThen fun n => pure (.ok (.count n))) s holder
  | .counts counts =>
    released ram ((releaseCount holder counts).andThen fun r => pure (.ok (.kinds r))) s holder

def egress (ram : Bool) (s : Holdings) (holder : Name) : Except Failure Nat × Holdings :=
  released ram (release holder) s holder

/-- `cancel_fence` goes on to the trim when its release fails. -/
def cancelFence (ram : Bool) (s : Holdings) (holder : Name) : Nat × Holdings :=
  let outcome := run (release holder) s.tier
  let after := { s with tier := outcome.2 }
  (match outcome.1 with
    | .ok n => n
    | .error _ => 0,
   if ram then trimHostToOccupancy after holder else after)

structure Settled where
  (destroyed released : List (Name × Nat))
  shortfall : List (Name × Int)

def shortfall (destroy : List (Name × Int)) (destroyed : List (Name × Nat)) : List (Name × Int) :=
  (destroy.map fun d => (d.1, d.2 - (((destroyed.lookup d.1).getD 0 : Nat) : Int))).filter fun d =>
    d.2 > 0

def settleEgress (ram : Bool) (s : Holdings) (key : Name) (destroy free : List (Name × Int)) :
    Except Failure Settled × Holdings :=
  released ram
    ((retireHeld key destroy).andThen fun destroyed =>
      (releaseCount key free).andThen fun returned =>
        pure (.ok ⟨destroyed, returned, shortfall destroy destroyed⟩)) s key

end

/-- A holder's name: never the empty one, which is the directory of all holders. -/
abbrev Holder := { h : Name // h ≠ [] }

abbrev Demand := { d : List (Name × Int) // (d.map Prod.fst).Nodup }

inductive Op
  | take (holder : Holder) (demand : Demand)
  | takeAdvance (grant : Holder) (gib : Int) (kind : Name)
  | handover (fromKey toKey : Holder)
  | handoverNamed (source target : Holder) (names : List Name)
  | handoverCount (fromKey toKey : Holder) (count : Int)
  | releaseUnspent (holder : Holder) (mode : Unspent)
  | egress (holder : Holder)
  | settleEgress (key : Holder) (destroy free : List (Name × Int))
  | cancelFence (holder : Holder)

def Op.perform (s : Holdings) (e : Entry) : Op → Holdings
  | take holder demand => (TierHoldings.take true s e holder demand).2
  | takeAdvance grant gib kind => (TierHoldings.takeAdvance true s e grant gib kind).2
  | handover fromKey toKey => (TierHoldings.handover true s fromKey toKey).2
  | handoverNamed source target names => (TierHoldings.handoverNamed true s source target names).2
  | handoverCount fromKey toKey count => (TierHoldings.handoverCount true s fromKey toKey count).2
  | releaseUnspent holder mode => (TierHoldings.releaseUnspent true s holder mode).2
  | egress holder => (TierHoldings.egress true s holder).2
  | settleEgress key destroy free => (TierHoldings.settleEgress true s key destroy free).2
  | cancelFence holder => (TierHoldings.cancelFence true s holder).2

end PrismaBuild.TierHoldings
