import PrismaBuild.LedgerTokens

namespace PrismaBuild.PrelaunchGroup

open Prog ResourceLedger Ledger

/-- One unit on one tier: its holder, which has no dot in its name, the capacity kind of the tier
and the filed demand. -/
structure Group where
  (holder kind : Name)
  demand : Nat
  dotless : '.' ∉ holder

/-- The process that reconciles, and which processes of its host are alive. -/
structure Machine where
  host : Name
  pid : Nat
  alive : Nat → Bool
  named : host ≠ []

def isHex (c : Char) : Bool := c ∈ "0123456789abcdef".toList

inductive Filing
  | filed
  | standing
  | conflict
  | unknown
  deriving DecidableEq

/-- What one pass meets: the clock and the nonce that name its acquisition, whether the mutation
lock is free, and how filing a receipt ends. -/
structure Entry where
  usec : Nat
  nonce : { n : Name // n.length = 8 ∧ n.all isHex = true }
  lockFree : Bool
  filing : Filing

/-- `claiming.<usec>.<holder>.<host>.<pid>.<nonce>`. -/
def handleName (g : Group) (w : Machine) (e : Entry) : Name :=
  acquiringPrefix ++ (Nat.toDigits 10 e.usec ++ '.' :: (g.holder ++ '.' :: (w.host ++ '.' ::
    (Nat.toDigits 10 w.pid ++ '.' :: e.nonce.val))))

section

structure Handle where
  name : Name
  usec : Nat
  host : Name
  (pid tokens : Nat)

def isDigits (text : Name) : Bool := !text.isEmpty && text.all Char.isDigit

/-- `_acquisition_handle_of`: the stamp, host and process of a holder's own private name. -/
def acquisitionHandleOf (name holder : Name) : Option (Nat × Name × Nat) :=
  let parts := name.splitOn '.'
  if parts.length < 6 ∨ isPrivateHolder name = false ∨ parts.getD 2 [] ≠ holder then none
  else
    let usec := parts.getD 1 []
    let pid := parts.getD (parts.length - 2) []
    let nonce := parts.getD (parts.length - 1) []
    if isDigits usec && isDigits pid && (nonce.length == 8 && nonce.all isHex) then
      let host := ['.'].intercalate ((parts.drop 3).take (parts.length - 5))
      if host = [] then none else some (Nat.ofDigitChars 10 usec 0, host, Nat.ofDigitChars 10 pid 0)
    else none

def acquisitionsUnder (holder : Name) : List Name → List Handle →
    LedgerProg (Except Failure (List Handle))
  | [], found => pure (.ok found)
  | entry :: entries, found => do
    if ← isDir (.held entry) then
      match acquisitionHandleOf entry holder with
      | none => acquisitionsUnder holder entries found
      | some (usec, host, pid) =>
        (scanOptional (.held entry)).andThen fun listing =>
          let tokens := listing.countP fun n => !isMetadata n
          acquisitionsUnder holder entries (found ++ [⟨entry, usec, host, pid, tokens⟩])
    else acquisitionsUnder holder entries found

/-- `acquisitions_of`: the names of `held/` come in order. -/
def acquisitionsOf (holder : Name) : LedgerProg (Except Failure (List Handle)) :=
  holders.andThen fun entries => acquisitionsUnder holder entries []

def unparsedUnder (holder : Name) : List Name → List Name → LedgerProg (Except Failure (List Name))
  | [], found => pure (.ok found)
  | entry :: entries, found => do
    if ← isDir (.held entry) then
      let parts := entry.splitOn '.'
      if isPrivateHolder entry && (acquisitionHandleOf entry holder).isNone &&
        decide (parts.length ≥ 3) &&
          parts.getD 2 [] == holder then
        unparsedUnder holder entries (found ++ [entry])
      else unparsedUnder holder entries found
    else unparsedUnder holder entries found

def unparsedAcquisitionsOf (holder : Name) : LedgerProg (Except Failure (List Name)) :=
  holders.andThen fun entries => unparsedUnder holder entries []

def Machine.isMe (w : Machine) (x : Handle) : Bool := x.host == w.host && x.pid == w.pid

def Machine.isDead (w : Machine) (x : Handle) : Bool := x.host == w.host && !w.alive x.pid

end

section

structure Rollback where
  (number hSeen pSeen : Nat)

structure Receipts where
  (intent committed : Bool)
  rolledBack : List Rollback

/-- What the funding records, the done records and the released receipt say of the chunk movers, and
whether one of them would not read. -/
structure Coverage where
  (m s r : Nat)
  unreadable : Bool

structure Census where
  (h p m s r : Nat)
  receipts : Receipts
  unparsed : List Name
  handles : List Handle
  unknown : Bool

def readOr {α : Type} (missing : α) : Except Failure α → α
  | .ok value => value
  | .error _ => missing

def census (g : Group) (c : Coverage) (receipts : Receipts) : LedgerProg Census := do
  let held ← matchOptional (.held g.holder)
  let handles ← acquisitionsOf g.holder
  let unparsed ← unparsedAcquisitionsOf g.holder
  pure
    { h := (readOr [] held).countP (isKind g.kind)
      p := ((readOr [] handles).map Handle.tokens).sum
      m := c.m
      s := c.s
      r := c.r
      receipts
      unparsed := readOr [] unparsed
      handles := readOr [] handles
      unknown := !held.isOk || !handles.isOk || !unparsed.isOk || c.unreadable }

def incrementalNeedGib (found : Census) (demand : Nat) : Int :=
  max 0 ((demand : Int) - (found.h + found.p + found.m + found.s))

end

inductive State
  | unreserved
  | acquiring
  | reserved
  | splitting
  | done
  | short
  | overfull
  | unknown
  deriving DecidableEq

inductive Event
  | handleUnparsed
  | unknownEvidence
  | noIntent
  | notWriter
  | acquisitionCommitted
  | acquisitionInFlight
  | beginDeclined
  | groupToppedUp
  | groupBegun
  | groupCommitted
  | groupShort
  | groupOverfull
  | groupRolledBack
  deriving DecidableEq

inductive Decline
  | lockBusy
  | noRoom (kind : Name) (asked : Int)

structure Outcome where
  state : State
  events : List Event
  authority : Bool
  census : Census
  needGib : Option Int
  decline : Option Decline

/-- `ReconcileOutcome(state, events, authority, found)`. -/
def outcome (state : State) (events : List Event) (authority : Bool) (found : Census) : Outcome :=
  ⟨state, events, authority, found, none, none⟩

section

def accounted (found : Census) (demand : Nat) : State × Bool :=
  let sum := found.h + found.m + found.s + found.r
  if sum ≠ demand then (if sum < demand then .short else .overfull, false)
  else if found.m = 0 ∧ found.r = 0 then (.reserved, true)
  else if found.h = 0 then (.done, true)
  else (.splitting, true)

def settleHandles (w : Machine) (holder : Name) (found : Census) : List Handle → Bool → List Event →
    LedgerProg Outcome
  | [], live, events =>
    pure (outcome .acquiring (if live then events ++ [.acquisitionInFlight] else events) false
      found)
  | x :: xs, live, events =>
    if w.isMe x || w.isDead x then do
      match ← commitAcquire holder x.name fun _ => 0 with
      | .error _ => pure (outcome .unknown (events ++ [.unknownEvidence]) false found)
      | .ok moved =>
        settleHandles w holder found xs live (if moved > 0 then events ++ [.acquisitionCommitted]
          else events)
    else settleHandles w holder found xs true events

def beginTake (g : Group) (w : Machine) (e : Entry) (need : Int) :
    LedgerProg (Except Failure (Option Name)) :=
  if e.lockFree then beginAcquire (handleName g w e) [(g.kind, need)] plainAdmission else
    pure (.ok none)

def shortageReason (g : Group) (e : Entry) (need : Int) : Decline :=
  if e.lockFree then .noRoom g.kind need else .lockBusy

def topUp (g : Group) (w : Machine) (e : Entry) (found : Census) (events : List Event) :
    LedgerProg Outcome := do
  let deficit := (g.demand : Int) - (found.h + found.m + found.s + found.r)
  match ← beginTake g w e deficit with
  | .error _ => pure (outcome .unknown (events ++ [.unknownEvidence]) false found)
  | .ok none =>
    pure ⟨.short, events ++ [.beginDeclined], false, found, some deficit,
      some (shortageReason g e deficit)⟩
  | .ok (some _) => pure ⟨.acquiring, events ++ [.groupToppedUp], false, found, some deficit, none⟩

def commitReceipt (e : Entry) (receipts : Receipts) : Receipts :=
  match e.filing with
  | .filed | .standing => { receipts with committed := true }
  | .conflict | .unknown => receipts

def filedEvents (e : Entry) (events : List Event) : List Event :=
  if e.filing = .filed then events ++ [.groupCommitted] else events

def rollbackReceipt (receipts : Receipts) (found : Census) : Receipts :=
  let taken := receipts.rolledBack.map Rollback.number
  let number := if taken = [] then 0 else taken.foldl max 0 + 1
  { receipts with rolledBack := receipts.rolledBack ++ [⟨number, found.h, found.p⟩] }

end

section

variable (g : Group) (w : Machine) (c : Coverage) (e : Entry)

def reconcileCommitted (writerIsMe : Bool) (found : Census) (events : List Event) :
    LedgerProg Outcome :=
  let (state, authority) := accounted found g.demand
  if !authority && writerIsMe && found.p > 0 then
    settleHandles w g.holder found found.handles false events
  else if !authority && writerIsMe && state == .short && found.h == 0 then topUp g w e found events
  else if authority then pure (outcome state events true found)
  else do
    -- on a ram tier the host half is trimmed next, which touches no token of the tier
    let released ← release g.holder
    let events := if released.isOk then events else events ++ [.unknownEvidence]
    pure (outcome state (events ++ [if state = .short then .groupShort else .groupOverfull]) false
      found)

/-- The holder covers the demand: file the receipt, and release a holder that shared coverage makes
too full. -/
def reconcileCovered (found : Census) (events : List Event) : LedgerProg (Outcome × Receipts) :=
  if e.filing = .conflict then pure (outcome .unknown (events ++ [.unknownEvidence]) false found,
    found.receipts)
  else
    let receipts := commitReceipt e found.receipts
    let events := filedEvents e events
    let (state, authority) := accounted found g.demand
    if authority then pure (outcome state events true found, receipts)
    else do
      let released ← release g.holder
      let events := if released.isOk then events else events ++ [.unknownEvidence]
      pure (outcome .overfull (events ++ [.groupOverfull]) false found, receipts)

/-- The holder has some tokens and not the demand: give them back. -/
def reconcilePartial (found : Census) (events : List Event) : LedgerProg (Outcome × Receipts) := do
  match ← release g.holder with
  | .error _ => pure (outcome .unknown (events ++ [.unknownEvidence]) false found, found.receipts)
  | .ok _ =>
    pure (outcome .unreserved (events ++ [.groupRolledBack]) false found,
      rollbackReceipt found.receipts found)

/-- Nothing is held: file the receipt of a covered demand, or begin to acquire what is missing. -/
def reconcileEmpty (found : Census) (events : List Event) : LedgerProg (Outcome × Receipts) :=
  let need := incrementalNeedGib found g.demand
  if need ≤ 0 then
    if e.filing = .conflict then pure (outcome .unknown (events ++ [.unknownEvidence]) false found,
      found.receipts)
    else
      let receipts := commitReceipt e found.receipts
      let events := filedEvents e events
      let (state, authority) := accounted found g.demand
      if authority then pure (outcome state events true found, receipts)
      else pure (outcome state (events ++ [.groupShort]) false found, receipts)
  else do
    match ← beginTake g w e need with
    | .error _ => pure (outcome .unknown (events ++ [.unknownEvidence]) false found, found.receipts)
    | .ok none =>
      let events := events ++ [.beginDeclined]
      pure (⟨.unreserved, events, false, found, some need, some (shortageReason g e need)⟩,
        found.receipts)
    | .ok (some _) =>
      let after ← census g c found.receipts
      pure (⟨.acquiring, events ++ [.groupBegun], false, after, some need, none⟩, found.receipts)

def reconcile (writerIsMe : Bool) (receipts : Receipts) : LedgerProg (Outcome × Receipts) := do
  let found ← census g c receipts
  let events : List Event := if found.unparsed = [] then [] else [.handleUnparsed]
  if found.unknown then pure (outcome .unknown (events ++ [.unknownEvidence]) false found, receipts)
  else if !found.receipts.intent then
    pure (outcome .unreserved (events ++ [.noIntent]) false found, receipts)
  else if found.receipts.committed then do
    let ended ← reconcileCommitted g w e writerIsMe found events
    pure (ended, receipts)
  else if !writerIsMe then
    if found.p > 0 then pure (outcome .acquiring (events ++ [.notWriter]) false found, receipts)
    else
      let state := (accounted found g.demand).1
      let passive :=
        if state = .short ∨ state = .overfull then state
        else if found.h = g.demand then .reserved else .unreserved
      pure (outcome passive (events ++ [.notWriter]) false found, receipts)
  else if found.p > 0 then do
    let ended ← settleHandles w g.holder found found.handles false events
    pure (ended, receipts)
  else if found.h + found.s = g.demand ∨ found.h = g.demand then reconcileCovered g e found events
  else if found.h > 0 then reconcilePartial g found events
  else reconcileEmpty g w c e found events

end

end PrismaBuild.PrelaunchGroup
