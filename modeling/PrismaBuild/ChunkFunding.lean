import PrismaBuild.FundingRun
import PrismaBuild.LedgerTransfer
import PrismaBuild.ResidencyPlan

namespace PrismaBuild.ChunkFunding

open Prog Funding ResourceLedger

/-- One leg of a prelaunch group: the bytes that its mover stages and the tokens that they take. -/
structure Leg where
  mover : Name
  (startBytes endBytes : Int)
  stageGib : Nat
  named : mover ≠ []
  spans : startBytes < endBytes
  positive : 0 < stageGib

/-- A prelaunch group on one tier: its holder, the plan it serves and the legs of that plan. -/
structure Group where
  (tierId holder consumer planSha256 : Name)
  legs : List Leg
  distinct : (legs.map Leg.mover).Nodup
  apart : holder ∉ legs.map Leg.mover

def Group.kind (g : Group) : Name := Residency.capacityKindOf g.tierId

def Group.path (g : Group) (leg : Leg) : Name × Name := (leg.mover, g.tierId)

inductive Slot
  | ready
  | claimed

/-- What `window_evidence` answers. -/
inductive Evidence (F : Type)
  | unknown
  | absent
  | record (r : WindowRecord F)

/-- The single steps of a handoff: those on the tier's ledger, and those on the mover's lock, row
and record. -/
inductive ChunkOp (F : Type)
  | ledger (o : LedgerOp)
  | lock (mover : Name)
  | present (slot : Slot) (mover : Name)
  | evidence (path : Name × Name)
  | mint
  | write (checked : WindowRecord F) (expectGeneration : Option Name) (rotate : Bool)
  | advance (path : Name × Name) (generation : Name)

abbrev ChunkOp.Answer {F : Type} : ChunkOp F → Type
  | ledger o => o.Answer
  | lock _ => Bool
  | present _ _ => Except Failure Bool
  | evidence _ => Evidence F
  | mint => Nonce × Json F
  | write _ _ _ => Bool
  | advance _ _ => Bool

abbrev ChunkProg (F : Type) := Prog (ChunkOp F) ChunkOp.Answer

structure ChunkState (F : Type) where
  tier : Ledger
  files : Name × Name → Option (WindowRecord F)

/-- What one step meets. A write that is not `reported` has landed and raises all the same. -/
structure Hap (F : Type) where
  fault : Option PrismaBuild.Fault
  acquired : Bool
  present : Except Failure Bool
  recordFault : Option Funding.Fault
  reported : Bool
  nonce : Nonce
  now : Json F

section

variable {F : Type}

def ChunkState.file (s : ChunkState F) (r : WindowRecord F) : ChunkState F :=
  { s with files := Function.update s.files r.path (some r) }

variable [FloatFormat F]

/-- `write_window`, and `_write_locked` for a rotation. -/
def writeRecord (e : Hap F) (filed : Option (WindowRecord F)) (checked : WindowRecord F)
    (expectGeneration : Option Name) : Bool → Except String (WindowRecord F)
  | true => writeLocked e.recordFault filed checked expectGeneration true
  | false => writeWindow e.acquired e.recordFault filed checked expectGeneration

def step : (o : ChunkOp F) → Hap F → ChunkState F → o.Answer × ChunkState F
  | .ledger o, e, s =>
    ((Ledger.step o e.fault s.tier).1, { s with tier := (Ledger.step o e.fault s.tier).2 })
  | .lock _, e, s => (e.acquired, s)
  | .present _ _, e, s => (e.present, s)
  | .evidence path, e, s =>
    match e.recordFault, s.files path with
    | some .unreadable, _ => (.unknown, s)
    | _, none => (.absent, s)
    | _, some r => (.record r, s)
  | .mint, e, s => ((e.nonce, e.now), s)
  | .write checked expectGeneration rotate, e, s =>
    match writeRecord e (s.files checked.path) checked expectGeneration rotate with
    | .ok r => (e.reported, s.file r)
    | .error _ => (false, s)
  | .advance path generation, e, s =>
    match advanceWindow e.acquired e.recordFault (s.files path) .reserved .transferring
      (some generation) e.now with
    | .filed r => (e.reported, s.file r)
    | .unchanged => (true, s)
    | .answeredFalse => (false, s)
    | .raised _ => (false, s)

end

inductive Status
  | deferred
  | refused
  | short
  | already
  | published
  deriving DecidableEq

structure Handoff where
  status : Status
  events : List String
  generation : Option Name
  moved : Int

/-- How a handoff ends: with an error of a file operation, with a `ValueError`, or with its answer.
-/
inductive Ending
  | raised (e : Failure)
  | valueError (text : String)
  | returned (h : Handoff)

def unknownEvidence (generation : Option Name) (moved : Int) : Ending :=
  .returned ⟨.deferred, ["prelaunch-unknown-evidence"], generation, moved⟩

def publishDeferred (generation : Option Name) (moved : Int) : Ending :=
  .returned ⟨.deferred, ["prelaunch-publish-deferred"], generation, moved⟩

def fundingShort (generation : Option Name) (moved : Int) : Ending :=
  .returned ⟨.short, ["prelaunch-funding-short"], generation, moved⟩

def moverOccupied : Ending := .returned ⟨.refused, ["prelaunch-mover-occupied"], none, 0⟩

section

variable {F : Type}

def onTier {α : Type} (p : LedgerProg α) : ChunkProg F α := p.embed ChunkOp.ledger fun _ a => a

/-- `holder_state`: a directory that is not there holds nothing. -/
def holderState (key : Name) : LedgerProg (Except Failure (List Name)) :=
  (scanOptional (.held key)).andThen fun listing => pure (.ok (listing.filter isToken))

def orEnd {α : Type} (p : ChunkProg F (Except Failure α)) (ending : Ending) :
    ChunkProg F (Except Ending α) := do
  match ← p with
  | .ok value => pure (.ok value)
  | .error _ => pure (.error ending)

def orRaise {α : Type} (p : ChunkProg F (Except Failure α)) : ChunkProg F (Except Ending α) := do
  match ← p with
  | .ok value => pure (.ok value)
  | .error e => pure (.error (.raised e))

def present (slot : Slot) (mover : Name) : ChunkProg F (Except Failure Bool) :=
    perform (ChunkOp.present slot mover)

/-- `_chunk_row_is_ready`. -/
def rowIsReady (mover : Name) : ChunkProg F (Except Failure Bool) :=
  (present .ready mover).andThen fun ready =>
    if ready then (present .claimed mover).andThen fun claimed => pure (.ok !claimed) else
      pure (.ok false)

/-- The mover's row is published: it waits to be claimed, or it is claimed. -/
def rowStands (mover : Name) : ChunkProg F (Except Failure Bool) :=
  (present .ready mover).andThen fun ready => if ready then pure (.ok true) else
    present .claimed mover

def evidence (path : Name × Name) : ChunkProg F (Evidence F) := perform (ChunkOp.evidence path)

def tokensOf (names : List Name) : Option Tokens :=
  if h : (∀ n ∈ names, n ≠ []) ∧ names ≠ [] ∧ names.Nodup then
    some {
      names := names.pmap Subtype.mk h.1
      nonempty := fun he => h.2.1 (List.pmap_eq_nil_iff.mp he)
      nodup := h.2.2.pmap fun _ _ _ _ he => congrArg Subtype.val he }
  else none

/-- `_chunk_record_tokens`. -/
def recordTokens (r : WindowRecord F) : List Name := r.tokens.names.map Subtype.val

variable (g : Group) (leg : Leg)

/-- `_chunk_republished`: the record binds this chunk under some publication. -/
def republished (r : WindowRecord F) : Bool :=
  r.tierId.1 = g.tierId ∧ r.moverActionKey.1 = leg.mover ∧ r.kind.1 = g.kind ∧
    r.consumerActionKey.1 = g.consumer ∧
    r.planSha256.1 = g.planSha256 ∧ r.rangeStartBytes = leg.startBytes ∧
    r.rangeEndBytes = leg.endBytes

variable (published : F)

/-- The record that the write makes of a `_chunk_fresh_binding`, or nothing if it refuses it. -/
def freshBinding (tokens : List Name) (minted : Nonce × Json F) : Option (WindowRecord F) :=
  if h : g.tierId ≠ [] ∧ g.kind ≠ [] ∧ hexText 64 g.consumer = true ∧ hexText 64 leg.mover = true ∧
      hexText 64 g.planSha256 = true then
    (tokensOf (sortNames tokens)).map fun tokens => {
      tierId := ⟨g.tierId, h.1⟩
      kind := ⟨g.kind, h.2.1⟩
      consumerActionKey := ⟨g.consumer, h.2.2.1⟩
      moverActionKey := ⟨leg.mover, h.2.2.2.1⟩
      planSha256 := ⟨g.planSha256, h.2.2.2.2⟩
      rangeStartBytes := leg.startBytes
      rangeEndBytes := leg.endBytes
      tokens
      generation := minted.1
      state := .reserved
      publishedUnix := .float published
      unix := some minted.2 }
  else none

/-- `_chunk_birth_record`. -/
def birthRecord (tokens : List Name) : ChunkProg F (Option Name) := do
  let minted ← perform (ChunkOp.mint (F := F))
  match freshBinding g leg published tokens minted with
  | none => pure none
  | some checked =>
    if ← perform (ChunkOp.write checked none false) then
      match ← evidence (g.path leg) with
      | .record filed => pure (if filed.state = .reserved then some filed.generation.1 else none)
      | .absent => pure none
      | .unknown => pure none
    else pure none

def stillExpected (expectState : Option FundingState) (current : WindowRecord F) :
    ChunkProg F (Except Failure Bool) :=
  match expectState with
  | none => pure (.ok true)
  | some state => if current.state = state then rowIsReady leg.mover else pure (.ok false)

def rotateLocked (expectGeneration : Name) : Option (WindowRecord F) →
    ChunkProg F (Except Failure (Option Name))
  | none => pure (.ok none)
  | some fresh => do
    if ← perform (ChunkOp.write fresh (some expectGeneration) true) then
      pure (.ok (some fresh.generation.1))
    else pure (.ok none)

/-- `_chunk_rotate_record`. -/
def rotateRecord (expectGeneration : Name) (fresh : Option (WindowRecord F))
    (expectState : Option FundingState) :
    ChunkProg F (Except Failure (Option Name)) := do
  if ← perform (ChunkOp.lock (F := F) leg.mover) then
    match ← evidence (g.path leg) with
    | .record current =>
      if current.generation.1 ≠ expectGeneration then pure (.ok none)
      else
        (stillExpected leg expectState current).andThen fun still =>
          if still then rotateLocked expectGeneration fresh else pure (.ok none)
    | .absent => pure (.ok none)
    | .unknown => pure (.ok none)
  else pure (.ok none)

structure Binding where
  generation : Name
  (prior bound : List Name)

/-- File a fresh generation over the one expected, and bind its tokens. -/
def rotateTo (expectGeneration : Name) (prior bound : List Name)
    (expectState : Option FundingState) :
    ChunkProg F (Except Ending Binding) := do
  let minted ← perform (ChunkOp.mint (F := F))
  (orRaise (rotateRecord g leg expectGeneration (freshBinding g leg published bound minted)
    expectState)).andThen fun
    | none => pure (.error (publishDeferred none 0))
    | some generation => pure (.ok ⟨generation, prior, bound⟩)

def groupNames : ChunkProg F (Except Ending (List Name)) :=
  (orEnd (onTier (holderState g.holder)) (unknownEvidence none 0)).andThen fun names =>
    pure (.ok (names.filter (ofKind g.kind)))

/-- `_chunk_rebind_retained`. -/
def rebindRetained (tokens held : List Name) (rotateFrom : Name)
    (expectState : Option FundingState) :
    ChunkProg F (Except Ending Binding) :=
  if held.any fun n => n ∉ tokens then pure (.error moverOccupied)
  else
    let prior := tokens.filter fun n => n ∈ held
    (groupNames g).andThen fun kindNames =>
      if leg.stageGib < prior.length ∨ kindNames.length < leg.stageGib - prior.length then
        pure (.error (fundingShort none 0))
      else
        rotateTo g leg published rotateFrom prior
          (sortNames (prior ++ kindNames.take (leg.stageGib - prior.length)))
          expectState

def holdings : ChunkProg F (Except Ending (List Name)) :=
  orEnd (onTier (holderState leg.mover)) (unknownEvidence none 0)

variable [FloatFormat F]

/-- `float` of a timestamp. -/
def asFloat : Stamp F → Option F
  | .int n => FloatFormat.ofInt n
  | .float x => some x

/-- `_chunk_funding_matches`: the record binds this chunk under this publication. -/
def fundingMatches (r : WindowRecord F) : Bool :=
  republished g leg r && (asFloat r.publishedUnix).any fun x =>
    decide ((Stamp.float x).same (.float published))

def bindMatching (r : WindowRecord F) : ChunkProg F (Except Ending Binding) :=
  (holdings leg).andThen fun held =>
    let tokens := recordTokens r
    if (r.state = .transferring ∨ r.state = .consumed) ∧ ∀ n ∈ tokens, n ∈ held then
      pure (.error (.returned ⟨.already, [], some r.generation.1, 0⟩))
    else
      match r.state with
      | .transferring =>
        (orRaise (rowIsReady leg.mover)).andThen fun ready =>
          if ready then rebindRetained g leg published tokens held r.generation.1
            (some .transferring)
          else pure (.error (fundingShort (some r.generation.1) 0))
      | .consumed => pure (.error (fundingShort (some r.generation.1) 0))
      | .released => pure (.error (unknownEvidence none 0))
      | .reserved => pure (.ok ⟨r.generation.1, tokens.filter fun n => n ∈ held, tokens⟩)

/-- A record of another publication is on file: an older one of this chunk, or a spent one of any.
-/
def bindOther (r : WindowRecord F) : ChunkProg F (Except Ending Binding) :=
  if republished g leg r = false ∧ r.state ≠ .consumed ∧ r.state ≠ .released then
    pure (.error moverOccupied)
  else
    (holdings leg).andThen fun held =>
      if republished g leg r then rebindRetained g leg published (recordTokens r) held
        r.generation.1 none
      else if held ≠ [] then pure (.error moverOccupied)
      else
        (groupNames g).andThen fun kindNames =>
          if kindNames.length < leg.stageGib then pure (.error (fundingShort none 0))
          else rotateTo g leg published r.generation.1 [] (kindNames.take leg.stageGib) none

def bindAbsent : ChunkProg F (Except Ending Binding) :=
  (holdings leg).andThen fun held =>
    if held ≠ [] then pure (.error moverOccupied)
    else
      (groupNames g).andThen fun kindNames =>
        if kindNames.length < leg.stageGib then pure (.error (fundingShort none 0))
        else do
          let bound := kindNames.take leg.stageGib
          match ← birthRecord g leg published bound with
          | none => pure (.error (publishDeferred none 0))
          | some generation =>
            match ← evidence (g.path leg) with
            | .record reread =>
              if (∀ n ∈ recordTokens reread, n ∈ bound) ∧ ∀ n ∈ bound, n ∈ recordTokens reread then
                pure (.ok ⟨generation, [], bound⟩)
              else pure (.error (unknownEvidence none 0))
            | .absent => pure (.error (unknownEvidence none 0))
            | .unknown => pure (.error (unknownEvidence none 0))

def bindRecord : Evidence F → ChunkProg F (Except Ending Binding)
  | .unknown => pure (.error (unknownEvidence none 0))
  | .absent => bindAbsent g leg published
  | .record r =>
    if fundingMatches g leg published r then bindMatching g leg published r else
      bindOther g leg published r

/-- `_chunk_advance_record`, and the answer it gives the handoff. -/
def advanceRecord (generation : Name) (moved : Int) : ChunkProg F Ending := do
  if ← perform (ChunkOp.advance (F := F) (g.path leg) generation) then
    pure (.returned ⟨.published, ["prelaunch-chunk-published"], some generation, moved⟩)
  else pure (publishDeferred (some generation) moved)

/-- Bind what the mover really has, if that is not what the record binds, and close the record. -/
def closeRecord (b : Binding) (freshNames : List Name) (moved : Int) : ChunkProg F Ending :=
  if ∀ n ∈ b.bound, n ∈ freshNames then advanceRecord g leg b.generation moved
  else if freshNames.length ≠ leg.stageGib then pure (fundingShort (some b.generation) moved)
  else do
    let minted ← perform (ChunkOp.mint (F := F))
    match ← rotateRecord g leg b.generation (freshBinding g leg published freshNames minted)
      none with
    | .error e => pure (.raised e)
    | .ok none => pure (publishDeferred none moved)
    | .ok (some generation) => advanceRecord g leg generation moved

/-- The tokens that the mover has of the binding once the group has handed over what is owed. -/
def handOver (b : Binding) : ChunkProg F (Except Ending (List Name × Int)) :=
  let unknown := unknownEvidence (some b.generation) 0
  let need : Int := leg.stageGib - b.prior.length
  if 0 < need then
    (orEnd (onTier (holderState leg.mover)) unknown).andThen fun before =>
      (orEnd (onTier (transferCount g.holder leg.mover need)) unknown).andThen fun moved =>
        if moved < need then pure (.error (fundingShort (some b.generation) moved))
        else
          (orEnd (onTier (holderState leg.mover)) unknown).andThen fun after =>
            pure (.ok (sortNames ((b.prior ++ after.filter fun n => n ∉ before).filter
              (ofKind g.kind)), moved))
  else
    (orEnd (onTier (holderState leg.mover)) unknown).andThen fun current =>
      pure (.ok (sortNames (current.filter (ofKind g.kind)), 0))

def conclude {α : Type} (p : ChunkProg F (Except Ending α)) (k : α → ChunkProg F Ending) :
    ChunkProg F Ending := do
  match ← p with
  | .error ending => pure ending
  | .ok value => k value

def bindChunkLocked : ChunkProg F Ending :=
  if FloatFormat.value published < 0 then
    pure (.valueError "the mover publication time never goes negative")
  else
    conclude (orRaise (rowStands leg.mover)) fun
      | false => pure (.returned ⟨.refused, ["prelaunch-mover-unpublished"], none, 0⟩)
      | true => do
        let filed ← evidence (g.path leg)
        conclude (bindRecord g leg published filed) fun b =>
          conclude (handOver g leg b) fun handed => closeRecord g leg published b handed.1 handed.2

/-- `bind_chunk`. A busy lock defers to the next pass. -/
def bindChunk : ChunkProg F Ending := do
  if ← perform (ChunkOp.lock (F := F) leg.mover) then bindChunkLocked g leg published
  else pure (publishDeferred none 0)

end

/-- One call of `bind_chunk` on a leg, with the publication time of the mover's row, and what its
steps meet: the call is cut off where the list ends. -/
structure Attempt (F : Type) [FloatFormat F] where
  leg : Leg
  published : F
  finite : FloatFormat.finite published = true
  haps : List (Hap F)

section

variable {F : Type} [FloatFormat F] (g : Group)

def Attempt.play (s : ChunkState F) (a : Attempt F) : ChunkProg F Ending × ChunkState F :=
  Prog.play step a.haps (bindChunk g a.leg a.published) s

def next (s : ChunkState F) (a : Attempt F) : ChunkState F := (a.play g s).2

end

end PrismaBuild.ChunkFunding
