import PrismaBuild.Contract
import PrismaBuild.Generations

namespace PrismaBuild.Funding

open Contract

inductive FundingState
  | reserved
  | transferring
  | consumed
  | released
  deriving DecidableEq

def FundingState.text : FundingState → Name
  | .reserved => "reserved"
  | .transferring => "transferring"
  | .consumed => "consumed"
  | .released => "released"

/-- `_FUNDING_TRANSITIONS`. -/
def transitions : FundingState → List FundingState
  | .reserved => [.transferring, .released]
  | .transferring => [.consumed, .released]
  | .consumed => []
  | .released => []

def hexText (length : Nat) (s : Name) : Bool :=
  s.length == length && s.all fun c => c.isDigit || oneOf "abcdef" c

abbrev NonEmpty := { s : Name // s ≠ [] }
abbrev Key := { s : Name // hexText 64 s = true }
abbrev Nonce := { s : Name // hexText 32 s = true }

inductive Stamp (F : Type)
  | int (n : Int)
  | float (x : F)

structure Tokens where
  names : List NonEmpty
  nonempty : names ≠ []
  nodup : names.Nodup
  deriving DecidableEq

/-- A funding record that `validate_window` accepts: the binding, the state and the time of the last
write. -/
structure WindowRecord (F : Type) where
  (tierId kind : NonEmpty)
  (consumerActionKey moverActionKey planSha256 : Key)
  (rangeStartBytes rangeEndBytes : Int)
  tokens : Tokens
  generation : Nonce
  state : FundingState
  publishedUnix : Stamp F
  unix : Option (Json F)

variable {F : Type}

def WindowRecord.path (r : WindowRecord F) : Name × Name := (r.moverActionKey.1, r.tierId.1)

section

def schemaV1 : Name := "prismabuild.tier_funding.v1"

def windowFields : List Name :=
  ["schema", "tier_id", "consumer_action_key", "plan_sha256", "mover_action_key",
    "range_start_bytes",
    "range_end_bytes", "kind", "tokens", "generation", "state", "unix", "published_unix"]

variable (fields : List (Name × Json F))

def nonEmptyField (field : String) : Except String NonEmpty :=
  match entry fields field with
  | .str s =>
    if h : s ≠ [] then .ok ⟨s, h⟩ else .error ("funding " ++ field ++ " must be a non-empty string")
  | _ => .error ("funding " ++ field ++ " must be a non-empty string")

def hexField (length : Nat) (what : String) (fields : List (Name × Json F)) (field : String) :
    Except String { s : Name // hexText length s = true } :=
  match entry fields field with
  | .str s =>
    if h : hexText length s = true then .ok ⟨s, h⟩ else
      .error ("funding " ++ field ++ " must be a " ++ what)
  | _ => .error ("funding " ++ field ++ " must be a " ++ what)

def bytesField (field : String) : Except String Int :=
  match entry fields field with
  | .int n => .ok n
  | _ => .error ("funding " ++ field ++ " must be a whole number of bytes")

def tokenName : Json F → Except String NonEmpty
  | .str s =>
    if h : s ≠ [] then .ok ⟨s, h⟩ else
      .error "funding tokens must be a non-empty list of token names"
  | _ => .error "funding tokens must be a non-empty list of token names"

def tokensField : Except String Tokens :=
  match entry fields "tokens" with
  | .arr items => do
    let names ← items.mapM tokenName
    if hne : names ≠ [] then
      if h : names.Nodup then .ok ⟨names, hne, h⟩ else
        .error "funding tokens must not repeat a name"
    else .error "funding tokens must be a non-empty list of token names"
  | _ => .error "funding tokens must be a non-empty list of token names"

def stateField : Except String FundingState :=
  match entry fields "state" with
  | .str s =>
    match [FundingState.consumed, .released, .reserved, .transferring].find? fun state =>
      state.text == s with
    | some state => .ok state
    | none =>
      .error "funding state must be one of ['consumed', 'released', 'reserved', 'transferring']"
  | _ => .error "funding state must be one of ['consumed', 'released', 'reserved', 'transferring']"

variable [FloatFormat F]

def Stamp.number : Stamp F → Option ℚ
  | .int n => some n
  | .float x => if FloatFormat.finite x then some (FloatFormat.value x) else none

/-- Whether two timestamps compare equal. One that is not finite equals none. -/
def Stamp.same (a b : Stamp F) : Prop := ∃ q, a.number = some q ∧ b.number = some q

instance (a b : Stamp F) : Decidable (a.same b) :=
  decidable_of_iff (a.number.isSome ∧ a.number = b.number) <| by
    constructor
    · rintro ⟨hsome, heq⟩
      obtain ⟨q, hq⟩ := Option.isSome_iff_exists.mp hsome
      exact ⟨q, hq, heq ▸ hq⟩
    · rintro ⟨q, ha, hb⟩
      exact ⟨by rw [ha]; rfl, ha.trans hb.symm⟩

def publishedField : Except String (Stamp F) :=
  match entry fields "published_unix" with
  | .int n =>
    if (FloatFormat.ofInt (F := F) n).isNone then .error "int too large to convert to float"
    else if n < 0 then .error "funding published_unix must be a non-negative timestamp"
    else .ok (.int n)
  | .float x =>
    if FloatFormat.finite x ∧ FloatFormat.value x < 0 then
      .error "funding published_unix must be a non-negative timestamp"
    else .ok (.float x)
  | _ => .error "funding published_unix must be a non-negative timestamp"

def validateWindow (value : Json F) : Except String (WindowRecord F) :=
  match value with
  | .obj fields => do
    if (fields.map Prod.fst).any fun k => !windowFields.contains k then
      .error "unknown tier funding fields"
    else if (entry fields "schema").pyEq (.str schemaV1) = false then
      .error "funding schema must be 'prismabuild.tier_funding.v1'"
    else
      let tierId ← nonEmptyField fields "tier_id"
      let kind ← nonEmptyField fields "kind"
      let consumerActionKey ← hexField 64 "64-character action key" fields "consumer_action_key"
      let moverActionKey ← hexField 64 "64-character action key" fields "mover_action_key"
      let planSha256 ← hexField 64 "64-character digest" fields "plan_sha256"
      let rangeStartBytes ← bytesField fields "range_start_bytes"
      let rangeEndBytes ← bytesField fields "range_end_bytes"
      let tokens ← tokensField fields
      let generation ← hexField 32 "32-character nonce" fields "generation"
      let state ← stateField fields
      let publishedUnix ← publishedField fields
      return {
        tierId, kind, consumerActionKey, moverActionKey, planSha256, rangeStartBytes, rangeEndBytes,
        tokens,
        generation, state, publishedUnix, unix := Json.get? fields "unix" }
  | _ => .error "a tier funding record must be an object"

end

variable [FloatFormat F]

def WindowRecord.differing (a b : WindowRecord F) : List String :=
  [("tier_id", decide (a.tierId = b.tierId)),
    ("consumer_action_key", decide (a.consumerActionKey = b.consumerActionKey)),
    ("plan_sha256", decide (a.planSha256 = b.planSha256)),
    ("mover_action_key", decide (a.moverActionKey = b.moverActionKey)),
    ("range_start_bytes", decide (a.rangeStartBytes = b.rangeStartBytes)),
    ("range_end_bytes", decide (a.rangeEndBytes = b.rangeEndBytes)),
    ("kind", decide (a.kind = b.kind)),
    ("tokens", decide (a.tokens = b.tokens)), ("generation", decide (a.generation = b.generation)),
    ("published_unix", decide (a.publishedUnix.same b.publishedUnix))].filterMap
    fun (field, equal) => if equal then none else some field

/-- What goes wrong with a file: it cannot be read, or the replacement does not take place. -/
inductive Fault
  | unreadable
  | unwritten
  deriving DecidableEq

/-- What `_write_locked` refuses, given the record on file. -/
def refuseWrite (filed : Option (WindowRecord F)) (checked : WindowRecord F)
    (expectGeneration : Option Name)
    (rotate : Bool) : Except String Unit :=
  match filed with
  | none =>
    if expectGeneration.isSome then .error "funding record vanished underneath this write"
    else if rotate = false ∧ checked.state ≠ .reserved then
      .error "funding records are born reserved"
    else .ok ()
  | some current =>
    if expectGeneration ≠ some current.generation.1 ∨ rotate = false ∧
      checked.generation ≠ current.generation then
      .error "funding generation rotated underneath this write"
    else if rotate then
      if checked.generation = current.generation then .error "rotation must mint a fresh generation"
        else .ok ()
    else
      match current.differing checked with
      | field :: _ => .error ("funding " ++ field ++ " is immutable within one generation")
      | [] =>
        if checked.state ≠ current.state ∧ checked.state ∉ transitions current.state then
          .error ("funding state step '" ++ String.ofList current.state.text ++ "'->'" ++
            String.ofList checked.state.text ++
            "' is not a legal advance")
        else .ok ()

/-- `_write_locked` under the mover's lock: the record that replaces the one on file. -/
def writeLocked (fault : Option Fault) (filed : Option (WindowRecord F)) (checked : WindowRecord F)
    (expectGeneration : Option Name) (rotate : Bool) : Except String (WindowRecord F) := do
  if rotate = true ∧ checked.state ≠ .reserved then
    .error "rotated funding generations are born reserved"
  else if fault = some .unreadable then .error "funding record unreadable for CAS"
  else
    refuseWrite filed checked expectGeneration rotate
    if fault = some .unwritten then .error "funding record not replaced" else return checked

/-- `write_window` once its record is checked: the lock, and the write under it. -/
def writeWindow (acquired : Bool) (fault : Option Fault) (filed : Option (WindowRecord F))
    (checked : WindowRecord F)
    (expectGeneration : Option Name) : Except String (WindowRecord F) :=
  if acquired then writeLocked fault filed checked expectGeneration false
  else .error "funding writer lost the transition race"

/-- How a call ends: it raises, answers `False`, finds nothing to do, or files a record. -/
inductive Outcome (F : Type)
  | raised (message : String)
  | answeredFalse
  | unchanged
  | filed (r : WindowRecord F)

def Outcome.refused : Outcome F → Bool
  | .raised _ => true
  | .answeredFalse => true
  | .unchanged => false
  | .filed _ => false

def Outcome.ofWrite : Except String (WindowRecord F) → Outcome F
  | .ok r => .filed r
  | .error message => .raised message

def advanceLocked (acquired : Bool) (fault : Option Fault) (filed : Option (WindowRecord F))
    (expect advanceTo : FundingState) (generation : Option Name) (now : Json F) : Outcome F :=
  match filed with
  | none => .answeredFalse
  | some current =>
    if fault = some .unreadable ∨ current.state ≠ expect then .answeredFalse
    else if generation.any fun g => g != current.generation.1 then .answeredFalse
    else if expect = advanceTo then .unchanged
    else if advanceTo ∉ transitions expect then .answeredFalse
    else
      match writeWindow acquired fault filed { current with state := advanceTo, unix := some now }
        (some current.generation.1) with
      | .ok r => .filed r
      | .error _ => .answeredFalse

/-- `advance_window`: the lock it takes is the one the write inside takes again. -/
def advanceWindow (acquired : Bool) (fault : Option Fault) (filed : Option (WindowRecord F))
    (expect advanceTo : FundingState) (generation : Option Name) (now : Json F) : Outcome F :=
  if acquired then advanceLocked true fault filed expect advanceTo generation now else
    .answeredFalse

inductive Call (F : Type)
  | writeWindow (acquired : Bool) (fault : Option Fault) (record : Json F)
    (expectGeneration : Option Name)
  | rotate (fault : Option Fault) (record : Json F) (expectGeneration : Option Name)
  | advanceWindow (acquired : Bool) (fault : Option Fault) (path : Name × Name)
    (expect advanceTo : FundingState)
      (generation : Option Name) (now : Json F)
  | advanceLocked (acquired : Bool) (fault : Option Fault) (path : Name × Name)
    (expect advanceTo : FundingState)
      (generation : Option Name) (now : Json F)

def Call.outcome (filed : Name × Name → Option (WindowRecord F)) : Call F → Outcome F
  | .writeWindow acquired fault record expectGeneration => .ofWrite do
    let checked ← validateWindow record
    Funding.writeWindow acquired fault (filed checked.path) checked expectGeneration
  | .rotate fault record expectGeneration => .ofWrite do
    let checked ← validateWindow record
    writeLocked fault (filed checked.path) checked expectGeneration true
  | .advanceWindow acquired fault path expect advanceTo generation now =>
    Funding.advanceWindow acquired fault (filed path) expect advanceTo generation now
  | .advanceLocked acquired fault path expect advanceTo generation now =>
    Funding.advanceLocked acquired fault (filed path) expect advanceTo generation now

end PrismaBuild.Funding
