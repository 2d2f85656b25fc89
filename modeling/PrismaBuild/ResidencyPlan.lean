import PrismaBuild.Contract

namespace PrismaBuild.Residency

open Contract List

inductive Given (α : Type)
  | absent
  | null
  | value (a : α)
  deriving DecidableEq

/-- `phase.get(field)`. -/
def Given.get {α : Type} : Given α → Option α
  | .value a => some a
  | _ => none

structure Pin where
  (tierId manifestSha256 : Name)
  (rangeStartBytes rangeEndBytes : Nat)
  deriving DecidableEq

structure Row where
  actionKey : Text sha256Text
  residency : Option Pin
  resources : Option (List (Name × Int))
  deriving DecidableEq

structure Chunk where
  (chunkIndex startBytes endBytes stageGib : Nat)
  (moverRow egressRow : Row)
  deriving DecidableEq

structure Phase where
  name : Name
  (startBytes endBytes stageGib : Nat)
  (moverRow egressRow : Given Row)
  stageChunks : Given (List Chunk)
  (ramMoverRow ramEgressRow : Given Row)
  ramChunks : Given (List Chunk)
  residentBeforeLaunch : Bool
  deriving DecidableEq

structure ResidencyPlan where
  (consumerActionKey manifestSha256 : Text sha256Text)
  manifestBytes : Nat
  tierId : Name
  ramTierId : Option Name
  stageRoot : Name
  phases : List Phase
  deriving DecidableEq

/-- A `ResidencyPlanError`. -/
structure PlanError where
  message : String

abbrev Planned (α : Type) := Except PlanError α

def require (c : Prop) [Decidable c] (message : String) : Planned Unit :=
  if c then .ok () else .error ⟨message⟩

theorem require_ok {c : Prop} [Decidable c] {message : String} {u : Unit} :
    require c message = .ok u ↔ c := by
  unfold require
  split
  next hc => exact ⟨fun _ => hc, fun _ => rfl⟩
  next hc => exact ⟨nofun, fun h => absurd h hc⟩

inductive TierKind
  | stage
  | ram
  | arc
  deriving DecidableEq

def tierKindOf (tierId : Name) : TierKind :=
  if ("prismabuild-stage" : Name).isPrefixOf tierId then .stage
  else if ("ram:" : Name).isPrefixOf tierId then .ram
  else .arc

def capacityKindOf (tierId : Name) : Name :=
  match tierKindOf tierId with
  | .stage => "stage_gib"
  | .ram => "ram_gib"
  | .arc => "arc_gib"

def demandKind (tierId : Name) : Name := capacityKindOf tierId ++ '@' :: tierId

def stageTokensForBytes (rangeBytes : Nat) : Nat := (rangeBytes + (2 ^ 30 - 1)) / 2 ^ 30

def shown (name : Name) : String := "'" ++ String.ofList name ++ "'"

def Row.demand (row : Row) (kind : Name) : Option Int :=
    row.resources.map fun r => (r.lookup kind).getD 0

/-- Where a leg's bytes go: the tier, the manifest and the range. -/
structure Target where
  (tierId manifestSha256 : Name)
  (startBytes endBytes : Nat)
  deriving DecidableEq

def Target.tokens (t : Target) : Nat := stageTokensForBytes (t.endBytes - t.startBytes)

def Target.pin (t : Target) : Pin := ⟨t.tierId, t.manifestSha256, t.startBytes, t.endBytes⟩

structure LegWords where
  (tier aim mover loss : String)

def stageWords : LegWords := ⟨"the tier", "on", "mover row", "tier tokens"⟩

def ramWords : LegWords := ⟨"the ram tier", "for the ram tier", "ram mover row", "occupancy"⟩

def stageChunkWords : LegWords := ⟨"the stage tier", "for the stage tier", "stage mover row",
    "occupancy"⟩

def rangeText (t : Target) : String :=
  toString t.startBytes ++ ".." ++ toString t.endBytes ++ " of " ++
    String.ofList (t.manifestSha256.take 12)

def Pin.target (p : Pin) : Target :=
    ⟨p.tierId, p.manifestSha256, p.rangeStartBytes, p.rangeEndBytes⟩

def checkKey (row : Row) (keys : List (Text sha256Text)) : Planned (List (Text sha256Text)) := do
  require (row.actionKey ∉ keys) "two plan rows share an action key"
  pure (keys ++ [row.actionKey])

def checkPin (place : String) (words : LegWords) (t : Target) (row : Row) : Planned Unit :=
  match row.residency with
  | none =>
    .error ⟨place ++ " has a " ++ words.mover ++ " with no residency block; its " ++ words.loss ++
      " would be released the moment it finished"⟩
  | some pin =>
    require (pin = t.pin) (place ++ " names bytes " ++ rangeText t ++ " " ++ words.aim ++ " " ++
      String.ofList t.tierId ++ ", and its " ++ words.mover ++ " pins " ++ rangeText pin.target ++
      " on " ++
      String.ofList pin.tierId)

def checkDemand (place : String) (words : LegWords) (t : Target) (row : Row) : Planned Unit :=
  require (∃ n ∈ row.demand (demandKind t.tierId), (t.tokens : Int) ≤ n)
    (place ++ " asks " ++ words.tier ++ " for " ++
    ((row.demand (demandKind t.tierId)).elim "None" toString) ++
      ", below the " ++ toString t.tokens ++ " GiB its range occupies")

def checkRange (place : String) (startBytes endBytes position stageGib : Nat) : Planned Unit := do
  let floor := stageTokensForBytes (endBytes - startBytes)
  require (startBytes < endBytes) (place ++ " must be non-empty and half-open")
  require (startBytes = position)
    (place ++ s!" starts at {startBytes}, not where the previous one ended ({position})")
  require (floor ≤ stageGib) (place ++ s!" claims {stageGib} GiB for a range that occupies {floor}")

/-- `_checked_leg_chunk`: the keys taken so far with the chunk's two added. -/
def checkedLegChunk (words : LegWords) (tierId manifestSha256 phaseName : Name)
    (index position : Nat)
    (keys : List (Text sha256Text)) (c : Chunk) : Planned (List (Text sha256Text)) := do
  let named := c.chunkIndex
  let place := "plan phase " ++ shown phaseName ++ s!" chunk {index}"
  let t : Target := ⟨tierId, manifestSha256, c.startBytes, c.endBytes⟩
  require (c.chunkIndex = index) (place ++ s!" names chunk {named}, not its position {index}")
  checkRange place c.startBytes c.endBytes position c.stageGib
  let keys ← checkKey c.moverRow keys
  checkPin place words t c.moverRow
  checkDemand place words t c.moverRow
  checkKey c.egressRow keys

/-- The chunk loop of one leg: the keys, and where the last chunk ended. -/
def checkChunks (words : LegWords) (tierId manifestSha256 phaseName : Name) :
    Nat → Nat → List (Text sha256Text) → List Chunk → Planned (Nat × List (Text sha256Text))
  | _, position, keys, [] => .ok (position, keys)
  | index, position, keys, c :: rest => do
    let keys ← checkedLegChunk words tierId manifestSha256 phaseName index position keys c
    checkChunks words tierId manifestSha256 phaseName (index + 1) c.endBytes keys rest

def checkChunked (words : LegWords) (table : String) (tierId manifestSha256 : Name) (phase : Phase)
    (chunks : List Chunk) (keys : List (Text sha256Text)) : Planned (List (Text sha256Text)) := do
  let place := "plan phase " ++ shown phase.name
  require (chunks ≠ []) (place ++ " needs a non-empty " ++ table ++ " list")
  let (ended, keys) ← checkChunks words tierId manifestSha256 phase.name 0 phase.startBytes keys
    chunks
  require (ended = phase.endBytes) (place ++ " ends at " ++ toString phase.endBytes ++
    ", not where its last chunk ended (" ++ toString ended ++ ")")
  pure keys

def given (place : String) (role : String) (row : Given Row) : Planned Row :=
  match row.get with
  | some r => .ok r
  | none => .error ⟨place ++ " needs a " ++ role⟩

def checkStage (plan : ResidencyPlan) (phase : Phase) (keys : List (Text sha256Text)) :
    Planned (List (Text sha256Text)) := do
  let place := "plan phase " ++ shown phase.name
  match phase.stageChunks.get with
  | some chunks =>
    require (phase.moverRow.get = none ∧ phase.egressRow.get = none)
      (place ++ " carries both a mover and stage chunks; chunking is a sealing-time property, and one phase seals " ++
        "one shape")
    checkChunked stageChunkWords "stage_chunks" plan.tierId plan.manifestSha256.1 phase chunks keys
  | none =>
    let t : Target := ⟨plan.tierId, plan.manifestSha256.1, phase.startBytes, phase.endBytes⟩
    let mover ← given place "mover_row" phase.moverRow
    let keys ← checkKey mover keys
    let egress ← given place "egress_row" phase.egressRow
    let keys ← checkKey egress keys
    checkDemand place stageWords t mover
    checkPin place stageWords t mover
    pure keys

def ramTier (place carried : String) (plan : ResidencyPlan) : Planned Name :=
  match plan.ramTierId with
  | some tierId => .ok tierId
  | none => .error ⟨place ++ " carries " ++ carried ++ " to promote onto"⟩

/-- The ram leg: chunks, or a mover whose egress may be missing, or nothing. -/
def checkRam (plan : ResidencyPlan) (phase : Phase) (keys : List (Text sha256Text)) :
    Planned (List (Text sha256Text)) := do
  let place := "plan phase " ++ shown phase.name
  match phase.ramChunks.get with
  | some chunks =>
    require (phase.ramMoverRow.get = none ∧ phase.ramEgressRow.get = none)
      (place ++ " carries both a ram mover and ram chunks; chunking is a sealing-time property, and one phase " ++
        "seals one shape")
    let tierId ← ramTier place "ram chunks, but the plan names no ram tier for them" plan
    checkChunked ramWords "ram_chunks" tierId plan.manifestSha256.1 phase chunks keys
  | none =>
    require (phase.ramMoverRow.get = none → phase.ramEgressRow.get = none)
      (place ++ " has a ram egress with no ram mover to free")
    match phase.ramMoverRow.get with
    | none => pure keys
    | some mover =>
      let tierId ← ramTier place "a ram mover, but the plan names no ram tier for it" plan
      let t : Target := ⟨tierId, plan.manifestSha256.1, phase.startBytes, phase.endBytes⟩
      let keys ← checkKey mover keys
      checkPin place ramWords t mover
      checkDemand place ramWords t mover
      match phase.ramEgressRow.get with
      | none => pure keys
      | some egress => checkKey egress keys

def checkPhase (plan : ResidencyPlan) (position : Nat) (names : List Name)
    (keys : List (Text sha256Text))
    (phase : Phase) : Planned (List (Text sha256Text)) := do
  require (phase.name ≠ [] ∧ phase.name ∉ names) "each plan phase needs a distinct name"
  checkRange ("plan phase " ++ shown phase.name) phase.startBytes phase.endBytes position
    phase.stageGib
  let keys ← checkStage plan phase keys
  checkRam plan phase keys

/-- The phase loop of `validate_plan`. -/
def checkPhases (plan : ResidencyPlan) :
    Nat → List Name → List (Text sha256Text) → List Phase → Planned (List (Text sha256Text))
  | _, _, keys, [] => .ok keys
  | position, names, keys, phase :: rest => do
    let keys ← checkPhase plan position names keys phase
    checkPhases plan phase.endBytes (names ++ [phase.name]) keys rest

def ResidencyPlan.names (plan : ResidencyPlan) : List Name := plan.phases.map Phase.name

/-- `prelaunch_phase_names`. -/
def ResidencyPlan.declared (plan : ResidencyPlan) : List Name :=
  (plan.phases.filter Phase.residentBeforeLaunch).map Phase.name

def validatePlan (plan : ResidencyPlan) : Planned Unit := do
  require (0 < plan.manifestBytes) "manifest_bytes must be a positive integer"
  require (plan.tierId ≠ []) "a residency plan must name its tier"
  require (∀ tierId ∈ plan.ramTierId, tierKindOf tierId = .ram)
    ("ram_tier_id " ++ shown (plan.ramTierId.getD []) ++ " does not name a ram tier")
  require (plan.stageRoot.head? = some '/') "stage_root must be an absolute path"
  require (plan.phases ≠ []) "a residency plan needs at least one phase"
  let _ ← checkPhases plan 0 [] [] plan.phases
  require (plan.declared = plan.names.take plan.declared.length)
    "prelaunch phases are not a contiguous prefix of the plan order"

def Chunk.keys (c : Chunk) : List (Text sha256Text) := [c.moverRow.actionKey, c.egressRow.actionKey]

/-- The keys one leg of a phase takes, in the order they are checked. -/
def legKeys (chunks : Given (List Chunk)) (mover egress : Given Row) : List (Text sha256Text) :=
  match chunks.get with
  | some chunks => chunks.flatMap Chunk.keys
  | none => (mover.get.toList ++ egress.get.toList).map Row.actionKey

def Phase.stageKeys (phase : Phase) : List (Text sha256Text) :=
  legKeys phase.stageChunks phase.moverRow phase.egressRow

def Phase.ramKeys (phase : Phase) : List (Text sha256Text) :=
  legKeys phase.ramChunks phase.ramMoverRow phase.ramEgressRow

def Phase.keys (phase : Phase) : List (Text sha256Text) := phase.stageKeys ++ phase.ramKeys

structure Takes (keys new keys' : List (Text sha256Text)) : Prop where
  appended : keys' = keys ++ new
  distinct : keys.Nodup → keys'.Nodup

theorem Takes.refl (keys : List (Text sha256Text)) : Takes keys [] keys := ⟨(append_nil _).symm, id⟩

theorem Takes.trans {keys keys' keys'' new new' : List (Text sha256Text)} (h : Takes keys new keys')
    (h' : Takes keys' new' keys'') : Takes keys (new ++ new') keys'' :=
  ⟨by rw [h'.appended, h.appended, append_assoc], fun hk => h'.distinct (h.distinct hk)⟩

theorem checkKey_takes {row : Row} {keys keys' : List (Text sha256Text)}
    (h : checkKey row keys = .ok keys') :
    Takes keys [row.actionKey] keys' := by
  obtain ⟨_, hn, h⟩ := bind_ok.mp h
  cases h
  refine ⟨rfl, fun hk => nodup_append'.mpr ⟨hk, nodup_singleton _, ?_⟩⟩
  exact disjoint_singleton.mpr (require_ok.mp hn)

section

variable {words : LegWords} {table : String} {tierId manifest phaseName : Name} {phase : Phase}
    {plan : ResidencyPlan}
  {keys keys' : List (Text sha256Text)}

theorem checkedLegChunk_takes {index position : Nat} {c : Chunk}
    (h : checkedLegChunk words tierId manifest phaseName index position keys c = .ok keys') :
    Takes keys c.keys keys' := by
  obtain ⟨-, -, h⟩ := bind_ok.mp h
  obtain ⟨-, -, h⟩ := bind_ok.mp h
  obtain ⟨moved, hm, h⟩ := bind_ok.mp h
  obtain ⟨-, -, h⟩ := bind_ok.mp h
  obtain ⟨-, -, he⟩ := bind_ok.mp h
  exact (checkKey_takes hm).trans (checkKey_takes he)

variable {chunks : List Chunk} {names : List Name} {position : Nat}

theorem checkChunks_takes {index position ended : Nat}
    (h : checkChunks words tierId manifest phaseName index position keys chunks = .ok
    (ended, keys')) :
    Takes keys (chunks.flatMap Chunk.keys) keys' := by
  induction chunks generalizing index position keys with
  | nil =>
    cases h
    exact .refl _
  | cons c chunks ih =>
    obtain ⟨moved, hc, h⟩ := bind_ok.mp h
    exact (checkedLegChunk_takes hc).trans (ih h)

theorem checkChunked_takes (h : checkChunked words table tierId manifest phase chunks keys = .ok
    keys') :
    Takes keys (chunks.flatMap Chunk.keys) keys' := by
  obtain ⟨-, -, h⟩ := bind_ok.mp h
  obtain ⟨⟨ended, moved⟩, hc, h⟩ := bind_ok.mp h
  obtain ⟨-, -, h⟩ := bind_ok.mp h
  cases h
  exact checkChunks_takes hc

theorem given_ok {place role : String} {row : Given Row} {r : Row}
    (h : given place role row = .ok r) : row.get = some r := by
  unfold given at h
  split at h
  next hr => cases h; exact hr
  next => cases h

theorem checkStage_takes (h : checkStage plan phase keys = .ok keys') :
    Takes keys phase.stageKeys keys' := by
  unfold checkStage at h
  unfold Phase.stageKeys legKeys
  split at h
  next chunks _ =>
    obtain ⟨-, -, h⟩ := bind_ok.mp h
    exact checkChunked_takes h
  next =>
    obtain ⟨mover, hmo, h⟩ := bind_ok.mp h
    obtain ⟨moved, hm, h⟩ := bind_ok.mp h
    obtain ⟨egress, heg, h⟩ := bind_ok.mp h
    obtain ⟨freed, he, h⟩ := bind_ok.mp h
    obtain ⟨-, -, h⟩ := bind_ok.mp h
    obtain ⟨-, -, h⟩ := bind_ok.mp h
    cases h
    rw [given_ok hmo, given_ok heg]
    exact (checkKey_takes hm).trans (checkKey_takes he)

theorem checkRam_takes (h : checkRam plan phase keys = .ok keys') :
    Takes keys phase.ramKeys keys' := by
  unfold checkRam at h
  unfold Phase.ramKeys legKeys
  split at h
  next chunks _ =>
    obtain ⟨-, -, h⟩ := bind_ok.mp h
    obtain ⟨tier, -, h⟩ := bind_ok.mp h
    exact checkChunked_takes h
  next =>
    obtain ⟨_, hf, h⟩ := bind_ok.mp h
    split at h
    next hmo =>
      cases h
      rw [hmo, require_ok.mp hf hmo]
      exact .refl _
    next mover hmo =>
      obtain ⟨tier, -, h⟩ := bind_ok.mp h
      obtain ⟨moved, hm, h⟩ := bind_ok.mp h
      obtain ⟨-, -, h⟩ := bind_ok.mp h
      obtain ⟨-, -, h⟩ := bind_ok.mp h
      rw [hmo]
      split at h
      next he =>
        cases h
        rw [he]
        exact checkKey_takes hm
      next egress he =>
        rw [he]
        exact (checkKey_takes hm).trans (checkKey_takes h)

theorem checkPhase_ok (h : checkPhase plan position names keys phase = .ok keys') :
    phase.name ∉ names ∧ Takes keys phase.keys keys' := by
  obtain ⟨_, hn, h⟩ := bind_ok.mp h
  obtain ⟨-, -, h⟩ := bind_ok.mp h
  obtain ⟨staged, hs, hr⟩ := bind_ok.mp h
  exact ⟨(require_ok.mp hn).2, (checkStage_takes hs).trans (checkRam_takes hr)⟩

theorem checkPhases_ok {phases : List Phase}
    (h : checkPhases plan position names keys phases = .ok keys') :
    (names.Nodup → (names ++ phases.map Phase.name).Nodup) ∧
      Takes keys (phases.flatMap Phase.keys) keys' := by
  induction phases generalizing position names keys with
  | nil =>
    cases h
    exact ⟨fun hn => by simpa using hn, .refl _⟩
  | cons phase phases ih =>
    obtain ⟨taken, hp, h⟩ := bind_ok.mp h
    obtain ⟨hnam, ht⟩ := checkPhase_ok hp
    obtain ⟨hna, hr⟩ := ih h
    refine ⟨fun hn => ?_, ht.trans hr⟩
    have ho := nodup_append'.mpr ⟨hn, nodup_singleton _, disjoint_singleton.mpr hnam⟩
    simpa using hna ho

end

theorem validatePlan_ok {plan : ResidencyPlan} (h : validatePlan plan = .ok ()) :
    plan.phases ≠ [] ∧ plan.names.Nodup ∧ (plan.phases.flatMap Phase.keys).Nodup := by
  obtain ⟨-, -, h⟩ := bind_ok.mp h
  obtain ⟨-, -, h⟩ := bind_ok.mp h
  obtain ⟨-, -, h⟩ := bind_ok.mp h
  obtain ⟨-, -, h⟩ := bind_ok.mp h
  obtain ⟨_, hne, h⟩ := bind_ok.mp h
  obtain ⟨keys, hp, -⟩ := bind_ok.mp h
  obtain ⟨hn, ht⟩ := checkPhases_ok hp
  refine ⟨require_ok.mp hne, hn nodup_nil, ?_⟩
  have hk := ht.distinct nodup_nil
  rwa [ht.appended, nil_append] at hk

end PrismaBuild.Residency
