import PrismaBuild.WindowSafety
import PrismaBuild.Spans

namespace PrismaBuild.Residency

open Contract Spans List

def Phase.range (phase : Phase) : Int × Int := (phase.startBytes, phase.endBytes)

def Chunk.range (c : Chunk) : Int × Int := (c.startBytes, c.endBytes)

def Leg.range (leg : Leg) : Int × Int := (leg.startBytes, leg.endBytes)

/-- What a phase was sealed with for a role: its chunks, its one mover, or nothing. -/
def Phase.sealed (role : MoverRole) (phase : Phase) : List Leg :=
  match (phase.chunkTable role).get with
  | some chunks => chunks.map (Chunk.leg phase.name)
  | none =>
    match (phase.mover role).get with
    | none => []
    | some mover =>
      [⟨phase.name, none, phase.startBytes, phase.endBytes, phase.stageGib, mover,
        (phase.egress role).get⟩]

def ResidencyPlan.tierOf (plan : ResidencyPlan) : MoverRole → Option Name
  | .moverRow => some plan.tierId
  | .ramMoverRow => plan.ramTierId

def Leg.target (tierId manifestSha256 : Name) (leg : Leg) : Target :=
    ⟨tierId, manifestSha256, leg.startBytes, leg.endBytes⟩

/-- The leg's row pins exactly its range, and the leg and the row both ask for what the range
occupies. -/
structure Leg.Paid (tierId manifestSha256 : Name) (leg : Leg) : Prop where
  pinned : leg.moverRow.residency = some (leg.target tierId manifestSha256).pin
  tokens_le : (leg.target tierId manifestSha256).tokens ≤ leg.stageGib
  demanded : ∃ n ∈ leg.moverRow.demand (demandKind tierId),
    ((leg.target tierId manifestSha256).tokens : Int) ≤ n

section

variable {place : String} {words : LegWords} {tierId manifest phaseName : Name}
    {keys keys' : List (Text sha256Text)}

theorem checkRange_ok {startBytes endBytes position stageGib : Nat}
    (h : checkRange place startBytes endBytes position stageGib = .ok ()) :
    startBytes < endBytes ∧ startBytes = position ∧
      stageTokensForBytes (endBytes - startBytes) ≤ stageGib := by
  obtain ⟨_, he, h⟩ := bind_ok.mp h
  obtain ⟨_, hs, hg⟩ := bind_ok.mp h
  exact ⟨require_ok.mp he, require_ok.mp hs, require_ok.mp hg⟩

variable {row : Row} {t : Target} {chunks : List Chunk}

theorem checkPin_ok (h : checkPin place words t row = .ok ()) : row.residency = some t.pin := by
  unfold checkPin at h
  split at h
  next => cases h
  next pin hp =>
    have heq : pin = t.pin := require_ok.mp h
    rw [hp, heq]

theorem checkDemand_ok (h : checkDemand place words t row = .ok ()) :
    ∃ n ∈ row.demand (demandKind t.tierId), (t.tokens : Int) ≤ n :=
  require_ok.mp h

theorem checkedLegChunk_ok {index position : Nat} {c : Chunk}
    (h : checkedLegChunk words tierId manifest phaseName index position keys c = .ok keys') :
    c.chunkIndex = index ∧ c.startBytes = position ∧ c.startBytes < c.endBytes ∧
      (c.leg phaseName).Paid tierId manifest := by
  obtain ⟨_, hi, h⟩ := bind_ok.mp h
  obtain ⟨_, hr, h⟩ := bind_ok.mp h
  obtain ⟨_, _, h⟩ := bind_ok.mp h
  obtain ⟨_, hp, h⟩ := bind_ok.mp h
  obtain ⟨_, hd, _⟩ := bind_ok.mp h
  obtain ⟨he, hs, hg⟩ := checkRange_ok hr
  exact ⟨require_ok.mp hi, hs, he, checkPin_ok hp, hg, checkDemand_ok hd⟩

theorem checkChunks_ok {index position ended : Nat}
    (h : checkChunks words tierId manifest phaseName index position keys chunks = .ok
    (ended, keys')) :
    chunks.map Chunk.chunkIndex = List.range' index chunks.length ∧
      Tiles position (chunks.map Chunk.range) ended ∧
      ∀ c ∈ chunks, (c.leg phaseName).Paid tierId manifest := by
  induction chunks generalizing index position keys with
  | nil =>
    cases h
    exact ⟨rfl, rfl, nofun⟩
  | cons c chunks ih =>
    obtain ⟨taken, hc, h⟩ := bind_ok.mp h
    obtain ⟨hin, hs, he, hp⟩ := checkedLegChunk_ok hc
    obtain ⟨hi, ht, hr⟩ := ih h
    refine ⟨?_, ⟨?_, ?_, ht⟩, forall_mem_cons.mpr ⟨hp, hr⟩⟩
    · rw [map_cons, hin, hi, length_cons, range'_succ]
    · exact congrArg Nat.cast hs
    · rw [← hs]
      exact Int.ofNat_lt.mpr he

theorem checkChunked_ok {table : String} {phase : Phase}
    (h : checkChunked words table tierId manifest phase chunks keys = .ok keys') :
    chunks.map Chunk.chunkIndex = List.range chunks.length ∧
      Tiles phase.startBytes (chunks.map Chunk.range) phase.endBytes ∧
      ∀ c ∈ chunks, (c.leg phase.name).Paid tierId manifest := by
  obtain ⟨_, _, h⟩ := bind_ok.mp h
  obtain ⟨⟨ended, taken⟩, hc, h⟩ := bind_ok.mp h
  obtain ⟨_, he, _⟩ := bind_ok.mp h
  obtain ⟨hi, ht, hp⟩ := checkChunks_ok hc
  have hen := require_ok.mp he
  rw [hen] at ht
  refine ⟨?_, ht, hp⟩
  rw [hi, range_eq_range']

end

section

variable {plan : ResidencyPlan} {phase : Phase} {keys keys' : List (Text sha256Text)}

structure Phase.Laid (plan : ResidencyPlan) (role : MoverRole) (phase : Phase) : Prop where
  chunked : ∀ chunks, (phase.chunkTable role).get = some chunks →
    chunks.map Chunk.chunkIndex = List.range chunks.length ∧
    Tiles phase.startBytes (chunks.map Chunk.range) phase.endBytes
  paid : ∀ leg ∈ phase.sealed role, ∃ tierId ∈ plan.tierOf role,
    leg.Paid tierId plan.manifestSha256.1

theorem Given.get_eq_some {α : Type} {g : Given α} {a : α} (h : g.get = some a) : g = .value a := by
  cases g with
  | absent => cases h
  | null => cases h
  | value b =>
    cases h
    rfl

variable {role : MoverRole} {chunks : List Chunk} {mover : Row} {tierId : Name} {names : List Name}
    {position : Nat}
  {phases : List Phase}

theorem sealed_of_chunks (h : (phase.chunkTable role).get = some chunks) :
    phase.sealed role = chunks.map (Chunk.leg phase.name) := by
  unfold Phase.sealed
  rw [h]

def Phase.whole (phase : Phase) (mover : Row) (egress : Option Row) : Leg :=
  ⟨phase.name, none, phase.startBytes, phase.endBytes, phase.stageGib, mover, egress⟩

theorem sealed_of_mover (h : (phase.chunkTable role).get = none)
    (hm : (phase.mover role).get = some mover) :
    phase.sealed role = [phase.whole mover (phase.egress role).get] := by
  unfold Phase.sealed
  rw [h, hm]
  rfl

theorem Phase.Laid.of_chunks {words : LegWords} {table : String}
    (hta : (phase.chunkTable role).get = some chunks) (hti : plan.tierOf role = some tierId)
    (h : checkChunked words table tierId plan.manifestSha256.1 phase chunks keys = .ok keys') :
      phase.Laid plan role := by
  obtain ⟨hi, ht, hp⟩ := checkChunked_ok h
  refine ⟨fun chunks' hc' => ?_, fun leg hl => ?_⟩
  · rw [hta] at hc'
    cases hc'
    exact ⟨hi, ht⟩
  · rw [sealed_of_chunks hta] at hl
    obtain ⟨c, hc, rfl⟩ := mem_map.mp hl
    exact ⟨tierId, hti, hp c hc⟩

theorem Phase.Laid.of_mover (ht : (phase.chunkTable role).get = none)
    (hm : (phase.mover role).get = some mover) (hti : plan.tierOf role = some tierId)
    (h : (phase.whole mover (phase.egress role).get).Paid tierId plan.manifestSha256.1) :
      phase.Laid plan role := by
  refine ⟨fun chunks hc => ?_, fun leg hl => ?_⟩
  · rw [ht] at hc
    cases hc
  · rw [sealed_of_mover ht hm, mem_singleton] at hl
    exact ⟨tierId, hti, hl ▸ h⟩

theorem checkStage_ok (h : checkStage plan phase keys = .ok keys')
    (hem : phase.startBytes < phase.endBytes)
    (hg : stageTokensForBytes (phase.endBytes - phase.startBytes) ≤ phase.stageGib) :
    phase.Laid plan .moverRow ∧ phase.legs .moverRow = .ok (phase.sealed .moverRow) ∧
      Tiles phase.startBytes ((phase.sealed .moverRow).map Leg.range) phase.endBytes := by
  unfold checkStage at h
  split at h
  next chunks hc =>
    have ht : (phase.chunkTable .moverRow).get = some chunks := hc
    obtain ⟨_, _, h⟩ := bind_ok.mp h
    have hl : phase.legs .moverRow = .ok (chunks.map (Chunk.leg phase.name)) := by
      unfold Phase.legs
      rw [ht]
    have hti := (checkChunked_ok h).2.1
    rw [sealed_of_chunks ht, map_map]
    exact ⟨.of_chunks ht rfl h, hl, hti⟩
  next hc =>
    have ht : (phase.chunkTable .moverRow).get = none := hc
    obtain ⟨mover, hm, h⟩ := bind_ok.mp h
    obtain ⟨_, _, h⟩ := bind_ok.mp h
    obtain ⟨egress, heg, h⟩ := bind_ok.mp h
    obtain ⟨_, _, h⟩ := bind_ok.mp h
    obtain ⟨_, hd, h⟩ := bind_ok.mp h
    obtain ⟨_, hp, _⟩ := bind_ok.mp h
    have hm := given_ok hm
    have hmo : phase.mover .moverRow = .value mover := Given.get_eq_some hm
    have he : phase.egress .moverRow = .value egress := Given.get_eq_some (given_ok heg)
    have hl : phase.legs .moverRow = .ok [phase.whole mover (some egress)] := by
      unfold Phase.legs
      rw [ht, hmo, he]
      rfl
    have hs := sealed_of_mover ht hm
    refine ⟨.of_mover ht hm rfl ⟨checkPin_ok hp, hg, checkDemand_ok hd⟩, ?_, ?_⟩
    · rw [hl, hs, he]
      rfl
    · rw [hs]
      exact ⟨rfl, Int.ofNat_lt.mpr hem, rfl⟩

theorem ramTier_ok {place carried : String} (h : ramTier place carried plan = .ok tierId) :
    plan.tierOf .ramMoverRow = some tierId := by
  unfold ramTier at h
  split at h
  next tier ht =>
    cases h
    exact ht
  next => cases h

theorem checkRam_ok (h : checkRam plan phase keys = .ok keys')
    (hg : stageTokensForBytes (phase.endBytes - phase.startBytes) ≤ phase.stageGib) :
    phase.Laid plan .ramMoverRow := by
  unfold checkRam at h
  split at h
  next chunks hc =>
    have ht := hc
    obtain ⟨_, _, h⟩ := bind_ok.mp h
    obtain ⟨tierId, hti, h⟩ := bind_ok.mp h
    exact .of_chunks ht (ramTier_ok hti) h
  next hc =>
    have ht : (phase.chunkTable .ramMoverRow).get = none := hc
    obtain ⟨_, _, h⟩ := bind_ok.mp h
    split at h
    next hm =>
      have hn : (phase.mover .ramMoverRow).get = none := hm
      refine ⟨fun chunks hs => ?_, fun leg hl => ?_⟩
      · rw [ht] at hs
        cases hs
      · unfold Phase.sealed at hl
        rw [ht, hn] at hl
        cases hl
    next mover hm =>
      obtain ⟨tierId, hti, h⟩ := bind_ok.mp h
      obtain ⟨_, _, h⟩ := bind_ok.mp h
      obtain ⟨_, hp, h⟩ := bind_ok.mp h
      obtain ⟨_, hd, _⟩ := bind_ok.mp h
      exact .of_mover ht hm (ramTier_ok hti) ⟨checkPin_ok hp, hg, checkDemand_ok hd⟩

structure Phase.Placed (plan : ResidencyPlan) (position : Nat) (phase : Phase) : Prop where
  start : phase.startBytes = position
  nonempty : phase.startBytes < phase.endBytes
  laid : ∀ role, phase.Laid plan role
  legs : phase.legs .moverRow = .ok (phase.sealed .moverRow)
  tiles : Tiles phase.startBytes ((phase.sealed .moverRow).map Leg.range) phase.endBytes

theorem checkPhase_placed (h : checkPhase plan position names keys phase = .ok keys') :
    phase.Placed plan position := by
  obtain ⟨_, _, h⟩ := bind_ok.mp h
  obtain ⟨_, hr, h⟩ := bind_ok.mp h
  obtain ⟨staged, hs, hra⟩ := bind_ok.mp h
  obtain ⟨he, hst, hg⟩ := checkRange_ok hr
  obtain ⟨hl, hle, ht⟩ := checkStage_ok hs he hg
  refine ⟨hst, he, fun role => ?_, hle, ht⟩
  cases role with
  | moverRow => exact hl
  | ramMoverRow => exact checkRam_ok hra hg

theorem legsOf_cons {first later : List Leg} (hf : phase.legs role = .ok first)
    (hl : legsOf role phases = .ok later) :
    legsOf role (phase :: phases) = .ok (first ++ later) := by
  rw [legsOf, hf, hl]
  rfl

theorem checkPhases_tiles
    (h : checkPhases plan position names keys phases = .ok keys') :
    ∃ ended, Tiles position (phases.map Phase.range) ended ∧
      legsOf .moverRow phases = .ok (phases.flatMap (Phase.sealed .moverRow)) ∧
      Tiles position ((phases.flatMap (Phase.sealed .moverRow)).map Leg.range) ended ∧
      ∀ phase ∈ phases, ∀ role, phase.Laid plan role := by
  induction phases generalizing position names keys with
  | nil =>
    cases h
    exact ⟨position, rfl, rfl, rfl, forall_mem_nil _⟩
  | cons phase phases ih =>
    obtain ⟨taken, hpha, h⟩ := bind_ok.mp h
    have hp := checkPhase_placed hpha
    obtain ⟨ended, hph, hla, hl, hr⟩ := ih h
    have hs : (phase.startBytes : Int) = position := congrArg Nat.cast hp.start
    have hpo : (position : Int) < phase.endBytes := by
      rw [← hs]
      exact Int.ofNat_lt.mpr hp.nonempty
    have ht := hp.tiles.append hl
    rw [hs, ← map_append] at ht
    exact ⟨ended, ⟨hs, hpo, hph⟩, legsOf_cons hp.legs hla, ht,
      forall_mem_cons.mpr ⟨hp.laid, hr⟩⟩

end

variable {plan : ResidencyPlan}

theorem validatePlan_declared (h : validatePlan plan = .ok ()) : plan.declared <+: plan.names := by
  obtain ⟨_, _, h⟩ := bind_ok.mp h
  obtain ⟨_, _, h⟩ := bind_ok.mp h
  obtain ⟨_, _, h⟩ := bind_ok.mp h
  obtain ⟨_, _, h⟩ := bind_ok.mp h
  obtain ⟨_, _, h⟩ := bind_ok.mp h
  obtain ⟨_, _, h⟩ := bind_ok.mp h
  have hd := require_ok.mp h
  rw [hd]
  exact take_prefix _ _

theorem validatePlan_phases (h : validatePlan plan = .ok ()) :
    ∃ keys, checkPhases plan 0 [] [] plan.phases = .ok keys := by
  obtain ⟨_, _, h⟩ := bind_ok.mp h
  obtain ⟨_, _, h⟩ := bind_ok.mp h
  obtain ⟨_, _, h⟩ := bind_ok.mp h
  obtain ⟨_, _, h⟩ := bind_ok.mp h
  obtain ⟨_, _, h⟩ := bind_ok.mp h
  obtain ⟨keys, hp, _⟩ := bind_ok.mp h
  exact ⟨keys, hp⟩

theorem validatePlan_ranges (h : validatePlan plan = .ok ()) :
    ((plan.phases.flatMap (Phase.sealed .moverRow)).map Leg.range).Nodup := by
  obtain ⟨keys, hp⟩ := validatePlan_phases h
  obtain ⟨ended, _, _, ht, _⟩ := checkPhases_tiles hp
  exact ht.nodup

def ResidencyPlan.endBytes (plan : ResidencyPlan) : Nat :=
    (plan.phases.getLast?.map Phase.endBytes).getD 0

/-- A plan that passes is a tiling: its phases, the chunks of every chunked leg and the stage legs
each follow one another without gap or overlap; no two rows share a key; every leg pins its own
range on its own tier and asks for what the range occupies; and the declared phases are the first
ones. -/
theorem validatePlan_tiling (plan : ResidencyPlan) (h : validatePlan plan = .ok ()) :
    Tiles 0 (plan.phases.map Phase.range) plan.endBytes ∧
      (∀ phase ∈ plan.phases, ∀ role chunks, (phase.chunkTable role).get = some chunks →
        chunks.map Chunk.chunkIndex = List.range chunks.length ∧
        Tiles phase.startBytes (chunks.map Chunk.range) phase.endBytes) ∧
      (∃ legs, plan.legs .moverRow = .ok legs ∧ Tiles 0 (legs.map Leg.range) plan.endBytes) ∧
      (plan.phases.flatMap Phase.keys).Nodup ∧
      (∀ phase ∈ plan.phases, ∀ role, ∀ leg ∈ phase.sealed role,
        ∃ tierId ∈ plan.tierOf role, leg.Paid tierId plan.manifestSha256.1) ∧
        plan.declared <+: plan.names := by
  obtain ⟨_, _, hk⟩ := validatePlan_ok h
  obtain ⟨keys, hph⟩ := validatePlan_phases h
  obtain ⟨ended, ht, hle, hl, hla⟩ := checkPhases_tiles hph
  have he : ended = plan.endBytes := by
    rw [ht.last, getLast?_map, ResidencyPlan.endBytes]
    cases plan.phases.getLast? <;> rfl
  rw [he] at ht hl
  exact ⟨ht, fun phase hp role => (hla phase hp role).chunked, ⟨_, hle, hl⟩, hk,
    fun phase hp role => (hla phase hp role).paid, validatePlan_declared h⟩

theorem demoPlan_tiling :
    (demoPlan true).endBytes = 4 * 2 ^ 30 ∧
    Tiles 0 ((demoPlan true).phases.map Phase.range) (demoPlan true).endBytes :=
  ⟨by decide, (validatePlan_tiling (demoPlan true) (demoPlan_valid true)).1⟩

end PrismaBuild.Residency
