import PrismaBuild.PlanTiles
import PrismaBuild.WindowFootprint
import PrismaBuild.WindowGate

namespace PrismaBuild.Residency

open Contract List Option

def ResidencyPlan.legsOver (plan : ResidencyPlan) (startBytes endBytes : Int) (role : MoverRole) :
    Except WindowError (List Leg) := do
  let legs ← plan.legs role
  pure (legs.filter fun leg => (leg.startBytes : Int) < endBytes ∧
    startBytes < (leg.endBytes : Int))

def largestPair : List Nat → Nat
  | [] => 0
  | [size] => size
  | size :: next :: rest => max (size + next) (largestPair (next :: rest))

def ConsumerWindow.remainingMovementMinimumGib (w : ConsumerWindow) : Except WindowError Nat := do
  let legs ← w.plan.legs w.leg.moverRole
  let future := legs.filter fun leg => leg.phase ∈ w.aheadNames ∧ leg.phase ∉ w.plan.declared
  pure (largestPair (future.map Leg.stageGib))

def Phase.Paired (role : MoverRole) (phase : Phase) : Prop :=
  (phase.chunkTable role).get = none →
    phase.mover role = .absent ∨ ∃ mover egress, phase.mover role = .value mover ∧
    phase.egress role = .value egress

section

variable {role : MoverRole} {phase : Phase}

theorem Phase.Paired.defined (h : phase.Paired role) : ∃ legs, phase.legs role = .ok legs ∧
    ∀ leg ∈ legs, leg.egressRow.isSome := by
  unfold Phase.legs
  split
  next chunks _ =>
    refine ⟨_, rfl, fun leg hl => ?_⟩
    obtain ⟨c, -, rfl⟩ := mem_map.mp hl
    rfl
  next hn =>
    rcases h hn with hm | ⟨mover, egress, hm, he⟩
    · rw [hm]
      exact ⟨[], rfl, forall_mem_nil _⟩
    · rw [hm, he]
      refine ⟨_, rfl, fun leg hl => ?_⟩
      rw [mem_singleton.mp hl]
      rfl

theorem legsOf_paired {phases : List Phase} (h : ∀ phase ∈ phases, phase.Paired role) :
    ∃ legs, legsOf role phases = .ok legs ∧ ∀ leg ∈ legs, leg.egressRow.isSome := by
  induction phases with
  | nil => exact ⟨[], rfl, forall_mem_nil _⟩
  | cons phase phases ih =>
    obtain ⟨hp, hr⟩ := forall_mem_cons.mp h
    obtain ⟨first, hf, heg⟩ := hp.defined
    obtain ⟨later, hl, he⟩ := ih hr
    exact ⟨_, legsOf_cons hf hl, forall_mem_append.mpr ⟨heg, he⟩⟩

end

variable {F : Type} [FloatFormat F] [FloatArith F]

/-- Everything that is computed from a plan's legs is defined, a budget that is refused apart. -/
structure Windowed (F : Type) [FloatFormat F] [FloatArith F] (plan : ResidencyPlan) : Prop where
  legs : ∀ role, ∃ legs, plan.legs role = .ok legs
  decision : ∀ w : ConsumerWindow, w.plan = plan → (∃ d, w.decision = .ok d) ∨
    ∃ e, w.decision = .error (.plan e)
  advance : ∀ w : ConsumerWindow, w.plan = plan → ∃ a, w.advance = .ok a
  minimum : ∀ w : ConsumerWindow, w.plan = plan → ∃ n, w.remainingMovementMinimumGib = .ok n
  legsOver : ∀ startBytes endBytes role, ∃ legs, plan.legsOver startBytes endBytes role = .ok legs
  horizon : ∀ acceptedPhase (pace : Pace F) role, ∃ horizon,
    refillHorizon plan acceptedPhase pace role = .ok horizon

variable {plan : ResidencyPlan} {keys keys' : List (Text sha256Text)} {phase : Phase}
    {phases : List Phase}
  {legs : List Leg} {role : MoverRole}

theorem windowed_of_legs
    (h : ∀ role, ∃ legs, plan.legs role = .ok legs ∧ ∀ leg ∈ legs, leg.egressRow.isSome) :
    Windowed F plan := by
  refine ⟨fun role => ?_, ?_, ?_, ?_, fun startBytes endBytes role =>
    ?_, fun acceptedPhase pace role => ?_⟩
  · obtain ⟨legs, hl, _⟩ := h role
    exact ⟨legs, hl⟩
  · rintro w rfl
    obtain ⟨legs, hl, _⟩ := h w.leg.moverRole
    unfold ConsumerWindow.decision
    rw [hl]
    cases hb : budgetFromStep (w.step legs) w.hasAccepted w.budget.capacityGib
      w.budget.runaheadCapGib with
    | error e =>
      refine .inr ⟨e, ?_⟩
      show (w.runaheadBudget legs >>= _) = _
      rw [ConsumerWindow.runaheadBudget, hb]
      rfl
    | ok budget =>
      refine .inl ⟨w.conclude legs budget, ?_⟩
      show (w.runaheadBudget legs >>= _) = _
      rw [ConsumerWindow.runaheadBudget, hb]
      rfl
  · rintro w rfl
    obtain ⟨legs, hl, he⟩ := h w.leg.moverRole
    exact (ConsumerWindow.exists_advance_iff hl).mpr fun leg hle =>
      he leg (ConsumerWindow.listed_subset leg hle)
  · rintro w rfl
    obtain ⟨legs, hl, _⟩ := h w.leg.moverRole
    exact ⟨_, bind_ok.mpr ⟨legs, hl, rfl⟩⟩
  · obtain ⟨legs, hl, _⟩ := h role
    exact ⟨_, bind_ok.mpr ⟨legs, hl, rfl⟩⟩
  · obtain ⟨legs, hl, _⟩ := h role
    exact refillHorizon_defined hl acceptedPhase pace

theorem checkStage_paired (h : checkStage plan phase keys = .ok keys') :
    phase.Paired .moverRow := by
  intro hn
  have hc : phase.stageChunks.get = none := hn
  unfold checkStage at h
  rw [hc] at h
  obtain ⟨mover, hm, h⟩ := bind_ok.mp h
  obtain ⟨_, _, h⟩ := bind_ok.mp h
  obtain ⟨egress, he, _⟩ := bind_ok.mp h
  exact .inr ⟨mover, egress, Given.get_eq_some (given_ok hm), Given.get_eq_some (given_ok he)⟩

theorem checkPhases_paired {position : Nat} {names : List Name}
    (h : checkPhases plan position names keys phases = .ok keys') :
    ∀ phase ∈ phases, phase.Paired .moverRow := by
  induction phases generalizing position names keys with
  | nil => exact forall_mem_nil _
  | cons phase phases ih =>
    obtain ⟨taken, hp, h⟩ := bind_ok.mp h
    obtain ⟨_, _, hp⟩ := bind_ok.mp hp
    obtain ⟨_, _, hp⟩ := bind_ok.mp hp
    obtain ⟨staged, hs, _⟩ := bind_ok.mp hp
    exact forall_mem_cons.mpr ⟨checkStage_paired hs, ih h⟩

theorem legsOf_mem (h : legsOf role phases = .ok legs) (hp : phase ∈ phases) :
    ∃ own, phase.legs role = .ok own ∧ ∀ leg ∈ own, leg ∈ legs := by
  induction phases generalizing legs with
  | nil => cases hp
  | cons first phases ih =>
    obtain ⟨own, ho, h⟩ := bind_ok.mp h
    obtain ⟨rest, hr, h⟩ := bind_ok.mp h
    cases h
    rcases mem_cons.mp hp with rfl | hp
    · exact ⟨own, ho, fun leg => mem_append_left rest⟩
    · obtain ⟨mine, hm, hs⟩ := ih hr hp
      exact ⟨mine, hm, fun leg hl => mem_append_right own (hs leg hl)⟩

theorem aheadNames_start (plan : ResidencyPlan) (o : LegObservation) (b : WindowBudget) :
    (ConsumerWindow.mk plan none o b).aheadNames = plan.names := by
  have hn : phaseIndex plan.names none = none := findIdx?_eq_none_iff.mpr fun _ _ => rfl
  show ((plan.phases.drop ((phaseIndex plan.names none).getD 0)).map Phase.name) = _
  rw [hn]
  rfl

theorem Windowed.egress (h : Windowed F plan)
    (hle : plan.legs role = .ok legs) : ∀ leg ∈ legs, leg.egressRow.isSome := by
  let w : ConsumerWindow := ⟨plan, none, { moverRole := role }, { freeGib := 0 }⟩
  have hr := (ConsumerWindow.exists_advance_iff hle).mp (h.advance w rfl)
  intro leg hl
  refine hr leg ?_
  by_cases hin : leg.phase ∈ plan.declared
  · exact ConsumerWindow.mem_listed_of_declared hl hin
  · refine ConsumerWindow.mem_listed_of_waiting
      (mem_filter.mpr ⟨mem_filter.mpr ⟨hl, decide_eq_true hin⟩, decide_eq_true ⟨?_, nofun, ?_⟩⟩)
    · rw [aheadNames_start]
      exact legsOf_phase hle leg hl
    · exact decide_eq_true (.inr nofun)

/-- A plan that passes can be windowed if and only if every promotion that is sealed whole has its
egress row. -/
theorem windowed_iff_paired (plan : ResidencyPlan) (hv : validatePlan plan = .ok ()) :
    Windowed F plan ↔ ∀ phase ∈ plan.phases, phase.Paired .ramMoverRow := by
  constructor
  · intro h phase hph hn
    obtain ⟨legs, hl⟩ := h.legs .ramMoverRow
    obtain ⟨own, ho, hs⟩ := legsOf_mem hl hph
    have he := h.egress hl
    unfold Phase.legs at ho
    rw [hn] at ho
    cases hm : phase.mover .ramMoverRow with
    | absent => exact .inl rfl
    | null =>
      rw [hm] at ho
      cases ho
    | value mover =>
      rw [hm] at ho
      cases hr : phase.egress .ramMoverRow with
      | absent =>
        rw [hr] at ho
        cases ho
      | null =>
        rw [hr] at ho
        have hin := hs _ (Except.ok.inj ho ▸ mem_singleton_self _)
        cases he _ hin
      | value egress => exact .inr ⟨mover, egress, rfl, rfl⟩
  · intro h
    obtain ⟨keys, hp⟩ := validatePlan_phases hv
    refine windowed_of_legs fun role => ?_
    cases role with
    | moverRow => exact legsOf_paired (checkPhases_paired hp)
    | ramMoverRow => exact legsOf_paired h

open PrismaBuild.Action (ZeroOne)

def ramTierName : Name := "ram:host"

/-- A phase of one GiB with a promotion, whose egress row is the one given. -/
def promotedPlan (egress : Given Row) : ResidencyPlan where
  consumerActionKey := demoKey 1
  manifestSha256 := demoKey 0
  manifestBytes := 1
  tierId := demoTier
  ramTierId := some ramTierName
  stageRoot := "/stage"
  phases :=
    [⟨"load", 0, 2 ^ 30, 1, .value (demoMover 2 0 1), .value (demoEgress 3), .absent,
      .value ⟨demoKey 4, some ⟨ramTierName, (demoKey 0).1, 0, 2 ^ 30⟩,
      some [("ram_gib@ram:host", 1)]⟩, egress, .absent,
      false⟩]

theorem promotedPlan_windowed : Windowed ZeroOne (promotedPlan (.value (demoEgress 5))) :=
  (windowed_iff_paired (promotedPlan (.value (demoEgress 5)))
    (planned_of_isOk (by decide +kernel))).mpr
    (forall_mem_singleton.mpr fun _ => .inr ⟨_, _, rfl, rfl⟩)

/-- The check passes one whose egress row was never sealed, and the ram window finds no egress row
to read. -/
theorem promotedPlan_undefined :
    validatePlan (promotedPlan .absent) = .ok () ∧
      (promotedPlan .absent).legs .ramMoverRow = .error (.undefinedLeg "load") ∧
      (ConsumerWindow.mk (promotedPlan .absent) none { moverRole := .ramMoverRow }
      { freeGib := 8 }).decision =
        .error (.undefinedLeg "load") :=
  ⟨planned_of_isOk (by decide +kernel), rfl, rfl⟩

end PrismaBuild.Residency
