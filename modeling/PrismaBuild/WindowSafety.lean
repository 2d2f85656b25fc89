import PrismaBuild.ActionKey
import PrismaBuild.WindowLoop

namespace PrismaBuild.Residency

open Contract List

namespace ConsumerWindow

variable {w : ConsumerWindow} {legs : List Leg} {budget : Option Int} {d : Decision}

theorem decision_ok :
    w.decision = .ok d ↔ ∃ legs budget, w.plan.legs w.leg.moverRole = .ok legs ∧
    w.runaheadBudget legs = .ok budget ∧
      w.conclude legs budget = d := by
  unfold decision
  simp only [bind_ok]
  constructor
  · rintro ⟨legs, hl, budget, hb, h⟩
    exact ⟨legs, budget, hl, hb, Except.ok.inj h⟩
  · rintro ⟨legs, budget, hl, hb, rfl⟩
    exact ⟨legs, hl, budget, hb, rfl⟩

theorem runaheadBudget_defined (hc : ∀ cap ∈ w.budget.runaheadCapGib, 0 < cap) (legs : List Leg) :
    ∃ budget, w.runaheadBudget legs = .ok budget := by
  unfold runaheadBudget budgetFromStep require
  rw [if_pos hc]
  exact ⟨_, rfl⟩

theorem take_append_ahead (w : ConsumerWindow) :
    w.plan.phases.take (w.plan.phases.length - w.ahead.length) ++ w.ahead = w.plan.phases := by
  unfold ahead ResidencyPlan.remaining
  rw [length_drop]
  generalize (phaseIndex w.plan.names w.acceptedPhase).getD 0 = k
  rcases Nat.le_total k w.plan.phases.length with hk | hk
  · rw [Nat.sub_sub_self hk, take_append_drop]
  · rw [drop_eq_nil_of_le hk, append_nil, Nat.sub_eq_zero_of_le hk, Nat.sub_zero, take_length]

theorem passed_append_aheadNames (w : ConsumerWindow) :
    w.passed ++ w.aheadNames = w.plan.names := by
  unfold passed aheadNames ResidencyPlan.names
  rw [← map_append, w.take_append_ahead]

variable {name : Name} {leg : Leg} {after before : List Leg}

theorem head_aheadNames_of_passed (h : name ∈ w.passed) : w.aheadNames.head? = w.acceptedPhase := by
  unfold passed ahead ResidencyPlan.remaining at h
  unfold aheadNames ahead ResidencyPlan.remaining
  cases hi : phaseIndex w.plan.names w.acceptedPhase with
  | none =>
    rw [hi] at h
    simp at h
  | some index =>
    have hh := (phaseIndex_split hi).2
    rwa [ResidencyPlan.names, ← map_drop] at hh

theorem not_mem_aheadNames_of_passed (hn : w.plan.names.Nodup) (h : name ∈ w.passed) :
    name ∉ w.aheadNames := by
  rw [← w.passed_append_aheadNames] at hn
  exact fun ha => (nodup_append'.mp hn).2.2 h ha

theorem exists_ahead (hne : w.plan.phases ≠ []) : ∃ phase later, w.ahead = phase :: later := by
  unfold ahead ResidencyPlan.remaining
  have hlt : (phaseIndex w.plan.names w.acceptedPhase).getD 0 < w.plan.phases.length := by
    cases hi : phaseIndex w.plan.names w.acceptedPhase with
    | none => exact length_pos_iff.mpr hne
    | some index => simpa [ResidencyPlan.names] using (phaseIndex_split hi).1
  exact ⟨_, _, drop_eq_getElem_cons hlt⟩

def candidates (w : ConsumerWindow) (legs : List Leg) : List Leg :=
  legs.filter fun leg => leg.phase ∈ w.aheadNames ∧ leg.key ∉ w.leg.published ∧
    leg.key ∉ w.budget.withdrawn

theorem mem_candidates (h : leg ∈ w.candidates legs) :
    leg.phase ∈ w.aheadNames ∧ leg.key ∉ w.leg.published ∧ leg.key ∉ w.budget.withdrawn :=
  of_decide_eq_true (mem_filter.mp h).2

theorem published_undeclared (hd : w.plan.declared = []) (legs : List Leg) (budget : Option Int) :
    (w.published legs budget).1 = firstRun (w.frame budget).take (w.budget.freeGib, w.runahead legs)
    (w.candidates legs) :=
  Frame.publishLegs_undeclared hd _ _ _

theorem current_undeclared (hd : w.plan.declared = []) (budget : Option Int) :
    (w.frame budget).current = w.currentName :=
  if_pos hd

theorem conclude_undeclared (hd : w.plan.declared = []) (legs : List Leg) (budget : Option Int) :
    (w.conclude legs budget).publish = (w.published legs budget).1.map Leg.publishRow := by
  have hp : w.pending legs = [] := if_pos (.inl hd)
  simp only [conclude, hp]

theorem candidates_current (hn : w.plan.names.Nodup) (hne : w.plan.phases ≠ [])
    (hlegs : w.plan.legs w.leg.moverRole = .ok legs)
    (hsp : w.candidates legs = before ++ leg :: after) (hle : some leg.phase = w.currentName) :
    ∀ l ∈ before ++ [leg], some l.phase = w.currentName := by
  obtain ⟨phase, later, ha⟩ := exists_ahead hne
  have hp := w.take_append_ahead.symm.trans (congrArg (_ ++ ·) ha)
  have hc : w.currentName = some phase.name := by
    rw [currentName, aheadNames, ha]
    rfl
  obtain ⟨first, own, rest, rfl, hf, ho, hr⟩ := legs_around hlegs hp
  rw [hc] at hle ⊢
  have hon := filter_around (fun l hl => ?_) ho (fun l hl hs => ?_) hsp (Option.some.inj hle)
  · exact fun l hl => congrArg some (hon l hl)
  · simp [not_mem_aheadNames_of_passed hn (hf l hl)]
  · rw [ResidencyPlan.names, hp, map_append, map_cons] at hn
    exact (nodup_cons.mp hn.of_append_right).1 (hs ▸ hr l hl)

structure SafeDecision (w : ConsumerWindow) (legs : List Leg) (d : Decision)
    (publish evict : List Leg) : Prop where
  publishes : d.publish = publish.map Leg.publishRow
  evicts : d.evict = evict.map Leg.evictRow
  initial : publish <+: w.candidates legs
  fits : (gibOf publish : Int) ≤ max 0 w.budget.freeGib
  evicted_mem : ∀ leg ∈ evict, leg ∈ legs ∧ leg.key ∈ w.leg.staged
  evicted_passed : ∀ leg ∈ evict, ∃ before after, w.plan.names = before ++ after ∧
    after.head? = w.acceptedPhase ∧
    leg.phase ∈ before
  evicted_apart : ∀ leg ∈ evict, leg.phase ∉ w.aheadNames ∧ leg ∉ publish
  budgeted : ∀ b, w.runaheadBudget legs = .ok (some b) → (w.runahead legs : Int) ≤ b →
    (w.runahead legs : Int) + gibOf (publish.filter fun leg => leg.phase ∈ w.aheadNames.tail) ≤ b
  reading : ∀ before leg after, w.candidates legs = before ++ leg :: after →
    some leg.phase = w.currentName →
    leg ∈ publish ∨ w.budget.freeGib < gibOf (before ++ [leg])

theorem evicted_safe (hn : w.plan.names.Nodup) (h : leg ∈ w.evicted legs) :
    (leg ∈ legs ∧ leg.key ∈ w.leg.staged) ∧ leg.phase ∈ w.passed ∧ leg.phase ∉ w.aheadNames := by
  obtain ⟨hm, hl⟩ := mem_filter.mp h
  obtain ⟨-, hp, hs⟩ := of_decide_eq_true hl
  exact ⟨⟨hm, hs⟩, hp, not_mem_aheadNames_of_passed hn hp⟩

theorem published_fits (hd : w.plan.declared = []) :
    (gibOf (w.published legs budget).1 : Int) ≤ max 0 w.budget.freeGib := by
  rw [published_undeclared hd]
  obtain ⟨s, hs⟩ := exists_foldlM_firstRun (w.frame budget).take (w.candidates legs)
    (w.budget.freeGib, w.runahead legs)
  obtain ⟨hr, -⟩ := Frame.foldlM_take hs
  obtain ⟨hde, -⟩ := Frame.foldlM_take_bounds hs
  generalize firstRun _ _ _ = publish at hr hde
  cases publish with
  | nil => exact Int.le_max_left 0 _
  | cons leg rest =>
    have hz := hde (.inr (cons_ne_nil _ _))
    simp only at hr
    omega

theorem filter_later (hna : w.plan.names.Nodup) {ls : List Leg}
    (h : ∀ leg ∈ ls, leg.phase ∈ w.aheadNames) :
    ls.filter (fun leg => leg.phase ∈ w.aheadNames.tail) = ls.filter fun leg =>
      some leg.phase ≠ w.currentName := by
  have ha : w.aheadNames.Nodup := by
    rw [← w.passed_append_aheadNames] at hna
    exact hna.of_append_right
  refine filter_congr fun leg hl => decide_eq_decide.mpr ?_
  have hm := h leg hl
  unfold currentName
  cases hn : w.aheadNames with
  | nil =>
    rw [hn] at hm
    cases hm
  | cons first later =>
    rw [hn] at hm ha
    have hf := (nodup_cons.mp ha).1
    constructor
    · intro ht hs
      cases Option.some.inj hs
      exact hf ht
    · intro hne
      rcases mem_cons.mp hm with hs | ht
      · exact absurd (congrArg some hs) hne
      · exact ht

theorem published_budgeted (hn : w.plan.names.Nodup) (hd : w.plan.declared = []) {b : Int}
    (hb : budget = some b) (hle : (w.runahead legs : Int) ≤ b) : (w.runahead legs : Int) +
      gibOf ((w.published legs budget).1.filter fun leg => leg.phase ∈ w.aheadNames.tail) ≤ b := by
  have hi : ∀ leg ∈ (w.published legs budget).1, leg.phase ∈ w.aheadNames := by
    rw [published_undeclared hd]
    exact fun leg hl => (mem_candidates ((firstRun_isPrefix _ _ _).subset hl)).1
  rw [filter_later hn hi, published_undeclared hd]
  obtain ⟨s, hs⟩ := exists_foldlM_firstRun (w.frame budget).take (w.candidates legs)
    (w.budget.freeGib, w.runahead legs)
  obtain ⟨-, ha⟩ := Frame.foldlM_take hs
  obtain ⟨-, hbu⟩ := Frame.foldlM_take_bounds hs
  have hbo := hbu b hb hle
  rw [current_undeclared hd] at ha
  simp only at ha
  omega

theorem published_reading (hn : w.plan.names.Nodup) (hne : w.plan.phases ≠ [])
    (hd : w.plan.declared = [])
    (hle : w.plan.legs w.leg.moverRole = .ok legs)
    (hs : w.candidates legs = before ++ leg :: after) (hleg : some leg.phase = w.currentName) :
    leg ∈ (w.published legs budget).1 ∨ w.budget.freeGib < gibOf (before ++ [leg]) := by
  have hc := candidates_current hn hne hle hs hleg
  rw [published_undeclared hd]
  by_cases hf : (gibOf (before ++ [leg]) : Int) ≤ w.budget.freeGib
  · have hr := Frame.foldlM_take_current (s := (w.budget.freeGib, w.runahead legs))
      (fun l hl => (hc l hl).trans (current_undeclared hd budget).symm) hf
    have hin : before ++ [leg] <+: w.candidates legs := by
      rw [hs]
      exact ⟨after, by simp⟩
    left
    exact (isPrefix_firstRun_iff.mpr ⟨hin, hr⟩).subset (mem_append_right _ (.head _))
  · exact .inr (Int.not_le.mp hf)

/-- One window decision of a plan without a declared phase is safe, and it is made whenever the
run-ahead cap is positive. -/
theorem decision_safe (hv : validatePlan w.plan = .ok ()) (hd : w.plan.declared = [])
    (hlegs : w.plan.legs w.leg.moverRole = .ok legs) :
    ((∀ cap ∈ w.budget.runaheadCapGib, 0 < cap) → ∃ d, w.decision = .ok d) ∧
      ∀ d, w.decision = .ok d → ∃ publish evict, SafeDecision w legs d publish evict := by
  obtain ⟨hne, hn, -⟩ := validatePlan_ok hv
  constructor
  · intro hc
    obtain ⟨budget, hbu⟩ := runaheadBudget_defined hc legs
    exact ⟨_, decision_ok.mpr ⟨legs, budget, hlegs, hbu, rfl⟩⟩
  · intro d h
    obtain ⟨legs', budget, hl', hbu, rfl⟩ := decision_ok.mp h
    cases Except.ok.inj (hlegs.symm.trans hl')
    refine ⟨(w.published legs budget).1, w.evicted legs, ?_⟩
    have hi : (w.published legs budget).1 <+: w.candidates legs := by
      rw [published_undeclared hd]
      exact firstRun_isPrefix _ _ _
    exact
      { publishes := conclude_undeclared hd legs budget
        evicts := by
          unfold conclude
          split <;> rfl
        initial := hi
        fits := published_fits hd
        evicted_mem := fun leg hl => (evicted_safe hn hl).1
        evicted_passed := fun leg hl =>
          have hpassed := (evicted_safe hn hl).2.1
          ⟨w.passed, w.aheadNames, w.passed_append_aheadNames.symm,
            head_aheadNames_of_passed hpassed, hpassed⟩
        evicted_apart := fun leg hl =>
          have hahead := (evicted_safe hn hl).2.2
          ⟨hahead, fun hp => hahead (mem_candidates (hi.subset hp)).1⟩
        budgeted := fun b hb hle =>
          published_budgeted hn hd (Except.ok.inj (hbu.symm.trans hb)) hle
        reading := fun before leg after hs hl => published_reading hn hne hd hlegs hs hl }

end ConsumerWindow

open PrismaBuild.Action (hexDigits hexDigits_accepted)

def demoTier : Name := "prismabuild-stage:host"

def demoKey (n : Nat) : Text sha256Text := ⟨hexDigits n, hexDigits_accepted n⟩

def demoMover (n first last : Nat) : Row where
  actionKey := demoKey n
  residency := some ⟨demoTier, (demoKey 0).1, first * 2 ^ 30, last * 2 ^ 30⟩
  resources := some [("stage_gib@prismabuild-stage:host", (last - first : Nat))]

def demoEgress (n : Nat) : Row := ⟨demoKey n, none, none⟩

def demoChunk (index first last n : Nat) : Chunk :=
  ⟨index, first * 2 ^ 30, last * 2 ^ 30, last - first, demoMover n first last, demoEgress (n + 1)⟩

def demoPlan (declared : Bool) : ResidencyPlan where
  consumerActionKey := demoKey 1
  manifestSha256 := demoKey 0
  manifestBytes := 1
  tierId := demoTier
  ramTierId := none
  stageRoot := "/stage"
  phases :=
    [⟨"load", 0, 2 ^ 30, 1, .value (demoMover 2 0 1), .value (demoEgress 3), .absent, .absent,
      .absent, .absent,
        declared⟩,
      ⟨"train", 2 ^ 30, 4 * 2 ^ 30, 3, .absent, .absent,
        .value [demoChunk 0 1 2 4, demoChunk 1 2 4 6], .absent,
        .absent, .absent, false⟩]

theorem planned_of_isOk {check : Planned Unit} (h : check.isOk = true) : check = .ok () := by
  cases check with
  | error e => cases h
  | ok u => rfl

theorem demoPlan_valid (declared : Bool) : validatePlan (demoPlan declared) = .ok () := by
  refine planned_of_isOk ?_
  cases declared with
  | false => decide +kernel
  | true => decide +kernel

def demoLegs : List Leg :=
  [⟨"load", none, 0, 2 ^ 30, 1, demoMover 2 0 1, some (demoEgress 3)⟩,
    (demoChunk 0 1 2 4).leg "train",
    (demoChunk 1 2 4 6).leg "train"]

theorem demoPlan_legs (declared : Bool) : (demoPlan declared).legs .moverRow = .ok demoLegs := rfl

def demoWindow : ConsumerWindow :=
  ⟨demoPlan false, some "train", { staged := [(demoKey 2).1] }, { freeGib := 2 }⟩

theorem demoWindow_safe : ∃ d publish evict, demoWindow.decision = .ok d ∧
    demoWindow.SafeDecision demoLegs d publish evict := by
  obtain ⟨⟨d, hd⟩, hs⟩ := (ConsumerWindow.decision_safe (w := demoWindow) (demoPlan_valid false) rfl
    (demoPlan_legs false)).imp_left fun h => h nofun
  obtain ⟨publish, evict, h⟩ := hs d hd
  exact ⟨d, publish, evict, hd, h⟩

end PrismaBuild.Residency
