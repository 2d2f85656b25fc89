import PrismaBuild.RefillHorizon
import PrismaBuild.WindowSafety

namespace PrismaBuild.Residency

open Contract List

variable {F : Type} [FloatFormat F] [FloatArith F] {legs : List Leg} {plan : ResidencyPlan}
    {role : MoverRole}

theorem refillHorizon_defined (hl : plan.legs role = .ok legs) (acceptedPhase : Option Name)
    (pace : Pace F) :
    ∃ horizon, refillHorizon plan acceptedPhase pace role = .ok horizon := by
  unfold refillHorizon
  rw [hl]
  cases pricing plan acceptedPhase pace with
  | none => exact ⟨_, rfl⟩
  | some q => exact ⟨_, rfl⟩

theorem largestFootprint_ok {capacityGib : Int} {rates : Rates F} {phases : List Phase}
    {bound : Nat}
    (ha : ∀ phase ∈ phases, ∃ own, footprintAt plan capacityGib rates role phase.name = .ok own ∧
      own ≤ bound)
    {largest : Nat} (hl : largest ≤ bound) :
    ∃ n, largestFootprint plan capacityGib rates role largest phases = .ok n ∧ largest ≤ n ∧
      n ≤ bound ∧
      ∀ phase ∈ phases, ∀ own, footprintAt plan capacityGib rates role phase.name = .ok own →
      own ≤ n := by
  induction phases generalizing largest with
  | nil => exact ⟨largest, rfl, Nat.le_refl _, hl, fun phase hph => absurd hph not_mem_nil⟩
  | cons phase phases ih =>
    obtain ⟨own, ho, hb⟩ := ha phase (.head _)
    obtain ⟨n, hn, hle, hnb, hr⟩ := ih (fun p hp => ha p (.tail _ hp)) (Nat.max_le.mpr ⟨hl, hb⟩)
    refine ⟨n, bind_ok.mpr ⟨own, ho, hn⟩, by omega, hnb, fun p hp own' ho' => ?_⟩
    rcases mem_cons.mp hp with rfl | hp
    · cases Except.ok.inj (ho.symm.trans ho')
      omega
    · exact hr p hp own' ho'

/-- What one cycle at a phase sees: the horizon there, everything published so far, and at most the
room that is left. -/
structure Cycle (role : MoverRole) (ended : Option Int) (capacityGib : Int) (held : List PublishRow)
    (leg : LegObservation) (budget : WindowBudget) : Prop where
  role : leg.moverRole = role
  horizon : leg.horizonEndBytes = ended
  published : ∀ key, key ∈ leg.published ↔ key ∈ held.map PublishRow.moverActionKey
  withdrawn : budget.withdrawn = []
  capacity : budget.capacityGib = some capacityGib
  free : budget.freeGib ≤ capacityGib - rowsGib held

/-- What a window has published after some cycles at a phase, from an empty tier on. -/
inductive Cycles (plan : ResidencyPlan) (name : Name) (role : MoverRole) (ended : Option Int)
    (capacityGib : Int) :
    List PublishRow → Prop
  | start : Cycles plan name role ended capacityGib []
  | cycle {held : List PublishRow} {leg : LegObservation} {budget : WindowBudget} {d : Decision}
      (before : Cycles plan name role ended capacityGib held)
      (hcycle : Cycle role ended capacityGib held leg budget)
      (hd : (ConsumerWindow.mk plan (some name) leg budget).decision = .ok d) :
      Cycles plan name role ended capacityGib (held ++ d.publish)

theorem rowsGib_map (legs : List Leg) : rowsGib (legs.map Leg.publishRow) = gibOf legs := by
  unfold rowsGib gibOf
  rw [map_map]
  rfl

theorem tighten_le {budget cap : Option Int} {b : Int} (h : tighten (some b) cap = budget) :
    ∃ b', budget = some b' ∧ b' ≤ b := by
  cases cap with
  | none => exact ⟨b, h.symm, Int.le_refl b⟩
  | some c => exact ⟨min b c, h.symm, Int.min_le_left b c⟩

theorem Frame.foldlM_take_loosens (f f' : Frame) (hcu : f.current = f'.current)
    (hh : f.horizonEndBytes = f'.horizonEndBytes) (hbu : ∀ b' ∈ f'.budget, ∃ b ∈ f.budget, b ≤ b')
    {s s' : Int × Nat} {room : Int} (hr : s.1 ≤ room) (h : legs.foldlM f.take s = some s') :
    (legs.foldlM f'.take (room, s.2)).isSome = true := by
  have hsi : ∃ t, legs.foldlM f'.take (room, s.2) = some t ∧ s'.1 ≤ t.1 ∧ s'.2 = t.2 := by
    refine foldlM_simulates (R := fun (s t : Int × Nat) => s.1 ≤ t.1 ∧ s.2 = t.2) ?_ ⟨hr, rfl⟩ h
    intro leg _ s t u hR hta
    obtain ⟨hle, hs⟩ := hR
    obtain ⟨⟨hf, hfi⟩, rfl⟩ := take_eq_some.mp hta
    refine ⟨_, take_eq_some.mpr ⟨⟨fun hc => ⟨?_, fun b' hb' => ?_⟩, by omega⟩, rfl⟩, ?_, ?_⟩
    · rw [← hh]
      exact (hf (by rwa [hcu])).1
    · obtain ⟨b, hb, hbb⟩ := hbu b' hb'
      have := (hf (by rwa [hcu])).2 b hb
      omega
    · simp only
      omega
    · simp only [hcu, hs]
  obtain ⟨t, ht, -⟩ := hsi
  rw [ht]
  rfl

namespace ConsumerWindow

variable {w : ConsumerWindow} {legs : List Leg} {budget : Option Int} {capacityGib : Int}

theorem runaheadBudget_accepted (ha : w.hasAccepted = true)
    (hc : w.budget.capacityGib = some capacityGib)
    (h : w.runaheadBudget legs = .ok budget) :
      tighten (some (max 0 (capacityGib - w.step legs))) w.budget.runaheadCapGib = budget := by
  have h := except_mapError_ok h
  obtain ⟨-, -, h⟩ := bind_ok.mp h
  rw [ha, hc] at h
  exact Except.ok.inj h

theorem hasAccepted_of_mem {name : Name} (hn : name ∈ w.plan.names)
    (h : w.acceptedPhase = some name) : w.hasAccepted = true := by
  unfold hasAccepted ResidencyPlan.accepted phaseIndex
  rw [h, findIdx?_isSome, any_eq_true]
  exact ⟨name, hn, beq_self_eq_true _⟩

def aheadLegs (w : ConsumerWindow) (legs : List Leg) : List Leg :=
    legs.filter (·.phase ∈ w.aheadNames)

theorem candidates_eq (hw : w.budget.withdrawn = []) (legs : List Leg) :
    w.candidates legs = (w.aheadLegs legs).filter (·.key ∉ w.leg.published) := by
  unfold candidates aheadLegs
  rw [filter_filter, hw]
  refine filter_congr fun leg _ => ?_
  simp [Bool.and_comm]

theorem runahead_eq (hd : w.plan.declared = []) (legs : List Leg) :
    w.runahead legs = gibOf (((w.aheadLegs legs).filter (·.key ∈ w.leg.published)).filter
      fun leg => leg.phase ∈ w.aheadNames.tail) := by
  unfold runahead future aheadLegs
  rw [filter_filter, filter_filter, filter_filter, hd]
  refine congrArg gibOf (filter_congr fun leg _ => ?_)
  have hs : leg.phase ∈ w.aheadNames.tail → leg.phase ∈ w.aheadNames := mem_of_mem_tail
  by_cases ht : leg.phase ∈ w.aheadNames.tail
  · simp [ht, hs ht]
  · simp [ht]

variable {done rest : List Leg}

theorem candidates_after (hw : w.budget.withdrawn = [])
    (hk : ((done ++ rest).map Leg.key).Nodup) (ha : w.aheadLegs legs = done ++ rest)
    (hp : ∀ leg : Leg, leg.key ∈ w.leg.published ↔ leg.key ∈ done.map Leg.key) :
      w.candidates legs = rest := by
  rw [candidates_eq hw, ha]
  refine (filter_congr fun leg _ => ?_).trans (filter_mem_map_of_append hk).2
  exact decide_eq_decide.mpr (not_congr (hp leg))

theorem runahead_after (hn : w.plan.names.Nodup) (hd : w.plan.declared = [])
    (hk : ((done ++ rest).map Leg.key).Nodup) (ha : w.aheadLegs legs = done ++ rest)
    (hp : ∀ leg : Leg, leg.key ∈ w.leg.published ↔ leg.key ∈ done.map Leg.key) :
    w.runahead legs = gibOf (done.filter fun leg => some leg.phase ≠ w.currentName) := by
  have hh : (w.aheadLegs legs).filter (·.key ∈ w.leg.published) = done := by
    rw [ha]
    refine (filter_congr fun leg _ => ?_).trans (filter_mem_map_of_append hk).1
    exact decide_eq_decide.mpr (hp leg)
  have hi : ∀ leg ∈ done, leg.phase ∈ w.aheadNames := by
    intro leg hl
    have hm := ha ▸ mem_append_left rest hl
    exact of_decide_eq_true (mem_filter.mp hm).2
  rw [runahead_eq hd, hh, filter_later hn hi]

end ConsumerWindow

section

variable {plan : ResidencyPlan} {name : Name} {role : MoverRole} {ended : Option Int}
    {capacityGib : Int}
  {legs : List Leg}

def oneShot (first : ConsumerWindow) (capacityGib : Int) (legs : List Leg) : List Leg :=
  (first.published legs (some (max 0 (capacityGib - first.step legs)))).1

theorem emptyTier_budget (hn : name ∈ plan.names) {budget : Option Int}
    (h : (emptyTier plan name role ended capacityGib).runaheadBudget legs = .ok budget) :
    budget = some (max 0 (capacityGib - (emptyTier plan name role ended capacityGib).step legs)) :=
  (ConsumerWindow.runaheadBudget_accepted (ConsumerWindow.hasAccepted_of_mem hn rfl) rfl h).symm

theorem oneShot_eq (hd : plan.declared = []) :
    oneShot (emptyTier plan name role ended capacityGib) capacityGib legs =
      firstRun ((emptyTier plan name role ended capacityGib).frame
          (some (max 0 (capacityGib - (emptyTier plan name role ended capacityGib).step
          legs)))).take
        (capacityGib, 0) ((emptyTier plan name role ended capacityGib).aheadLegs legs) := by
  have hc : (emptyTier plan name role ended capacityGib).candidates legs =
      (emptyTier plan name role ended capacityGib).aheadLegs legs := by
    rw [ConsumerWindow.candidates_eq rfl, filter_eq_self.mpr]
    intro leg _
    exact decide_eq_true not_mem_nil
  have ha : (emptyTier plan name role ended capacityGib).runahead legs = 0 := by
    have hn : ((emptyTier plan name role ended capacityGib).aheadLegs legs).filter
        (·.key ∈ (emptyTier plan name role ended capacityGib).leg.published) = [] := by
      refine filter_eq_nil_iff.mpr fun leg _ => ?_
      simp [emptyTier]
    rw [ConsumerWindow.runahead_eq hd, hn]
    rfl
  unfold oneShot
  rw [ConsumerWindow.published_undeclared hd, hc, ha]
  rfl

theorem Cycle.extends (hv : validatePlan plan = .ok ()) (hd : plan.declared = [])
    (hna : name ∈ plan.names)
    (hle : plan.legs role = .ok legs) {done : List Leg} {leg : LegObservation} {bud : WindowBudget}
      {d : Decision}
    (hcy : Cycle role ended capacityGib (done.map Leg.publishRow) leg bud)
    (hde : (ConsumerWindow.mk plan (some name) leg bud).decision = .ok d)
    (hdo : done <+: oneShot (emptyTier plan name role ended capacityGib) capacityGib legs) :
    ∃ new, d.publish = new.map Leg.publishRow ∧
      done ++ new <+: oneShot (emptyTier plan name role ended capacityGib) capacityGib legs := by
  obtain ⟨-, hn, -⟩ := validatePlan_ok hv
  obtain ⟨hro, hh, hp, hw, hc, hf⟩ := hcy
  rw [oneShot_eq hd] at hdo ⊢
  obtain ⟨⟨rest, hr⟩, hru⟩ := isPrefix_firstRun_iff.mp hdo
  obtain ⟨s, hs⟩ := Option.isSome_iff_exists.mp hru
  obtain ⟨hroo, hbo⟩ := Frame.foldlM_take hs
  obtain ⟨legs', budget, hl', hbu, rfl⟩ := ConsumerWindow.decision_ok.mp hde
  cases Except.ok.inj (hle.symm.trans ((congrArg plan.legs hro).symm.trans hl'))
  have hk : ((done ++ rest).map Leg.key).Nodup := by
    rw [hr]
    exact (legs_keys_nodup hv hle).sublist (filter_sublist.map _)
  have hm : ∀ l : Leg, l.key ∈ leg.published ↔ l.key ∈ done.map Leg.key := by
    intro l
    rw [hp l.key, map_map]
    rfl
  have hca := ConsumerWindow.candidates_after (w := ⟨plan, some name, leg, bud⟩) hw hk hr.symm hm
  have ha := ConsumerWindow.runahead_after (w := ⟨plan, some name, leg, bud⟩) hn hd hk hr.symm hm
  obtain ⟨b, rfl, hb⟩ := tighten_le (ConsumerWindow.runaheadBudget_accepted
    (ConsumerWindow.hasAccepted_of_mem hna rfl) hc hbu)
  refine ⟨_, ConsumerWindow.conclude_undeclared hd legs (some b), ?_⟩
  rw [ConsumerWindow.published_undeclared hd, hca]
  obtain ⟨t, ht⟩ := exists_foldlM_firstRun
    ((ConsumerWindow.mk plan (some name) leg bud).frame (some b)).take rest
    (bud.freeGib, (ConsumerWindow.mk plan (some name) leg bud).runahead legs)
  refine isPrefix_firstRun_iff.mpr ⟨?_, ?_⟩
  · rw [← hr]
    exact (prefix_append_right_inj done).mpr (firstRun_isPrefix _ _ _)
  · rw [foldlM_append, hs]
    have hfi : bud.freeGib ≤ s.1 := by
      rw [rowsGib_map] at hf
      omega
    have hsa : s.2 = (ConsumerWindow.mk plan (some name) leg bud).runahead legs := by
      rw [ha, hbo, Nat.zero_add, ConsumerWindow.current_undeclared hd]
      rfl
    have hl := Frame.foldlM_take_loosens
      ((ConsumerWindow.mk plan (some name) leg bud).frame (some b))
      ((emptyTier plan name role ended capacityGib).frame
        (some (max 0 (capacityGib - (emptyTier plan name role ended capacityGib).step legs))))
      rfl hh (fun b' hb' => ⟨b, rfl, Option.some.inj hb' ▸ hb⟩) hfi ht
    rw [show s = (s.1, (ConsumerWindow.mk plan (some name) leg bud).runahead legs) from Prod.ext rfl
      hsa]
    exact hl

theorem Cycles.inside (hv : validatePlan plan = .ok ()) (hd : plan.declared = [])
    (hn : name ∈ plan.names)
    (hl : plan.legs role = .ok legs) {held : List PublishRow}
      (h : Cycles plan name role ended capacityGib held) :
    ∃ done, held = done.map Leg.publishRow ∧
      done <+: oneShot (emptyTier plan name role ended capacityGib) capacityGib legs := by
  induction h with
  | start => exact ⟨[], rfl, nil_prefix⟩
  | cycle before hc hde ih =>
    obtain ⟨done, rfl, hdo⟩ := ih
    obtain ⟨new, hne, hi⟩ := hc.extends hv hd hn hl hde hdo
    exact ⟨done ++ new, by rw [hne, map_append], hi⟩

theorem footprintAt_ok (capacityGib : Int) (hd : plan.declared = []) (hn : name ∈ plan.names)
    (hl : plan.legs role = .ok legs)
    (rates : Rates F) : ∃ horizon, refillHorizon plan (some name) rates.pace role = .ok horizon ∧
      footprintAt plan capacityGib rates role name =
        .ok (gibOf (oneShot (emptyTier plan name role (horizonEnd horizon) capacityGib) capacityGib
        legs)) := by
  obtain ⟨horizon, hh⟩ := refillHorizon_defined hl (some name) rates.pace
  refine ⟨horizon, hh, bind_ok.mpr ⟨horizon, hh, ?_⟩⟩
  obtain ⟨budget, hb⟩ := ConsumerWindow.runaheadBudget_defined
    (w := emptyTier plan name role (horizonEnd horizon) capacityGib) (fun _ => nofun) legs
  refine bind_ok.mpr ⟨_, ConsumerWindow.decision_ok.mpr ⟨legs, budget, hl, hb, rfl⟩, ?_⟩
  rw [ConsumerWindow.conclude_undeclared hd, rowsGib_map, emptyTier_budget hn hb]
  rfl

/-- The footprint is within the tier, and no number of cycles at a phase still to be read outgrows
it. -/
theorem readFootprint_bounds_cycles (hv : validatePlan plan = .ok ()) (hd : plan.declared = [])
    (hlegs : plan.legs role = .ok legs) (acceptedPhase : Option Name) (capacityGib : Int)
    (rates : Rates F) :
    ∃ n, readFootprint plan acceptedPhase capacityGib rates role = .ok n ∧
      (n : Int) ≤ max 0 capacityGib ∧
      ∀ phase ∈ plan.remaining acceptedPhase, ∃ horizon,
      refillHorizon plan (some phase.name) rates.pace role = .ok horizon ∧
        ∀ held, Cycles plan phase.name role (horizonEnd horizon) capacityGib held →
        rowsGib held ≤ n := by
  have hna : ∀ phase ∈ plan.remaining acceptedPhase, phase.name ∈ plan.names :=
    fun phase hp => mem_map_of_mem (mem_of_mem_drop hp)
  have ha : ∀ phase ∈ plan.remaining acceptedPhase,
      ∃ own, footprintAt plan capacityGib rates role phase.name = .ok own ∧
      own ≤ capacityGib.toNat := by
    intro phase hp
    obtain ⟨horizon, -, hf⟩ := footprintAt_ok capacityGib hd (hna phase hp) hlegs rates
    have hfi : (gibOf (oneShot (emptyTier plan phase.name role (horizonEnd horizon) capacityGib)
      capacityGib legs) : Int) ≤
        max 0 capacityGib :=
      ConsumerWindow.published_fits hd
    exact ⟨_, hf, by omega⟩
  obtain ⟨n, hn, -, hb, hl⟩ := largestFootprint_ok ha (Nat.zero_le _)
  refine ⟨n, hn, by omega, fun phase hp => ?_⟩
  obtain ⟨horizon, hh, hf⟩ := footprintAt_ok capacityGib hd (hna phase hp) hlegs rates
  refine ⟨horizon, hh, fun held hhe => ?_⟩
  obtain ⟨done, rfl, hi⟩ := hhe.inside hv hd (hna phase hp) hlegs
  rw [rowsGib_map]
  exact (gibOf_le_of_sublist hi.sublist).trans (hl phase hp _ hf)

end

open PrismaBuild.Action (ZeroOne)

instance : FloatArith ZeroOne where
  add x _ := x
  sub x _ := x
  mul x _ := x
  div x _ := x
  ofNat _ := .one
  ofInt _ := .one
  lt _ _ := false
  atMost x n := FloatFormat.value x ≤ n

def demoRates : Rates ZeroOne := ⟨some 0, some .one, some .one, .one⟩

def demoObservation : LegObservation := { horizonEndBytes := some (2 * 2 ^ 30) }

def demoBudget : WindowBudget := { freeGib := 1, capacityGib := some 4 }

/-- A reader of the first phase in a first cycle, with room for that phase alone. -/
def demoReader : ConsumerWindow := ⟨demoPlan false, some "load", demoObservation, demoBudget⟩

theorem demoReader_cycles :
    Cycles (demoPlan false) "load" .moverRow (some (2 * 2 ^ 30)) 4
    (demoReader.conclude demoLegs (some 2)).publish := by
  have hc : Cycle .moverRow (some (2 * 2 ^ 30)) 4 [] demoObservation demoBudget :=
    ⟨rfl, rfl, fun _ => Iff.rfl, rfl, rfl, by decide⟩
  have hd : demoReader.decision = .ok (demoReader.conclude demoLegs (some 2)) := rfl
  exact .cycle .start hc hd

theorem demoFootprint_bounds_cycles :
    ∃ n horizon held, readFootprint (demoPlan false) (some "load") 4 demoRates .moverRow = .ok n ∧
    (n : Int) ≤ max 0 4 ∧
      refillHorizon (demoPlan false) (some "load") demoRates.pace .moverRow = .ok horizon ∧
      Cycles (demoPlan false) "load" .moverRow (horizonEnd horizon) 4 held ∧ held ≠ [] ∧
      rowsGib held ≤ n := by
  obtain ⟨n, hn, hb, hp⟩ := readFootprint_bounds_cycles (demoPlan_valid false) rfl
    (demoPlan_legs false)
    (some "load") 4 demoRates
  obtain ⟨horizon, hh, hhe⟩ := hp _ (.head _)
  have he : some (horizonEnd horizon) = some (some (2 * 2 ^ 30)) :=
    (congrArg (fun r => r.toOption.map horizonEnd) hh).symm.trans (by decide +kernel)
  have hc := demoReader_cycles
  rw [← Option.some.inj he] at hc
  exact ⟨n, horizon, _, hn, hb, hh, hc, by decide +kernel, hhe _ hc⟩

end PrismaBuild.Residency
