import PrismaBuild.PlanShapes

namespace PrismaBuild.Residency

open Contract Spans List

def spend (budget : Option Int) (spent : Nat) (leg : Leg) : Option Nat :=
  if ∃ b ∈ budget, b < ((spent + leg.stageGib : Nat) : Int) then
    none else some (spent + leg.stageGib)

def largestLeg (legs : List Leg) : Nat := (legs.map Leg.stageGib).foldr max 0

def reachEndBytes : Nat := 2 ^ 62

def preProgressStageReach (plan : ResidencyPlan) (acceptedPhase : Option Name) :
    Except WindowError (Finset Name) := do
  let ahead := ((plan.remaining acceptedPhase).map Phase.name).tail
  let legs ← plan.legsOver 0 reachEndBytes .moverRow
  let later := legs.filter fun leg => leg.phase ∈ ahead
  let budget ← (budgetFromStep (largestLeg later) false none none).mapError .plan
  pure ((firstRun (spend budget) 0 later).map Leg.key).toFinset

variable {b : Int} {legs named : List Leg}

theorem foldlM_spend {spent : Nat} :
    (legs.foldlM (spend (some b)) spent).isSome = true ↔ legs = [] ∨
    (spent : Int) + gibOf legs ≤ b := by
  induction legs generalizing spent with
  | nil => exact ⟨fun _ => .inl rfl, fun _ => rfl⟩
  | cons leg legs ih =>
    have hs : gibOf (leg :: legs) = leg.stageGib + gibOf legs := by simp [gibOf]
    rw [foldlM_cons, hs]
    unfold spend
    split
    next ho =>
      obtain ⟨b', hb', hlt⟩ := ho
      cases hb'
      refine iff_of_false (by simp) ?_
      rintro (hn | hle)
      · cases hn
      · omega
    next hf =>
      have hle := Int.not_lt.mp fun hlt => hf ⟨b, rfl, hlt⟩
      refine Iff.trans ih ?_
      constructor
      · rintro (rfl | hr)
        · right
          simpa [gibOf] using hle
        · omega
      · rintro (hn | hr)
        · cases hn
        · omega

theorem isPrefix_spend :
    named <+: firstRun (spend (some b)) 0 legs ↔ named <+: legs ∧
    (named = [] ∨ (gibOf named : Int) ≤ b) := by
  rw [isPrefix_firstRun_iff, foldlM_spend]
  simp

theorem gibOf_append (a b : List Leg) : gibOf (a ++ b) = gibOf a + gibOf b := by simp [gibOf]

theorem firstRun_spend_eq_iff (h : named <+: firstRun (spend (some b)) 0 legs) :
    firstRun (spend (some b)) 0 legs = named ↔ ∀ leg rest, legs = named ++ leg :: rest →
      b < (gibOf named : Int) + leg.stageGib := by
  have hw := firstRun_isPrefix (spend (some b)) legs 0
  constructor
  · rintro heq leg rest rfl
    by_contra hfits
    have hm : named ++ [leg] <+: firstRun (spend (some b)) 0 (named ++ leg :: rest) := by
      refine isPrefix_spend.mpr ⟨⟨rest, by simp⟩, .inr ?_⟩
      have hs : gibOf [leg] = leg.stageGib := by simp [gibOf]
      rw [gibOf_append, hs]
      omega
    rw [heq] at hm
    have hl := hm.length_le
    rw [length_append, length_singleton] at hl
    omega
  · intro hn
    obtain ⟨tail, ht⟩ := h
    cases tail with
    | nil => rw [← ht, append_nil]
    | cons leg rest =>
      exfalso
      obtain ⟨beyond, hb⟩ := hw
      rw [← ht, append_assoc, cons_append] at hb
      have ho := hn leg (rest ++ beyond) hb.symm
      have hin : named ++ [leg] <+: firstRun (spend (some b)) 0 legs := ⟨rest, by rw [← ht]; simp⟩
      have hs : gibOf [leg] = leg.stageGib := by simp [gibOf]
      rcases (isPrefix_spend.mp hin).2 with hni | hle
      · simp at hni
      · rw [gibOf_append, hs] at hle
        omega

theorem largestLeg_mono {a b : List Leg} (h : a.Sublist b) : largestLeg a ≤ largestLeg b := by
  induction h with
  | slnil => exact Nat.le_refl _
  | cons leg _ ih =>
    show _ ≤ max leg.stageGib (largestLeg _)
    omega
  | cons_cons leg _ ih =>
    show max leg.stageGib (largestLeg _) ≤ max leg.stageGib (largestLeg _)
    omega

theorem filter_isPrefix {p : Leg → Bool} (h : legs.Pairwise fun a b => p b = true → p a = true) :
    legs.filter p <+: legs := by
  induction legs with
  | nil => exact prefix_refl _
  | cons leg legs ih =>
    obtain ⟨hle, hr⟩ := pairwise_cons.mp h
    by_cases hp : p leg = true
    · rw [filter_cons_of_pos hp]
      exact prefix_cons_inj leg |>.mpr (ih hr)
    · have hn := filter_eq_nil_iff.mpr fun later hl hpl => hp (hle later hl hpl)
      rw [filter_cons_of_neg hp, hn]
      exact nil_prefix

theorem firstRun_take_later {f : Frame} (hh : f.horizonEndBytes = none) {room : Int}
    {runahead : Nat}
    (hro : (gibOf legs : Int) ≤ room) :
      (firstRun f.take (room, runahead) legs).filter (fun leg => some leg.phase ≠ f.current) =
      firstRun (spend f.budget) runahead (legs.filter fun leg => some leg.phase ≠ f.current) := by
  induction legs generalizing room runahead with
  | nil => rfl
  | cons leg legs ih =>
    have hsu : gibOf (leg :: legs) = leg.stageGib + gibOf legs := by simp [gibOf]
    have hf : (leg.stageGib : Int) ≤ room := by omega
    have hr : (gibOf legs : Int) ≤ room - leg.stageGib := by omega
    have hn : ∀ h ∈ f.horizonEndBytes, (leg.startBytes : Int) < h := by
      rw [hh]
      simp
    by_cases hc : some leg.phase = f.current
    · have ht : f.take (room, runahead) leg = some (room - leg.stageGib, runahead) :=
        Frame.take_eq_some.mpr ⟨⟨fun hne => absurd hc hne, hf⟩, by rw [if_pos hc]⟩
      rw [firstRun, ht, filter_cons_of_neg (by simpa using hc),
        filter_cons_of_neg (by simpa using hc)]
      exact ih hr
    · rw [filter_cons_of_pos (by simpa using hc), firstRun, firstRun]
      by_cases ho : ∃ b ∈ f.budget, b < ((runahead + leg.stageGib : Nat) : Int)
      · have hs : spend f.budget runahead leg = none := if_pos ho
        have ht : f.take (room, runahead) leg = none := by
          cases hso : f.take (room, runahead) leg with
          | none => rfl
          | some s =>
            obtain ⟨b, hb, hlt⟩ := ho
            have hle := ((Frame.take_eq_some.mp hso).1.1 hc).2 b hb
            omega
        rw [hs, ht]
        rfl
      · have hs : spend f.budget runahead leg = some (runahead + leg.stageGib) := if_neg ho
        have ht : f.take (room, runahead) leg =
          some (room - leg.stageGib, runahead + leg.stageGib) := by
          refine Frame.take_eq_some.mpr ⟨⟨fun _ => ⟨hn, fun b hb => ?_⟩, hf⟩, by rw [if_neg hc]⟩
          exact Int.not_lt.mp fun hlt => ho ⟨b, hb, hlt⟩
        rw [hs, ht]
        rw [filter_cons_of_pos (by simpa using hc), ih hr]

def ResidencyPlan.stageLegs (plan : ResidencyPlan) : List Leg :=
    plan.phases.flatMap (Phase.sealed .moverRow)

theorem validatePlan_stageLegs {plan : ResidencyPlan} (h : validatePlan plan = .ok ()) :
    plan.legs .moverRow = .ok plan.stageLegs ∧
    plan.stageLegs.Pairwise (fun a b => a.startBytes < b.startBytes) ∧
      ∀ leg ∈ plan.stageLegs, leg.startBytes < leg.endBytes := by
  obtain ⟨keys, hp⟩ := validatePlan_phases h
  obtain ⟨ended, _, hl, ht, _⟩ := checkPhases_tiles hp
  have ho := pairwise_map.mp ht.pairwise
  refine ⟨hl, ho.imp fun hlt => Int.ofNat_lt.mp hlt, fun leg hle => ?_⟩
  exact Int.ofNat_lt.mp (ht.nonempty leg.range (mem_map_of_mem hle))

namespace ConsumerWindow

/-- A window over the stage legs before any progress: nothing is published or withdrawn, and neither
a capacity, a cap nor a horizon bounds it. -/
structure Unstarted (w : ConsumerWindow) : Prop where
  undeclared : w.plan.declared = []
  unnamed : phaseIndex w.plan.names w.acceptedPhase = none
  role : w.leg.moverRole = .moverRow
  published : w.leg.published = []
  horizon : w.leg.horizonEndBytes = none
  withdrawn : w.budget.withdrawn = []
  capacity : w.budget.capacityGib = none
  uncapped : w.budget.runaheadCapGib = none

def later (w : ConsumerWindow) : List Leg := w.future w.plan.stageLegs

def laterKeys (w : ConsumerWindow) (d : Decision) : Finset Name :=
  ((d.publish.filter fun row => row.phase ∈ w.aheadNames.tail).map
    PublishRow.moverActionKey).toFinset

variable {w : ConsumerWindow}

theorem Unstarted.aheadNames (h : w.Unstarted) : w.aheadNames = w.plan.names := by
  show ((w.plan.phases.drop ((phaseIndex w.plan.names w.acceptedPhase).getD 0)).map Phase.name) = _
  rw [h.unnamed]
  rfl

theorem Unstarted.later_eq (h : w.Unstarted) : w.later = w.plan.stageLegs.filter fun leg =>
    leg.phase ∈ w.aheadNames.tail := by
  unfold later future
  rw [h.undeclared]
  exact filter_congr fun leg _ => decide_eq_decide.mpr (and_iff_left not_mem_nil)

theorem Unstarted.decision (h : w.Unstarted) (hv : validatePlan w.plan = .ok ())
    (hf : (gibOf w.plan.stageLegs : Int) ≤ w.budget.freeGib) : ∃ d, w.decision = .ok d ∧
      w.laterKeys d = ((firstRun (spend (some (largestLeg w.later))) 0 w.later).map
      Leg.key).toFinset := by
  obtain ⟨-, hn, -⟩ := validatePlan_ok hv
  obtain ⟨hl, -, -⟩ := validatePlan_stageLegs hv
  have hb : w.runaheadBudget w.plan.stageLegs = .ok (some (largestLeg w.later : Int)) := by
    have hac : w.hasAccepted = false := by
      rw [hasAccepted, ResidencyPlan.accepted, h.unnamed]
      rfl
    rw [runaheadBudget, hac, h.capacity, h.uncapped]
    rfl
  have ha : ∀ leg ∈ w.plan.stageLegs, leg.phase ∈ w.aheadNames := by
    rw [h.aheadNames]
    exact legsOf_phase hl
  have hc : w.candidates w.plan.stageLegs = w.plan.stageLegs := by
    refine filter_eq_self.mpr fun leg hle => decide_eq_true ⟨ha leg hle, ?_, ?_⟩
    · rw [h.published]
      exact not_mem_nil
    · rw [h.withdrawn]
      exact not_mem_nil
  have hr : w.runahead w.plan.stageLegs = 0 := by
    rw [runahead, h.published]
    simp [gibOf]
  refine ⟨_, decision_ok.mpr ⟨_, _, h.role ▸ hl, hb, rfl⟩, ?_⟩
  have hp := published_undeclared h.undeclared w.plan.stageLegs (some (largestLeg w.later : Int))
  rw [hc, hr] at hp
  have hi : ∀ leg ∈ (w.published w.plan.stageLegs (some (largestLeg w.later : Int))).1,
    leg.phase ∈ w.aheadNames := by
    rw [hp]
    exact fun leg hle => ha leg ((firstRun_isPrefix _ _ _).subset hle)
  have hru : (firstRun (w.frame (some (largestLeg w.later : Int))).take (w.budget.freeGib, 0)
    w.plan.stageLegs).filter _ = _ :=
    firstRun_take_later h.horizon hf
  rw [current_undeclared h.undeclared, ← filter_later hn ha, ← h.later_eq, ← hp,
    ← filter_later hn hi] at hru
  unfold laterKeys
  rw [conclude_undeclared h.undeclared, filter_map, map_map]
  exact congrArg (fun legs => (legs.map Leg.key).toFinset) hru

def below (w : ConsumerWindow) : List Leg :=
    w.later.filter fun leg => leg.startBytes < reachEndBytes

theorem Unstarted.reach (h : w.Unstarted) (hv : validatePlan w.plan = .ok ()) :
    preProgressStageReach w.plan w.acceptedPhase =
      .ok ((firstRun (spend (some (largestLeg w.below))) 0 w.below).map Leg.key).toFinset := by
  obtain ⟨hl, -, hp⟩ := validatePlan_stageLegs hv
  have hb : (w.plan.stageLegs.filter fun leg => (leg.startBytes : Int) < reachEndBytes ∧
    (0 : Int) < leg.endBytes).filter
      (fun leg => leg.phase ∈ w.aheadNames.tail) = w.below := by
    rw [below, h.later_eq, filter_filter, filter_filter]
    refine filter_congr fun leg hle => ?_
    have := hp leg hle
    have he : ((leg.startBytes : Int) < reachEndBytes ∧ (0 : Int) < leg.endBytes) ↔
      leg.startBytes < reachEndBytes := by
      omega
    rw [Bool.and_comm, decide_eq_decide.mpr he]
  unfold preProgressStageReach ResidencyPlan.legsOver
  rw [hl]
  rw [← hb]
  rfl

theorem below_isPrefix (hv : validatePlan w.plan = .ok ()) : w.below <+: w.later := by
  obtain ⟨-, ho, -⟩ := validatePlan_stageLegs hv
  refine filter_isPrefix ((ho.filter _).imp fun {a b} hlt hb => ?_)
  have hb := of_decide_eq_true hb
  exact decide_eq_true (by omega)

end ConsumerWindow

theorem IsPrefix.eq_of_keys {a b legs : List Leg} (hn : (legs.map Leg.key).Nodup) (hab : a <+: b)
    (hb : b <+: legs)
    (h : (b.map Leg.key).toFinset = (a.map Leg.key).toFinset) : b = a := by
  obtain ⟨tail, rfl⟩ := hab
  cases tail with
  | nil => rw [append_nil]
  | cons leg rest =>
    have hm : leg.key ∈ (a.map Leg.key).toFinset := by
      rw [← h]
      simp
    have hn := hn.sublist (hb.map Leg.key).sublist
    rw [map_append, map_cons] at hn
    exact absurd rfl ((nodup_append.mp hn).2.2 _ (mem_toFinset.mp hm) _ (.head _))

/-- Before any progress the window publishes of the later stage legs those the reach names, if and
only if the next leg does not fit beside them within the largest later leg. That is always so where
the later legs start below 2^62 bytes. -/
theorem preProgressStageReach_iff (w : ConsumerWindow) (hv : validatePlan w.plan = .ok ())
    (h : w.Unstarted)
    (hfree : (gibOf w.plan.stageLegs : Int) ≤ w.budget.freeGib) :
    ∃ d named, w.decision = .ok d ∧ preProgressStageReach w.plan w.acceptedPhase =
      .ok (named.map Leg.key).toFinset ∧
      named <+: w.later ∧ (w.laterKeys d = (named.map Leg.key).toFinset ↔
        ∀ leg rest, w.later = named ++ leg :: rest →
        largestLeg w.later < gibOf named + leg.stageGib) ∧
      ((∀ leg ∈ w.later, leg.startBytes < reachEndBytes) →
        w.laterKeys d = (named.map Leg.key).toFinset) := by
  obtain ⟨d, hd, hk⟩ := h.decision hv hfree
  have hb := ConsumerWindow.below_isPrefix hv
  have hno : (w.later.map Leg.key).Nodup :=
    (legs_keys_nodup hv (validatePlan_stageLegs hv).1).sublist (filter_sublist.map Leg.key)
  have hwh := firstRun_isPrefix (spend (some (largestLeg w.later : Int))) w.later 0
  have hn := firstRun_isPrefix (spend (some (largestLeg w.below : Int))) w.below 0
  have hw : firstRun (spend (some (largestLeg w.below : Int))) 0 w.below <+:
      firstRun (spend (some (largestLeg w.later : Int))) 0 w.later := by
    have hf := (isPrefix_spend.mp (prefix_refl
      (firstRun (spend (some (largestLeg w.below : Int))) 0 w.below))).2
    have hle := largestLeg_mono hb.sublist
    refine isPrefix_spend.mpr ⟨hn.trans hb, hf.imp_right fun hf => ?_⟩
    omega
  refine ⟨d, _, hd, h.reach hv, hn.trans hb, ?_, fun ha => ?_⟩
  · rw [hk]
    constructor
    · intro hsa leg rest hs
      have heq := IsPrefix.eq_of_keys hno hw hwh hsa
      have ho := (firstRun_spend_eq_iff hw).mp heq leg rest hs
      omega
    · intro hne
      have heq := (firstRun_spend_eq_iff hw).mpr fun leg rest hs => by
        have ho := hne leg rest hs
        omega
      rw [heq]
  · have hsa : w.below = w.later := filter_eq_self.mpr fun leg hl => decide_eq_true (ha leg hl)
    rw [hk, hsa]

/-- A reader that has accepted nothing, with room for the whole plan. -/
def unstartedWindow (plan : ResidencyPlan) (freeGib : Int) : ConsumerWindow :=
    ⟨plan, none, {}, { freeGib := freeGib }⟩

theorem demoPlan_reach : ∃ (d : Decision) (named : List Leg),
    (unstartedWindow (demoPlan false) 4).decision = .ok d ∧
    preProgressStageReach (demoPlan false) none = .ok (named.map Leg.key).toFinset ∧
    (unstartedWindow (demoPlan false) 4).laterKeys d = (named.map Leg.key).toFinset := by
  have h := preProgressStageReach_iff (unstartedWindow (demoPlan false) 4) (demoPlan_valid false)
    ⟨rfl, by decide, rfl, rfl, rfl, rfl, rfl, rfl⟩ (by decide)
  obtain ⟨d, named, hd, hr, -, -, hs⟩ := h
  exact ⟨d, named, hd, hr, hs (by decide)⟩

def farPhase (name : String) (n first last : Nat) : Phase :=
  ⟨name, first * 2 ^ 30, last * 2 ^ 30, last - first, .value (demoMover n first last),
    .value (demoEgress (n + 1)), .absent,
    .absent, .absent, .absent, false⟩

/-- Two legs of one GiB end at 2^62 bytes, and a leg of two GiB starts there. -/
def farPlan : ResidencyPlan where
  consumerActionKey := demoKey 1
  manifestSha256 := demoKey 0
  manifestBytes := 1
  tierId := demoTier
  ramTierId := none
  stageRoot := "/stage"
  phases :=
    [farPhase "p0" 2 0 (2 ^ 32 - 2), farPhase "p1" 4 (2 ^ 32 - 2) (2 ^ 32 - 1),
      farPhase "p2" 6 (2 ^ 32 - 1) (2 ^ 32),
      farPhase "p3" 8 (2 ^ 32) (2 ^ 32 + 2)]

/-- The reach does not see the leg of two GiB and stops after one leg; the window publishes two. -/
theorem farPlan_reach : validatePlan farPlan = .ok () ∧ (gibOf farPlan.stageLegs : Int) ≤ 2 ^ 33 ∧
    (preProgressStageReach farPlan none).toOption = some {(demoKey 4).1} ∧
    (unstartedWindow farPlan (2 ^ 33)).decision.toOption.map
    (unstartedWindow farPlan (2 ^ 33)).laterKeys =
      some {(demoKey 4).1, (demoKey 6).1} :=
  ⟨planned_of_isOk (by decide +kernel), by decide +kernel, by decide +kernel, by decide +kernel⟩

end PrismaBuild.Residency
