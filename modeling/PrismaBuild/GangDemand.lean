import PrismaBuild.PlanShapes
import PrismaBuild.Tally

namespace PrismaBuild.Residency

open Contract Tally List

def Phase.prelaunchStageLegs (phase : Phase) : List Leg := phase.sealed .moverRow

structure PrelaunchPeak where
  (retainedGib suffixGib peakGib : Nat)
  deriving DecidableEq

def prelaunchPeakGib (prefixSizes suffixSizes : List Nat) : PrelaunchPeak :=
  let retained := prefixSizes.sum
  let step := largestPair suffixSizes
  ⟨retained, step, retained + step⟩

def ResidencyPlan.early (plan : ResidencyPlan) : List Phase :=
    plan.phases.filter Phase.residentBeforeLaunch

def ResidencyPlan.late (plan : ResidencyPlan) : List Phase :=
    plan.phases.filter fun phase => !phase.residentBeforeLaunch

def prelaunchBound (plan : ResidencyPlan) (ownedByOthers : Finset Name) : Option PrelaunchPeak :=
  if plan.early = [] then none
  else
    let size (phase : Phase) : Nat :=
      ((phase.prelaunchStageLegs.filter fun leg => leg.key ∉ ownedByOthers).map Leg.stageGib).sum
    some (prelaunchPeakGib (plan.early.map size) (plan.late.map size))

/-- `share_namespace`, by the fields it hashes. -/
def ResidencyPlan.shareNamespace (plan : ResidencyPlan) (leg : Leg) : Target :=
    leg.target plan.tierId plan.manifestSha256.1

structure TierEntry where
  retainedGib : Nat := 0
  suffixGib : Nat := 0
  members : List Name := []
  namespaces : Finset Target := ∅

/-- The legs whose range was not seen before, which from now on it is. -/
def chargeLegs (plan : ResidencyPlan) : List Leg → Finset Target × Nat → Finset Target × Nat
  | [], taken => taken
  | leg :: legs, (seen, size) =>
    if plan.shareNamespace leg ∈ seen then chargeLegs plan legs (seen, size)
    else chargeLegs plan legs (insert (plan.shareNamespace leg) seen, size + leg.stageGib)

def suffixSizes (plan : ResidencyPlan) : List Phase → Finset Target → Finset Target × List Nat
  | [], seen => (seen, [])
  | phase :: phases, seen =>
    let (seen, size) := chargeLegs plan phase.prelaunchStageLegs (seen, 0)
    let (seen, sizes) := suffixSizes plan phases seen
    (seen, size :: sizes)

def TierEntry.visit (entry : TierEntry) (plan : ResidencyPlan) : TierEntry :=
  let key := plan.consumerActionKey.1
  let members := if key ∈ entry.members then entry.members else entry.members ++ [key]
  let (seen, retained) := chargeLegs plan (plan.early.flatMap Phase.prelaunchStageLegs)
    (entry.namespaces, entry.retainedGib)
  let (seen, sizes) := suffixSizes plan plan.late seen
  ⟨retained, entry.suffixGib + (prelaunchPeakGib [] sizes).suffixGib, members, seen⟩

/-- One member of the gang; a member with no declaration adds nothing. -/
def visitMember (demand : AList fun _ : Name => TierEntry) (plan : ResidencyPlan) :
    AList fun _ : Name => TierEntry :=
  if plan.early = [] then demand
  else demand.insert plan.tierId (((demand.lookup plan.tierId).getD {}).visit plan)

structure GangTier where
  tierId : Name
  (retainedGib suffixGib peakGib : Nat)
  members : List Name
  capacityGib : Option Int
  overCapacity : Bool

def TierEntry.conclude (tierCapacity : Name → Option Int) (tierId : Name) (entry : TierEntry) :
    GangTier :=
  let peak := entry.retainedGib + entry.suffixGib
  ⟨tierId, entry.retainedGib, entry.suffixGib, peak, entry.members.mergeSort (· ≤ ·),
    tierCapacity tierId,
    (tierCapacity tierId).any fun capacity => decide (capacity < (peak : Int))⟩

/-- `gang_prelaunch_demand`, by the tier that is looked up in it. -/
def gangPrelaunchDemand (members : List ResidencyPlan) (tierCapacity : Name → Option Int)
    (tierId : Name) : Option GangTier :=
  ((members.foldl visitMember ∅).lookup tierId).map (TierEntry.conclude tierCapacity tierId)

def GangTier.verdict (tier : GangTier) : Nat × Nat × Nat × Bool :=
  (tier.retainedGib, tier.suffixGib, tier.peakGib, tier.overCapacity)

def OrderFree (members : List ResidencyPlan) : Prop :=
  ∀ order, order.Perm members → ∀ tierCapacity tierId,
    (gangPrelaunchDemand order tierCapacity tierId).map GangTier.verdict =
      (gangPrelaunchDemand members tierCapacity tierId).map GangTier.verdict

def ResidencyPlan.unseen (plan : ResidencyPlan) (seen : Finset Target) (legs : List Leg) : Nat :=
  ((legs.filter fun leg => plan.shareNamespace leg ∉ seen).map Leg.stageGib).sum

/-- What a member adds to its tier's retained and suffix sizes after some ranges were seen. -/
def ResidencyPlan.charge (plan : ResidencyPlan) (seen : Finset Target) : Nat × Nat :=
  (plan.unseen seen (plan.early.flatMap Phase.prelaunchStageLegs),
    largestPair (plan.late.map fun phase => plan.unseen seen phase.prelaunchStageLegs))

def ResidencyPlan.reach (plan : ResidencyPlan) : Finset Target :=
  ((plan.phases.flatMap Phase.prelaunchStageLegs).map plan.shareNamespace).toFinset

def onTier (tierId : Name) (members : List ResidencyPlan) : List ResidencyPlan :=
  members.filter fun plan => plan.early ≠ [] ∧ plan.tierId = tierId

section

variable {plan : ResidencyPlan} {seen : Finset Target} {leg : Leg} {legs : List Leg}
    {phases : List Phase}

theorem unseen_cons_of_mem (h : plan.shareNamespace leg ∈ seen) :
    plan.unseen seen (leg :: legs) = plan.unseen seen legs := by
  unfold ResidencyPlan.unseen
  rw [filter_cons_of_neg (by simpa using h)]

theorem unseen_cons_of_notMem (h : plan.shareNamespace leg ∉ seen) :
    plan.unseen seen (leg :: legs) = leg.stageGib + plan.unseen seen legs := by
  unfold ResidencyPlan.unseen
  rw [filter_cons_of_pos (by simpa using h), map_cons, sum_cons]

theorem unseen_union {more : Finset Target} (h : ∀ leg ∈ legs, plan.shareNamespace leg ∉ more) :
    plan.unseen (seen ∪ more) legs = plan.unseen seen legs := by
  unfold ResidencyPlan.unseen
  rw [filter_congr fun leg hl => ?_]
  have hm := h leg hl
  simp [hm]

theorem chargeLegs_eq (hn : (legs.map plan.shareNamespace).Nodup) (size : Nat) :
    chargeLegs plan legs (seen, size) = (seen ∪ (legs.map plan.shareNamespace).toFinset,
    size + plan.unseen seen legs) := by
  induction legs generalizing seen size with
  | nil => simp [chargeLegs, ResidencyPlan.unseen]
  | cons leg legs ih =>
    obtain ⟨hl, hr⟩ := nodup_cons.mp hn
    rw [chargeLegs, map_cons, toFinset_cons, Finset.union_insert]
    split
    next hm =>
      rw [ih hr, unseen_cons_of_mem hm, Finset.insert_eq_of_mem (Finset.mem_union_left _ hm)]
    next hm =>
      have hs : plan.unseen (insert (plan.shareNamespace leg) seen) legs = plan.unseen seen
        legs := by
        rw [Finset.insert_eq, Finset.union_comm]
        refine unseen_union fun other ho heq => hl ?_
        rw [← Finset.mem_singleton.mp heq]
        exact mem_map_of_mem ho
      rw [ih hr, unseen_cons_of_notMem hm, Finset.insert_union, hs, Nat.add_assoc]

theorem early_append_late (plan : ResidencyPlan) : (plan.early ++ plan.late).Perm plan.phases :=
    filter_append_perm _ _

theorem namespaces_split (h : validatePlan plan = .ok ()) :
    ((plan.early.flatMap Phase.prelaunchStageLegs).map plan.shareNamespace ++
        (plan.late.flatMap Phase.prelaunchStageLegs).map plan.shareNamespace).Nodup ∧
      ((plan.early.flatMap Phase.prelaunchStageLegs).map plan.shareNamespace).toFinset ∪
        ((plan.late.flatMap Phase.prelaunchStageLegs).map plan.shareNamespace).toFinset =
        plan.reach := by
  have hp := ((early_append_late plan).flatMap_right Phase.prelaunchStageLegs).map
    plan.shareNamespace
  rw [flatMap_append, map_append] at hp
  have hr := validatePlan_ranges h
  have hn : ((plan.phases.flatMap Phase.prelaunchStageLegs).map plan.shareNamespace).Nodup := by
    refine List.Nodup.of_map (fun t : Target => ((t.startBytes : Int), (t.endBytes : Int))) ?_
    rw [map_map]
    exact hr
  constructor
  · exact hp.nodup_iff.mpr hn
  · rw [← toFinset_append]
    exact toFinset_eq_of_perm _ _ hp

end

section

variable {members : List ResidencyPlan}

end

section

/-- The ranges of some phases on the plan's tier, with what each asks for. -/
def ResidencyPlan.asks (plan : ResidencyPlan) (phases : List Phase) : List (Target × Nat) :=
  (phases.flatMap Phase.prelaunchStageLegs).map fun leg => (plan.shareNamespace leg, leg.stageGib)

/-- A range that both have is declared by both, with the same size. -/
structure SharesDeclared (m n : ResidencyPlan) : Prop where
  sizes : ∀ a ∈ m.asks m.early, ∀ b ∈ n.asks n.early, a.1 = b.1 → a.2 = b.2
  left : ∀ a ∈ m.asks m.late, ∀ b ∈ n.asks n.phases, a.1 ≠ b.1
  right : ∀ a ∈ m.asks m.phases, ∀ b ∈ n.asks n.late, a.1 ≠ b.1

variable {m n : ResidencyPlan}

theorem SharesDeclared.symm (h : SharesDeclared m n) : SharesDeclared n m :=
  ⟨fun a ha b hb he => (h.sizes b hb a ha he.symm).symm, fun a ha b hb => (h.right b hb a ha).symm,
    fun a ha b hb => (h.left b hb a ha).symm⟩

variable (h : SharesDeclared m n) (seen : Finset Target)

include h

end

section

variable {members : List ResidencyPlan}

end

def spanPhase (name : String) (first last key : Nat) (declared : Bool) : Phase :=
  ⟨name, first * 2 ^ 30, last * 2 ^ 30, last - first, .value (demoMover key first last),
    .value (demoEgress (key + 1)),
    .absent, .absent, .absent, .absent, declared⟩

def gibPhase (name : String) (gib key : Nat) (declared : Bool) : Phase :=
    spanPhase name gib (gib + 1) key declared

/-- Four phases of one GiB: the first is declared, or all of them are. -/
def fourPhases (consumer : Nat) (all : Bool) : ResidencyPlan where
  consumerActionKey := demoKey consumer
  manifestSha256 := demoKey 0
  manifestBytes := 1
  tierId := demoTier
  ramTierId := none
  stageRoot := "/stage"
  phases := [gibPhase "p0" 0 2 true, gibPhase "p1" 1 4 all, gibPhase "p2" 2 6 all,
    gibPhase "p3" 3 8 all]

end PrismaBuild.Residency
