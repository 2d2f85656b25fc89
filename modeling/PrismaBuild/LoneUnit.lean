import PrismaBuild.GangDemand

namespace PrismaBuild.Residency

open Contract List

structure DeclaredLeg where
  leg : Leg
  (moverRow egressRow : Option Row)

def DeclaredLeg.stageGib (declared : DeclaredLeg) : Nat := declared.leg.stageGib

def DeclaredLeg.moverKey (declared : DeclaredLeg) : Name := declared.leg.key

def Phase.legRows (phase : Phase) (moverKey : Name) : Option Row × Option Row :=
  match phase.stageChunks.get.bind (List.find? fun chunk =>
    chunk.moverRow.actionKey.1 = moverKey) with
  | some chunk => (some chunk.moverRow, some chunk.egressRow)
  | none => (phase.moverRow.get, phase.egressRow.get)

def Phase.declare (phase : Phase) (leg : Leg) : DeclaredLeg :=
  let (moverRow, egressRow) := phase.legRows leg.key
  ⟨leg, moverRow, egressRow⟩

def declaredLegs (plan : ResidencyPlan) : List DeclaredLeg :=
  plan.early.flatMap fun phase => phase.prelaunchStageLegs.map phase.declare

structure Member where
  key : Name
  plan : ResidencyPlan

def Member.tierId (member : Member) : Name := member.plan.tierId

structure Share where
  legs : List DeclaredLeg := []
  demandGib : Nat := 0
  peakGib : Nat := 0

/-- The declared legs that no live shared mover owns and whose range was not seen. -/
def keepLegs (plan : ResidencyPlan) (owned : Finset Name) : List DeclaredLeg → Finset Target →
    Finset Target × List DeclaredLeg
  | [], seen => (seen, [])
  | declared :: legs, seen =>
    if declared.moverKey ∈ owned ∨ plan.shareNamespace declared.leg ∈ seen then
      keepLegs plan owned legs seen
    else
      let (seen, kept) := keepLegs plan owned legs (insert (plan.shareNamespace declared.leg) seen)
      (seen, declared :: kept)

def unownedSizes (plan : ResidencyPlan) (owned : Finset Name) : List Phase → Finset Target →
    Finset Target × List Nat
  | [], seen => (seen, [])
  | phase :: phases, seen =>
    let (seen, size) := chargeLegs plan (phase.prelaunchStageLegs.filter fun leg => leg.key ∉ owned)
      (seen, 0)
    let (seen, sizes) := unownedSizes plan owned phases seen
    (seen, size :: sizes)

structure UnionState where
  seen : Finset Target := ∅
  legs : List DeclaredLeg := []
  retained : Nat := 0
  step : Nat := 0

def UnionState.visit (owned : Finset Name) (s : UnionState) (member : Member) : UnionState :=
  let (seen, kept) := keepLegs member.plan owned (declaredLegs member.plan) s.seen
  let (seen, sizes) := unownedSizes member.plan owned member.plan.late seen
  ⟨seen, s.legs ++ kept, s.retained + (kept.map DeclaredLeg.stageGib).sum,
    s.step + (prelaunchPeakGib [] sizes).suffixGib⟩

def union (entries : List Member) (owned : Finset Name) : Share :=
  let s := entries.foldl (UnionState.visit owned) {}
  ⟨s.legs, s.retained, s.retained + s.step⟩

/-- What `_merge` derives for a consumer on its own. -/
def lone (member : Member) (owned : Finset Name) : Option Share :=
  (prelaunchBound member.plan owned).map fun bound =>
    ⟨declaredLegs member.plan, bound.retainedGib, bound.peakGib⟩

structure IntentChunk where
  moverActionKey : Name
  (startBytes endBytes stageGib : Nat)
  (planSha256 consumerActionKey : Name)
  deriving DecidableEq

/-- What `file_intent` files of a unit. -/
structure GroupIntent where
  tierId : Name
  demandGib : Nat
  chunks : List IntentChunk
  deriving DecidableEq

def holdFiled (standing : Option GroupIntent) (entries : List Member) (share : Share) : Share :=
  match standing with
  | none => share
  | some intent =>
    let movers := intent.chunks.map IntentChunk.moverActionKey
    let kept := (union entries ∅).legs.filter fun declared => declared.moverKey ∈ movers
    if kept.map DeclaredLeg.moverKey = movers then
      ⟨kept, intent.demandGib, max share.peakGib intent.demandGib⟩ else share

structure PrelaunchUnit where
  key : Name
  keys : List Name
  (unit tierId : Name)
  plan : ResidencyPlan
  share : Share
  multiTier : Bool

/-- `_merge` of the member first and the rest. -/
def merge (standing : Option GroupIntent) (unitId : Name) (first : Member) (rest : List Member)
    (owned : Finset Name) :
    Option PrelaunchUnit := do
  let share ← if rest = [] ∧ unitId = first.key then lone first owned else
    pure (union (first :: rest) owned)
  pure ⟨first.key, (first :: rest).map Member.key, unitId, first.tierId, first.plan,
    holdFiled standing (first :: rest) share,
    decide (∃ member ∈ rest, member.tierId ≠ first.tierId)⟩

section

variable (planSha256 : ResidencyPlan → Name)

def PrelaunchUnit.intentChunks (unit : PrelaunchUnit) : List IntentChunk :=
  unit.share.legs.map fun declared =>
    ⟨declared.moverKey, declared.leg.startBytes, declared.leg.endBytes, declared.stageGib,
      planSha256 unit.plan,
      unit.plan.consumerActionKey.1⟩

def PrelaunchUnit.intent (unit : PrelaunchUnit) : GroupIntent :=
    ⟨unit.tierId, unit.share.demandGib, unit.intentChunks planSha256⟩

/-- One pass over a lone consumer: who owns its ranges then, whether the filed intent can be read,
and whether a filing lands. -/
structure ReservePass where
  owned : Finset Name
  (readable lands : Bool)

def linkOrAdopt (lands : Bool) (standing : Option GroupIntent) (intent : GroupIntent) :
    Option GroupIntent :=
  match standing with
  | some filed => some filed
  | none => if lands then some intent else none

def reservePass (member : Member) (standing : Option GroupIntent) (pass : ReservePass) :
    Option GroupIntent :=
  match merge (if pass.readable then standing else none) member.key member [] pass.owned with
  | none => standing
  | some unit => linkOrAdopt pass.lands standing (unit.intent planSha256)

end

def GroupIntent.Backed (intent : GroupIntent) : Prop :=
    intent.demandGib = (intent.chunks.map IntentChunk.stageGib).sum

def ResidencyPlan.Unowned (plan : ResidencyPlan) (owned : Finset Name) : Prop :=
    ∀ leg ∈ declaredLegs plan, leg.moverKey ∉ owned

def Phase.unownedGib (owned : Finset Name) (phase : Phase) : Nat :=
  ((phase.prelaunchStageLegs.filter fun leg => leg.key ∉ owned).map Leg.stageGib).sum

section

variable {plan : ResidencyPlan} {owned : Finset Name} {seen : Finset Target}

theorem map_leg_declaredLegs (plan : ResidencyPlan) :
    (declaredLegs plan).map DeclaredLeg.leg = plan.early.flatMap Phase.prelaunchStageLegs := by
  unfold declaredLegs
  rw [map_flatMap]
  refine flatMap_congr fun phase _ => ?_
  rw [map_map]
  exact map_id _

variable {legs : List DeclaredLeg} {member : Member}

theorem keepLegs_seen {t : Target} (h : t ∈ (keepLegs plan owned legs seen).1) :
    t ∈ seen ∨ t ∈ (legs.map DeclaredLeg.leg).map plan.shareNamespace := by
  induction legs generalizing seen with
  | nil => exact .inl h
  | cons declared legs ih =>
    rw [keepLegs] at h
    rw [map_cons, map_cons, mem_cons]
    split at h
    · rcases ih h with hs | hl
      · exact .inl hs
      · exact .inr (.inr hl)
    · rcases ih h with hs | hl
      · rcases Finset.mem_insert.mp hs with hh | hs
        · exact .inr (.inl hh)
        · exact .inl hs
      · exact .inr (.inr hl)

theorem keepLegs_kept (hno : ((legs.map DeclaredLeg.leg).map plan.shareNamespace).Nodup)
    (hn : ∀ t ∈ (legs.map DeclaredLeg.leg).map plan.shareNamespace, t ∉ seen) :
    (keepLegs plan owned legs seen).2 = legs.filter fun declared => declared.moverKey ∉ owned := by
  induction legs generalizing seen with
  | nil => rfl
  | cons declared legs ih =>
    rw [map_cons, map_cons] at hno hn
    obtain ⟨hh, hr⟩ := nodup_cons.mp hno
    obtain ⟨hs, hn⟩ := forall_mem_cons.mp hn
    rw [keepLegs]
    by_cases ho : declared.moverKey ∈ owned
    · rw [if_pos (.inl ho), ih hr hn, filter_cons_of_neg (by simpa using ho)]
    · have hn' : ∀ t ∈ (legs.map DeclaredLeg.leg).map plan.shareNamespace,
        t ∉ insert (plan.shareNamespace declared.leg) seen := by
        intro t ht hin
        rcases Finset.mem_insert.mp hin with heq | hin
        · exact hh (heq ▸ ht)
        · exact hn t ht hin
      have hb := not_or.mpr ⟨ho, hs⟩
      rw [if_neg hb]
      dsimp only
      rw [ih hr hn', filter_cons_of_pos (by simpa using ho)]

theorem unownedSizes_eq {phases : List Phase}
    (hn : ((phases.flatMap Phase.prelaunchStageLegs).map plan.shareNamespace).Nodup)
    (hne : ∀ t ∈ (phases.flatMap Phase.prelaunchStageLegs).map plan.shareNamespace, t ∉ seen) :
    (unownedSizes plan owned phases seen).2 = phases.map (Phase.unownedGib owned) := by
  induction phases generalizing seen with
  | nil => rfl
  | cons phase phases ih =>
    rw [flatMap_cons, map_append] at hn hne
    obtain ⟨hf, hr, ha⟩ := nodup_append.mp hn
    have hsu : ((phase.prelaunchStageLegs.filter fun leg => leg.key ∉ owned).map
      plan.shareNamespace).Sublist
        (phase.prelaunchStageLegs.map plan.shareNamespace) := filter_sublist.map _
    have hs : plan.unseen seen (phase.prelaunchStageLegs.filter fun leg => leg.key ∉ owned) =
      phase.unownedGib owned := by
      unfold ResidencyPlan.unseen
      rw [filter_eq_self.mpr, Phase.unownedGib]
      intro leg hl
      exact decide_eq_true (hne _ (mem_append_left _ (hsu.subset (mem_map_of_mem hl))))
    have hn' : ∀ t ∈ (phases.flatMap Phase.prelaunchStageLegs).map plan.shareNamespace,
        t ∉ seen ∪ ((phase.prelaunchStageLegs.filter fun leg => leg.key ∉ owned).map
        plan.shareNamespace).toFinset := by
      intro t ht hin
      rcases Finset.mem_union.mp hin with hin | hin
      · exact hne t (mem_append_right _ ht) hin
      · exact ha t (hsu.subset (mem_toFinset.mp hin)) t ht rfl
    rw [unownedSizes, chargeLegs_eq (hf.sublist hsu)]
    dsimp only
    rw [ih hr hn', hs, Nat.zero_add, map_cons]

theorem union_single (h : validatePlan member.plan = .ok ()) (owned : Finset Name) :
    union [member] owned =
      ⟨(declaredLegs member.plan).filter fun declared => declared.moverKey ∉ owned,
        (((declaredLegs member.plan).filter fun declared => declared.moverKey ∉ owned).map
        DeclaredLeg.stageGib).sum,
        (((declaredLegs member.plan).filter fun declared => declared.moverKey ∉ owned).map
        DeclaredLeg.stageGib).sum +
          largestPair (member.plan.late.map (Phase.unownedGib owned))⟩ := by
  obtain ⟨hn, _⟩ := namespaces_split h
  obtain ⟨he, hla, ha⟩ := nodup_append.mp hn
  have hl := map_leg_declaredLegs member.plan
  have hk : (keepLegs member.plan owned (declaredLegs member.plan) ∅).2 =
      (declaredLegs member.plan).filter fun declared => declared.moverKey ∉ owned :=
    keepLegs_kept (by rw [hl]; exact he) fun t _ => Finset.notMem_empty t
  have hs : (unownedSizes member.plan owned member.plan.late
      (keepLegs member.plan owned (declaredLegs member.plan) ∅).1).2 = member.plan.late.map
      (Phase.unownedGib owned) := by
    refine unownedSizes_eq hla fun t ht hin => ?_
    rcases keepLegs_seen hin with hin | hin
    · exact Finset.notMem_empty t hin
    · rw [hl] at hin
      exact ha t hin t ht rfl
  have hu : union [member] owned =
      ⟨(keepLegs member.plan owned (declaredLegs member.plan) ∅).2,
        0 + ((keepLegs member.plan owned (declaredLegs member.plan) ∅).2.map
        DeclaredLeg.stageGib).sum,
        0 + ((keepLegs member.plan owned (declaredLegs member.plan) ∅).2.map
        DeclaredLeg.stageGib).sum +
          (0 + largestPair (unownedSizes member.plan owned member.plan.late
            (keepLegs member.plan owned (declaredLegs member.plan) ∅).1).2)⟩ := rfl
  rw [hu, hk, hs, Nat.zero_add, Nat.zero_add]

theorem sum_early_unownedGib (plan : ResidencyPlan) (owned : Finset Name) :
    (plan.early.map (Phase.unownedGib owned)).sum =
      (((declaredLegs plan).filter fun declared => declared.moverKey ∉ owned).map
      DeclaredLeg.stageGib).sum := by
  unfold declaredLegs
  rw [filter_flatMap, map_flatMap, flatMap_def, sum_flatten, map_map]
  refine congrArg sum (map_congr_left fun phase _ => ?_)
  rw [Function.comp_apply, filter_map, map_map]
  rfl

theorem lone_eq (h : validatePlan member.plan = .ok ()) (hd : member.plan.early ≠ [])
    (owned : Finset Name) : lone member owned =
    some { union [member] owned with legs := declaredLegs member.plan } := by
  unfold lone prelaunchBound
  rw [if_neg hd, union_single h, ← sum_early_unownedGib]
  rfl

end

theorem sum_filter_eq_iff {α : Type} {f : α → Nat} {p : α → Bool} {items : List α}
    (hpo : ∀ item ∈ items, 0 < f item) :
    ((items.filter p).map f).sum = (items.map f).sum ↔ ∀ item ∈ items, p item = true := by
  constructor
  · intro hs item hi
    by_contra ho
    have hp := ((filter_append_perm p items).map f).sum_nat
    rw [map_append, sum_append_nat] at hp
    have hm : f item ∈ (items.filter fun x => !p x).map f :=
      mem_map_of_mem (mem_filter.mpr ⟨hi, by simpa using ho⟩)
    have hle := le_sum_of_mem hm
    have hi := hpo item hi
    omega
  · intro h
    rw [filter_eq_self.mpr h]

theorem stageGib_pos {plan : ResidencyPlan} (h : validatePlan plan = .ok ()) :
    ∀ declared ∈ declaredLegs plan, 0 < declared.stageGib := by
  intro declared hd
  have hle : declared.leg ∈ plan.early.flatMap Phase.prelaunchStageLegs := by
    rw [← map_leg_declaredLegs]
    exact mem_map_of_mem hd
  obtain ⟨phase, hp, hle⟩ := mem_flatMap.mp hle
  have hp := mem_of_mem_filter hp
  obtain ⟨keys, hph⟩ := validatePlan_phases h
  obtain ⟨ended, _, _, hti, hl⟩ := checkPhases_tiles hph
  obtain ⟨tierId, _, hpa⟩ := (hl phase hp .moverRow).paid _ hle
  have hr := hti.nonempty _ (mem_map_of_mem (mem_flatMap.mpr ⟨phase, hp, hle⟩))
  have hs := Int.ofNat_lt.mp hr
  have ht : stageTokensForBytes (declared.leg.endBytes - declared.leg.startBytes) ≤
    declared.leg.stageGib := hpa.tokens_le
  unfold stageTokensForBytes at ht
  show 0 < declared.leg.stageGib
  omega

section

variable (planSha256 : ResidencyPlan → Name) {member : Member}

theorem merge_lone (h : validatePlan member.plan = .ok ()) (hd : member.plan.early ≠ [])
    (standing : Option GroupIntent)
    (owned : Finset Name) : ∃ unit, merge standing member.key member [] owned = some unit ∧
      unit.share = holdFiled standing [member]
      { union [member] owned with legs := declaredLegs member.plan } := by
  unfold merge
  rw [if_pos ⟨rfl, rfl⟩, lone_eq h hd]
  exact ⟨_, rfl, rfl⟩

theorem intent_backed_iff (h : validatePlan member.plan = .ok ()) {owned : Finset Name}
    {unit : PrelaunchUnit}
    (hu : unit.share = { union [member] owned with legs := declaredLegs member.plan }) :
    (unit.intent planSha256).Backed ↔ member.plan.Unowned owned := by
  have hs : (unit.intent planSha256).Backed ↔
      (((declaredLegs member.plan).filter fun declared => declared.moverKey ∉ owned).map
      DeclaredLeg.stageGib).sum =
        ((declaredLegs member.plan).map DeclaredLeg.stageGib).sum := by
    unfold GroupIntent.Backed PrelaunchUnit.intent PrelaunchUnit.intentChunks
    rw [hu, union_single h, map_map]
    rfl
  rw [hs, sum_filter_eq_iff (stageGib_pos h)]
  exact forall₂_congr fun declared _ => decide_eq_true_iff

theorem reservePass_none (h : validatePlan member.plan = .ok ()) (hd : member.plan.early ≠ [])
    (pass : ReservePass) :
    ∃ unit : PrelaunchUnit, unit.share =
      { union [member] pass.owned with legs := declaredLegs member.plan } ∧
      reservePass planSha256 member none pass = if pass.lands then some (unit.intent planSha256)
      else none := by
  obtain ⟨unit, hm, hs⟩ := merge_lone h hd none pass.owned
  refine ⟨unit, hs, ?_⟩
  unfold reservePass
  rw [ite_self, hm]
  rfl

theorem reservePass_some (intent : GroupIntent) (pass : ReservePass) :
    reservePass planSha256 member (some intent) pass = some intent := by
  unfold reservePass
  split <;> rfl

theorem foldl_reservePass_backed (h : validatePlan member.plan = .ok ())
    (hd : member.plan.early ≠ [])
    {passes : List ReservePass} (hpa : ∀ pass ∈ passes, member.plan.Unowned pass.owned)
      {standing : Option GroupIntent}
    (hst : ∀ intent ∈ standing, intent.Backed) :
    ∀ intent ∈ passes.foldl (reservePass planSha256 member) standing, intent.Backed := by
  induction passes generalizing standing with
  | nil => exact hst
  | cons pass passes ih =>
    obtain ⟨hp, hr⟩ := forall_mem_cons.mp hpa
    refine ih hr fun intent hi => ?_
    cases standing with
    | some filed =>
      rw [reservePass_some] at hi
      exact hst intent hi
    | none =>
      obtain ⟨unit, hs, heq⟩ := reservePass_none planSha256 h hd pass
      rw [heq] at hi
      split at hi
      · cases hi
        exact (intent_backed_iff planSha256 h hs).mpr hp
      · cases hi

end

/-- A lone consumer and a gang of one always have the same demand and peak. They have the same legs,
and the first intent on file is backed by its chunks, if and only if nobody else owns a declared
leg. While that is so what is on file stays backed. -/
theorem lone_eq_union_iff (planSha256 : ResidencyPlan → Name) (member : Member)
    (h : validatePlan member.plan = .ok ())
    (hdeclared : member.plan.early ≠ []) (owned : Finset Name) :
      ((lone member owned = some (union [member] owned) ∧
        ∀ intent ∈ reservePass planSha256 member none ⟨owned, true, true⟩, intent.Backed) ↔
        member.plan.Unowned owned) ∧
      (lone member owned).map (fun share => (share.demandGib, share.peakGib)) =
        some ((union [member] owned).demandGib, (union [member] owned).peakGib) ∧
      ∀ passes : List ReservePass, (∀ pass ∈ passes, member.plan.Unowned pass.owned) →
        ∀ intent ∈ passes.foldl (reservePass planSha256 member) none, intent.Backed := by
  refine ⟨⟨fun hb => ?_, fun hu => ⟨?_, ?_⟩⟩, ?_, ?_⟩
  · obtain ⟨unit, hs, heq⟩ := reservePass_none planSha256 h hdeclared ⟨owned, true, true⟩
    exact (intent_backed_iff planSha256 h hs).mp (hb.2 _ heq)
  · have ha := filter_eq_self.mpr fun declared hin => decide_eq_true (hu declared hin)
    rw [lone_eq h hdeclared, union_single h, ha]
  · have ho : ∀ pass ∈ [(⟨owned, true, true⟩ : ReservePass)], member.plan.Unowned pass.owned :=
      forall_mem_singleton.mpr hu
    exact foldl_reservePass_backed planSha256 h hdeclared ho nofun
  · rw [lone_eq h hdeclared]
    rfl
  · exact fun passes hp => foldl_reservePass_backed planSha256 h hdeclared hp nofun

def fourMember : Member := ⟨(demoKey 10).1, fourPhases 10 true⟩

/-- Another mover is live, but none of the declared ones. -/
theorem fourMember_unowned : lone fourMember {['x']} = some (union [fourMember] {['x']}) ∧
      ∀ intent ∈ reservePass (fun _ => []) fourMember none ⟨{['x']}, true, true⟩,
      intent.Backed := by
  have hu : fourMember.plan.Unowned {['x']} := by
    unfold ResidencyPlan.Unowned
    decide +kernel
  exact (lone_eq_union_iff (fun _ => []) fourMember (planned_of_isOk (by decide +kernel))
    (by decide) {['x']}).1.mpr hu

/-- Four declared phases of one GiB, the second with another live mover: three GiB are reserved
either way, for four legs or for three, and the intent on file has four chunks. -/
theorem fourMember_owned : validatePlan fourMember.plan = .ok () ∧
      (lone fourMember {(demoKey 4).1}).map
      (fun share => (share.legs.length, share.demandGib, share.peakGib)) = some (4, 3, 3) ∧
      (union [fourMember] {(demoKey 4).1}).legs.length = 3 ∧
      (union [fourMember] {(demoKey 4).1}).demandGib = 3 ∧
      (reservePass (fun _ => []) fourMember none ⟨{(demoKey 4).1}, true, true⟩).map
        (fun intent => (intent.demandGib, (intent.chunks.map IntentChunk.stageGib).sum)) =
        some (3, 4) :=
  ⟨planned_of_isOk
    (by decide +kernel), by decide +kernel, by decide +kernel, by decide +kernel, by decide +kernel⟩

end PrismaBuild.Residency
