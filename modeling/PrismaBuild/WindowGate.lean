import PrismaBuild.WindowAdvance
import PrismaBuild.WindowSafety

namespace PrismaBuild.Residency

open Contract List

variable {legs : List Leg}

theorem entryList_keys {entries : List AdvanceEntry} (h : entryList legs = .ok entries) :
    entries.map AdvanceEntry.moverActionKey = legs.map Leg.key := by
  induction legs generalizing entries with
  | nil =>
    cases h
    rfl
  | cons leg legs ih =>
    obtain ⟨entry, he, h⟩ := bind_ok.mp h
    obtain ⟨rest, hr, h⟩ := bind_ok.mp h
    cases h
    obtain ⟨egress, -, he⟩ := bind_ok.mp he
    cases he
    rw [map_cons, map_cons, ih hr]

namespace ConsumerWindow

variable {w : ConsumerWindow} {legs : List Leg} {a : Advance}

theorem advance_ok (hl : w.plan.legs w.leg.moverRole = .ok legs) (h : w.advance = .ok a) :
    a.waiting.map AdvanceEntry.moverActionKey = (w.waiting legs).map Leg.key ∧
      ∀ first ∈ (w.waiting legs).head?, a.currentMinGib = first.stageGib := by
  unfold advance at h
  obtain ⟨legs', hl', h⟩ := bind_ok.mp h
  cases Except.ok.inj (hl.symm.trans hl')
  obtain ⟨queued, -, h⟩ := bind_ok.mp h
  obtain ⟨fence, -, h⟩ := bind_ok.mp h
  obtain ⟨prelaunch, -, h⟩ := bind_ok.mp h
  cases hw : w.waiting legs with
  | nil =>
    rw [hw] at h
    cases h
    exact ⟨rfl, nofun⟩
  | cons first rest =>
    rw [hw] at h
    obtain ⟨waiting, he, h⟩ := bind_ok.mp h
    obtain ⟨prior, -, h⟩ := bind_ok.mp h
    obtain ⟨queuedPrior, -, h⟩ := bind_ok.mp h
    cases h
    refine ⟨entryList_keys he, fun leg hle => ?_⟩
    cases Option.some.inj hle
    rfl

def streaming (w : ConsumerWindow) (d : Decision) : List PublishRow :=
    d.publish.filter (·.phase ∉ w.plan.declared)

def streamWaiting (w : ConsumerWindow) (legs : List Leg) : List Leg :=
  legs.filter fun leg => leg.phase ∈ w.aheadNames ∧ leg.key ∉ w.leg.published ∧
    leg.phase ∉ w.plan.declared

theorem waiting_eq (w : ConsumerWindow) (legs : List Leg) :
    w.waiting legs = (w.streamWaiting legs).filter w.within := by
  unfold waiting streamLegs streamWaiting
  rw [filter_filter, filter_filter]
  refine filter_congr fun leg _ => ?_
  by_cases hd : leg.phase ∈ w.plan.declared
  · simp [hd]
  · simp [hd, Bool.and_comm, Bool.and_left_comm]

variable {budget : Option Int}

theorem publishes_streaming (hw : w.budget.withdrawn = []) :
    (w.published legs budget).1.filter (fun leg => leg.phase ∉ w.plan.declared) =
      firstRun (w.frame budget).take (w.budget.freeGib, w.runahead legs)
        (w.streamWaiting legs) := by
  have hl := (w.frame budget).publishLegs_streaming w.budget.freeGib (w.runahead legs) legs
  refine hl.trans (congrArg _ (filter_congr fun leg _ => ?_))
  simp [Frame.streamed, Frame.wanted, frame, hw, and_assoc]

theorem streaming_conclude (hw : w.budget.withdrawn = []) (budget : Option Int)
    (hp : w.pending legs = []) :
    w.streaming (w.conclude legs budget) =
      (firstRun (w.frame budget).take (w.budget.freeGib, w.runahead legs)
      (w.streamWaiting legs)).map Leg.publishRow := by
  unfold streaming conclude
  rw [hp, ← publishes_streaming hw, filter_map]
  rfl

theorem streaming_pending (hp : w.pending legs ≠ []) :
    w.streaming (w.conclude legs budget) = [] := by
  unfold streaming conclude
  cases hpe : w.pending legs with
  | nil => exact absurd hpe hp
  | cons first rest => rfl

theorem effectiveCurrent_cases (w : ConsumerWindow) : w.effectiveCurrent = w.currentName ∨
      (∃ name ∈ w.currentName, name ∈ w.plan.declared) ∧ w.effectiveCurrent = w.streamCurrent := by
  unfold effectiveCurrent
  by_cases hd : w.plan.declared = []
  · exact .inl (if_pos hd)
  · rw [if_neg hd]
    unfold streamCurrent currentName
    cases hna : w.aheadNames with
    | nil => exact .inl rfl
    | cons name rest =>
      by_cases hn : name ∈ w.plan.declared
      · exact .inr ⟨⟨name, rfl, hn⟩, rfl⟩
      · left
        simp [hn]

/-- While the consumer is inside the declared prefix, no unpublished leg of the first streaming
phase starts at or past the horizon. -/
def HorizonClear (w : ConsumerWindow) (legs : List Leg) : Prop :=
  ∀ name ∈ w.currentName, name ∈ w.plan.declared → ∀ h ∈ w.leg.horizonEndBytes, ∀ leg ∈ legs,
    some leg.phase = w.streamCurrent → leg.key ∉ w.leg.published → (leg.startBytes : Int) < h

theorem within_of_near (hcl : w.HorizonClear legs) {leg : Leg} (hl : leg ∈ w.streamWaiting legs)
    (hne : some leg.phase ≠ w.effectiveCurrent → ∀ h ∈ w.leg.horizonEndBytes,
    (leg.startBytes : Int) < h) : w.within leg = true := by
  refine decide_eq_true ?_
  obtain ⟨hm, hs⟩ := mem_filter.mp hl
  obtain ⟨-, hp, -⟩ := of_decide_eq_true hs
  by_cases hc : some leg.phase = w.effectiveCurrent
  · rcases w.effectiveCurrent_cases with hsa | ⟨⟨name, hn, hd⟩, hf⟩
    · exact .inl (hc.trans hsa)
    · exact .inr fun h hh => hcl name hn hd h hh leg hm (hc.trans hf) hp
  · exact .inr (hne hc)

end ConsumerWindow

theorem Frame.foldlM_take_near {f : Frame} {s s' : Int × Nat} (h : legs.foldlM f.take s = some s') :
    ∀ leg ∈ legs, some leg.phase ≠ f.current → ∀ h ∈ f.horizonEndBytes,
    (leg.startBytes : Int) < h := by
  induction legs generalizing s with
  | nil => exact fun leg hl => absurd hl not_mem_nil
  | cons first legs ih =>
    rw [foldlM_cons] at h
    obtain ⟨t, ht, h⟩ := Option.bind_eq_some_iff.mp h
    intro leg hl hc
    rcases mem_cons.mp hl with rfl | hl
    · exact ((take_eq_some.mp ht).1.1 hc).1
    · exact ih h leg hl hc

namespace ConsumerWindow

variable {w : ConsumerWindow} {legs : List Leg} {a : Advance}

theorem admitted_isPrefix_waiting (hc : w.HorizonClear legs) (budget : Option Int) :
    firstRun (w.frame budget).take (w.budget.freeGib, w.runahead legs) (w.streamWaiting legs) <+:
      w.waiting legs := by
  obtain ⟨s, hs⟩ := exists_foldlM_firstRun (w.frame budget).take (w.streamWaiting legs)
    (w.budget.freeGib, w.runahead legs)
  have hn := Frame.foldlM_take_near hs
  obtain ⟨rest, hr⟩ := firstRun_isPrefix (w.frame budget).take (w.streamWaiting legs)
    (w.budget.freeGib, w.runahead legs)
  generalize firstRun _ _ _ = streamed at hn hr ⊢
  have ha : streamed.filter w.within = streamed := by
    refine filter_eq_self.mpr fun leg hl => within_of_near hc ?_ (hn leg hl)
    rw [← hr]
    exact mem_append_left _ hl
  rw [waiting_eq, ← hr, filter_append, ha]
  exact prefix_append _ _

variable {leg : Leg}

theorem streamWaiting_first (hn : w.plan.names.Nodup)
    (hlegs : w.plan.legs w.leg.moverRole = .ok legs)
    {before after : List Leg} (hsp : w.streamWaiting legs = before ++ leg :: after)
    (hle : some leg.phase = w.streamCurrent) :
      ∀ l ∈ before ++ [leg], some l.phase = w.streamCurrent := by
  obtain ⟨-, skipped, later, ha, hs⟩ := find?_eq_some_iff_append.mp hle.symm
  obtain ⟨skippedPhases, rest, hph, rfl, hr⟩ := map_eq_append_iff.mp ha
  obtain ⟨phase, laterPhases, rfl, hp, rfl⟩ := map_eq_cons_iff.mp hr
  have hpl : w.plan.phases = (w.plan.phases.take (w.plan.phases.length - w.ahead.length) ++
    skippedPhases) ++
      phase :: laterPhases := by
    rw [append_assoc, ← hph]
    exact w.take_append_ahead.symm
  obtain ⟨first, own, rest, rfl, hf, ho, hr⟩ := legs_around hlegs hpl
  rw [← hle]
  have hon := filter_around (fun l hl => ?_) ho (fun l hl hsa => ?_) hsp hp.symm
  · exact fun l hl => congrArg some ((hon l hl).trans hp)
  · rw [map_append] at hf
    rcases mem_append.mp (hf l hl) with hpa | hd
    · have hno := not_mem_aheadNames_of_passed hn hpa
      simp [hno]
    · have hde := hs l.phase hd
      simp only [decide_not, Bool.not_not, decide_eq_true_eq] at hde
      simp [hde]
  · rw [ResidencyPlan.names, hpl, map_append, map_cons] at hn
    exact (nodup_cons.mp hn.of_append_right).1 (hsa ▸ hr l hl)

def ample (legs : List Leg) : WindowBudget := { freeGib := gibOf legs, prelaunchHeld := some true }

theorem ample_admits (hn : w.plan.names.Nodup) (hle : w.plan.legs w.leg.moverRole = .ok legs)
    (hb : w.budget = ample legs) (hc : w.effectiveCurrent = w.streamCurrent) (budget : Option Int)
    (hleg : leg ∈ w.streamWaiting legs) (hf : some leg.phase = w.streamCurrent) :
    leg ∈ firstRun (w.frame budget).take (w.budget.freeGib, w.runahead legs)
      (w.streamWaiting legs) := by
  obtain ⟨before, after, hs⟩ := append_of_mem hleg
  have hr : before ++ [leg] <+: w.streamWaiting legs := by
    rw [hs]
    exact ⟨after, by simp⟩
  have hp := streamWaiting_first hn hle hs hf
  have hfi : (gibOf (before ++ [leg]) : Int) ≤ w.budget.freeGib := by
    rw [hb]
    exact Int.ofNat_le.mpr (gibOf_le_of_sublist (hr.sublist.trans filter_sublist))
  have hso := Frame.foldlM_take_current (f := w.frame budget)
    (s := (w.budget.freeGib, w.runahead legs))
    (fun l hl => (hp l hl).trans hc.symm) hfi
  exact (isPrefix_firstRun_iff.mpr ⟨hr, hso⟩).subset (mem_append_right _ (.head _))

/-- The gate prices what a window publishes under a budget: the streamed keys are an initial run of
the waiting ones, and the first of them is the GiB the gate reserves. -/
def Prices (w : ConsumerWindow) (a : Advance) (b : WindowBudget) : Prop :=
  ∀ d, { w with budget := b }.decision = .ok d →
    (w.streaming d).map PublishRow.moverActionKey <+: a.waiting.map AdvanceEntry.moverActionKey ∧
      ∀ first ∈ (w.streaming d).head?, a.currentMinGib = first.stageGib

theorem prices_of_clear (hl : w.plan.legs w.leg.moverRole = .ok legs) (ha : w.advance = .ok a)
    (hc : w.HorizonClear legs) {b : WindowBudget} (hb : b.withdrawn = []) : w.Prices a b := by
  intro d hd
  obtain ⟨hk, hm⟩ := advance_ok hl ha
  obtain ⟨legs', budget, hl', -, rfl⟩ := decision_ok.mp hd
  cases Except.ok.inj (hl.symm.trans hl')
  by_cases hp : { w with budget := b }.pending legs = []
  · have hs := streaming_conclude hb budget hp
    have hin := admitted_isPrefix_waiting (w := { w with budget := b }) hc budget
    rw [show w.streaming _ = _ from hs, hk, map_map]
    refine ⟨List.IsPrefix.map Leg.key hin, fun first hf => ?_⟩
    rw [head?_map] at hf
    obtain ⟨leg, hle, rfl⟩ := Option.map_eq_some_iff.mp hf
    obtain ⟨rest, hr⟩ := hin
    refine hm leg ?_
    rw [show w.waiting legs = _ from hr.symm, head?_append, hle]
    rfl
  · rw [show w.streaming _ = [] from streaming_pending (w := { w with budget := b }) hp]
    exact ⟨⟨_, List.nil_append _⟩, nofun⟩

theorem clear_of_prices (hv : validatePlan w.plan = .ok ())
    (hlegs : w.plan.legs w.leg.moverRole = .ok legs)
    (ha : w.advance = .ok a) (hp : ∀ b : WindowBudget, b.withdrawn = [] → w.Prices a b) :
      w.HorizonClear legs := by
  intro name hna hd h hh leg hle hf hnew
  obtain ⟨-, hn, -⟩ := validatePlan_ok hv
  have hs : leg.phase ∈ w.aheadNames ∧ leg.phase ∉ w.plan.declared := by
    obtain ⟨hno, skipped, later, hah, -⟩ := find?_eq_some_iff_append.mp hf.symm
    rw [hah]
    exact ⟨mem_append_right _ (.head _), of_decide_eq_true hno⟩
  have hwa : leg ∈ w.streamWaiting legs :=
    mem_filter.mpr ⟨hle, decide_eq_true ⟨hs.1, hnew, hs.2⟩⟩
  have hc : w.effectiveCurrent = w.streamCurrent := if_neg (ne_nil_of_mem hd)
  -- an ample budget with the group held publishes the leg, so the gate has to list its key
  obtain ⟨budget, hbu⟩ := runaheadBudget_defined (w := { w with budget := ample legs })
    (fun _ => nofun) legs
  have hde : { w with budget := ample legs }.decision =
    .ok ({ w with budget := ample legs }.conclude legs budget) :=
    decision_ok.mpr ⟨legs, budget, hlegs, hbu, rfl⟩
  obtain ⟨hk, -⟩ := hp (ample legs) rfl _ hde
  have hhe : { w with budget := ample legs }.pending legs = [] := if_pos (.inr rfl)
  have had := ample_admits (w := { w with budget := ample legs }) hn hlegs rfl hc budget hwa hf
  have hli : leg.key ∈ (w.waiting legs).map Leg.key := by
    rw [← (advance_ok hlegs ha).1]
    refine hk.subset (mem_map.mpr ⟨leg.publishRow, ?_, rfl⟩)
    rw [show w.streaming _ = _ from streaming_conclude (w := { w with budget := ample legs }) rfl
      budget hhe]
    exact mem_map_of_mem had
  obtain ⟨listed, hm, hsa⟩ := mem_map.mp hli
  rw [waiting_eq] at hm
  obtain ⟨hl, hw⟩ := mem_filter.mp hm
  cases inj_on_of_nodup_map (legs_keys_nodup hv hlegs) (mem_of_mem_filter hl) hle hsa
  rcases of_decide_eq_true hw with hr | hne
  · cases hna.symm.trans hr.symm
    exact absurd hd hs.2
  · exact hne h hh

/-- The gate answers and prices what the window publishes, under every budget with nothing
withdrawn, exactly when no unpublished leg of the first streaming phase is past the horizon while
the consumer is inside the declared prefix, and every leg that the gate lists has its egress row. -/
theorem advance_prices_decision_iff (hv : validatePlan w.plan = .ok ())
    (hlegs : w.plan.legs w.leg.moverRole = .ok legs) :
    (∃ a, w.advance = .ok a ∧ ∀ b : WindowBudget, b.withdrawn = [] → w.Prices a b) ↔
      w.HorizonClear legs ∧ ∀ leg ∈ w.listed legs, leg.egressRow.isSome := by
  constructor
  · rintro ⟨a, ha, hp⟩
    exact ⟨clear_of_prices hv hlegs ha hp, (exists_advance_iff hlegs).mp ⟨a, ha⟩⟩
  · rintro ⟨hc, he⟩
    obtain ⟨a, ha⟩ := (exists_advance_iff hlegs).mpr he
    exact ⟨a, ha, fun b hb => prices_of_clear hlegs ha hc hb⟩

end ConsumerWindow

/-- A consumer of the demo plan with its first phase declared and the horizon at the second chunk of
the next one. -/
def demoConsumer (phaseName : Name) : ConsumerWindow :=
  ⟨demoPlan true, some phaseName, { horizonEndBytes := some (2 * 2 ^ 30) },
    { freeGib := 3, prelaunchHeld := some true }⟩

theorem demoConsumer_priced : ∃ a, (demoConsumer "train").advance = .ok a ∧
      ∀ b : WindowBudget, b.withdrawn = [] → (demoConsumer "train").Prices a b := by
  refine (ConsumerWindow.advance_prices_decision_iff (demoPlan_valid true) (demoPlan_legs true)).mpr
    ⟨?_, ?_⟩
  · intro name hn hd
    cases hn
    exact absurd hd (by decide +kernel)
  · exact (ConsumerWindow.exists_advance_iff (demoPlan_legs true)).mp ⟨_, rfl⟩

/-- Inside the declared prefix the window publishes both chunks of the next phase, and the gate
lists the first. -/
theorem demoConsumer_unpriced : validatePlan (demoConsumer "load").plan = .ok () ∧
    ∃ d a, (demoConsumer "load").decision = .ok d ∧
      (demoConsumer "load").advance = .ok a ∧
      ((demoConsumer "load").streaming d).map PublishRow.moverActionKey =
      [(demoKey 4).1, (demoKey 6).1] ∧
      a.waiting.map AdvanceEntry.moverActionKey = [(demoKey 4).1] :=
  ⟨demoPlan_valid true, _, _, rfl, rfl, by decide +kernel, by decide +kernel⟩

end PrismaBuild.Residency
