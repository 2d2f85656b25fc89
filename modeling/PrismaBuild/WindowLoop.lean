import PrismaBuild.Admission
import PrismaBuild.Window

namespace PrismaBuild.Residency

open Contract List

variable {role : MoverRole} {legs : List Leg} {phase : Phase} {after before phases : List Phase}
  {plan : ResidencyPlan}

theorem Phase.legs_phase (h : phase.legs role = .ok legs) :
    ∀ leg ∈ legs, leg.phase = phase.name := by
  unfold Phase.legs at h
  intro leg hl
  split at h
  next chunks _ =>
    cases h
    obtain ⟨c, -, rfl⟩ := mem_map.mp hl
    rfl
  next =>
    split at h
    · cases h; cases hl
    · cases h
    · cases h
    · cases h
      rw [mem_singleton.mp hl]

theorem legsOf_append (h : legsOf role (before ++ after) = .ok legs) :
    ∃ first later, legsOf role before = .ok first ∧ legsOf role after = .ok later ∧
    legs = first ++ later := by
  induction before generalizing legs with
  | nil => exact ⟨[], legs, rfl, h, rfl⟩
  | cons phase before ih =>
    obtain ⟨own, ho, h⟩ := bind_ok.mp h
    obtain ⟨rest, hr, h⟩ := bind_ok.mp h
    cases h
    obtain ⟨first, later, hf, hl, rfl⟩ := ih hr
    refine ⟨own ++ first, later, ?_, hl, (append_assoc _ _ _).symm⟩
    exact bind_ok.mpr ⟨own, ho, bind_ok.mpr ⟨first, hf, rfl⟩⟩

theorem legsOf_phase (h : legsOf role phases = .ok legs) :
    ∀ leg ∈ legs, leg.phase ∈ phases.map Phase.name := by
  induction phases generalizing legs with
  | nil =>
    cases h
    intro leg hle
    cases hle
  | cons phase phases ih =>
    obtain ⟨own, ho, h⟩ := bind_ok.mp h
    obtain ⟨rest, hr, h⟩ := bind_ok.mp h
    cases h
    intro leg hle
    rcases mem_append.mp hle with hl | hl
    · rw [Phase.legs_phase ho leg hl]
      exact .head _
    · exact .tail _ (ih hr leg hl)

theorem chunkKeys_sublist (phaseName : Name) (chunks : List Chunk) :
    List.Sublist ((chunks.map (Chunk.leg phaseName)).map fun leg => leg.moverRow.actionKey)
    (chunks.flatMap Chunk.keys) := by
  induction chunks with
  | nil => exact .slnil
  | cons c chunks ih => exact (ih.cons _).cons_cons _

theorem Phase.roleKeys_sublist (role : MoverRole) (phase : Phase) :
    List.Sublist (legKeys (phase.chunkTable role) (phase.mover role) (phase.egress role))
    phase.keys := by
  cases role with
  | moverRow => exact sublist_append_left _ _
  | ramMoverRow => exact sublist_append_right _ _

theorem Phase.legs_keys (h : phase.legs role = .ok legs) :
    List.Sublist (legs.map fun leg => leg.moverRow.actionKey) phase.keys := by
  refine List.Sublist.trans ?_ (phase.roleKeys_sublist role)
  unfold Phase.legs at h
  split at h
  next chunks hc =>
    cases h
    unfold legKeys
    rw [hc]
    exact chunkKeys_sublist _ _
  next hc =>
    split at h
    next => cases h; exact nil_sublist _
    next => cases h
    next => cases h
    next hm _ =>
      cases h
      unfold legKeys
      rw [hc, hm]
      exact (nil_sublist _).cons_cons _

theorem legsOf_keys (h : legsOf role phases = .ok legs) :
    List.Sublist (legs.map fun leg => leg.moverRow.actionKey) (phases.flatMap Phase.keys) := by
  induction phases generalizing legs with
  | nil =>
    cases h
    exact .slnil
  | cons phase phases ih =>
    obtain ⟨own, ho, h⟩ := bind_ok.mp h
    obtain ⟨rest, hr, h⟩ := bind_ok.mp h
    cases h
    rw [map_append]
    exact (Phase.legs_keys ho).append (ih hr)

theorem legs_keys_nodup (hv : validatePlan plan = .ok ())
    (h : plan.legs role = .ok legs) : (legs.map Leg.key).Nodup := by
  have hk := (validatePlan_ok hv).2.2.sublist (legsOf_keys h)
  have := hk.map Subtype.val_injective
  rwa [map_map] at this

theorem legs_around (h : plan.legs role = .ok legs) (hs : plan.phases = before ++ phase :: after) :
    ∃ earlier own later, legs = earlier ++ (own ++ later) ∧
    (∀ leg ∈ earlier, leg.phase ∈ before.map Phase.name) ∧
      (∀ leg ∈ own, leg.phase = phase.name) ∧ ∀ leg ∈ later, leg.phase ∈ after.map Phase.name := by
  unfold ResidencyPlan.legs at h
  rw [hs] at h
  obtain ⟨earlier, rest, he, hr, rfl⟩ := legsOf_append h
  obtain ⟨own, ho, hr⟩ := bind_ok.mp hr
  obtain ⟨later, hl, hr⟩ := bind_ok.mp hr
  cases hr
  exact ⟨earlier, own, later, rfl, legsOf_phase he, Phase.legs_phase ho, legsOf_phase hl⟩

theorem filter_around {p : Leg → Bool} {earlier own later : List Leg} {phaseName : Name}
    (he : ∀ leg ∈ earlier, p leg = false) (ho : ∀ leg ∈ own, leg.phase = phaseName)
    (hla : ∀ leg ∈ later, leg.phase ≠ phaseName) {before after : List Leg} {leg : Leg}
    (hs : (earlier ++ (own ++ later)).filter p = before ++ leg :: after)
      (hle : leg.phase = phaseName) :
    ∀ l ∈ before ++ [leg], l.phase = phaseName := by
  have hn : earlier.filter p = [] := filter_eq_nil_iff.mpr fun l hl => by simp [he l hl]
  rw [filter_append, hn, nil_append, filter_append] at hs
  have hno : leg ∉ later.filter p := fun hm => hla leg (mem_of_mem_filter hm) hle
  obtain ⟨rest, hr⟩ := append_eq_of_not_mem hs hno
  intro l hl
  have hm : l ∈ own.filter p := by
    rw [hr]
    rcases mem_append.mp hl with h | h
    · exact mem_append_left _ h
    · exact mem_append_right _ (mem_singleton.mp h ▸ .head _)
  exact ho l (mem_of_mem_filter hm)

theorem gibOf_le_of_sublist {run : List Leg} (h : List.Sublist run legs) :
    gibOf run ≤ gibOf legs := by
  induction h with
  | slnil => exact Nat.le_refl _
  | cons leg _ ih =>
    simp only [gibOf, map_cons, sum_cons] at ih ⊢
    omega
  | cons_cons leg _ ih =>
    simp only [gibOf, map_cons, sum_cons] at ih ⊢
    omega

theorem phaseIndex_split {names : List Name} {phaseName : Option Name} {index : Nat}
    (h : phaseIndex names phaseName = some index) : index < names.length ∧
    (names.drop index).head? = phaseName := by
  obtain ⟨hlt, hat, -⟩ := findIdx?_eq_some_iff_getElem.mp h
  refine ⟨hlt, ?_⟩
  rw [head?_drop, getElem?_eq_getElem hlt]
  exact eq_of_beq hat

namespace Frame

variable {f : Frame} {leg : Leg} {s s' : Int × Nat}

theorem brake_eq_none {room : Int} {runahead : Nat} : f.brake room runahead leg = none ↔
      (some leg.phase ≠ f.current → (∀ h ∈ f.horizonEndBytes, (leg.startBytes : Int) < h) ∧
        ∀ b ∈ f.budget, (runahead : Int) + leg.stageGib ≤ b) ∧ (leg.stageGib : Int) ≤ room := by
  unfold brake
  split
  next hst =>
    obtain ⟨hc, h, hm, hle⟩ := hst
    refine iff_of_false nofun fun hs => ?_
    have := (hs.1 hc).1 h hm
    omega
  next hn =>
    split
    next hst =>
      obtain ⟨hc, b, hm, hlt⟩ := hst
      refine iff_of_false nofun fun hs => ?_
      have := (hs.1 hc).2 b hm
      omega
    next hf =>
      split
      next hr => exact iff_of_false nofun fun hs => Int.not_lt.mpr hs.2 hr
      next hr =>
        refine iff_of_true rfl ⟨fun hc => ⟨fun h hm => ?_, fun b hm => ?_⟩, Int.not_lt.mp hr⟩
        · exact Int.not_le.mp fun hle => hn ⟨hc, h, hm, hle⟩
        · exact Int.not_lt.mp fun hlt => hf ⟨hc, b, hm, hlt⟩

def take (f : Frame) (s : Int × Nat) (leg : Leg) : Option (Int × Nat) :=
  match f.brake s.1 s.2 leg with
  | some _ => none
  | none =>
    some (s.1 - leg.stageGib, if some leg.phase = f.current then s.2 else s.2 + leg.stageGib)

theorem take_eq_some : f.take s leg = some s' ↔
      ((some leg.phase ≠ f.current → (∀ h ∈ f.horizonEndBytes, (leg.startBytes : Int) < h) ∧
        ∀ b ∈ f.budget, (s.2 : Int) + leg.stageGib ≤ b) ∧ (leg.stageGib : Int) ≤ s.1) ∧
      s' = (s.1 - leg.stageGib, if some leg.phase = f.current then
        s.2 else s.2 + leg.stageGib) := by
  rw [← brake_eq_none, take]
  cases f.brake s.1 s.2 leg with
  | none => simp [eq_comm]
  | some brake => simp

def streamed (f : Frame) (leg : Leg) : Bool := f.wanted leg ∧ leg.phase ∉ f.declared

theorem publishLegs_streaming (f : Frame) (room : Int) (runahead : Nat) (legs : List Leg) :
    (f.publishLegs room runahead legs).1.filter (fun leg => leg.phase ∉ f.declared) =
      firstRun f.take (room, runahead) (legs.filter f.streamed) := by
  induction legs generalizing room runahead with
  | nil => rfl
  | cons leg legs ih =>
    unfold publishLegs
    by_cases hw : f.wanted leg = false
    · rw [if_pos hw, filter_cons_of_neg (by simp [streamed, hw])]
      exact ih room runahead
    · rw [if_neg hw]
      by_cases hd : leg.phase ∈ f.declared
      · rw [if_pos hd, filter_cons_of_neg (by simp [hd]),
          filter_cons_of_neg (by simp [streamed, hd])]
        exact ih room runahead
      · have hs : f.streamed leg = true := by simp [streamed, hd, Bool.eq_true_of_not_eq_false hw]
        rw [if_neg hd, filter_cons_of_pos hs, firstRun]
        unfold take
        cases hb : f.brake room runahead leg with
        | none =>
          rw [filter_cons_of_pos (by simp [hd]), ih]
          rfl
        | some brake =>
          cases brake with
          | horizon => rfl
          | budget => rfl
          | room => rfl

theorem publishLegs_undeclared (hd : f.declared = []) (room : Int) (runahead : Nat)
    (legs : List Leg) :
    (f.publishLegs room runahead legs).1 = firstRun f.take (room, runahead)
      (legs.filter f.wanted) := by
  have hs : f.streamed = f.wanted := by
    funext leg
    simp [streamed, hd]
  have h := f.publishLegs_streaming room runahead legs
  rw [hs] at h
  rw [← h, filter_eq_self.mpr]
  intro leg _
  simp [hd]

theorem foldlM_take (h : legs.foldlM f.take s = some s') :
    s'.1 = s.1 - gibOf legs ∧ s'.2 = s.2 +
    gibOf (legs.filter fun leg => some leg.phase ≠ f.current) := by
  induction legs generalizing s with
  | nil =>
    cases Option.some.inj h
    simp [gibOf]
  | cons leg legs ih =>
    rw [foldlM_cons] at h
    obtain ⟨t, ht, h⟩ := Option.bind_eq_some_iff.mp h
    obtain ⟨-, rfl⟩ := take_eq_some.mp ht
    obtain ⟨hr, ha⟩ := ih h
    constructor
    · rw [hr]
      simp only [gibOf, map_cons, sum_cons]
      omega
    · rw [ha]
      by_cases hc : some leg.phase = f.current
      · simp [gibOf, hc]
      · simp only [gibOf, hc, if_false, filter_cons, ne_eq, not_false_eq_true, decide_true, if_true,
          map_cons, sum_cons]
        omega

theorem foldlM_take_bounds (h : legs.foldlM f.take s = some s') :
    (0 ≤ s.1 ∨ legs ≠ [] → 0 ≤ s'.1) ∧ ∀ b ∈ f.budget, (s.2 : Int) ≤ b → (s'.2 : Int) ≤ b := by
  induction legs generalizing s with
  | nil =>
    cases Option.some.inj h
    simp
  | cons leg legs ih =>
    rw [foldlM_cons] at h
    obtain ⟨t, ht, h⟩ := Option.bind_eq_some_iff.mp h
    obtain ⟨⟨hf, hr⟩, rfl⟩ := take_eq_some.mp ht
    obtain ⟨hd, hbu⟩ := ih h
    refine ⟨fun _ => hd (.inl (by simpa using hr)), fun b hb hle => hbu b hb ?_⟩
    by_cases hc : some leg.phase = f.current
    · simpa [hc] using hle
    · simpa [hc] using (hf hc).2 b hb

theorem foldlM_take_current
    (hc : ∀ leg ∈ legs, some leg.phase = f.current) (hf : (gibOf legs : Int) ≤ s.1) :
    (legs.foldlM f.take s).isSome = true := by
  induction legs generalizing s with
  | nil => rfl
  | cons leg legs ih =>
    have hle := hc leg (.head _)
    have hs : (gibOf (leg :: legs) : Int) = leg.stageGib + gibOf legs := by simp [gibOf]
    have ht : f.take s leg = some (s.1 - leg.stageGib, s.2) :=
      take_eq_some.mpr ⟨⟨fun hne => absurd hle hne, by omega⟩, by rw [if_pos hle]⟩
    rw [foldlM_cons, ht]
    exact ih (fun l hl => hc l (.tail _ hl)) (by simp only; omega)

end Frame

end PrismaBuild.Residency
