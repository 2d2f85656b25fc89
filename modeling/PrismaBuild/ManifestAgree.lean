import PrismaBuild.ManifestLayout

namespace PrismaBuild.DataManifest

open Contract List

variable {F : Type}

section

theorem runningSums_append (running : Int) (a b : List Int) :
    runningSums running (a ++ b) = runningSums running a ++ runningSums (running + a.sum) b := by
  induction a generalizing running with
  | nil => simp [runningSums]
  | cons size a ih =>
    rw [cons_append, runningSums, ih, runningSums, sum_cons, cons_append, Int.add_assoc]

theorem sum_mem_runningSums (running : Int) {a : List Int} (ha : a ≠ []) :
    running + a.sum ∈ runningSums running a := by
  induction a generalizing running with
  | nil => exact absurd rfl ha
  | cons size a ih =>
    rw [runningSums, sum_cons, ← Int.add_assoc]
    by_cases hn : a = []
    · rw [hn, sum_nil, Int.add_zero]
      exact .head _
    · exact .tail _ (ih _ hn)

theorem lt_of_mem_runningSums {sizes : List Int} (hp : ∀ size ∈ sizes, 0 < size) {running x : Int}
    (h : x ∈ runningSums running sizes) : running < x := by
  induction sizes generalizing running with
  | nil => cases h
  | cons size sizes ih =>
    have hsi := hp size (.head _)
    rcases mem_cons.mp h with rfl | h
    · omega
    · have := ih (fun s hs => hp s (.tail _ hs)) h
      omega

end

section

def PhasesFrom (entries : List Entry) : Nat → List Name → List Phase → Prop
  | _, _, [] => True
  | cumulative, names, p :: rest =>
    p.name.1 ∉ names ∧ (∀ i ∈ p.entryIndices, i < entries.length) ∧ p.entryIndices.Nodup ∧
      p.bytes = (p.entryIndices.map (sizeAt entries)).sum ∧
      p.cumulativeBytes = cumulative + p.bytes ∧
      PhasesFrom entries p.cumulativeBytes (p.name.1 :: names) rest

variable {path : Name} {raw : List (Json F)} {names : List Name} {cumulative reads : Nat}
    {entries : List Entry}
  {plan : ReadPlan}

theorem checkRefs_ok {count : Nat} {seen : List Nat} {refs : List Nat}
    (h : checkRefs count path seen raw = .ok refs) : (∀ i ∈ refs, i < count) ∧ refs.Nodup ∧
    ∀ i ∈ refs, i ∉ seen := by
  induction raw generalizing seen refs with
  | nil =>
    cases h
    exact ⟨nofun, .nil, nofun⟩
  | cons j raw ih =>
    obtain ⟨ref, -, h⟩ := bind_ok.mp h
    obtain ⟨hlt, h⟩ := guard_ok.mp h
    obtain ⟨hs, h⟩ := guard_ok.mp h
    obtain ⟨more, hm, h⟩ := bind_ok.mp h
    cases h
    obtain ⟨hb, hn, hf⟩ := ih hm
    refine ⟨?_, ?_, ?_⟩
    · intro i hi
      rcases mem_cons.mp hi with rfl | hi
      · omega
      · exact hb i hi
    · refine nodup_cons.mpr ⟨fun hin => ?_, hn⟩
      exact hf ref hin (.head _)
    · intro i hi
      rcases mem_cons.mp hi with rfl | hi
      · exact hs
      · exact fun hin => hf i hi (.tail _ hin)

variable {value : Json F}

theorem checkPhaseName_ok {name : Text plainText}
    (h : checkPhaseName path names value = .ok name) : name.1 ∉ names := by
  obtain ⟨s, -, h⟩ := bind_ok.mp h
  obtain ⟨-, h⟩ := guard_ok.mp h
  obtain ⟨hn, h⟩ := guard_ok.mp h
  cases h
  exact hn

theorem checkPhase_ok {raw : Json F} {p : Phase}
    (h : checkPhase entries path names reads cumulative raw = .ok p) :
    p.name.1 ∉ names ∧ (∀ i ∈ p.entryIndices, i < entries.length) ∧ p.entryIndices.Nodup ∧
      p.bytes = (p.entryIndices.map (sizeAt entries)).sum ∧
      p.cumulativeBytes = cumulative + p.bytes := by
  obtain ⟨declared, -, h⟩ := bind_ok.mp h
  obtain ⟨fields, -, h⟩ := bind_ok.mp h
  obtain ⟨name, hna, h⟩ := bind_ok.mp h
  obtain ⟨indices, -, h⟩ := bind_ok.mp h
  obtain ⟨-, h⟩ := guard_ok.mp h
  obtain ⟨refs, hr, h⟩ := bind_ok.mp h
  obtain ⟨bytes, -, h⟩ := bind_ok.mp h
  obtain ⟨-, h⟩ := guard_ok.mp h
  obtain ⟨sum, -, h⟩ := bind_ok.mp h
  obtain ⟨-, h⟩ := guard_ok.mp h
  cases h
  obtain ⟨hb, hn, -⟩ := checkRefs_ok hr
  exact ⟨checkPhaseName_ok hna, hb, hn, rfl, rfl⟩

theorem checkPhases_ok {index : Nat} {phases : List Phase}
    (h : checkPhases entries index names reads cumulative raw = .ok phases) :
    PhasesFrom entries cumulative names phases ∧ phases.length = raw.length := by
  induction raw generalizing index names reads cumulative phases with
  | nil =>
    cases h
    exact ⟨trivial, rfl⟩
  | cons j raw ih =>
    obtain ⟨p, hp, h⟩ := bind_ok.mp h
    obtain ⟨more, hm, h⟩ := bind_ok.mp h
    cases h
    obtain ⟨hr, hl⟩ := ih hm
    obtain ⟨hna, hb, hn, hby, hs⟩ := checkPhase_ok hp
    refine ⟨⟨hna, hb, hn, hby, hs, hr⟩, ?_⟩
    rw [length_cons, length_cons, hl]

structure Planned (entries : List Entry) (plan : ReadPlan) : Prop where
  phases : PhasesFrom entries 0 [] plan.phases
  nonempty : plan.phases ≠ []
  readBytes : plan.readBytes = cumulativeEnd plan.phases

theorem checkReadPlan_ok (h : checkReadPlan entries value = .ok plan) : Planned entries plan := by
  obtain ⟨fields, -, h⟩ := bind_ok.mp h
  obtain ⟨raw, hr, h⟩ := bind_ok.mp h
  obtain ⟨phases, hp, h⟩ := bind_ok.mp h
  obtain ⟨-, h⟩ := guard_ok.mp h
  obtain ⟨readBytes, -, h⟩ := bind_ok.mp h
  obtain ⟨-, h⟩ := guard_ok.mp h
  cases h
  obtain ⟨hf, hl⟩ := checkPhases_ok hp
  refine ⟨hf, fun hn => ?_, rfl⟩
  have hr' : raw = [] := length_eq_zero_iff.mp (hl.symm.trans (congrArg length hn))
  rw [hr'] at hr
  unfold nonEmptyArray at hr
  split at hr
  · cases hr
  · cases hr

theorem validateDataManifest_ok {m : Manifest F}
    (h : validateDataManifest value = .ok m) (hp : m.readPlan = some plan) :
    m.totalBytes = (m.entries.map Entry.bytes).sum ∧ Planned m.entries plan := by
  cases value with
  | obj fields =>
    obtain ⟨v2, -, h⟩ := bind_ok.mp h
    obtain ⟨manifest, -, h⟩ := bind_ok.mp h
    obtain ⟨producedBy, -, h⟩ := bind_ok.mp h
    obtain ⟨annotations, -, h⟩ := bind_ok.mp h
    obtain ⟨mount, -, h⟩ := bind_ok.mp h
    obtain ⟨raw, -, h⟩ := bind_ok.mp h
    obtain ⟨-, h⟩ := guard_ok.mp h
    obtain ⟨entries, -, h⟩ := bind_ok.mp h
    obtain ⟨count, -, h⟩ := bind_ok.mp h
    obtain ⟨-, h⟩ := guard_ok.mp h
    obtain ⟨total, -, h⟩ := bind_ok.mp h
    obtain ⟨-, h⟩ := guard_ok.mp h
    obtain ⟨found, hf, h⟩ := bind_ok.mp h
    cases h
    refine ⟨rfl, ?_⟩
    obtain rfl : found = some plan := hp
    unfold checkPlanOf at hf
    split at hf
    · cases hf
    · obtain ⟨-, hf⟩ := guard_ok.mp hf
      obtain ⟨checked, hc, he⟩ := bind_ok.mp hf
      cases he
      exact checkReadPlan_ok hc
  | null => cases h
  | bool b => cases h
  | int n => cases h
  | float x => cases h
  | str s => cases h
  | arr items => cases h

end

section

variable {entries : List Entry}

def readSize (entries : List Entry) (index : Nat) : Int := sizeAt entries index

theorem exists_fields (p : Phase) : ∃ fields : List (Name × Json F), p.toJson = .obj fields :=
    ⟨_, rfl⟩

variable {fields : List (Name × Json F)}

theorem get_name (p : Phase) (h : p.toJson = .obj fields) :
    Json.get? fields "name" = some (.str p.name.1) := by
  cases h
  rfl

theorem get_cumulative (p : Phase) (h : p.toJson = .obj fields) :
    Json.get? fields "cumulative_bytes" = some (.int p.cumulativeBytes) := by
  cases h
  rfl

theorem get_indices (p : Phase) (h : p.toJson = .obj fields) :
    Json.get? fields "entry_indices" = some (.arr (p.entryIndices.map fun i : Nat => .int i)) := by
  cases h
  rfl

theorem phaseIndices_of {count : Nat} {seen refs : List Nat} (hb : ∀ i ∈ refs, i < count)
    (hn : refs.Nodup)
    (hs : ∀ i ∈ refs, i ∉ seen) : phaseIndices count seen (refs.map fun i : Nat =>
      (.int i : Json F)) = some refs := by
  induction refs generalizing seen with
  | nil => rfl
  | cons ref refs ih =>
    obtain ⟨hne, hn⟩ := nodup_cons.mp hn
    have hlt := hb ref (.head _)
    have hin : ¬ ((ref : Int) < 0 ∨ (count : Int) ≤ ref) := by omega
    have hf := hs ref (.head _)
    have hr : ∀ i ∈ refs, i ∉ ref :: seen := by
      intro i hi hm
      rcases mem_cons.mp hm with rfl | hm
      · exact hne hi
      · exact hs i (.tail _ hi) hm
    rw [map_cons, phaseIndices, if_neg hin, Int.toNat_natCast, if_neg hf,
      ih (fun i hi => hb i (.tail _ hi)) hn hr]
    rfl

variable {cumulative : Nat} {names : List Name} {phases : List Phase}

theorem readOrderIndices_of (h : PhasesFrom entries cumulative names phases) :
    readOrderIndices entries.length (phases.map (Phase.toJson (F := F))) =
    some (phases.flatMap Phase.entryIndices) := by
  induction phases generalizing cumulative names with
  | nil => rfl
  | cons p phases ih =>
    obtain ⟨-, hb, hn, -, -, hr⟩ := h
    obtain ⟨fields, hp⟩ := exists_fields p
    rw [map_cons, hp, readOrderIndices, get_indices p hp]
    simp only [phaseIndices_of hb hn (fun _ _ => not_mem_nil), ih hr, Option.bind_some,
      Option.map_some, flatMap_cons]

theorem sum_readSize (refs : List Nat) :
    (refs.map (readSize entries)).sum = ((refs.map (sizeAt entries)).sum : Nat) := by
  induction refs with
  | nil => rfl
  | cons ref refs ih =>
    rw [map_cons, sum_cons, ih, map_cons, sum_cons, readSize, Int.natCast_add]

variable {p : Phase} {boundaries : List Int} {total : Int}

theorem sum_phase (hb : p.bytes = (p.entryIndices.map (sizeAt entries)).sum) :
    (p.entryIndices.map (readSize entries)).sum = (p.bytes : Int) := by
  rw [hb, sum_readSize]

theorem cumulativeEnd_cons (p : Phase) (phases : List Phase) :
    cumulativeEnd (p :: phases) = p.bytes + cumulativeEnd phases := by
  simp [cumulativeEnd]

variable (h : PhasesFrom entries cumulative names phases)

include h

theorem sum_refs : ((phases.flatMap Phase.entryIndices).map (readSize entries)).sum =
    cumulativeEnd phases := by
  induction phases generalizing cumulative names with
  | nil => rfl
  | cons p phases ih =>
    obtain ⟨-, -, -, hb, -, hr⟩ := h
    rw [flatMap_cons, map_append, sum_append, ih hr, sum_phase hb, cumulativeEnd_cons,
      Int.natCast_add]

theorem cumulative_ge : ∀ p ∈ phases, cumulative ≤ p.cumulativeBytes := by
  induction phases generalizing cumulative names with
  | nil => nofun
  | cons q phases ih =>
    obtain ⟨-, -, -, -, hs, hr⟩ := h
    intro p hp
    rcases mem_cons.mp hp with rfl | hp
    · omega
    · have := ih hr p hp
      omega

theorem cumulative_mem (hp : p ∈ phases) (hlt : cumulative < p.cumulativeBytes) :
    (p.cumulativeBytes : Int) ∈ runningSums cumulative
    ((phases.flatMap Phase.entryIndices).map (readSize entries)) := by
  induction phases generalizing cumulative names with
  | nil => cases hp
  | cons q phases ih =>
    obtain ⟨-, -, -, hb, hs, hr⟩ := h
    have hq := sum_phase hb
    rw [flatMap_cons, map_append, runningSums_append, hq, mem_append]
    have he : (cumulative : Int) + q.bytes = q.cumulativeBytes := by omega
    rw [he]
    by_cases hl : q.cumulativeBytes < p.cumulativeBytes
    · rcases mem_cons.mp hp with rfl | hp
      · omega
      · exact .inr (ih hr hp hl)
    · -- the phase ends with the first one: it is that one, or the phases from there on to it are
      -- empty
      have heq : p.cumulativeBytes = q.cumulativeBytes := by
        rcases mem_cons.mp hp with rfl | hp
        · rfl
        · have := cumulative_ge hr p hp
          omega
      have hne : q.entryIndices.map (readSize entries) ≠ [] := by
        intro hn
        rw [hn, sum_nil] at hq
        omega
      rw [heq, ← he, ← hq]
      exact .inl (sum_mem_runningSums _ hne)

omit h

theorem name_ne_nil (p : Phase) : p.name.1 ≠ [] := by
  intro hn
  have h := p.name.2
  rw [hn] at h
  cases h

theorem checkedPhaseBoundaries_of (h : PhasesFrom entries cumulative names phases)
    (hto : (cumulative : Int) + cumulativeEnd phases = total)
    (hm : ∀ p ∈ phases, (p.cumulativeBytes : Int) ∈ boundaries) :
    checkedPhaseBoundaries total boundaries cumulative names (phases.map (Phase.toJson (F := F))) =
      some (phases.map fun p => (p.name.1, (p.cumulativeBytes : Int))) := by
  induction phases generalizing cumulative names with
  | nil =>
    have heq : (cumulative : Int) = total := by
      simpa [cumulativeEnd] using hto
    simp [checkedPhaseBoundaries, heq]
  | cons p phases ih =>
    obtain ⟨hna, -, -, -, hsu, hr⟩ := h
    have ht : ((p.cumulativeBytes : Nat) : Int) + cumulativeEnd phases = total := by
      rw [cumulativeEnd_cons] at hto
      omega
    have hn := not_or.mpr ⟨name_ne_nil p, hna⟩
    have hin := hm p (.head _)
    have hs : ¬ ((p.cumulativeBytes : Int) < cumulative ∨ total < p.cumulativeBytes ∨
        (p.cumulativeBytes : Int) ∉ boundaries) := by
      refine not_or.mpr ⟨by omega, not_or.mpr ⟨by omega, not_not.mpr hin⟩⟩
    obtain ⟨fields, hp⟩ := exists_fields p
    rw [map_cons, hp, checkedPhaseBoundaries, get_name p hp, get_cumulative p hp]
    dsimp only
    rw [if_neg hn, if_neg hs, ih hr ht fun q hq => hm q (.tail _ hq)]
    rfl

theorem checkedPhaseBoundaries_none (hp : (p.cumulativeBytes : Int) ∉ boundaries) :
    checkedPhaseBoundaries total boundaries 0 [] ((p :: phases).map (Phase.toJson (F := F))) =
    none := by
  obtain ⟨fields, hj⟩ := exists_fields p
  rw [map_cons, hj, checkedPhaseBoundaries, get_name p hj, get_cumulative p hj]
  simp [hp]

end

end PrismaBuild.DataManifest
