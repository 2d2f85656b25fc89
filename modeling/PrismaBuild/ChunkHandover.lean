import PrismaBuild.ChunkSound

namespace PrismaBuild.ChunkFunding

open Prog Funding ResourceLedger Ledger List

variable {F : Type} [FloatFormat F] {g : Group} {start : Ledger} {charged : Prop} {leg : Leg}
    {s : ChunkState F}

section

theorem stillExpected_along (expectState : Option FundingState) (current : WindowRecord F) :
    Along step (· = s) (fun _ _ => True) (stillExpected leg expectState current) s := by
  unfold stillExpected
  cases expectState with
  | none => exact ⟨rfl, trivial⟩
  | some state =>
    dsimp only
    split
    · exact rowIsReady_along leg.mover
    · exact ⟨rfl, trivial⟩

theorem rotateRecord_along (hs : Sound g start charged s) (hl : leg ∈ g.legs)
    {expectGeneration : Name}
    {fresh : Option (WindowRecord F)} {expectState : Option FundingState}
    (hfr : ∀ r, fresh = some r → r.path = g.path leg ∧ (recordTokens r).length = leg.stageGib) :
    Along step (Sound g start charged) (fun answer u => u.tier = s.tier ∧
      ∀ generation, answer = .ok (some generation) →
        ∃ r, fresh = some r ∧ u.files (g.path leg) = some r)
        (rotateRecord g leg expectGeneration fresh expectState) s := by
  refine lock_along hs fun acquired => ?_
  cases acquired with
  | false => exact ⟨hs, rfl, nofun⟩
  | true =>
    refine evidence_along hs ⟨hs, rfl, nofun⟩ (fun _ => ⟨hs, rfl, nofun⟩) fun current _ => ?_
    dsimp only
    split
    · exact ⟨hs, rfl, nofun⟩
    · refine .andThen (((stillExpected_along expectState current).unchanged hs).imp ?_)
      rintro still u - ⟨rfl, -⟩
      cases still with
      | error e => exact ⟨rfl, nofun⟩
      | ok still =>
        cases still with
        | false => exact ⟨hs, rfl, nofun⟩
        | true =>
          cases fresh with
          | none => exact ⟨hs, rfl, nofun⟩
          | some r =>
            obtain ⟨hp, hsi⟩ := hfr r rfl
            have hf := hs.file hl hp fun _ => hsi
            refine .perform hs fun e => ?_
            obtain he | ⟨reported, he⟩ := step_write r (some expectGeneration) true e u
            · rw [he]
              exact ⟨hs, rfl, nofun⟩
            · rw [he]
              cases reported with
              | false => exact ⟨hf, rfl, nofun⟩
              | true => exact ⟨hf, rfl, fun _ _ => ⟨r, rfl, hp ▸ file_self u r⟩⟩

end

section

structure Bound (g : Group) (charged : Prop) (leg : Leg) (b : Binding) (s : ChunkState F) :
    Prop where
  filed : ∃ r, s.files (g.path leg) = some r ∧ republished g leg r = true ∧ ∀ n ∈ recordTokens r,
    n ∈ b.bound
  prior : ∀ n ∈ b.prior, n ∈ tokensIn s.tier (.held leg.mover)
  covered : charged → (tokensIn s.tier (.held leg.mover)).length ≤ b.prior.length

def Proceeds {α : Type} (g : Group) (leg : Leg) (P : α → ChunkState F → Prop) :
    Except Ending α → ChunkState F → Prop
  | .ok value, s => P value s
  | .error ending, s => Fulfilled g leg ending s

omit [FloatFormat F] in
theorem fulfilled_of_status {h : Handoff} (hp : h.status ≠ .published) (ha : h.status ≠ .already) :
    Fulfilled g leg (.returned h) s := by
  intro h' heq hst
  cases heq
  exact absurd hst (not_or.mpr ⟨hp, ha⟩)

variable {published : F} {expectState : Option FundingState} {α : Type} {tokens : List Name}

theorem rotateTo_along (hs : Sound g start charged s) (hl : leg ∈ g.legs) {expectGeneration : Name}
    {prior bound : List Name} (hno : bound.Nodup)
    (hsi : bound.length = leg.stageGib) (hpr : ∀ n ∈ prior, n ∈ tokensIn s.tier (.held leg.mover))
    (hc : charged → (tokensIn s.tier (.held leg.mover)).length ≤ prior.length) :
    Along step (Sound g start charged) (Proceeds g leg (Bound g charged leg))
      (rotateTo g leg published expectGeneration prior bound expectState) s := by
  refine mint_along hs fun minted => ?_
  have hf : ∀ r, freshBinding g leg published bound minted = some r →
      r.path = g.path leg ∧ (recordTokens r).length = leg.stageGib := by
    intro r hr
    obtain ⟨-, hp, ht⟩ := freshBinding_some hr
    refine ⟨hp, ?_⟩
    rw [ht, length_sortNames hno, hsi]
  refine .andThen (orRaise_along ((rotateRecord_along hs hl hf).imp fun answer u hu ha => ?_))
  obtain ⟨hti, hfi⟩ := ha
  cases answer with
  | error e => exact nofun
  | ok generation =>
    cases generation with
    | none => exact ⟨hu, fulfilled_of_status nofun nofun⟩
    | some generation =>
      obtain ⟨r, hr, hfil⟩ := hfi generation rfl
      obtain ⟨ho, -, ht⟩ := freshBinding_some hr
      refine ⟨hu, ⟨r, hfil, ho, fun n hn => ?_⟩, ?_, ?_⟩
      · rw [ht] at hn
        exact mem_sortNames.mp hn
      · rw [hti]
        exact hpr
      · rw [hti]
        exact hc

theorem groupNames_along {Q : Except Ending α → ChunkState F → Prop} {I : ChunkState F → Prop}
    {k : List Name → ChunkProg F (Except Ending α)} (hs : I s)
    (he : Q (.error (unknownEvidence none 0)) s)
    (hk : Along step I Q (k ((tokensIn s.tier (.held g.holder)).filter (ofKind g.kind))) s) :
    Along step I Q ((groupNames g).andThen k) s := by
  refine .andThen (readHolder_along hs he ?_)
  exact ⟨hs, hk⟩

omit [FloatFormat F] in
theorem disjoint_holder (hs : Sound g start charged s) (hl : leg ∈ g.legs) {n : Name}
    (hm : n ∈ tokensIn s.tier (.held leg.mover)) : n ∉ tokensIn s.tier (.held g.holder) := by
  intro hh
  obtain ⟨hin, ht⟩ := mem_tokensIn.mp hm
  obtain ⟨hin', -⟩ := mem_tokensIn.mp hh
  exact holder_ne hl (hs.kept.unique n ht _ _ nofun nofun hin' hin)

omit [FloatFormat F] in
theorem nodup_bound (hs : Sound g start charged s) (hl : leg ∈ g.legs) {prior : List Name}
    (hno : prior.Nodup)
    (hp : ∀ n ∈ prior, n ∈ tokensIn s.tier (.held leg.mover)) (count : Nat) :
    (prior ++ ((tokensIn s.tier (.held g.holder)).filter (ofKind g.kind)).take count).Nodup := by
  have ht : (((tokensIn s.tier (.held g.holder)).filter (ofKind g.kind)).take count).Nodup :=
    ((tokensIn_nodup _ _).filter _).sublist (take_sublist _ _)
  refine nodup_append.mpr ⟨hno, ht, fun n hn m hm heq => ?_⟩
  have hg := mem_of_mem_filter (mem_of_mem_take hm)
  exact disjoint_holder hs hl (hp n hn) (heq ▸ hg)

theorem rebindRetained_along (hs : Sound g start charged s) (hl : leg ∈ g.legs)
    (hno : tokens.Nodup) {rotateFrom : Name} :
    Along step (Sound g start charged) (Proceeds g leg (Bound g charged leg))
      (rebindRetained g leg published tokens (tokensIn s.tier (.held leg.mover)) rotateFrom
      expectState) s := by
  unfold rebindRetained
  split
  next => exact ⟨hs, fulfilled_of_status nofun nofun⟩
  next hh =>
    have hsu : ∀ n ∈ tokensIn s.tier (.held leg.mover), n ∈ tokens := by simpa using hh
    refine groupNames_along hs (fulfilled_of_status nofun nofun) ?_
    split
    next => exact ⟨hs, fulfilled_of_status nofun nofun⟩
    next hsh =>
      obtain ⟨hp, hg⟩ := not_or.mp hsh
      have hm : ∀ n ∈ tokens.filter (fun n => n ∈ tokensIn s.tier (.held leg.mover)),
          n ∈ tokensIn s.tier (.held leg.mover) := fun n hn => by simpa using (mem_filter.mp hn).2
      have hb := nodup_bound hs hl (hno.filter _) hm
        (leg.stageGib - (tokens.filter fun n => n ∈ tokensIn s.tier (.held leg.mover)).length)
      refine rotateTo_along hs hl (sortNames_nodup _) ?_ hm fun _ => ?_
      · rw [length_sortNames hb, length_append, length_take]
        omega
      · refine (subperm_of_subset (tokensIn_nodup _ _) fun n hn => ?_).length_le
        exact mem_filter.mpr ⟨hsu n hn, decide_eq_true hn⟩

def Covered (g : Group) (leg : Leg) (published : F) (s : ChunkState F) : Prop :=
  ∀ r, s.files (g.path leg) = some r → fundingMatches g leg published r = true →
    r.state = .reserved →
    ∀ n ∈ tokensIn s.tier (.held leg.mover), n ∈ recordTokens r

variable {r : WindowRecord F} (hs : Sound g start charged s)

include hs

theorem bindMatching_along (hl : leg ∈ g.legs)
    (hco : charged → Covered g leg published s) (hf : s.files (g.path leg) = some r)
    (hm : fundingMatches g leg published r = true) :
    Along step (Sound g start charged) (Proceeds g leg (Bound g charged leg))
      (bindMatching g leg published r) s := by
  have ho : republished g leg r = true := by
    simp only [fundingMatches, Bool.and_eq_true] at hm
    exact hm.1
  have hsi := hs.sized leg hl r hf ho
  refine readHolder_along hs (fulfilled_of_status nofun nofun) ?_
  dsimp only
  split
  next ha => exact ⟨hs, fun h _ _ => ⟨r, hf, ha.1, hsi, ha.2⟩⟩
  next =>
    split
    next =>
      refine .andThen (orRaise_along (((rowIsReady_along leg.mover).unchanged hs).imp ?_))
      rintro ready u - ⟨rfl, -⟩
      cases ready with
      | error e => exact nofun
      | ok ready =>
        cases ready with
        | false => exact ⟨hs, fulfilled_of_status nofun nofun⟩
        | true => exact rebindRetained_along hs hl (recordTokens_nodup r)
    next => exact ⟨hs, fulfilled_of_status nofun nofun⟩
    next => exact ⟨hs, fulfilled_of_status nofun nofun⟩
    next hr =>
      refine ⟨hs, ⟨r, hf, ho, fun n hn => hn⟩, fun n hn => ?_, fun hc => ?_⟩
      · simpa using (mem_filter.mp hn).2
      · refine (subperm_of_subset (tokensIn_nodup _ _) fun n hn => ?_).length_le
        exact mem_filter.mpr ⟨hco hc r hf hm hr n hn, decide_eq_true hn⟩

theorem bindOther_along (hl : leg ∈ g.legs) :
    Along step (Sound g start charged) (Proceeds g leg (Bound g charged leg))
    (bindOther g leg published r) s := by
  unfold bindOther
  split
  · exact ⟨hs, fulfilled_of_status nofun nofun⟩
  · refine readHolder_along hs (fulfilled_of_status nofun nofun) ?_
    split
    · exact rebindRetained_along hs hl (recordTokens_nodup r)
    · split
      next => exact ⟨hs, fulfilled_of_status nofun nofun⟩
      next he =>
        have hno : tokensIn s.tier (.held leg.mover) = [] := by simpa using he
        refine groupNames_along hs (fulfilled_of_status nofun nofun) ?_
        split
        next => exact ⟨hs, fulfilled_of_status nofun nofun⟩
        next hsh =>
          have hn := nodup_bound hs hl nodup_nil nofun leg.stageGib
          refine rotateTo_along hs hl hn ?_ nofun fun _ => ?_
          · rw [length_take]
            omega
          · rw [hno]

theorem birthRecord_along (hl : leg ∈ g.legs)
    (hn : tokens.Nodup) (hsi : tokens.length = leg.stageGib) : Along step (Sound g start charged)
      (fun answer u => u.tier = s.tier ∧ ∀ generation, answer = some generation →
        ∃ r, u.files (g.path leg) = some r ∧ republished g leg r = true ∧
        recordTokens r = sortNames tokens)
      (birthRecord g leg published tokens) s := by
  refine mint_along hs fun minted => ?_
  cases hfr : freshBinding g leg published tokens minted with
  | none => exact ⟨hs, rfl, nofun⟩
  | some r =>
    obtain ⟨ho, hp, ht⟩ := freshBinding_some hfr
    have hf : Sound g start charged (s.file r) := by
      refine hs.file hl hp fun _ => ?_
      rw [ht, length_sortNames hn, hsi]
    refine .perform hs fun e => ?_
    obtain he | ⟨reported, he⟩ := step_write r none false e s
    · rw [he]
      exact ⟨hs, rfl, nofun⟩
    · rw [he]
      cases reported with
      | false => exact ⟨hf, rfl, nofun⟩
      | true =>
        refine evidence_along hf ⟨hf, rfl, nofun⟩ (fun _ => ⟨hf, rfl, nofun⟩) fun filed _ => ?_
        exact ⟨hf, rfl, fun _ _ => ⟨r, hp ▸ file_self s r, ho, ht⟩⟩

theorem bindAbsent_along (hl : leg ∈ g.legs) :
    Along step (Sound g start charged) (Proceeds g leg (Bound g charged leg))
    (bindAbsent g leg published) s := by
  refine readHolder_along hs (fulfilled_of_status nofun nofun) ?_
  split
  next => exact ⟨hs, fulfilled_of_status nofun nofun⟩
  next he =>
    have hnon : tokensIn s.tier (.held leg.mover) = [] := by simpa using he
    refine groupNames_along hs (fulfilled_of_status nofun nofun) ?_
    split
    next => exact ⟨hs, fulfilled_of_status nofun nofun⟩
    next hsh =>
      have hno := nodup_bound hs hl nodup_nil nofun leg.stageGib
      have hsi : (((tokensIn s.tier (.held g.holder)).filter (ofKind g.kind)).take
        leg.stageGib).length = leg.stageGib := by
        rw [length_take]
        omega
      refine .bind ((birthRecord_along hs hl hno hsi).imp fun answer u hu ha => ?_)
      obtain ⟨hti, hb⟩ := ha
      cases answer with
      | none => exact ⟨hu, fulfilled_of_status nofun nofun⟩
      | some generation =>
        obtain ⟨r, hf, ho, ht⟩ := hb generation rfl
        have hun : Proceeds g leg (Bound g charged leg) (.error (unknownEvidence none 0)) u :=
          fulfilled_of_status nofun nofun
        refine evidence_along hu ⟨hu, hun⟩ (fun _ => ⟨hu, hun⟩) fun reread _ => ?_
        dsimp only
        split
        · refine ⟨hu, ⟨r, hf, ho, fun n hn => ?_⟩, nofun, fun _ => ?_⟩
          · rw [ht] at hn
            exact mem_sortNames.mp hn
          · rw [hti, hnon]
        · exact ⟨hu, hun⟩

theorem bindRecord_along (hl : leg ∈ g.legs)
    (hc : charged → Covered g leg published s) {Q : α → ChunkState F → Prop}
    {k : Except Ending Binding → ChunkProg F α}
    (hk : ∀ r u, Sound g start charged u → Proceeds g leg (Bound g charged leg) r u →
      Along step (Sound g start charged) Q (k r) u) :
    Along step (Sound g start charged) Q (do
      let filed ← evidence (g.path leg)
      let r ← bindRecord g leg published filed
      k r) s := by
  have hgo : ∀ {p : ChunkProg F (Except Ending Binding)},
      Along step (Sound g start charged) (Proceeds g leg (Bound g charged leg)) p s →
      Along step (Sound g start charged) Q (p >>= k) s := fun h => .bind (h.imp hk)
  refine evidence_along hs (hgo ⟨hs, fulfilled_of_status nofun nofun⟩) (fun _ =>
    hgo (bindAbsent_along hs hl)) ?_
  intro r hf
  refine hgo ?_
  show Along step _ _ (if fundingMatches g leg published r = true then _ else _) s
  split
  next hm => exact bindMatching_along hs hl hc hf hm
  next => exact bindOther_along hs hl

end

end PrismaBuild.ChunkFunding
