import PrismaBuild.ChunkHandover

namespace PrismaBuild.ChunkFunding

open Prog Funding ResourceLedger Ledger List

variable {F : Type} [FloatFormat F] {g : Group} {start : Ledger} {charged : Prop} {leg : Leg}
    {s : ChunkState F}

section

theorem owns_ne_minted (p : Place) (h : g.Owns p) : p ≠ .minted := by
  rcases h with rfl | ⟨leg, -, rfl⟩ <;> exact nofun

structure Handing (g : Group) (start : Ledger) (leg : Leg) (before after : Ledger) : Prop where
  kept : Kept g.Owns start after
  arrived : ∀ n, (.held leg.mover, n) ∈ before.files → (.held leg.mover, n) ∈ after.files
  elsewhere : ∀ p, p ≠ .held g.holder → p ≠ .held leg.mover → ∀ n, (p, n) ∈ after.files ↔
    (p, n) ∈ before.files

theorem transferCount_handing {before : Ledger} (hk : Kept g.Owns start before) (hl : leg ∈ g.legs)
    (count : Int) :
    Along Ledger.step (Handing g start leg before) (fun _ _ => True)
      (transferCount g.holder leg.mover count) before := by
  have hs : ∀ o f t, Hands (.held g.holder) (.held leg.mover) o → Handing g start leg before t →
      Handing g start leg before (Ledger.step o f t).2 := by
    intro o f t ho ht
    have hw : Within g.Owns o := ho.within (.inl rfl) (.inr ⟨leg, hl, rfl⟩)
    refine ⟨ht.kept.step owns_ne_minted hw f, fun n hn => ?_, fun p hh hm n => ?_⟩
    · exact ho.arrived (holder_ne hl) f (ht.arrived n hn)
    · exact (ho.elsewhere f hh hm n).trans (ht.elsewhere p hh hm n)
  exact (transferCount_hands _ _ count).along hs ⟨hk, fun _ hn => hn, fun _ _ _ _ => Iff.rfl⟩

omit [FloatFormat F] in
theorem Handing.sound (hs : Sound g start charged s) (hl : leg ∈ g.legs) {t : ChunkState F}
    (hf : t.files = s.files)
    (h : Handing g start leg s.tier t.tier)
      (hcha : charged → (tokensIn t.tier (.held leg.mover)).length ≤ leg.stageGib) :
    Sound g start charged t := by
  refine ⟨h.kept, ?_, fun hch leg' hl' => ?_⟩
  · rw [hf]
    exact hs.sized
  · by_cases heq : leg' = leg
    · rw [heq]
      exact hcha hch
    · have hm : Place.held leg'.mover ≠ .held leg.mover := by
        intro hc
        exact mover_ne hl' hl heq (Place.held.inj hc)
      rw [tokensIn_congr (h.elsewhere _ (Ne.symm (holder_ne hl')) hm)]
      exact hs.charge hch leg' hl'

theorem transferCount_along (hs : Sound g start charged s) (hl : leg ∈ g.legs) {count : Int}
    (hco : charged → (tokensIn s.tier (.held leg.mover)).length + count.toNat ≤ leg.stageGib) :
    Along step (Sound g start charged)
      (fun _ u => u.files = s.files ∧ ∀ n, (.held leg.mover, n) ∈ s.tier.files →
      (.held leg.mover, n) ∈ u.tier.files)
      (onTier (transferCount g.holder leg.mover count)) s := by
  have hh := transferCount_handing hs.kept hl count
  by_cases hch : charged
  · have hb := onTier_along (hh.and (transferCount_bounded (hco hch)))
    refine (hb.imp ?_).weaken ?_
    · intro _ u hu _
      exact ⟨hu.2, hu.1.1.arrived⟩
    · intro u hu
      exact hu.1.1.sound hs hl hu.2 fun _ => hu.1.2
  · refine ((onTier_along hh).imp ?_).weaken ?_
    · intro _ u hu _
      exact ⟨hu.2, hu.1.arrived⟩
    · intro u hu
      exact hu.1.sound hs hl hu.2 fun hc => absurd hc hch

theorem handOver_along (hs : Sound g start charged s) (hl : leg ∈ g.legs) {b : Binding}
    (hb : Bound g charged leg b s) :
    Along step (Sound g start charged) (Proceeds g leg fun handed u => u.files = s.files ∧
      handed.1.Nodup ∧
        ∀ n ∈ handed.1, n ∈ tokensIn u.tier (.held leg.mover)) (handOver g leg b) s := by
  unfold handOver
  dsimp only
  split
  next hne =>
    refine readHolder_along hs (fulfilled_of_status nofun nofun) ?_
    have hco : charged → (tokensIn s.tier (.held leg.mover)).length +
        ((leg.stageGib : Int) - b.prior.length).toNat ≤ leg.stageGib := by
      intro hc
      have := hb.covered hc
      omega
    refine .andThen (.bind ((transferCount_along hs hl hco).imp fun moved u hu hm => ?_))
    obtain ⟨hf, ha⟩ := hm
    cases moved with
    | error e => exact ⟨hu, fulfilled_of_status nofun nofun⟩
    | ok moved =>
      refine ⟨hu, ?_⟩
      dsimp only
      split
      · exact ⟨hu, fulfilled_of_status nofun nofun⟩
      · refine readHolder_along hu (fulfilled_of_status nofun nofun) ?_
        refine ⟨hu, hf, sortNames_nodup _, fun n hn => ?_⟩
        have hme := mem_of_mem_filter (mem_sortNames.mp hn)
        rcases mem_append.mp hme with hp | haf
        · obtain ⟨hin, ht⟩ := mem_tokensIn.mp (hb.prior n hp)
          exact mem_tokensIn.mpr ⟨ha n hin, ht⟩
        · exact mem_of_mem_filter haf
  next =>
    refine readHolder_along hs (fulfilled_of_status nofun nofun) ?_
    refine ⟨hs, rfl, sortNames_nodup _, fun n hn => ?_⟩
    exact mem_of_mem_filter (mem_sortNames.mp hn)

end

section

variable {moved : Int} {r : WindowRecord F}

theorem advanceRecord_along (hs : Sound g start charged s) (hl : leg ∈ g.legs)
    (hfi : s.files (g.path leg) = some r) (ho : republished g leg r = true)
    (hh : ∀ n ∈ recordTokens r, n ∈ tokensIn s.tier (.held leg.mover)) {generation : Name} :
    Along step (Sound g start charged) (Fulfilled g leg) (advanceRecord g leg generation moved)
      s := by
  have hsi := hs.sized leg hl r hfi ho
  refine .perform hs fun e => ?_
  obtain he | ⟨current, reported, hc, he⟩ := step_advance (g.path leg) generation e s
  · rw [he]
    exact ⟨hs, fulfilled_of_status nofun nofun⟩
  · rw [he]
    obtain rfl : r = current := Option.some.inj (hfi.symm.trans hc)
    have hp := path_of_republished ho
    have hf : Sound g start charged (s.file
      { r with state := .transferring, unix := some e.now }) :=
      hs.file hl hp fun _ => hsi
    cases reported with
    | false => exact ⟨hf, fulfilled_of_status nofun nofun⟩
    | true =>
      have hf' := file_self s { r with state := .transferring, unix := some e.now }
      rw [show WindowRecord.path { r with state := .transferring, unix := some e.now } = g.path leg
        from hp] at hf'
      exact ⟨hf, fun h _ _ => ⟨_, hf', .inl rfl, hsi, hh⟩⟩

theorem closeRecord_along (hs : Sound g start charged s) (hle : leg ∈ g.legs) {published : F}
    {b : Binding} (hfil : s.files (g.path leg) = some r) (ho : republished g leg r = true)
    (hb : ∀ n ∈ recordTokens r, n ∈ b.bound) {freshNames : List Name} (hno : freshNames.Nodup)
    (hh : ∀ n ∈ freshNames, n ∈ tokensIn s.tier (.held leg.mover)) :
    Along step (Sound g start charged) (Fulfilled g leg)
      (closeRecord g leg published b freshNames moved) s := by
  unfold closeRecord
  split
  next hsu => exact advanceRecord_along hs hle hfil ho fun n hn => hh n (hsu n (hb n hn))
  next =>
    split
    next => exact ⟨hs, fulfilled_of_status nofun nofun⟩
    next hl =>
      refine mint_along hs fun minted => ?_
      have hsi := not_not.mp hl
      have hf : ∀ r, freshBinding g leg published freshNames minted = some r →
          r.path = g.path leg ∧ (recordTokens r).length = leg.stageGib := by
        intro r hr
        obtain ⟨-, hp, ht⟩ := freshBinding_some hr
        refine ⟨hp, ?_⟩
        rw [ht, length_sortNames hno, hsi]
      refine .bind ((rotateRecord_along hs hle hf).imp fun answer u hu ha => ?_)
      obtain ⟨hti, hfi⟩ := ha
      cases answer with
      | error e => exact ⟨hu, nofun⟩
      | ok generation =>
        cases generation with
        | none => exact ⟨hu, fulfilled_of_status nofun nofun⟩
        | some generation =>
          obtain ⟨r', hr', hf'⟩ := hfi generation rfl
          obtain ⟨ho', -, ht⟩ := freshBinding_some hr'
          refine advanceRecord_along hu hle hf' ho' fun n hn => ?_
          rw [ht] at hn
          rw [hti]
          exact hh n (mem_sortNames.mp hn)

end

section

theorem bindChunk_along (hs : Sound g start charged s) (hl : leg ∈ g.legs) {published : F}
    (hc : charged → Covered g leg published s) :
    Along step (Sound g start charged) (Fulfilled g leg) (bindChunk g leg published) s := by
  refine lock_along hs fun acquired => ?_
  cases acquired with
  | false => exact ⟨hs, fulfilled_of_status nofun nofun⟩
  | true =>
    show Along step _ _ (bindChunkLocked g leg published) s
    unfold bindChunkLocked
    split
    · exact ⟨hs, nofun⟩
    · refine conclude_along (orRaise_along (((rowStands_along leg.mover).unchanged hs).imp ?_))
      rintro stands u - ⟨rfl, -⟩
      cases stands with
      | error e => exact nofun
      | ok stands =>
        cases stands with
        | false => exact ⟨hs, fulfilled_of_status nofun nofun⟩
        | true =>
          refine bindRecord_along hs hl hc fun r u hu hr => ?_
          cases r with
          | error ending => exact ⟨hu, hr⟩
          | ok b =>
            obtain ⟨r, hf, ho, hb⟩ := hr.filed
            refine conclude_along ((handOver_along hu hl hr).imp fun handed v hv hh => ?_)
            cases handed with
            | error ending => exact hh
            | ok handed =>
              obtain ⟨hfi, hn, hhe⟩ := hh
              rw [← hfi] at hf
              exact closeRecord_along hv hl hf ho hb hn hhe

instance (leg : Leg) (published : F) (s : ChunkState F) : Decidable (Covered g leg published s) :=
  match h : s.files (g.path leg) with
  | none => .isTrue fun r hr => nomatch h.symm.trans hr
  | some r =>
    decidable_of_iff (fundingMatches g leg published r = true → r.state = .reserved →
      ∀ n ∈ tokensIn s.tier (.held leg.mover), n ∈ recordTokens r) <| by
        constructor
        · intro hall r' hr'
          cases h.symm.trans hr'
          exact hall
        · intro hall
          exact hall r h

/-- A state from which the legs of a group are funded: each token is in one place, no mover has more
than its leg takes, and a record that binds a leg binds as many tokens as the leg takes. -/
structure Fundable (g : Group) (s : ChunkState F) : Prop where
  unique : s.tier.Unique
  charge : ∀ leg ∈ g.legs, (tokensIn s.tier (.held leg.mover)).length ≤ leg.stageGib
  sized : ∀ leg ∈ g.legs, ∀ r, s.files (g.path leg) = some r → republished g leg r = true →
    (recordTokens r).length = leg.stageGib

theorem run_sound (hs : Sound g start charged s) {attempts : List (Attempt F)}
    (hl : ∀ a ∈ attempts, a.leg ∈ g.legs)
    (hco : charged → Throughout (next g) (fun s a => Covered g a.leg a.published s) s attempts) :
    Sound g start charged (runTrace (next g) s attempts) := by
  induction attempts generalizing s with
  | nil => exact hs
  | cons a attempts ih =>
    have ho := (bindChunk_along hs (hl a (.head _)) fun hc => (hco hc).1).play a.haps
    exact ih ho (fun b hb => hl b (.tail _ hb)) fun hc => (hco hc).2

section

open PrismaBuild.Action

def moverA : Name := List.replicate 64 'a'
def moverB : Name := List.replicate 64 'b'

def legA : Leg := ⟨moverA, 0, 1, 1, by decide, by decide, by decide⟩
def legB : Leg := ⟨moverB, 1, 2, 1, by decide, by decide, by decide⟩

def twoLegs : Group where
  tierId := "prismabuild-stage"
  holder := "group"
  consumer := List.replicate 64 'c'
  planSha256 := List.replicate 64 'd'
  legs := [legA, legB]
  distinct := by decide
  apart := by decide

def unfunded : ChunkState ZeroOne where
  tier := heldBy "group" ["stage_gib-0000", "stage_gib-0001", "stage_gib-0002"]
  files _ := none

def calm (digit : Char) (h : hexText 32 (List.replicate 32 digit) = true) : Hap ZeroOne where
  fault := none
  acquired := true
  present := .ok true
  recordFault := none
  reported := true
  nonce := ⟨List.replicate 32 digit, h⟩
  now := .null

/-- An attempt that is cut off after a number of steps, and draws one nonce. -/
def tried (leg : Leg) (digit : Char) (h : hexText 32 (List.replicate 32 digit) = true)
    (steps : Nat) : Attempt ZeroOne where
  leg := leg
  published := .zero
  finite := rfl
  haps := List.replicate steps (calm digit h)

/-- One leg is cut off before its token moves, and the other is funded with that token. -/
def interrupted : List (Attempt ZeroOne) := [tried legA '1' rfl 7, tried legB '2' rfl 40]

/-- The first leg resumes, is cut off once its token has moved, and resumes again. -/
def resumedTwice : List (Attempt ZeroOne) := [tried legA '3' rfl 10, tried legA '4' rfl 40]

theorem unfunded_fundable : Fundable twoLegs unfunded := by
  refine ⟨unique_heldBy _ _, ?_, nofun⟩
  decide

end

/-- Over any attempts on the legs of a group, cut off anywhere, the group's tokens stay the same,
and an attempt that reports success leaves a record in force that binds as many tokens as the leg
takes, all of them the mover's. No mover is charged more than its leg takes, as long as each attempt
that resumes a reserved record finds it to name all that the mover has. -/
theorem bindChunk_charges {start : ChunkState F} (hstart : Fundable g start)
    {attempts : List (Attempt F)}
    (hlegs : ∀ a ∈ attempts, a.leg ∈ g.legs) :
    let s := runTrace (next g) start attempts
    (Throughout (next g) (fun s a => Covered g a.leg a.published s) start attempts →
      ∀ leg ∈ g.legs, s.tier.tokens (.held leg.mover) g.kind ≤ leg.stageGib) ∧
    (∀ n, isToken n = true → (Lies g.Owns s.tier n ↔ Lies g.Owns start.tier n)) ∧
    ∀ a : Attempt F, a.leg ∈ g.legs → ∀ h, (a.play g s).1 = ret (.returned h) →
      h.status = .published ∨ h.status = .already →
      ∃ r, (next g s a).files (g.path a.leg) = some r ∧
      (r.state = .transferring ∨ r.state = .consumed) ∧
        (recordTokens r).Nodup ∧ (recordTokens r).length = a.leg.stageGib ∧
        ∀ n ∈ recordTokens r, n ∈ tokensIn (next g s a).tier (.held a.leg.mover) := by
  have hk : Kept g.Owns start.tier start.tier := Kept.refl hstart.unique
  have hf : Sound g start.tier False (runTrace (next g) start attempts) :=
    run_sound ⟨hk, hstart.sized, nofun⟩ hlegs nofun
  refine ⟨fun hc leg hl => ?_, hf.kept.tokens, fun a ha h hr hs => ?_⟩
  · have hch : Sound g start.tier True (runTrace (next g) start attempts) :=
      run_sound ⟨hk, hstart.sized, fun _ => hstart.charge⟩ hlegs fun _ => hc
    rw [tokens_eq_filter]
    exact countP_le_length.trans (hch.charge trivial leg hl)
  · have hal : Along step (Sound g start.tier False) (Fulfilled g a.leg)
      (bindChunk g a.leg a.published)
        (runTrace (next g) start attempts) := bindChunk_along hf ha nofun
    have he : a.play g (runTrace (next g) start attempts) =
        (ret (.returned h), next g (runTrace (next g) start attempts) a) := Prod.ext hr rfl
    obtain ⟨r, hfi, hst, hsi, hh⟩ := hal.result he h rfl hs
    exact ⟨r, hfi, hst, recordTokens_nodup r, hsi, hh⟩

section

open PrismaBuild.Action

theorem twoLegs_charged : (∀ leg ∈ twoLegs.legs,
      (runTrace (next twoLegs) unfunded interrupted).tier.tokens (.held leg.mover) twoLegs.kind ≤
      leg.stageGib) ∧
    ∃ r, (next twoLegs (runTrace (next twoLegs) unfunded interrupted) (tried legA '3' rfl 40)).files
        (twoLegs.path legA) = some r ∧ (recordTokens r).length = 1 := by
  have hl : ∀ a ∈ interrupted, a.leg ∈ twoLegs.legs := by
    intro a ha
    rcases mem_cons.mp ha with rfl | ha
    · exact .head _
    · rw [mem_singleton.mp ha]
      exact .tail _ (.head _)
  have hc : Throughout (next twoLegs) (fun s a => Covered twoLegs a.leg a.published s) unfunded
    interrupted :=
    ⟨by decide, by decide, trivial⟩
  obtain ⟨hch, -, hp⟩ := bindChunk_charges unfunded_fundable hl
  obtain ⟨r, hf, -, -, hs, -⟩ := hp (tried legA '3' rfl 40) (.head _) _ rfl (.inl rfl)
  exact ⟨hch hc, r, hf, hs⟩

/-- The record names the token that the other leg has, so the second resumption counts nothing as
paid: the mover ends with two tokens for a leg of one. -/
theorem twoLegs_overcharged : Fundable twoLegs unfunded ∧
    (∀ a ∈ interrupted ++ resumedTwice, a.leg = legA ∨ a.leg = legB) ∧
      legA.stageGib = 1 ∧
      (runTrace (next twoLegs) unfunded (interrupted ++ resumedTwice)).tier.tokens
      (.held legA.mover) twoLegs.kind = 2 := by
  refine ⟨unfunded_fundable, ?_, rfl, by decide⟩
  intro a ha
  simp only [interrupted, resumedTwice, cons_append, nil_append, mem_cons, not_mem_nil,
    or_false] at ha
  rcases ha with rfl | rfl | rfl | rfl
  · exact .inl rfl
  · exact .inr rfl
  · exact .inl rfl
  · exact .inl rfl

end

end

end PrismaBuild.ChunkFunding
