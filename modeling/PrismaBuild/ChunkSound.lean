import PrismaBuild.ChunkFunding
import PrismaBuild.LedgerBounded

namespace PrismaBuild.ChunkFunding

open Prog Funding ResourceLedger Ledger List

def Group.Owns (g : Group) (p : Place) : Prop :=
    p = .held g.holder ∨ ∃ leg ∈ g.legs, p = .held leg.mover

section

variable {F : Type} [FloatFormat F] {α : Type} {I : ChunkState F → Prop} {s : ChunkState F}

theorem onTier_along {p : LedgerProg α} {J : Ledger → Prop} {Q : α → Ledger → Prop}
    (h : Along Ledger.step J Q p s.tier) :
    Along step (fun u => J u.tier ∧ u.files = s.files) (fun value u => Q value u.tier ∧
      u.files = s.files) (onTier p) s :=
  .embed ChunkState.tier ChunkState.files Hap.fault (fun _ _ _ => ⟨rfl, rfl⟩) h

theorem holderState_along (key : Name) (t : Ledger) :
    Along Ledger.step (· = t) (fun r _ => ∀ names, r = .ok names → names = tokensIn t (.held key))
    (holderState key) t := by
  refine .andThen (.bind (.perform rfl fun f => ?_))
  cases f with
  | some f => exact ⟨rfl, rfl, nofun⟩
  | none =>
    by_cases hd : Place.held key ∈ t.dirs
    · have hs : Ledger.step (.scan (.held key)) none t = (.ok (t.names (.held key)), t) := by
        simp [Ledger.step, hd]
      rw [hs]
      refine ⟨rfl, rfl, rfl, fun names hn => ?_⟩
      cases hn
      rfl
    · have hs : Ledger.step (.scan (.held key)) none t = (.error .noent, t) := by
        simp [Ledger.step, hd]
      rw [hs]
      refine ⟨rfl, rfl, rfl, fun names hn => ?_⟩
      cases hn
      exact (tokensIn_of_not_dir hd).symm

omit [FloatFormat F] in
theorem eq_of_parts {u : ChunkState F} (ht : u.tier = s.tier) (hf : u.files = s.files) : u = s := by
  cases u
  cases ht
  cases hf
  rfl

theorem readHolder_along {β : Type} {Q : Except Ending β → ChunkState F → Prop} {key : Name}
    {ending : Ending}
    {k : List Name → ChunkProg F (Except Ending β)} (hs : I s) (he : Q (.error ending) s)
    (hk : Along step I Q (k (tokensIn s.tier (.held key))) s) :
    Along step I Q ((orEnd (onTier (holderState key)) ending).andThen k) s := by
  have hre := (onTier_along (holderState_along key s.tier)).weaken fun u hu => eq_of_parts hu.1 hu.2
  refine .andThen (.bind ((Along.unchanged hre hs).imp ?_))
  rintro r u hu ⟨rfl, hr, -⟩
  cases r with
  | error e => exact ⟨hu, he⟩
  | ok names =>
    rw [hr names rfl]
    exact ⟨hu, hk⟩

variable {Q : α → ChunkState F → Prop} {mover : Name}

theorem lock_along {k : Bool → ChunkProg F α} (hs : I s)
    (hk : ∀ acquired, Along step I Q (k acquired) s) :
    Along step I Q (perform (ChunkOp.lock (F := F) mover) >>= k) s :=
  .perform hs fun e => hk e.acquired

theorem mint_along {k : Nonce × Json F → ChunkProg F α} (hs : I s)
    (hk : ∀ minted, Along step I Q (k minted) s) :
    Along step I Q (perform (ChunkOp.mint (F := F)) >>= k) s :=
  .perform hs fun e => hk (e.nonce, e.now)

theorem step_evidence (path : Name × Name) (e : Hap F) (s : ChunkState F) :
    step (.evidence path) e s = (.unknown, s) ∨
    s.files path = none ∧ step (.evidence path) e s = (.absent, s) ∨
    ∃ r, s.files path = some r ∧ step (.evidence path) e s = (.record r, s) := by
  simp only [step]
  split
  next => exact .inl rfl
  next hf _ => exact .inr (.inl ⟨hf, rfl⟩)
  next r hf _ => exact .inr (.inr ⟨r, hf, rfl⟩)

theorem evidence_along {path : Name × Name} {k : Evidence F → ChunkProg F α} (hs : I s)
    (hu : Along step I Q (k .unknown) s) (ha : s.files path = none → Along step I Q (k .absent) s)
    (hr : ∀ r, s.files path = some r → Along step I Q (k (.record r)) s) :
      Along step I Q (evidence path >>= k) s := by
  refine .perform hs fun e => ?_
  obtain he | ⟨hf, he⟩ | ⟨r, hf, he⟩ := step_evidence path e s
  · rw [he]
    exact hu
  · rw [he]
    exact ha hf
  · rw [he]
    exact hr r hf

theorem present_along {Q : Except Failure α → ChunkState F → Prop} {slot : Slot}
    {k : Bool → ChunkProg F (Except Failure α)} (hs : I s) (he : ∀ e, Q (.error e) s)
    (hk : ∀ found, Along step I Q (k found) s) :
      Along step I Q ((present slot mover).andThen k) s := by
  refine .andThen ⟨hs, fun e => ?_⟩
  have hst : step (.present slot mover) e s = (e.present, s) := rfl
  rw [hst]
  cases e.present with
  | error failure => exact ⟨hs, he failure⟩
  | ok found => exact ⟨hs, hk found⟩

theorem rowIsReady_along (mover : Name) :
    Along step (· = s) (fun _ _ => True) (rowIsReady (F := F) mover) s := by
  refine present_along rfl (fun _ => trivial) fun ready => ?_
  cases ready with
  | false => exact ⟨rfl, trivial⟩
  | true => exact present_along rfl (fun _ => trivial) fun _ => ⟨rfl, trivial⟩

theorem rowStands_along (mover : Name) :
    Along step (· = s) (fun _ _ => True) (rowStands (F := F) mover) s := by
  refine present_along rfl (fun _ => trivial) fun ready => ?_
  cases ready with
  | false => exact ⟨rfl, fun _ => ⟨rfl, trivial⟩⟩
  | true => exact ⟨rfl, trivial⟩

theorem orRaise_along {p : ChunkProg F (Except Failure α)}
    {Q : Except Ending α → ChunkState F → Prop}
    (h : Along step I (fun r u => match r with
      | .ok value => Q (.ok value) u
      | .error e => Q (.error (.raised e)) u) p s) : Along step I Q (orRaise p) s := by
  refine .bind (h.imp fun r u hu hr => ?_)
  cases r with
  | ok value => exact ⟨hu, hr⟩
  | error e => exact ⟨hu, hr⟩

theorem conclude_along {p : ChunkProg F (Except Ending α)} {k : α → ChunkProg F Ending}
    {Q : Ending → ChunkState F → Prop}
    (h : Along step I (fun r u => match r with
      | .ok value => Along step I Q (k value) u
      | .error e => Q e u) p s) : Along step I Q (conclude p k) s := by
  refine .bind (h.imp fun r u hu hr => ?_)
  cases r with
  | ok value => exact hr
  | error e => exact ⟨hu, hr⟩

end

section

variable {F : Type} {g : Group} {leg : Leg}

theorem tokensOf_names {names : List Name} {tokens : Tokens} (h : tokensOf names = some tokens) :
    tokens.names.map Subtype.val = names := by
  unfold tokensOf at h
  split at h
  next hok =>
    cases h
    simp [map_pmap]
  next => cases h

variable {r : WindowRecord F}

theorem freshBinding_some {published : F} {tokens : List Name} {minted : Nonce × Json F}
    (h : freshBinding g leg published tokens minted = some r) :
    republished g leg r = true ∧ r.path = g.path leg ∧ recordTokens r = sortNames tokens := by
  unfold freshBinding at h
  split at h
  · obtain ⟨names, hn, rfl⟩ := Option.map_eq_some_iff.mp h
    exact ⟨by simp [republished], rfl, tokensOf_names hn⟩
  · cases h

theorem path_of_republished (h : republished g leg r = true) : r.path = g.path leg := by
  simp only [republished, decide_eq_true_eq] at h
  exact Prod.ext h.2.1 h.1

theorem recordTokens_nodup (r : WindowRecord F) : (recordTokens r).Nodup :=
  r.tokens.nodup.map Subtype.val_injective

theorem file_self (s : ChunkState F) (r : WindowRecord F) : (s.file r).files r.path = some r :=
    Function.update_self ..

variable [FloatFormat F]

theorem step_write (checked : WindowRecord F) (expectGeneration : Option Name) (rotate : Bool)
    (e : Hap F) (s : ChunkState F) :
    step (.write checked expectGeneration rotate) e s = (false, s) ∨
      ∃ reported, step (.write checked expectGeneration rotate) e s =
      (reported, s.file checked) := by
  simp only [step]
  split
  next r hr =>
    have heq : checked = r := by
      cases rotate with
      | true => exact (writeLocked_ok hr).1
      | false => exact (writeWindow_ok hr).1
    exact .inr ⟨e.reported, by rw [heq]⟩
  next => exact .inl rfl

theorem step_advance (path : Name × Name) (generation : Name) (e : Hap F) (s : ChunkState F) :
    step (.advance path generation) e s = (false, s) ∨ ∃ current reported,
    s.files path = some current ∧
        step (.advance path generation) e s =
        (reported, s.file { current with state := .transferring, unix := some e.now }) := by
  simp only [step]
  split
  next r hr =>
    obtain ⟨current, hc, rfl, -⟩ := advanceWindow_filed hr
    exact .inr ⟨current, e.reported, hc, rfl⟩
  next h =>
    exact absurd h (advanceWindow_ne_unchanged (by decide))
  next => exact .inl rfl
  next => exact .inl rfl

end

section

variable {F : Type} (g : Group) (start : Ledger) (charged : Prop)

/-- What every handoff keeps: the group's tokens are those it started with, each in one place, and a
record of a leg binds as many as the leg takes; where the charge is at issue, no mover has more than
its leg takes. -/
structure Sound (s : ChunkState F) : Prop where
  kept : Kept g.Owns start s.tier
  sized : ∀ leg ∈ g.legs, ∀ r, s.files (g.path leg) = some r → republished g leg r = true →
    (recordTokens r).length = leg.stageGib
  charge : charged → ∀ leg ∈ g.legs, (tokensIn s.tier (.held leg.mover)).length ≤ leg.stageGib

def Fulfilled (leg : Leg) (ending : Ending) (s : ChunkState F) : Prop :=
  ∀ h, ending = .returned h → h.status = .published ∨ h.status = .already →
    ∃ r, s.files (g.path leg) = some r ∧ (r.state = .transferring ∨ r.state = .consumed) ∧
      (recordTokens r).length = leg.stageGib ∧ ∀ n ∈ recordTokens r,
      n ∈ tokensIn s.tier (.held leg.mover)

variable {g start charged} {leg : Leg} {s : ChunkState F}

theorem mover_ne {leg' : Leg} (hl : leg ∈ g.legs) (hl' : leg' ∈ g.legs) (hne : leg ≠ leg') :
    leg.mover ≠ leg'.mover := by
  intro heq
  exact hne (inj_on_of_nodup_map g.distinct hl hl' heq)

theorem holder_ne (hl : leg ∈ g.legs) : Place.held g.holder ≠ .held leg.mover := by
  intro heq
  have hm : leg.mover ∈ g.legs.map Leg.mover := mem_map_of_mem hl
  exact g.apart ((Place.held.inj heq) ▸ hm)

theorem Sound.file (h : Sound g start charged s) (hl : leg ∈ g.legs) {r : WindowRecord F}
    (hp : r.path = g.path leg) (hs : republished g leg r = true →
    (recordTokens r).length = leg.stageGib) :
    Sound g start charged (s.file r) := by
  refine ⟨h.kept, fun leg' hl' r' hr' ho => ?_, h.charge⟩
  by_cases heq : leg' = leg
  · subst heq
    rw [← hp, file_self] at hr'
    cases hr'
    exact hs ho
  · have hne : g.path leg' ≠ r.path := by
      rw [hp]
      intro hc
      exact mover_ne hl' hl heq (Prod.mk.inj hc).1
    rw [show (s.file r).files (g.path leg') = _ from Function.update_of_ne hne ..] at hr'
    exact h.sized leg' hl' r' hr' ho

end

end PrismaBuild.ChunkFunding
