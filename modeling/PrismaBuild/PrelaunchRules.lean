import PrismaBuild.PrelaunchPass

namespace PrismaBuild.PrelaunchGroup

open Prog ResourceLedger Ledger

variable {g : Group} {w : Machine} {c : Coverage} {e : Entry} {receipts : Receipts} {s : Ledger}

def Coverage.sum (c : Coverage) : Nat := c.m + c.s + c.r

section

variable {found : Census} {demand : Nat}

theorem accounted_of_eq (h : found.h + found.m + found.s + found.r = demand) :
    ∃ state, accounted found demand = (state, true) := by
  unfold accounted
  rw [if_neg (not_not.mpr h)]
  split
  · exact ⟨_, rfl⟩
  · split
    · exact ⟨_, rfl⟩
    · exact ⟨_, rfl⟩

theorem accounted_of_lt (h : found.h + found.m + found.s + found.r < demand) :
    accounted found demand = (.short, false) := by
  unfold accounted
  rw [if_pos (by omega), if_pos h]

theorem accounted_of_gt (h : demand < found.h + found.m + found.s + found.r) :
    accounted found demand = (.overfull, false) := by
  unfold accounted
  rw [if_pos (by omega), if_neg (by omega)]

end

/-- The fixed circumstances of a group: its evidence reads, its coverage is within the demand, and
movers and releases count only once the receipt is filed. -/
structure Steady (g : Group) (c : Coverage) (receipts : Receipts) : Prop where
  readable : c.unreadable = false
  intent : receipts.intent = true
  covered : c.sum ≤ g.demand
  unfiled : receipts.committed = false → c.m = 0 ∧ c.r = 0

def Ready (g : Group) (c : Coverage) (receipts : Receipts) (s : Ledger) : Prop :=
  holding g s + c.sum = g.demand ∧ (receipts.committed = false → Bare g s)

theorem reconcile_along {I : Ledger → Prop} {Q : Outcome × Receipts → Ledger → Prop}
    (hs : Steady g c receipts)
    (hI : I s)
    (h : ∀ found, Reads g c receipts s found → ∀ events,
      Along quiet I Q
        (if receipts.committed then do
          let ended ← reconcileCommitted g w e true found events
          pure (ended, receipts)
        else if found.p > 0 then do
          let ended ← settleHandles w g.holder found found.handles false events
          pure (ended, receipts)
        else if found.h + found.s = g.demand ∨ found.h = g.demand then
          reconcileCovered g e found events
        else if found.h > 0 then reconcilePartial g found events
        else reconcileEmpty g w c e found events) s) :
    Along quiet I Q (reconcile g w c e true receipts) s := by
  have hr := (census_along g c receipts s).weaken fun u hu => hu ▸ hI
  refine .bind (hr.imp ?_)
  rintro found u - ⟨rfl, hf⟩
  have hb := h found hf (if found.unparsed = [] then [] else [.handleUnparsed])
  rw [hf.unknown, hs.readable, hf.receipts, hs.intent]
  exact hb

section

theorem reconcile_ready (hste : Steady g c receipts) (hs : Inv g w s) (hfi : e.filing = .filed)
    (hre : Ready g c receipts s) :
    Along quiet (· = s) (fun r u => u = s ∧ r.1.authority = true ∧
      r.2 = { receipts with committed := true })
      (reconcile g w c e true receipts) s := by
  refine reconcile_along (I := (· = s)) hste rfl fun found hf events => ?_
  have hsu : found.h + found.m + found.s + found.r = g.demand := by
    rw [hf.held, hf.movers, hf.shared, hf.released]
    have hd := hre.1
    unfold Coverage.sum at hd
    omega
  obtain ⟨state, hst⟩ := accounted_of_eq hsu
  cases hc : receipts.committed with
  | true =>
    have hsa : { receipts with committed := true } = receipts := by rw [← hc]
    rw [if_pos rfl, hsa]
    unfold reconcileCommitted
    rw [hst]
    exact ⟨rfl, rfl, rfl, rfl⟩
  | false =>
    obtain ⟨hm, hr⟩ := hste.unfiled hc
    have hp : found.p = 0 := by
      rw [hf.inFlight]
      exact (pending_eq_zero_iff hs).mpr (hre.2 hc)
    have hco : found.h + found.s = g.demand ∨ found.h = g.demand := by
      rw [hf.movers, hf.released, hm, hr] at hsu
      exact .inl hsu
    rw [if_neg Bool.false_ne_true, if_neg (by omega), if_pos hco]
    unfold reconcileCovered
    rw [if_neg (by rw [hfi]; nofun), hst]
    refine ⟨rfl, rfl, rfl, ?_⟩
    rw [commitReceipt, hfi, hf.receipts]

end

section

theorem reconcile_settles (hst : Steady g c receipts) (hs : Inv g w s) (hfl : ¬ Bare g s)
    (hsh : receipts.committed = true → holding g s + c.sum ≠ g.demand) :
    Ends (fun r u => r.2 = receipts ∧ Bare g u ∧ u.tokens .free g.kind = s.tokens .free g.kind ∧
      Inv g w u)
      (reconcile g w c e true receipts) s := by
  refine reconcile_along hst trivial fun found hf events => ?_
  have hp : 0 < found.p := by
    rw [hf.inFlight]
    exact Nat.pos_of_ne_zero fun hz => hfl ((pending_eq_zero_iff hs).mp hz)
  have hset : Ends (fun o u => Bare g u ∧ u.tokens .free g.kind = s.tokens .free g.kind ∧ Inv g w u)
      (settleHandles w g.holder found found.handles false events) s := by
    rw [hf.handles]
    refine .imp (settleHandles_ends found _ (fun x hx => mem_handlesOf hx) false events s hs) ?_
    rintro o u - ⟨-, hse, hu⟩
    exact ⟨settle_bare hse, hse.free, hu⟩
  have hb : Ends (fun r u => r.2 = receipts ∧ Bare g u ∧
    u.tokens .free g.kind = s.tokens .free g.kind ∧ Inv g w u)
      (settleHandles w g.holder found found.handles false events >>= fun ended =>
      pure (ended, receipts)) s :=
    .bind (.imp hset fun _ _ _ hu => ⟨trivial, rfl, hu⟩)
  cases hc : receipts.committed with
  | true =>
    have hsu : found.h + found.m + found.s + found.r ≠ g.demand := by
      have hne := hsh hc
      rw [hf.held, hf.movers, hf.shared, hf.released]
      unfold Coverage.sum at hne
      omega
    rw [if_pos rfl]
    unfold reconcileCommitted
    rcases Nat.lt_or_gt_of_ne hsu with hlt | hgt
    · rw [accounted_of_lt hlt]
      dsimp only
      rw [if_pos (by simpa using hp)]
      exact hb
    · rw [accounted_of_gt hgt]
      dsimp only
      rw [if_pos (by simpa using hp)]
      exact hb
  | false =>
    rw [if_neg Bool.false_ne_true, if_pos hp]
    exact hb

theorem release_bare (hs : Inv g w s) (hb : Bare g s) :
    Ends (fun r u => r.isOk = true ∧ holding g u = 0 ∧ Bare g u ∧ Inv g w u) (release g.holder)
    s := by
  refine .imp (release_ends hs) ?_
  rintro r u - ⟨hok, hz, hf, hu⟩
  exact ⟨hok, hz, fun h n x hx hn => hb h n x hx (hf h n x hx hn), hu⟩

theorem reconcile_releases (hst : Steady g c receipts) (hs : Inv g w s) (hfi : e.filing = .filed)
    (hb : Bare g s) (hhe : 0 < holding g s) (hne : holding g s + c.sum ≠ g.demand) :
    Ends (fun r u => Steady g c r.2 ∧ Bare g u ∧ holding g u = 0 ∧ Inv g w u)
      (reconcile g w c e true receipts) s := by
  refine reconcile_along hst trivial fun found hf events => ?_
  have hp : found.p = 0 := by
    rw [hf.inFlight]
    exact (pending_eq_zero_iff hs).mpr hb
  have hsu : found.h + found.m + found.s + found.r ≠ g.demand := by
    rw [hf.held, hf.movers, hf.shared, hf.released]
    unfold Coverage.sum at hne
    omega
  have hh : 0 < found.h := hf.held ▸ hhe
  cases hc : receipts.committed with
  | true =>
    rw [if_pos rfl]
    have hre : ∀ state, Ends (fun _ u => Bare g u ∧ holding g u = 0 ∧ Inv g w u)
        (release g.holder >>= fun released => (pure (outcome state
          ((if released.isOk then events else events ++ [.unknownEvidence]) ++
            [if state = .short then .groupShort else .groupOverfull]) false found) : LedgerProg
              Outcome)) s := by
      intro state
      refine .bind (.imp (release_bare hs hb) ?_)
      rintro r u - ⟨-, hz, hb', hu⟩
      exact ⟨trivial, hb', hz, hu⟩
    unfold reconcileCommitted
    rcases Nat.lt_or_gt_of_ne hsu with hlt | hgt
    · rw [accounted_of_lt hlt]
      dsimp only
      rw [if_neg (by simp [hp]), if_neg (by simp; omega), if_neg Bool.false_ne_true]
      exact .bind (.imp (hre .short) fun _ _ _ hu => ⟨trivial, hst, hu⟩)
    · rw [accounted_of_gt hgt]
      dsimp only
      rw [if_neg (by simp [hp]), if_neg (by simp), if_neg Bool.false_ne_true]
      exact .bind (.imp (hre .overfull) fun _ _ _ hu => ⟨trivial, hst, hu⟩)
  | false =>
    obtain ⟨hm, hr⟩ := hst.unfiled hc
    rw [if_neg Bool.false_ne_true, if_neg (by omega)]
    split
    next hco =>
      -- the holder alone makes the demand, and the shared coverage is too much
      have hgt : g.demand < found.h + found.m + found.s + found.r := by
        rw [hf.movers, hf.released, hm, hr] at hsu ⊢
        omega
      unfold reconcileCovered
      rw [if_neg (by rw [hfi]; nofun), accounted_of_gt hgt]
      refine .bind (.imp (release_bare hs hb) ?_)
      rintro r u - ⟨-, hz, hb', hu⟩
      refine ⟨trivial, ⟨hst.readable, ?_, hst.covered, fun _ => ⟨hm, hr⟩⟩, hb', hz, hu⟩
      rw [commitReceipt, hfi, hf.receipts]
      exact hst.intent
    next =>
      refine .bind (.imp (release_bare hs hb) ?_)
      rintro r u - ⟨hok, hz, hb', hu⟩
      cases r with
      | error failure => cases hok
      | ok count =>
        refine ⟨trivial, ⟨hst.readable, ?_, hst.covered, fun _ => ⟨hm, hr⟩⟩, hb', hz, hu⟩
        rw [rollbackReceipt, hf.receipts]
        exact hst.intent

theorem reconcile_begins (hst : Steady g c receipts) (hs : Inv g w s) (hl : e.lockFree = true)
    (hfr : ∀ n, (.held (handleName g w e), n) ∉ s.files) (hba : Bare g s) (hhe : holding g s = 0)
    (hlt : c.sum < g.demand) (hro : g.demand ≤ s.tokens .free g.kind) :
    Ends (fun r u => r.2 = receipts ∧ ¬ Bare g u ∧ holding g u = 0 ∧
      u.tokens .free g.kind + (g.demand - c.sum) = s.tokens .free g.kind ∧ Inv g w u)
      (reconcile g w c e true receipts) s := by
  refine reconcile_along hst trivial fun found hf events => ?_
  have hp : found.p = 0 := by
    rw [hf.inFlight]
    exact (pending_eq_zero_iff hs).mpr hba
  have hh : found.h = 0 := hf.held.trans hhe
  have hn : (0 : Int) < (g.demand : Int) - c.sum := by omega
  have hb := begin_ends hs e hfr hn (by omega)
  rw [hhe] at hb
  have ht : beginTake g w e ((g.demand : Int) - c.sum) =
      beginAcquire (handleName g w e) [(g.kind, (g.demand : Int) - c.sum)] plainAdmission := by
    rw [beginTake, if_pos hl]
  unfold Coverage.sum at hlt hn hb ht
  cases hc : receipts.committed with
  | true =>
    have hsu : found.h + found.m + found.s + found.r < g.demand := by
      rw [hh, hf.movers, hf.shared, hf.released]
      omega
    have hd : (g.demand : Int) - (found.h + found.m + found.s + found.r) =
        (g.demand : Int) - (c.m + c.s + c.r : Nat) := by
      rw [hh, hf.movers, hf.shared, hf.released]
      omega
    rw [if_pos rfl]
    unfold reconcileCommitted
    rw [accounted_of_lt hsu]
    dsimp only
    rw [if_neg (by simp [hp]), if_pos (by simp [hh])]
    unfold topUp
    dsimp only
    rw [hd, ht]
    refine .bind (.bind (.imp hb ?_))
    rintro r u - ⟨rfl, hfre, hh', hfl, hu⟩
    refine ⟨trivial, trivial, rfl, hfl, hh', ?_, hu⟩
    unfold Coverage.sum
    omega
  | false =>
    obtain ⟨hm, hr⟩ := hst.unfiled hc
    have hco : ¬ (found.h + found.s = g.demand ∨ found.h = g.demand) := by
      rw [hh, hf.shared]
      omega
    have hmi : incrementalNeedGib found g.demand = (g.demand : Int) - (c.m + c.s + c.r : Nat) := by
      rw [incrementalNeedGib, hh, hp, hf.movers, hf.shared, hm, hr]
      omega
    rw [if_neg Bool.false_ne_true, if_neg (by omega), if_neg hco, if_neg (by omega)]
    unfold reconcileEmpty
    rw [hmi, if_neg (by omega), ht]
    refine .bind (.imp hb ?_)
    rintro r u - ⟨rfl, hfre, hh', hfl, hu⟩
    have ha := ((census_along g c found.receipts u).imp fun _ _ _ h => h.1).weaken fun _ _ =>
      trivial
    refine .bind (.imp ha ?_)
    rintro found' v - rfl
    refine ⟨trivial, hf.receipts, hfl, hh', ?_, hu⟩
    unfold Coverage.sum
    omega

end

end PrismaBuild.PrelaunchGroup
