import PrismaBuild.PrelaunchTokens

namespace PrismaBuild.PrelaunchGroup

open Prog ResourceLedger Ledger List

variable {g : Group} {w : Machine} {c : Coverage} {e : Entry}

section

structure GroupState where
  tier : Ledger
  receipts : Receipts

def pass (g : Group) (w : Machine) (c : Coverage) (e : Entry) (st : GroupState) :
    Outcome × GroupState :=
  let ended := exec quiet () (reconcile g w c e true st.receipts) st.tier
  (ended.1.1, ⟨ended.2, ended.1.2⟩)

def after (g : Group) (w : Machine) (c : Coverage) (entries : Nat → Entry) (st : GroupState) :
    Nat → GroupState
  | 0 => st
  | i + 1 => (pass g w c (entries i) (after g w c entries st i)).2

def HoldsNothing (g : Group) (s : Ledger) : Prop := holding g s = 0 ∧ pending g s = 0

structure Setting (g : Group) (w : Machine) (c : Coverage) (entries : Nat → Entry)
    (st : GroupState) : Prop where
  steady : Steady g c st.receipts
  unique : st.tier.Unique
  numbered : ∀ n, Lies g.Owns st.tier n → Numbered n
  owned : ∀ x ∈ handlesOf g st.tier, (w.isMe x || w.isDead x) = true
  filed : ∀ i, (entries i).filing = .filed
  lockFree : ∀ i, (entries i).lockFree = true
  fresh : ∀ i n, (.held (handleName g w (entries i)), n) ∉ (after g w c entries st i).tier.files
  room : ∀ i, HoldsNothing g (after g w c entries st i).tier →
    g.demand ≤ (after g w c entries st i).tier.tokens .free g.kind

end

section

variable {entries : Nat → Entry} {st : GroupState}

theorem Setting.inv (h : Setting g w c entries st) : Inv g w st.tier := by
  refine ⟨h.unique, h.numbered, fun k n x hx hn => ?_⟩
  obtain ⟨y, hy, rfl, -⟩ := exists_handle hx (st.tier.rooted _ hn)
  have heq := Option.some.inj ((mem_handlesOf hy).symm.trans hx)
  subst heq
  have ho := h.owned y hy
  simp only [Machine.isMe, Machine.isDead, Bool.or_eq_true, Bool.and_eq_true, beq_iff_eq,
    Bool.not_eq_true'] at ho
  rcases ho with ⟨hh, hp⟩ | ⟨hh, hd⟩
  · exact ⟨hh, .inl hp⟩
  · exact ⟨hh, .inr hd⟩

structure Good (g : Group) (w : Machine) (c : Coverage) (st : GroupState) : Prop where
  steady : Steady g c st.receipts
  inv : Inv g w st.tier

variable (hgood : Good g w c st)

include hgood

theorem pass_kept : Kept g.Owns st.tier (pass g w c e st).2.tier :=
  (reconcile_kept hgood.steady hgood.inv.unique).exec ()

theorem pass_ready (hf : e.filing = .filed) (hre : Ready g c st.receipts st.tier) :
    (pass g w c e st).1.authority = true ∧ (pass g w c e st).2.tier = st.tier ∧
      (pass g w c e st).2.receipts = { st.receipts with committed := true } := by
  obtain ⟨ht, ha, hr⟩ := (reconcile_ready hgood.steady hgood.inv hf hre).exec ()
  exact ⟨ha, ht, hr⟩

theorem ready_stays (hf : e.filing = .filed) (hre : Ready g c st.receipts st.tier) :
    Good g w c (pass g w c e st).2 ∧ Ready g c (pass g w c e st).2.receipts
    (pass g w c e st).2.tier := by
  obtain ⟨-, ht, hr⟩ := pass_ready hgood hf hre
  refine ⟨⟨?_, by rw [ht]; exact hgood.inv⟩, ?_⟩
  · rw [hr]
    exact ⟨hgood.steady.readable, hgood.steady.intent, hgood.steady.covered, nofun⟩
  · rw [ht, hr]
    exact ⟨hre.1, nofun⟩

theorem pass_settles (hfl : ¬ Bare g st.tier) (hre : ¬ Ready g c st.receipts st.tier) :
    Good g w c (pass g w c e st).2 ∧ Bare g (pass g w c e st).2.tier ∧
      (pass g w c e st).2.tier.tokens .free g.kind = st.tier.tokens .free g.kind := by
  have hsh : st.receipts.committed = true → holding g st.tier + c.sum ≠ g.demand := by
    intro hc hsu
    exact hre ⟨hsu, fun hn => absurd (hc.symm.trans hn) nofun⟩
  obtain ⟨hr, hb, hf, hi⟩ := (reconcile_settles hgood.steady hgood.inv hfl hsh).exec ()
  have hs : Steady g c (pass g w c e st).2.receipts := by
    have heq : (pass g w c e st).2.receipts = st.receipts := hr
    rw [heq]
    exact hgood.steady
  exact ⟨⟨hs, hi⟩, hb, hf⟩

theorem pass_releases (hf : e.filing = .filed) (hb : Bare g st.tier)
    (hh : 0 < holding g st.tier) (hr : ¬ Ready g c st.receipts st.tier) :
    Good g w c (pass g w c e st).2 ∧ Bare g (pass g w c e st).2.tier ∧
      holding g (pass g w c e st).2.tier = 0 := by
  have hne : holding g st.tier + c.sum ≠ g.demand := fun hsu => hr ⟨hsu, fun _ => hb⟩
  obtain ⟨hs, hb', hz, hi⟩ := (reconcile_releases hgood.steady hgood.inv hf hb hh hne).exec ()
  exact ⟨⟨hs, hi⟩, hb', hz⟩


theorem pass_begins (hl : e.lockFree = true)
    (hfre : ∀ n, (.held (handleName g w e), n) ∉ st.tier.files) (hb : Bare g st.tier)
    (hh : holding g st.tier = 0)
    (hre : ¬ Ready g c st.receipts st.tier) (hro : g.demand ≤ st.tier.tokens .free g.kind) :
    Good g w c (pass g w c e st).2 ∧ ¬ Bare g (pass g w c e st).2.tier ∧
      holding g (pass g w c e st).2.tier = 0 ∧
      (pass g w c e st).2.tier.tokens .free g.kind + (g.demand - c.sum) = st.tier.tokens .free
      g.kind ∧ c.sum < g.demand := by
  have hlt : c.sum < g.demand := by
    have hle := hgood.steady.covered
    have hne : holding g st.tier + c.sum ≠ g.demand := fun hsu => hre ⟨hsu, fun _ => hb⟩
    omega
  obtain ⟨hr, hf, hz, hfr, hi⟩ :=
    (reconcile_begins hgood.steady hgood.inv hl hfre hb hh hlt hro).exec ()
  have hs : Steady g c (pass g w c e st).2.receipts := by
    have heq : (pass g w c e st).2.receipts = st.receipts := hr
    rw [heq]
    exact hgood.steady
  exact ⟨⟨hs, hi⟩, hf, hz, hfr, hlt⟩

end

section

variable {entries : Nat → Entry} {st : GroupState}

theorem bare_of_pending (hgood : Good g w c st) (hb : Bare g st.tier) (hh : holding g st.tier = 0) :
    HoldsNothing g st.tier :=
  ⟨hh, (pending_eq_zero_iff hgood.inv).mpr hb⟩

def Converged (g : Group) (w : Machine) (c : Coverage) (st : GroupState) : Prop :=
  Good g w c st ∧ Ready g c st.receipts st.tier

variable {i : Nat} (h : Setting g w c entries st)

include h

theorem converges_from_nothing (hgood : Good g w c (after g w c entries st i))
    (hb : Bare g (after g w c entries st i).tier)
    (hh : holding g (after g w c entries st i).tier = 0) :
    ∃ k ≤ 2, Converged g w c (after g w c entries st (i + k)) := by
  by_cases hr : Ready g c (after g w c entries st i).receipts (after g w c entries st i).tier
  · exact ⟨0, by omega, hgood, hr⟩
  have hro := h.room i (bare_of_pending hgood hb hh)
  obtain ⟨hgood₁, hf, hheld₁, hfree₁, hlt⟩ :=
    pass_begins hgood (h.lockFree i) (h.fresh i) hb hh hr hro
  have hready₁ : ¬ Ready g c (after g w c entries st (i + 1)).receipts
    (after g w c entries st (i + 1)).tier := by
    intro hready₁
    have hs := hready₁.1
    have hz : holding g (after g w c entries st (i + 1)).tier = 0 := hheld₁
    omega
  obtain ⟨hgood₂, hbare₂, hfree₂⟩ := pass_settles hgood₁ hf hready₁
  have hkept₁ := groupTotal_kept hgood.inv.unique (pass_kept (e := entries i) hgood) g.kind
  have hkept₂ := groupTotal_kept hgood₁.inv.unique (pass_kept (e := entries (i + 1)) hgood₁) g.kind
  rw [groupTotal_of_bare hbare₂] at hkept₂
  rw [groupTotal_of_bare hb] at hkept₁
  refine ⟨2, by omega, hgood₂, ?_, fun _ => hbare₂⟩
  show holding g (pass g w c (entries (i + 1))
    (pass g w c (entries i) (after g w c entries st i)).2).2.tier + c.sum =
    g.demand
  omega

theorem converges_from_bare (hgood : Good g w c (after g w c entries st i))
    (hb : Bare g (after g w c entries st i).tier) :
    ∃ k ≤ 3, Converged g w c (after g w c entries st (i + k)) := by
  by_cases hr : Ready g c (after g w c entries st i).receipts (after g w c entries st i).tier
  · exact ⟨0, by omega, hgood, hr⟩
  by_cases hh : holding g (after g w c entries st i).tier = 0
  · obtain ⟨k, hk, hc⟩ := converges_from_nothing h hgood hb hh
    exact ⟨k, by omega, hc⟩
  obtain ⟨hgood₁, hbare₁, hheld₁⟩ := pass_releases hgood (h.filed i) hb (by omega) hr
  obtain ⟨k, hk, hc⟩ := converges_from_nothing (i := i + 1) h hgood₁ hbare₁ hheld₁
  exact ⟨1 + k, by omega, by rwa [← Nat.add_assoc]⟩

theorem converges : ∃ k ≤ 4, Converged g w c (after g w c entries st k) := by
  have hgood : Good g w c (after g w c entries st 0) := ⟨h.steady, h.inv⟩
  by_cases hr : Ready g c (after g w c entries st 0).receipts (after g w c entries st 0).tier
  · exact ⟨0, by omega, hgood, hr⟩
  by_cases hb : Bare g (after g w c entries st 0).tier
  · obtain ⟨k, hk, hc⟩ := converges_from_bare h hgood hb
    exact ⟨k, by omega, by rwa [Nat.zero_add] at hc⟩
  obtain ⟨hgood₁, hbare₁, -⟩ := pass_settles hgood hb hr
  obtain ⟨k, hk, hc⟩ := converges_from_bare (i := 0 + 1) h hgood₁ hbare₁
  exact ⟨0 + 1 + k, by omega, hc⟩

theorem converged_stays {k : Nat} (hk : Converged g w c (after g w c entries st k)) (hi : k ≤ i) :
    Converged g w c (after g w c entries st i) := by
  induction i, hi using Nat.le_induction with
  | base => exact hk
  | succ i _ ih => exact ready_stays ih.1 (h.filed i) ih.2

theorem good_after (i : Nat) : Good g w c (after g w c entries st i) := by
  induction i with
  | zero => exact ⟨h.steady, h.inv⟩
  | succ i ih =>
    by_cases hr : Ready g c (after g w c entries st i).receipts (after g w c entries st i).tier
    · exact (ready_stays ih (h.filed i) hr).1
    by_cases hb : Bare g (after g w c entries st i).tier
    · by_cases hh : holding g (after g w c entries st i).tier = 0
      · have hro := h.room i (bare_of_pending ih hb hh)
        exact (pass_begins ih (h.lockFree i) (h.fresh i) hb hh hr hro).1
      · exact (pass_releases ih (h.filed i) hb (by omega) hr).1
    · exact (pass_settles ih hb hr).1

theorem groupTotal_after (i : Nat) (kind : Name) :
    groupTotal g (after g w c entries st i).tier kind = groupTotal g st.tier kind := by
  induction i with
  | zero => rfl
  | succ i ih =>
    have hgood := good_after h i
    exact (groupTotal_kept hgood.inv.unique (pass_kept hgood) kind).trans ih

end

/-- A group reaches its filed demand within six passes and stays there. From the first pass with
authority on, every pass has it and only reads, and the holder has what the coverage leaves of the
demand; at every operation of every pass the tokens of `free/`, the holder and the handles are those
of the start. -/
theorem reconcile_converges (g : Group) (w : Machine) (c : Coverage) (entries : Nat → Entry)
    (st : GroupState)
    (h : Setting g w c entries st) : (∃ k < 6, ∀ i, k ≤ i →
      (pass g w c (entries i) (after g w c entries st i)).1.authority = true ∧
      Along quiet (· = (after g w c entries st i).tier) (fun _ _ => True)
        (reconcile g w c (entries i) true (after g w c entries st i).receipts)
        (after g w c entries st i).tier ∧
      holding g (after g w c entries st i).tier = g.demand - (c.m + c.s + c.r)) ∧
    ∀ i, Along quiet (fun u => ∀ kind, groupTotal g u kind = groupTotal g st.tier kind)
      (fun _ _ => True)
      (reconcile g w c (entries i) true (after g w c entries st i).receipts)
        (after g w c entries st i).tier := by
  constructor
  · obtain ⟨k, hk, hc⟩ := converges h
    refine ⟨k, by omega, fun i hi => ?_⟩
    obtain ⟨hgood, hr⟩ := converged_stays h hc hi
    have hre := reconcile_ready hgood.steady hgood.inv (h.filed i) hr
    refine ⟨(pass_ready hgood (h.filed i) hr).1, hre.imp fun _ _ _ _ => trivial, ?_⟩
    have hs : holding g (after g w c entries st i).tier + (c.m + c.s + c.r) = g.demand := hr.1
    omega
  · intro i
    have hgood := good_after h i
    have hke := reconcile_kept (e := entries i) (w := w) hgood.steady hgood.inv.unique
    refine (hke.weaken fun u hu kind => ?_).imp fun _ _ _ _ => trivial
    rw [groupTotal_kept hgood.inv.unique hu kind, groupTotal_after h i kind]

section

def unit : Group := ⟨"prelaunch-unit".toList, "ssd_gib".toList, 2, by decide⟩

def box : Machine := ⟨"box".toList, 7, fun _ => false, by decide⟩

def uncovered : Coverage := ⟨0, 0, 0, false⟩

def entryAt (usec : Nat) : Entry := ⟨usec, ⟨"00000000".toList, by decide⟩, true, .filed⟩

/-- One token is held, fewer than the demand; two are free. -/
def justFiled : GroupState where
  tier := ⟨[.free, .held unit.holder], [(.free, "ssd_gib-0000".toList),
    (.free, "ssd_gib-0001".toList), (.held unit.holder, "ssd_gib-0002".toList)], by simp⟩
  receipts := ⟨true, false, []⟩

theorem inv_of_files {s : Ledger} (hu : (s.files.map Prod.snd).Nodup)
    (hn : ∀ file ∈ s.files, Numbered file.2)
    (hp : ∀ h x, acquisitionHandleOf h g.holder = some x → ∀ n, (.held h, n) ∉ s.files) :
    Inv g w s := by
  refine ⟨fun m _ q r _ _ hq hr => ?_, fun m hm => ?_, fun h m x hx hin => ?_⟩
  · exact (Prod.mk.inj (inj_on_of_nodup_map hu hq hr rfl)).1
  · obtain ⟨q, -, hq⟩ := hm
    exact hn _ hq
  · exact absurd hin (hp h x hx m)

/-- A place of tokens that lie in `free/` or under the holder itself is no handle's. -/
theorem no_handle {s : Ledger} (hs : ∀ file ∈ s.files, file.1 = .free ∨ file.1 = .held unit.holder)
    {h : Name} {x : Nat × Name × Nat} (hx : acquisitionHandleOf h unit.holder = some x) (n : Name) :
    (.held h, n) ∉ s.files := by
  intro hin
  rcases hs _ hin with he | he
  · cases he
  · exact handle_ne_holder hx (Place.held.inj he)

theorem justFiled_three : ∀ file ∈ (after unit box uncovered entryAt justFiled 3).tier.files,
    file.1 = .free ∨ file.1 = .held unit.holder := by decide

theorem justFiled_converged : Converged unit box uncovered
    (after unit box uncovered entryAt justFiled 3) := by
  refine ⟨⟨⟨rfl, by decide, by decide, fun _ => ⟨rfl, rfl⟩⟩,
    inv_of_files (by decide) (by decide) fun h x hx n => no_handle justFiled_three hx n⟩,
    by decide, ?_⟩
  intro _ h n x hx hin
  exact no_handle justFiled_three hx n hin

theorem justFiled_stays (i : Nat) :
    Converged unit box uncovered (after unit box uncovered entryAt justFiled (i + 3)) ∧
      (after unit box uncovered entryAt justFiled (i + 3)).tier =
      (after unit box uncovered entryAt justFiled 3).tier := by
  induction i with
  | zero => exact ⟨justFiled_converged, rfl⟩
  | succ i ih =>
    obtain ⟨⟨hgood, hr⟩, ht⟩ := ih
    exact ⟨ready_stays hgood rfl hr,
      (pass_ready hgood rfl hr).2.1.trans ht⟩

theorem justFiled_fresh (i : Nat) (n : Name) :
    (.held (handleName unit box (entryAt i)), n) ∉
    (after unit box uncovered entryAt justFiled i).tier.files := by
  have hx := acquisitionHandleOf_handleName unit box (entryAt i)
  rcases i with _ | _ | _ | i
  · exact no_handle (by decide) hx n
  · exact no_handle (by decide) hx n
  · intro hin
    have hf : ∀ file ∈ (after unit box uncovered entryAt justFiled 2).tier.files,
        file.1 ≠ .held (handleName unit box (entryAt 2)) := by decide
    exact hf _ hin rfl
  · rw [(justFiled_stays i).2]
    exact no_handle justFiled_three hx n

theorem justFiled_room (i : Nat) (h : HoldsNothing unit
    (after unit box uncovered entryAt justFiled i).tier) :
    unit.demand ≤ (after unit box uncovered entryAt justFiled i).tier.tokens .free unit.kind := by
  rcases i with _ | _ | _ | i
  · have hh : holding unit (after unit box uncovered entryAt justFiled 0).tier = 1 := by decide
    rw [h.1] at hh
    cases hh
  · decide
  · have hf : pending unit (after unit box uncovered entryAt justFiled 2).tier = 2 := by decide
    rw [h.2] at hf
    cases hf
  · have hh : holding unit (after unit box uncovered entryAt justFiled 3).tier = 2 := by decide
    rw [← (justFiled_stays i).2, h.1] at hh
    cases hh

theorem justFiled_setting : Setting unit box uncovered entryAt justFiled := by
  have hs : ∀ file ∈ justFiled.tier.files, file.1 = .free ∨ file.1 = .held unit.holder := by decide
  have hi : Inv unit box justFiled.tier :=
    inv_of_files (by decide) (by decide) fun h x hx n => no_handle hs hx n
  exact ⟨⟨rfl, rfl, by decide, fun _ => ⟨rfl, rfl⟩⟩, hi.unique,
    hi.numbered, by decide, fun _ => rfl, fun _ => rfl,
    justFiled_fresh, justFiled_room⟩

end

/-- A holder that is short is emptied first, and then holds the two tokens for good. -/
theorem justFiled_converges : (∃ k < 6, ∀ i, k ≤ i →
      (pass unit box uncovered (entryAt i)
      (after unit box uncovered entryAt justFiled i)).1.authority = true ∧
      Along quiet (· = (after unit box uncovered entryAt justFiled i).tier) (fun _ _ => True)
        (reconcile unit box uncovered (entryAt i) true
        (after unit box uncovered entryAt justFiled i).receipts)
        (after unit box uncovered entryAt justFiled i).tier ∧
      holding unit (after unit box uncovered entryAt justFiled i).tier = 2) ∧
    ∀ i, Along quiet (fun u => ∀ kind, groupTotal unit u kind = groupTotal unit justFiled.tier kind)
      (fun _ _ => True)
      (reconcile unit box uncovered (entryAt i) true
        (after unit box uncovered entryAt justFiled i).receipts)
      (after unit box uncovered entryAt justFiled i).tier :=
  reconcile_converges unit box uncovered entryAt justFiled justFiled_setting

end PrismaBuild.PrelaunchGroup
