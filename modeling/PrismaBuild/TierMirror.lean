import PrismaBuild.TierHoldings
import PrismaBuild.LedgerAcquire
import PrismaBuild.LedgerHandover

namespace PrismaBuild.TierHoldings

open Prog ResourceLedger Ledger List

section

variable {α : Type} {s : Ledger} {p : LedgerProg α}

theorem run_of_ends {Q : α → Ledger → Prop} (h : Ends Q p s) : Q (run p s).1 (run p s).2 :=
  Along.exec h ()

theorem unique_run (hp : Keeps p) (hu : s.Unique) : (run p s).2.Unique := by
  have hst : ∀ o f s, LedgerOp.Harmless o → Ledger.Unique s → Ledger.Unique (quiet o f s).2 :=
    fun o _ s ho hs => hs.step ho none
  have he := (hp.along hst hu).imp fun _ _ hu _ => hu
  exact Along.exec he ()

end

section

theorem mirrorOf_inj {a b : Name} : mirrorOf a = mirrorOf b ↔ a = b := by
  unfold mirrorOf
  exact append_right_inj _

theorem isPrivateHolder_mirrorOf (h : Name) : isPrivateHolder (mirrorOf h) = false := rfl

theorem mirrorOf_ne_nil (h : Name) : mirrorOf h ≠ [] := nofun

theorem handleOf_ne (e : Entry) (holder : Name) : e.handleOf holder ≠ holder := by
  intro he
  have hl := congrArg length he
  unfold Entry.handleOf at hl
  simp only [length_append, length_cons] at hl
  omega

theorem isPrivateHolder_handleOf (e : Entry) (holder : Name) :
    isPrivateHolder (e.handleOf holder) = true :=
  isPrefixOf_iff_prefix.mpr (prefix_append _ _)

end

/-- The states that the ledgers are kept in: every token in one place, only tokens of the two tier
kinds on the tier, and only memory tokens under the host halves. -/
structure Sound (s : Holdings) : Prop where
  tierUnique : s.tier.Unique
  hostUnique : s.host.Unique
  tierFree : ∀ n, (.free, n) ∈ s.tier.files → Numbered n ∧
    (kindOf n = ramCapacityKind ∨ kindOf n = fillKind)
  tierHeld : ∀ h n, (.held h, n) ∈ s.tier.files → Numbered n ∧
    (kindOf n = ramCapacityKind ∨ kindOf n = fillKind)
  hostFree : ∀ n, (.free, n) ∈ s.host.files → Numbered n
  mirrors : ∀ h n, (.held (mirrorOf h), n) ∈ s.host.files → Numbered n ∧ kindOf n = hostMemoryKind

def Fresh (s : Holdings) (e : Entry) : Prop :=
  ∀ holder n, (.held (e.handleOf holder), n) ∉ s.tier.files ∧
    (.held (e.handleOf holder), n) ∉ s.host.files

def occupancy (s : Holdings) (holder : Name) : Nat := s.tier.tokens (.held holder) ramCapacityKind

def mirror (s : Holdings) (holder : Name) : Nat :=
    s.host.tokens (.held (mirrorOf holder)) hostMemoryKind

/-- Each holder's host half has as many tokens as the holder has on the tier. -/
def Mirrored (s : Holdings) : Prop := ∀ h, isPrivateHolder h = false → mirror s h = occupancy s h

section

variable {s s' : Holdings}

theorem Mirrored.same (h : Mirrored s) (ht : SameTokens s.tier s'.tier)
    (hh : SameTokens s.host s'.host) : Mirrored s' := by
  intro holder hp
  rw [mirror, tokens_congr (hh _), occupancy, tokens_congr (ht _)]
  exact h holder hp

def Halves (p q : Place) : Prop := ∀ holder, q = .held (mirrorOf holder) ↔ p = .held holder

theorem halves_free : Halves .free .free := fun _ => ⟨nofun, nofun⟩

theorem halves_held (holder : Name) : Halves (.held holder) (.held (mirrorOf holder)) := by
  intro h
  rw [Place.held.injEq, Place.held.injEq, mirrorOf_inj]

theorem Mirrored.transfer {p q p' q' : Place} {A B : List Name} (h : Mirrored s)
    (ht : Transfer p q A s.tier s'.tier)
    (hh : Transfer p' q' B s.host s'.host) (hp : Halves p p') (hq : Halves q q')
    (hc : A.countP (isKind ramCapacityKind) = B.countP (isKind hostMemoryKind)) : Mirrored s' := by
  intro holder hpu
  have hb := h holder hpu
  unfold mirror occupancy at hb ⊢
  by_cases hs : p = .held holder
  · have hs' := (hp holder).mpr hs
    subst hs hs'
    have hti := ht.tokens_source ramCapacityKind
    have hho := hh.tokens_source hostMemoryKind
    omega
  · have hs' : p' ≠ .held (mirrorOf holder) := fun he => hs ((hp holder).mp he)
    by_cases hd : q = .held holder
    · have hd' := (hq holder).mpr hd
      subst hd hd'
      have hti := ht.tokens_destination ramCapacityKind
      have hho := hh.tokens_destination hostMemoryKind
      omega
    · have hd' : q' ≠ .held (mirrorOf holder) := fun he => hd ((hq holder).mp he)
      rw [ht.shifted.tokens_other (Ne.symm hs) (Ne.symm hd),
        hh.shifted.tokens_other (Ne.symm hs') (Ne.symm hd'), hb]

end

section

variable {s : Ledger} {e : Entry} {holder : Name} {demand : List (Name × Int)}

theorem arrived_iff {p q : Place} {A : List Name} {t : Ledger} (h : Transfer p q A s t) {n : Name}
    (hn : isToken n = true) : n ∈ arrived q s t ↔ n ∈ A := by
  have hd := h.shifted q n hn
  have ha := h.absent n
  simp only [arrived, mem_filter, mem_names, decide_eq_true_eq, isMetadata_of_isToken hn]
  simp only [true_and, Ne.symm h.distinct, false_and, not_false_eq_true, and_true] at hd
  rw [hd]
  tauto

inductive TakeEnds (s : Ledger) (holder : Name) (demand : List (Name × Int)) : Took → Prop
  | all {T names : List Name} {after : Ledger} (transfer : Transfer .free (.held holder) T s after)
      (fills : Fills demand T) (nodup : names.Nodup)
      (present : ∀ n ∈ names, (.held holder, n) ∈ after.files)
      (named : ∀ n, isToken n = true → (n ∈ names ↔ n ∈ T)) :
        TakeEnds s holder demand ⟨.ok true, names, after⟩
  | none {after : Ledger} (same : SameTokens s after) :
    TakeEnds s holder demand ⟨.ok false, [], after⟩

theorem takeFrom_ends (admits : Bool) (hu : s.Unique) (hk : KindNamed s)
    (hfr : ∀ n, (.held (e.handleOf holder), n) ∉ s.files) (hke : (demand.map Prod.fst).Nodup) :
    TakeEnds s holder demand (takeFrom s admits e holder demand) := by
  cases admits with
  | false => exact .none (SameTokens.refl s)
  | true =>
    have hb := run_of_ends (beginAcquire_ends (e.handleOf holder) demand hke s hfr hk)
    have hun := unique_run (beginAcquire_keeps (e.handleOf holder) demand plainAdmission) hu
    unfold takeFrom
    rw [if_pos rfl]
    generalize run (beginAcquire (e.handleOf holder) demand plainAdmission) s = begun at hb hun
    obtain ⟨outcome, t⟩ := begun
    rcases hb with ⟨rfl, T, hT, hm, hf⟩ | ⟨rfl, hs, -⟩
    · have hin : ∀ n, n ∈ t.names (.held (e.handleOf holder)) ↔ n ∈ T := by
        intro n
        rw [mem_names, hm _ n]
        simp [hfr n]
      have hto : ∀ n, (.held (e.handleOf holder), n) ∈ t.files → isToken n = true :=
        fun n hn => hT.token n ((hin n).mp (mem_names.mpr hn))
      have hl := ((perm_ext_iff_of_nodup (names_nodup t _) hT.nodup).mpr hin).length_eq
      have hc := run_of_ends (commitAcquire_ends (handleOf_ne e holder) (fun _ => 0) hun hto)
      obtain ⟨hv, ht⟩ := hc
      have ha : ∀ n ∈ T, (.held holder, n) ∉ s.files := by
        intro n hn
        exact hu.absent (hT.token n hn) (hT.present n hn) nofun nofun nofun
      have hw := hT.comp ht (fun n _ => hin n) nofun ha
      have hno : ¬ ((t.names (.held (e.handleOf holder))).length : Int) <
          ((demand.map fun d => d.2.toNat).sum : Nat) := by
        rw [hl, hf.total]
        omega
      dsimp only
      rw [hv]
      dsimp only
      rw [if_neg hno]
      refine .all hw hf ((names_nodup _ _).filter _) (fun n hn => ?_) fun n hn => ?_
      · exact mem_names.mp (mem_of_mem_filter hn)
      · rw [arrived_iff ht hn]
        exact hin n
    · exact .none hs

theorem returnNames_ends {p : Place} (hp : p ≠ .free) (names : List Name) (hn : names.Nodup)
    (returned : Nat)
    (s : Ledger) (hf : .free ∈ s.dirs) (hm : ∀ n ∈ names, (p, n) ∈ s.files) :
    Ends (fun _ u => Moved p .free names s u) (returnNames p names returned) s := by
  induction names generalizing returned s with
  | nil => exact ⟨trivial, Moved.refl s⟩
  | cons name names ih =>
    obtain ⟨hno, hn⟩ := nodup_cons.mp hn
    obtain ⟨hok, hmv, hd⟩ := quiet_rename (hm name (.head _)) hf
    refine .perform trivial fun _ => ?_
    rw [hok]
    refine .imp (ih hn (returned + 1) _ (hd ▸ hf) fun n hin => ?_) fun _ u _ hu => hmv.trans hu hp
    exact (hmv.later hno n hin p).mpr (hm n (.tail _ hin))

theorem returnTaken_ends {names : List Name} (hn : names.Nodup)
    (hm : ∀ n ∈ names, (.held holder, n) ∈ s.files) :
    Ends (fun _ u => Shifted (.held holder) .free names s u) (returnTaken holder names) s := by
  refine .perform trivial fun _ => ?_
  refine .bind (.imp (returnNames_ends (p := .held holder) nofun
    names hn 0 (s.withDir .free) mem_cons_self hm) ?_)
  intro _ t _ hmv
  refine .bind (.imp (Issues.sameTokens (dropEmptyHolder_leaves _) t) ?_)
  intro _ u _ hu
  exact ⟨trivial, (Moved.shifted hmv).then_same hu⟩

theorem asked_of_nodup (hke : (demand.map Prod.fst).Nodup) (kind : Name) :
    asked demand kind = (demanded demand kind).toNat := by
  induction demand with
  | nil => rfl
  | cons d demand ih =>
    obtain ⟨key, count⟩ := d
    obtain ⟨hne, hke⟩ := nodup_cons.mp hke
    rw [asked_cons, ih hke]
    unfold demanded
    by_cases hk : key = kind
    · subst hk
      have hn : demand.lookup key = none := by
        refine lookup_eq_none_iff.mpr fun d hd => ?_
        refine bne_iff_ne.mpr fun he => hne ?_
        have hin : d.1 ∈ demand.map Prod.fst := mem_map_of_mem hd
        rw [← he] at hin
        exact hin
      rw [if_pos rfl, hn, lookup_cons_self]
      rfl
    · have hb := beq_false_of_ne (Ne.symm hk)
      rw [if_neg hk, lookup_cons, hb, Nat.zero_add]

theorem asked_single (kind : Name) (gib : Int) : asked [(kind, gib)] kind = gib.toNat := by
  rw [asked_cons, if_pos rfl]
  rfl

end

section

variable {s : Holdings} {e : Entry}

theorem holdHost_ends (hs : Sound s) (he : Fresh s e) (grant : Name) (gib : Int) :
    TakeEnds s.host (mirrorOf grant) [(hostMemoryKind, gib)] (holdHost s e grant gib) :=
  takeFrom_ends e.hostAdmits hs.hostUnique (kindNamed_of_numbered hs.hostFree) (fun n => (he _ n).2)
    (nodup_singleton _)

theorem takeTier_ends (hs : Sound s) (he : Fresh s e) (holder : Name) (demand : Demand) :
    TakeEnds s.tier holder demand (takeFrom s.tier e.tierAdmits e holder demand) :=
  takeFrom_ends e.tierAdmits hs.tierUnique (kindNamed_of_numbered fun n hn => (hs.tierFree n hn).1)
    (fun n => (he _ n).1) demand.property

theorem rollback_same {host after : Ledger} {tier : Ledger} {grant : Name} {T names : List Name}
    (transfer : Transfer .free (.held (mirrorOf grant)) T host after) (nodup : names.Nodup)
    (present : ∀ n ∈ names, (.held (mirrorOf grant), n) ∈ after.files)
      (named : ∀ n, isToken n = true → (n ∈ names ↔ n ∈ T)) :
    SameTokens host (rollbackHostTake ⟨tier, after⟩ grant names).host :=
  transfer.back (run_of_ends (returnTaken_ends nodup present)) named

theorem take_mirrored (hs : Sound s) (he : Fresh s e) (h : Mirrored s) (holder : Name)
    (demand : Demand) :
    Mirrored (take true s e holder demand).2 := by
  have ht := takeTier_ends hs he holder demand
  have ha := asked_of_nodup demand.property ramCapacityKind
  unfold take
  generalize takeFrom s.tier e.tierAdmits e holder demand = taken at ht
  rw [if_pos rfl]
  dsimp only
  split
  next hpo =>
    have hh := holdHost_ends hs he holder (demanded demand ramCapacityKind)
    generalize holdHost s e holder (demanded demand ramCapacityKind) = hold at hh
    cases hh with
    | none hsa => exact h.same (SameTokens.refl _) hsa
    | all hH hfi hn hp hna =>
      cases ht with
      | none hsa => exact h.same hsa (rollback_same hH hn hp hna)
      | all hT hf _ _ _ =>
        refine h.transfer hT hH halves_free (halves_held holder) ?_
        rw [hf.kinds, hfi.kinds, ha, asked_single]
  next hpo =>
    cases ht with
    | none hsa => exact h.same hsa (SameTokens.refl _)
    | all hT hf _ _ _ =>
      have hne : Place.free ≠ .held (mirrorOf holder) := nofun
      refine h.transfer hT (Transfer.nil hne s.host) halves_free (halves_held holder) ?_
      rw [hf.kinds, ha, countP_nil]
      omega

theorem countP_advance (hs : Sound s) {kind : Name} {gib : Int} {T : List Name} {p : Place}
    {t : Ledger}
    (hki : kind ≠ fillKind) (hT : Transfer .free p T s.tier t) (hfi : Fills [(kind, gib)] T) :
    T.countP (isKind ramCapacityKind) = gib.toNat := by
  by_cases hra : kind = ramCapacityKind
  · rw [← hra, hfi.kinds, asked_single]
  · have hz : T.countP (isKind kind) = 0 := by
      refine countP_eq_zero.mpr fun n hn hk => ?_
      obtain ⟨-, heq⟩ : isToken n = true ∧ kindOf n = kind := by simpa [isKind] using hk
      rcases (hs.tierFree n (hT.present n hn)).2 with hr | hf
      · exact hra (heq.symm.trans hr)
      · exact hki (heq.symm.trans hf)
    have hg : gib.toNat = 0 := by rw [← asked_single kind gib, ← hfi.kinds, hz]
    rw [hfi.kinds, asked_cons, if_neg hra, hg]
    rfl

theorem takeAdvance_mirrored (hs : Sound s) (he : Fresh s e) (h : Mirrored s) (grant : Name)
    (gib : Int) (kind : Name) :
    Mirrored (takeAdvance true s e grant gib kind).2 := by
  unfold takeAdvance
  split
  next => exact h
  next hk =>
    have hh := holdHost_ends hs he grant gib
    have ht := takeTier_ends hs he grant ⟨[(kind, gib)], nodup_singleton _⟩
    rw [if_pos rfl]
    unfold advanceTier
    dsimp only at ht ⊢
    generalize holdHost s e grant gib = hold at hh
    generalize takeFrom s.tier e.tierAdmits e grant [(kind, gib)] = taken at ht
    cases hh with
    | none hsa => exact h.same (SameTokens.refl _) hsa
    | all hH hf hn hp hna =>
      cases ht with
      | none hsa => exact h.same hsa (rollback_same hH hn hp hna)
      | all hT hfi _ _ _ =>
        refine h.transfer hT hH halves_free (halves_held grant) ?_
        rw [countP_advance hs hk hT hfi, hf.kinds, asked_single]

end

end PrismaBuild.TierHoldings
