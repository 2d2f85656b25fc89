import PrismaBuild.PrelaunchCensus
import PrismaBuild.LedgerHandover

namespace PrismaBuild.PrelaunchGroup

open Prog ResourceLedger Ledger List Option

variable {g : Group} {w : Machine} {s t : Ledger}

def Group.Owns (g : Group) : Place → Prop
  | .free => True
  | .held h => h = g.holder ∨ (acquisitionHandleOf h g.holder).isSome = true
  | _ => False

theorem Group.Owns.ne_minted (p : Place) (h : g.Owns p) : p ≠ .minted := by
  rintro rfl
  exact h

theorem owns_holder (g : Group) : g.Owns (.held g.holder) := .inl rfl

variable {h : Name} {x : Nat × Name × Nat}

theorem owns_handle (hx : acquisitionHandleOf h g.holder = some x) : g.Owns (.held h) := by
  refine .inr ?_
  rw [hx]
  rfl

theorem handle_ne_holder (hx : acquisitionHandleOf h g.holder = some x) : h ≠ g.holder := by
  rintro rfl
  rw [acquisitionHandleOf_holder] at hx
  cases hx

/-- What holds between passes: each token in one place, only tokens in the group's directories, and
those of the handles acquired by this process or by a dead one. -/
structure Inv (g : Group) (w : Machine) (s : Ledger) : Prop where
  unique : s.Unique
  numbered : ∀ n, Lies g.Owns s n → Numbered n
  owned : ∀ h n x, acquisitionHandleOf h g.holder = some x → (.held h, n) ∈ s.files →
    x.2.1 = w.host ∧ (x.2.2 = w.pid ∨ w.alive x.2.2 = false)

theorem Inv.isToken (hs : Inv g w s) {p : Place} {n : Name} (hp : g.Owns p)
    (hn : (p, n) ∈ s.files) : isToken n = true :=
  (hs.numbered n ⟨p, hp, hn⟩).isToken

section

theorem mem_handlesOf {x : Handle} (hx : x ∈ handlesOf g s) :
    acquisitionHandleOf x.name g.holder = some (x.usec, x.host, x.pid) := by
  obtain ⟨entry, -, he⟩ := mem_filterMap.mp hx
  obtain ⟨y, hy, rfl⟩ := map_eq_some_iff.mp he
  exact hy

theorem exists_handle {h : Name} {x : Nat × Name × Nat}
    (hx : acquisitionHandleOf h g.holder = some x)
    (hd : Place.held h ∈ s.dirs) : ∃ y ∈ handlesOf g s, y.name = h ∧
      y.tokens = (s.names (.held h)).countP fun n => !isMetadata n := by
  refine ⟨⟨h, x.1, x.2.1, x.2.2, (s.names (.held h)).countP fun n => !isMetadata n⟩, ?_, rfl, rfl⟩
  refine mem_filterMap.mpr ⟨h, mem_holderNames.mpr hd, ?_⟩
  rw [handleAt, hx]
  rfl

def Bare (g : Group) (s : Ledger) : Prop :=
  ∀ h n x, acquisitionHandleOf h g.holder = some x → (.held h, n) ∉ s.files

theorem pending_eq_zero_iff (hs : Inv g w s) : pending g s = 0 ↔ Bare g s := by
  constructor
  · intro hz h n x hx hn
    obtain ⟨y, hy, -, ht⟩ := exists_handle hx (s.rooted _ hn)
    have ha := List.sum_eq_zero_iff_forall_eq_nat.mp hz y.tokens (mem_map_of_mem hy)
    rw [ht, countP_eq_zero] at ha
    have hm := isMetadata_of_isToken (hs.isToken (owns_handle hx) hn)
    exact ha n (mem_names.mpr hn) (by rw [hm]; rfl)
  · intro hb
    refine List.sum_eq_zero_iff_forall_eq_nat.mpr fun k hk => ?_
    obtain ⟨y, hy, rfl⟩ := mem_map.mp hk
    obtain ⟨entry, -, he⟩ := mem_filterMap.mp hy
    obtain ⟨x, hx, rfl⟩ := map_eq_some_iff.mp he
    refine countP_eq_zero.mpr fun n hn => ?_
    exact absurd (mem_names.mp hn) (hb entry n x hx)

end

section

def Fewer (g : Group) (s t : Ledger) : Prop :=
  ∀ h n x, acquisitionHandleOf h g.holder = some x → (.held h, n) ∈ t.files → (.held h, n) ∈ s.files

theorem Inv.kept (hs : Inv g w s) (hk : Kept g.Owns s t) (hf : Fewer g s t) : Inv g w t :=
  ⟨hk.unique, fun n hn => hs.numbered n (hk.names n hn), fun h n x hx hn =>
    hs.owned h n x hx (hf h n x hx hn)⟩

theorem kept_ends {α : Type} {p : LedgerProg α} {Q : α → Ledger → Prop} (hs : Inv g w s)
    (hp : Issues (Within g.Owns) p) (h : Ends Q p s) :
    Ends (fun r u => Q r u ∧ Kept g.Owns s u) p s := by
  have hk := Issues.kept Group.Owns.ne_minted hp hs.unique
  exact (Along.and h hk).weaken fun _ _ => trivial

structure Settles (g : Group) (xs : List Handle) (s t : Ledger) : Prop where
  free : t.tokens .free g.kind = s.tokens .free g.kind
  emptied : ∀ x ∈ xs, ∀ n, (.held x.name, n) ∉ t.files
  fewer : Fewer g s t

theorem commit_settles (hs : Inv g w s) {x : Handle}
    (hx : acquisitionHandleOf x.name g.holder = some (x.usec, x.host, x.pid)) :
    Ends (fun r u => (∃ moved, r = .ok moved) ∧ Settles g [x] s u ∧ Inv g w u)
      (commitAcquire g.holder x.name fun _ => 0) s := by
  have hc := commitAcquire_ends (handle_ne_holder hx) (fun _ => 0) hs.unique fun n hn =>
    hs.isToken (owns_handle hx) hn
  refine .imp (kept_ends hs (commitAcquire_within (owns_holder g) (owns_handle hx) _) hc) ?_
  rintro r u - ⟨⟨rfl, ht⟩, hk⟩
  have hto : ∀ h n y, acquisitionHandleOf h g.holder = some y → (.held h, n) ∈ u.files →
      (.held h, n) ∈ s.files ∧ ¬ (Place.held h = .held x.name ∧ n ∈ s.names (.held x.name)) := by
    intro h n y hy hn
    have hnu := hs.numbered n (hk.names n ⟨_, owns_handle hy, hn⟩)
    rcases (ht.shifted _ n hnu.isToken).mp hn with ⟨he, -⟩ | hst
    · exact absurd (Place.held.inj he) (handle_ne_holder hy)
    · exact hst
  have hf : Fewer g s u := fun h n y hy hn => (hto h n y hy hn).1
  refine ⟨⟨_, rfl⟩, ⟨ht.shifted.tokens_other (p := .free) nofun nofun _, fun y hy n hn => ?_, hf⟩,
    hs.kept hk hf⟩
  rw [mem_singleton.mp hy] at hn
  obtain ⟨hb, hno⟩ := hto _ n _ hx hn
  exact hno ⟨rfl, mem_names.mpr hb⟩

theorem settleHandles_ends (found : Census) (xs : List Handle)
    (hxs : ∀ x ∈ xs, acquisitionHandleOf x.name g.holder = some (x.usec, x.host, x.pid))
    (live : Bool)
    (events : List Event) (s : Ledger) (hs : Inv g w s) :
      Ends (fun o u => o.authority = false ∧ Settles g xs s u ∧ Inv g w u)
      (settleHandles w g.holder found xs live events) s := by
  induction xs generalizing live events s with
  | nil => exact ⟨trivial, rfl, ⟨rfl, nofun, fun _ _ _ _ hn => hn⟩, hs⟩
  | cons x xs ih =>
    have hx := hxs x (.head _)
    have hr := ih fun y hy => hxs y (.tail _ hy)
    unfold settleHandles
    split
    next =>
      refine .bind (.imp (commit_settles hs hx) ?_)
      rintro r t - ⟨⟨moved, rfl⟩, hon, ht⟩
      refine .imp (hr _ _ t ht) ?_
      rintro o u - ⟨ha, hm, hu⟩
      refine ⟨ha, ⟨hm.free.trans hon.free, fun y hy n hn => ?_, fun h n z hz hn => ?_⟩, hu⟩
      · rcases mem_cons.mp hy with rfl | hy
        · exact hon.emptied y (mem_singleton_self y) n (hm.fewer _ n _ hx hn)
        · exact hm.emptied y hy n hn
      · exact hon.fewer h n z hz (hm.fewer h n z hz hn)
    next ho =>
      have hno : ∀ n, (.held x.name, n) ∉ s.files := by
        intro n hn
        obtain ⟨hh, hp⟩ := hs.owned x.name n _ hx hn
        dsimp only at hh hp
        apply ho
        rcases hp with hp | hd
        · simp only [Machine.isMe, hh, hp, beq_self_eq_true, Bool.and_true, Bool.true_or]
        · simp only [Machine.isDead, hh, hd, beq_self_eq_true, Bool.not_false, Bool.and_true,
            Bool.or_true]
      refine .imp (hr _ _ s hs) ?_
      rintro o u - ⟨ha, hm, hu⟩
      refine ⟨ha, ⟨hm.free, fun y hy n hn => ?_, hm.fewer⟩, hu⟩
      rcases mem_cons.mp hy with rfl | hy
      · exact hno n (hm.fewer _ n _ hx hn)
      · exact hm.emptied y hy n hn

theorem settle_bare (h : Settles g (handlesOf g s) s t) : Bare g t := by
  intro k n x hx hn
  obtain ⟨y, hy, rfl, -⟩ := exists_handle hx (s.rooted _ (h.fewer k n x hx hn))
  exact h.emptied y hy n hn

theorem release_ends (hs : Inv g w s) :
    Ends (fun r u => r.isOk = true ∧ holding g u = 0 ∧ Fewer g s u ∧ Inv g w u) (release g.holder)
    s := by
  have hr := emptyIntoFree_ends (p := .held g.holder) nofun s
  refine .imp (kept_ends hs (emptyIntoFree_within (owns_holder g) trivial) hr) ?_
  rintro r u - ⟨⟨rfl, hsh⟩, hk⟩
  have hf : Fewer g s u := by
    intro h n x hx hn
    have hnu := hs.numbered n (hk.names n ⟨_, owns_handle hx, hn⟩)
    rcases (hsh _ n hnu.isToken).mp hn with ⟨he, -⟩ | hst
    · cases he
    · exact hst.1
  refine ⟨rfl, ?_, hf, hs.kept hk hf⟩
  refine countP_eq_zero.mpr fun n hn hki => ?_
  have ht := (Bool.and_eq_true_iff.mp hki).1
  rcases (hsh _ n ht).mp (mem_names.mp hn) with ⟨he, -⟩ | ⟨hb, hno⟩
  · cases he
  · refine hno ⟨rfl, mem_filter.mpr ⟨mem_names.mpr hb, ?_⟩⟩
    rw [isMetadata_of_isToken ht]
    rfl

theorem begin_ends (hs : Inv g w s) (e : Entry)
    (hfre : ∀ n, (.held (handleName g w e), n) ∉ s.files) {need : Int}
    (hnee : 0 < need) (hr : need ≤ s.tokens .free g.kind) :
    Ends (fun r u => r = .ok (some (handleName g w e)) ∧
      u.tokens .free g.kind + need.toNat = s.tokens .free g.kind ∧
      holding g u = holding g s ∧ ¬ Bare g u ∧ Inv g w u)
      (beginAcquire (handleName g w e) [(g.kind, need)] plainAdmission) s := by
  have hh := acquisitionHandleOf_handleName g w e
  have hna : KindNamed s := kindNamed_of_numbered fun n hn => hs.numbered n ⟨.free, trivial, hn⟩
  have hbe := beginAcquire_ends (handleName g w e) [(g.kind, need)] (nodup_singleton _) s hfre hna
  refine .imp (kept_ends hs (beginAcquire_within (owns_handle hh) trivial _) hbe) ?_
  rintro r u - ⟨⟨rfl, T, ht, hm, hf⟩ | ⟨-, -, d, hd, hsh⟩, hk⟩
  · have hc : T.countP (isKind g.kind) = need.toNat := by
      rw [hf.kinds, asked_cons, if_pos rfl]
      rfl
    have hfr := ht.tokens_source g.kind
    have hne : Place.held g.holder ≠ .held (handleName g w e) :=
      fun he => handle_ne_holder hh (Place.held.inj he).symm
    refine ⟨rfl, by omega, ht.shifted.tokens_other (p := .held
      g.holder) nofun hne _, fun hba => ?_, hk.unique,
      fun n hn => hs.numbered n (hk.names n hn), fun h n x hx hn => ?_⟩
    · have hl : 0 < T.length := by
        have hle := countP_le_length (p := isKind g.kind) (l := T)
        omega
      obtain ⟨n, hn⟩ := exists_mem_of_length_pos hl
      exact hba _ n _ hh ((hm _ n).mpr (.inl ⟨rfl, hn⟩))
    · rcases (hm _ n).mp hn with ⟨he, -⟩ | ⟨hb, -⟩
      · rw [Place.held.inj he, hh] at hx
        rw [← some.inj hx]
        exact ⟨rfl, .inl rfl⟩
      · exact hs.owned h n x hx hb
  · rw [mem_singleton.mp hd] at hsh
    dsimp only at hsh
    omega

end

end PrismaBuild.PrelaunchGroup
