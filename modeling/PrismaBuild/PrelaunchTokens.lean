import PrismaBuild.PrelaunchRules

namespace PrismaBuild.PrelaunchGroup

open Prog ResourceLedger Ledger List

variable {g : Group} {w : Machine} {c : Coverage} {e : Entry} {receipts : Receipts} {s t : Ledger}

theorem acquisitionsUnder_leaves (holder : Name) (entries : List Name) (found : List Handle) :
    Issues LeavesTokens (acquisitionsUnder holder entries found) := by
  induction entries generalizing found with
  | nil => trivial
  | cons entry entries ih =>
    refine .bind (.perform trivial) fun there => ?_
    split
    · split
      · exact ih _
      · exact (scanOptional_leaves _).andThen fun listing => ih _
    · exact ih _

theorem unparsedUnder_leaves (holder : Name) (entries found : List Name) :
    Issues LeavesTokens (unparsedUnder holder entries found) := by
  induction entries generalizing found with
  | nil => trivial
  | cons entry entries ih =>
    refine .bind (.perform trivial) fun there => ?_
    dsimp only
    split
    · split
      · exact ih _
      · exact ih _
    · exact ih _

theorem census_leaves (g : Group) (c : Coverage) (receipts : Receipts) :
    Issues LeavesTokens (census g c receipts) := by
  refine .bind (.perform trivial) fun held => ?_
  refine .bind (.andThen (.perform trivial) fun _ => acquisitionsUnder_leaves _ _ _) fun handles =>
    ?_
  exact .bind (.andThen (.perform trivial) fun _ => unparsedUnder_leaves _ _ _) fun _ => trivial

theorem release_within (g : Group) : Issues (Within g.Owns) (release g.holder) :=
  emptyIntoFree_within (owns_holder g) trivial

theorem beginTake_within (g : Group) (w : Machine) (e : Entry) (need : Int) :
    Issues (Within g.Owns) (beginTake g w e need) := by
  unfold beginTake
  split
  · exact beginAcquire_within (owns_handle (acquisitionHandleOf_handleName g w e)) trivial _
  · trivial

theorem settleHandles_within (found : Census) (xs : List Handle)
    (hxs : ∀ x ∈ xs, acquisitionHandleOf x.name g.holder = some (x.usec, x.host, x.pid))
    (live : Bool)
    (events : List Event) : Issues (Within g.Owns)
      (settleHandles w g.holder found xs live events) := by
  induction xs generalizing live events with
  | nil => trivial
  | cons x xs ih =>
    have hr := ih fun y hy => hxs y (.tail _ hy)
    unfold settleHandles
    split
    · refine (commitAcquire_within (owns_holder g) (owns_handle (hxs x (.head _))) _).bind fun r =>
        ?_
      split
      · trivial
      · exact hr _ _
    · exact hr _ _

theorem reconcileCommitted_within (found : Census)
    (hxs : ∀ x ∈ found.handles, acquisitionHandleOf x.name g.holder = some (x.usec, x.host, x.pid))
    (events : List Event) : Issues (Within g.Owns)
      (reconcileCommitted g w e true found events) := by
  unfold reconcileCommitted
  dsimp only
  split
  · exact settleHandles_within found _ hxs _ _
  · split
    · refine (beginTake_within g w e _).bind fun r => ?_
      split <;> trivial
    · split
      · trivial
      · exact (release_within g).bind fun _ => trivial

theorem reconcileEmpty_within (found : Census) (events : List Event) :
    Issues (Within g.Owns) (reconcileEmpty g w c e found events) := by
  unfold reconcileEmpty
  dsimp only
  split
  · split
    · trivial
    · split <;> trivial
  · refine (beginTake_within g w e _).bind fun r => ?_
    split
    · trivial
    · trivial
    · exact ((census_leaves g c _).mono fun _ => LeavesTokens.within).bind fun _ => trivial

theorem reconcile_kept (hs : Steady g c receipts) (hu : s.Unique) :
    Along quiet (Kept g.Owns s) (fun _ u => Kept g.Owns s u) (reconcile g w c e true receipts)
    s := by
  refine reconcile_along hs (Kept.refl hu) fun found hf events => ?_
  have hxs : ∀ x ∈ found.handles, acquisitionHandleOf x.name g.holder =
    some (x.usec, x.host, x.pid) := by
    rw [hf.handles]
    exact fun x hx => mem_handlesOf hx
  refine Issues.kept Group.Owns.ne_minted ?_ hu
  split
  · exact (reconcileCommitted_within found hxs events).bind fun _ => trivial
  · split
    · exact (settleHandles_within found _ hxs _ _).bind fun _ => trivial
    · split
      · unfold reconcileCovered
        dsimp only
        split
        · trivial
        · split
          · trivial
          · exact (release_within g).bind fun _ => trivial
      · split
        · refine (release_within g).bind fun r => ?_
          split <;> trivial
        · exact reconcileEmpty_within found events

def groupPlaces (g : Group) (s : Ledger) : List Place :=
  .free :: .held g.holder :: (handlesOf g s).map fun x => .held x.name

theorem handlesOf_names_nodup (g : Group) (s : Ledger) :
    ((handlesOf g s).map Handle.name).Nodup := by
  have hs : ((handlesOf g s).map Handle.name).Sublist s.holderNames := by
    unfold handlesOf
    induction s.holderNames with
    | nil => exact .slnil
    | cons entry entries ih =>
      cases he : handleAt g s entry with
      | none =>
        rw [filterMap_cons_none he]
        exact ih.cons _
      | some x =>
        obtain ⟨y, -, rfl⟩ := Option.map_eq_some_iff.mp he
        rw [filterMap_cons_some he]
        exact ih.cons_cons _
  exact hs.nodup (sortNames_nodup _)

theorem groupPlaces_nodup (g : Group) (s : Ledger) : (groupPlaces g s).Nodup := by
  have hh : ((handlesOf g s).map fun x => Place.held x.name).Nodup := by
    have hm := (handlesOf_names_nodup g s).map (fun _ _ h => Place.held.inj h)
    rwa [map_map] at hm
  refine nodup_cons.mpr ⟨?_, nodup_cons.mpr ⟨?_, hh⟩⟩
  · simp
  · intro hin
    obtain ⟨x, hx, he⟩ := mem_map.mp hin
    exact handle_ne_holder (mem_handlesOf hx) (Place.held.inj he)

theorem mem_groupPlaces_iff {n : Name} : (∃ p ∈ groupPlaces g s, (p, n) ∈ s.files) ↔
    Lies g.Owns s n := by
  constructor
  · rintro ⟨p, hp, hn⟩
    rcases mem_cons.mp hp with rfl | hp
    · exact ⟨.free, trivial, hn⟩
    rcases mem_cons.mp hp with rfl | hp
    · exact ⟨_, owns_holder g, hn⟩
    obtain ⟨x, hx, rfl⟩ := mem_map.mp hp
    exact ⟨_, owns_handle (mem_handlesOf hx), hn⟩
  · rintro ⟨p, hp, hn⟩
    cases p with
    | minted | dead => exact absurd hp id
    | free => exact ⟨_, .head _, hn⟩
    | held h =>
      rcases hp with rfl | hp
      · exact ⟨_, .tail _ (.head _), hn⟩
      · obtain ⟨x, hx⟩ := Option.isSome_iff_exists.mp hp
        obtain ⟨y, hy, rfl, -⟩ := exists_handle hx (s.rooted _ hn)
        exact ⟨_, .tail _ (.tail _ (mem_map_of_mem hy)), hn⟩

theorem minted_not_mem_groupPlaces (g : Group) (s : Ledger) : .minted ∉ groupPlaces g s := by
  simp [groupPlaces]

def groupTotal (g : Group) (s : Ledger) (kind : Name) : Nat :=
  s.tokens .free kind + s.tokens (.held g.holder) kind +
    ((handlesOf g s).map fun x => s.tokens (.held x.name) kind).sum

theorem groupTotal_eq (g : Group) (s : Ledger) (kind : Name) :
    groupTotal g s kind = total s (groupPlaces g s) kind := by
  have hs : total s (groupPlaces g s) kind = s.tokens .free kind + (s.tokens (.held g.holder) kind +
      (((handlesOf g s).map fun x => Place.held x.name).map fun p => s.tokens p kind).sum) := rfl
  rw [hs, groupTotal, map_map, Nat.add_assoc]
  rfl

theorem groupTotal_kept (hu : s.Unique) (h : Kept g.Owns s t) (kind : Name) :
    groupTotal g t kind = groupTotal g s kind := by
  rw [groupTotal_eq, groupTotal_eq]
  refine total_congr hu h.unique (groupPlaces_nodup g s) (groupPlaces_nodup g t)
    (minted_not_mem_groupPlaces g s)
    (minted_not_mem_groupPlaces g t) (fun n hn => ?_) kind
  rw [mem_groupPlaces_iff, mem_groupPlaces_iff]
  exact h.tokens n hn

theorem groupTotal_of_bare (h : Bare g s) :
    groupTotal g s g.kind = s.tokens .free g.kind + holding g s := by
  have hz : ((handlesOf g s).map fun x => s.tokens (.held x.name) g.kind).sum = 0 := by
    refine List.sum_eq_zero_iff_forall_eq_nat.mpr fun k hk => ?_
    obtain ⟨x, hx, rfl⟩ := mem_map.mp hk
    refine countP_eq_zero.mpr fun n hn => ?_
    exact absurd (mem_names.mp hn) (h x.name n _ (mem_handlesOf hx))
  rw [groupTotal, hz]
  rfl

end PrismaBuild.PrelaunchGroup
