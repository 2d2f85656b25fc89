import PrismaBuild.FlowAssign
import PrismaBuild.NameOrder

namespace PrismaBuild.WindowCredit

open PrismaBuild.Flow List

section

/-- What each window wants at most, the ranges each can still hold, and the GiB of each range. -/
abbrev Needs := AList fun _ : Name => Int
abbrev Reach := AList fun _ : Name => List Name
abbrev Caps := AList fun _ : Name => Int

def needOf (needs : Needs) (key : Name) : Int := (needs.lookup key).getD 0
def reachOf (reach : Reach) (key : Name) : List Name := (reach.lookup key).getD []
def capOf (caps : Caps) (item : Name) : Int := max 0 ((caps.lookup item).getD 0)

def members (needs : Needs) : List Name :=
    sortNames (needs.keys.filter fun key => 0 < needOf needs key)

abbrev Readers := AList fun _ : Name => List Name

/-- `readers.setdefault(item, set()).add(key)`. -/
def addReader (readers : Readers) (pair : Name × Name) : Readers :=
  readers.insert pair.2 (((readers.lookup pair.2).getD []).insert pair.1)

/-- The pairs of a window and a range, in the order of the two loops. -/
def readPairs (keys : List Name) (reach : Reach) : List (Name × Name) :=
  keys.flatMap fun key => (reachOf reach key).map fun item => (key, item)

def readersOf (keys : List Name) (reach : Reach) : Readers :=
    (readPairs keys reach).foldl addReader ∅

abbrev Groups := AList fun _ : List Name => Int

/-- The range joins the others with the same readers, unless it has no room. -/
def addGroup (caps : Caps) (groups : Groups) (item : Sigma fun _ : Name => List Name) : Groups :=
  let cap := capOf caps item.1
  if cap ≠ 0 then
    let signature := sortNames item.2
    groups.insert signature ((groups.lookup signature).getD 0 + cap)
  else groups

def groupsOf (caps : Caps) (readers : Readers) : Groups := readers.entries.foldl (addGroup caps) ∅

def signatureLe : List Name → List Name → Bool
  | [], _ => true
  | _ :: _, [] => false
  | a :: as, b :: bs => if a = b then signatureLe as bs else nameLe a b

/-- `joint_need_gib`, with fuel for the two loops of the search for paths. -/
def jointNeedGib (fuel : Nat) (needs : Needs) (reach : Reach) (caps : Caps) : Option Int :=
  let keys := members needs
  let groups := groupsOf caps (readersOf keys reach)
  if groups.keys = [] then some 0
  else
    let unbounded := (keys.map (needOf needs)).sum + 1
    let signatures := groups.keys.insertionSort fun a b => signatureLe a b = true
    let edges := supplyEdges keys (needOf needs) signatures (fun signature =>
      (groups.lookup signature).getD 0)
      (fun signature => signature) unbounded
    maxFlow .source .sink unbounded fuel fuel (network edges) 0

end

section

variable {item key : Name} {keys : List Name} {reach : Reach} {readers : Readers}

theorem mem_readPairs : (key, item) ∈ readPairs keys reach ↔ key ∈ keys ∧
    item ∈ reachOf reach key := by
  simp only [readPairs, mem_flatMap, mem_map, Prod.mk.injEq]
  constructor
  · rintro ⟨k, hk, i, hi, rfl, rfl⟩
    exact ⟨hk, hi⟩
  · rintro ⟨hk, hi⟩
    exact ⟨key, hk, item, hi, rfl, rfl⟩

theorem mem_lookup_addReader {pair : Name × Name} :
    key ∈ ((addReader readers pair).lookup item).getD [] ↔ key ∈ (readers.lookup item).getD [] ∨
    pair = (key, item) := by
  obtain ⟨k, i⟩ := pair
  by_cases hi : item = i
  · subst hi
    simp only [addReader, AList.lookup_insert, Option.getD_some, mem_insert_iff, Prod.mk.injEq,
      and_true]
    rw [or_comm, eq_comm]
  · simp [addReader, AList.lookup_insert_ne hi, Ne.symm hi]

theorem mem_foldl_addReader {pairs : List (Name × Name)} :
    key ∈ ((pairs.foldl addReader readers).lookup item).getD [] ↔
    key ∈ (readers.lookup item).getD [] ∨ (key, item) ∈ pairs := by
  induction pairs generalizing readers with
  | nil => simp
  | cons pair pairs ih =>
    rw [foldl_cons, ih, mem_lookup_addReader, mem_cons, or_assoc]
    simp only [eq_comm]

def readersAt (readers : Readers) (item : Name) : List Name := (readers.lookup item).getD []

theorem mem_readersAt : key ∈ readersAt (readersOf keys reach) item ↔ key ∈ keys ∧
    item ∈ reachOf reach key := by
  rw [readersAt, readersOf, mem_foldl_addReader, mem_readPairs]
  simp

theorem mem_keys_readersOf : item ∈ (readersOf keys reach).keys ↔
    ∃ key ∈ keys, item ∈ reachOf reach key := by
  have hk : ∀ (pairs : List (Name × Name)) (readers : Readers),
      item ∈ (pairs.foldl addReader readers).keys ↔ item ∈ readers.keys ∨
      ∃ key, (key, item) ∈ pairs := by
    intro pairs
    induction pairs with
    | nil => simp
    | cons pair pairs ih =>
      intro readers
      rw [foldl_cons, ih, ← AList.mem_keys, addReader, AList.mem_insert, AList.mem_keys]
      simp only [mem_cons, exists_or]
      constructor
      · rintro ((rfl | h) | h)
        · exact .inr (.inl ⟨pair.1, rfl⟩)
        · exact .inl h
        · exact .inr (.inr h)
      · rintro (h | ⟨key, rfl⟩ | h)
        · exact .inl (.inr h)
        · exact .inl (.inl rfl)
        · exact .inr h
  rw [readersOf, hk]
  simp [mem_readPairs]

end

section

variable {caps : Caps} {readers : Readers}

def signatureAt (readers : Readers) (item : Name) : List Name := sortNames (readersAt readers item)

variable {groups : Groups} {signature : List Name}
    {entries : List (Sigma fun _ : Name => List Name)}

theorem lookup_addGroup {item : Sigma fun _ : Name => List Name} :
    ((addGroup caps groups item).lookup signature).getD 0 =
      (groups.lookup signature).getD 0 + if sortNames item.2 = signature then capOf caps item.1 else
      0 := by
  unfold addGroup
  by_cases hc : capOf caps item.1 ≠ 0
  · rw [if_pos hc]
    by_cases hs : sortNames item.2 = signature
    · rw [if_pos hs, hs, AList.lookup_insert, Option.getD_some]
    · rw [if_neg hs, AList.lookup_insert_ne (Ne.symm hs), Int.add_zero]
  · rw [if_neg hc, not_not.mp hc]
    split <;> omega

theorem lookup_foldl_addGroup (signature : List Name) :
    ((entries.foldl (addGroup caps) groups).lookup signature).getD 0 =
    (groups.lookup signature).getD 0 +
        (entries.map fun e => if sortNames e.2 = signature then capOf caps e.1 else 0).sum := by
  induction entries generalizing groups with
  | nil => simp
  | cons e entries ih =>
    rw [foldl_cons, ih, lookup_addGroup, map_cons, sum_cons, Int.add_assoc]

theorem mem_keys_foldl_addGroup : signature ∈ (entries.foldl (addGroup caps) groups).keys ↔
      signature ∈ groups.keys ∨ ∃ e ∈ entries, capOf caps e.1 ≠ 0 ∧ sortNames e.2 = signature := by
  induction entries generalizing groups with
  | nil => simp
  | cons e entries ih =>
    rw [foldl_cons, ih]
    simp only [mem_cons, exists_eq_or_imp]
    unfold addGroup
    by_cases hc : capOf caps e.1 ≠ 0
    · rw [if_pos hc, ← AList.mem_keys, AList.mem_insert, AList.mem_keys]
      constructor
      · rintro ((rfl | h) | h)
        · exact .inr (.inl ⟨hc, rfl⟩)
        · exact .inl h
        · exact .inr (.inr h)
      · rintro (h | ⟨-, rfl⟩ | h)
        · exact .inl (.inr h)
        · exact .inl (.inl rfl)
        · exact .inr h
    · rw [if_neg hc]
      simp [hc]

theorem readersAt_of_mem {e : Sigma fun _ : Name => List Name} (h : e ∈ readers.entries) :
    readersAt readers e.1 = e.2 := by
  have hl := AList.mem_lookup_iff.mpr h
  rw [readersAt, hl, Option.getD_some]

theorem lookup_groupsOf (signature : List Name) :
    ((groupsOf caps readers).lookup signature).getD 0 =
      ∑ item ∈ readers.keys.toFinset with signatureAt readers item = signature,
      capOf caps item := by
  have hen : readers.entries.map (fun e => if sortNames e.2 = signature then capOf caps e.1 else
    0) =
      readers.keys.map fun item => if signatureAt readers item = signature then capOf caps item else
      0 := by
    rw [AList.keys, keys, map_map]
    refine map_congr_left fun e he => ?_
    show _ = if sortNames (readersAt readers e.1) = signature then _ else _
    rw [readersAt_of_mem he]
  rw [groupsOf, lookup_foldl_addGroup, hen, Finset.sum_filter, sum_toFinset _ readers.keys_nodup]
  exact Int.zero_add _

theorem mem_keys_groupsOf : signature ∈ (groupsOf caps readers).keys ↔
      ∃ item ∈ readers.keys, capOf caps item ≠ 0 ∧ signatureAt readers item = signature := by
  rw [groupsOf, mem_keys_foldl_addGroup]
  constructor
  · rintro (h | ⟨e, he, hc, hs⟩)
    · exact absurd h not_mem_nil
    · refine ⟨e.1, mem_map.mpr ⟨e, he, rfl⟩, hc, ?_⟩
      rw [signatureAt, readersAt_of_mem he, hs]
  · rintro ⟨item, hi, hc, hs⟩
    obtain ⟨e, he, rfl⟩ := mem_map.mp hi
    refine .inr ⟨e, he, hc, ?_⟩
    rw [← readersAt_of_mem he]
    exact hs

theorem sum_groups (side : Finset Name) :
    ∑ signature ∈ (groupsOf caps readers).keys.toFinset with ∃ key ∈ side, key ∈ signature,
        ((groupsOf caps readers).lookup signature).getD 0 =
      ∑ item ∈ readers.keys.toFinset with ∃ key ∈ side, key ∈ readersAt readers item,
        capOf caps item := by
  have hg : ∀ signature ∈ (groupsOf caps readers).keys.toFinset.filter (fun s => ∃ key ∈ side,
    key ∈ s),
      ((groupsOf caps readers).lookup signature).getD 0 =
        ∑ item ∈ readers.keys.toFinset, if signatureAt readers item = signature then
        capOf caps item else 0 := by
    intro signature _
    rw [lookup_groupsOf, Finset.sum_filter]
  rw [Finset.sum_congr rfl hg, Finset.sum_comm, Finset.sum_filter]
  refine Finset.sum_congr rfl fun item hi => ?_
  rw [Finset.sum_ite_eq]
  have hre : (∃ key ∈ side, key ∈ signatureAt readers item) ↔
    ∃ key ∈ side, key ∈ readersAt readers item := by
    simp only [signatureAt, mem_sortNames]
  by_cases hr : ∃ key ∈ side, key ∈ readersAt readers item
  · rw [if_pos hr]
    by_cases hc : capOf caps item = 0
    · rw [hc, ite_self]
    · have hm := mem_keys_groupsOf.mpr ⟨item, mem_toFinset.mp hi, hc, rfl⟩
      rw [if_pos (Finset.mem_filter.mpr ⟨mem_toFinset.mpr hm, hre.mpr hr⟩)]
  · rw [if_neg hr]
    refine if_neg fun hm => ?_
    exact hr (hre.mp (Finset.mem_filter.mp hm).2)

end

section

variable (needs : Needs) (reach : Reach) (caps : Caps)

def windows : Finset Name := needs.keys.toFinset

def ranges : Finset Name := (windows needs).biUnion fun key => (reachOf reach key).toFinset

/-- What the windows hold of the ranges they can reach, each at most its need and of each range at
most its GiB. -/
abbrev Holds (x : Name → Name → Nat) : Prop :=
  Feasible (windows needs) (fun key => max 0 (needOf needs key)) (ranges needs reach) (capOf caps)
    (fun key item => item ∈ reachOf reach key) x

/-- The positive needs outside some windows and the GiB of the ranges that these can reach. -/
noncomputable def cutGib (side : Finset Name) : Int :=
  cut (windows needs) (fun key => max 0 (needOf needs key)) (ranges needs reach) (capOf caps)
    (fun key item => item ∈ reachOf reach key) side

variable {needs reach caps}

theorem mem_members {key : Name} : key ∈ members needs ↔ key ∈ needs.keys ∧
    0 < needOf needs key := by
  simp [members]

theorem members_subset : (members needs).toFinset ⊆ windows needs := by
  intro key hk
  exact mem_toFinset.mpr (mem_members.mp (mem_toFinset.mp hk)).1

theorem mem_ranges {item : Name} : item ∈ ranges needs reach ↔ ∃ key ∈ windows needs,
    item ∈ reachOf reach key := by
  simp [ranges]

theorem sum_needs (side : Finset Name) :
    ∑ key ∈ windows needs \ side, max 0 (needOf needs key) = ∑ key ∈ (members needs).toFinset \
    side, needOf needs key := by
  have hs : (members needs).toFinset \ side ⊆ windows needs \ side :=
    Finset.sdiff_subset_sdiff members_subset subset_rfl
  rw [← Finset.sum_subset hs]
  · refine Finset.sum_congr rfl fun key hk => ?_
    have hp := (mem_members.mp (mem_toFinset.mp (Finset.mem_sdiff.mp hk).1)).2
    omega
  · intro key hk hn
    obtain ⟨hin, ho⟩ := Finset.mem_sdiff.mp hk
    by_contra hne
    refine hn (Finset.mem_sdiff.mpr ⟨mem_toFinset.mpr (mem_members.mpr ⟨mem_toFinset.mp hin, ?_⟩),
      ho⟩)
    omega

theorem cut_groups {side : Finset Name} (hs : side ⊆ (members needs).toFinset) :
    cut (members needs).toFinset (needOf needs)
    (groupsOf caps (readersOf (members needs) reach)).keys.toFinset
        (fun signature => ((groupsOf caps (readersOf (members needs) reach)).lookup signature).getD
        0)
        (fun key signature => key ∈ signature) side = cutGib needs reach caps side := by
  rw [cutGib, cut_eq fun _ => Finset.mem_filter, cut_eq fun _ => Finset.mem_filter, sum_groups,
    sum_needs]
  congr 1
  refine Finset.sum_congr (Finset.ext fun item => ?_) fun _ _ => rfl
  simp only [Finset.mem_filter, mem_toFinset, mem_keys_readersOf, mem_readersAt, mem_ranges]
  constructor
  · rintro ⟨-, key, hk, -, hi⟩
    exact ⟨⟨key, members_subset (hs hk), hi⟩, key, hk, hi⟩
  · rintro ⟨-, key, hk, hi⟩
    have hm := mem_toFinset.mp (hs hk)
    exact ⟨⟨key, hm, hi⟩, key, hk, hm, hi⟩

theorem cutGib_inter_le (needs : Needs) (reach : Reach) (caps : Caps) (side : Finset Name) :
    cutGib needs reach caps (side ∩ (members needs).toFinset) ≤ cutGib needs reach caps side := by
  rw [cutGib, cutGib, cut_eq fun _ => Finset.mem_filter, cut_eq fun _ => Finset.mem_filter,
    sum_needs, sum_needs,
    Finset.sdiff_inter_self_right]
  have hle : ∑ item ∈ ranges needs reach with ∃ key ∈ side ∩ (members needs).toFinset,
    item ∈ reachOf reach key, capOf caps item ≤
      ∑ item ∈ ranges needs reach with ∃ key ∈ side, item ∈ reachOf reach key, capOf caps item := by
    refine Finset.sum_le_sum_of_subset_of_nonneg (fun item hi => ?_) fun item _ _ =>
      Int.le_max_left 0 _
    obtain ⟨hin, key, hk, hr⟩ := Finset.mem_filter.mp hi
    exact Finset.mem_filter.mpr ⟨hin, key, (Finset.mem_inter.mp hk).1, hr⟩
  omega

def mergedGroups (needs : Needs) (reach : Reach) (caps : Caps) : Groups :=
    groupsOf caps (readersOf (members needs) reach)

def groupCap (needs : Needs) (reach : Reach) (caps : Caps) (signature : List Name) : Int :=
  ((mergedGroups needs reach caps).lookup signature).getD 0

def enoughFuel (needs : Needs) (reach : Reach) (caps : Caps) : Nat :=
  (members needs).length + (mergedGroups needs reach caps).keys.length + 2 +
    (∑ key ∈ (members needs).toFinset, needOf needs key).toNat + 1

theorem groupCap_nonneg (signature : List Name) : 0 ≤ groupCap needs reach caps signature := by
  rw [groupCap, mergedGroups, lookup_groupsOf]
  exact Finset.sum_nonneg fun item _ => Int.le_max_left 0 _

theorem jointNeedGib_assigned {fuel : Nat} (hfu : enoughFuel needs reach caps ≤ fuel) :
    ∃ x, Feasible (members needs).toFinset (needOf needs)
    (mergedGroups needs reach caps).keys.toFinset
        (groupCap needs reach caps) (fun key signature => key ∈ signature) x ∧
        jointNeedGib fuel needs reach caps =
        some (assigned (members needs).toFinset (mergedGroups needs reach caps).keys.toFinset
          x : Int) ∧
      ∃ side ⊆ (members needs).toFinset,
        cut (members needs).toFinset (needOf needs) (mergedGroups needs reach caps).keys.toFinset
        (groupCap needs reach caps)
            (fun key signature => key ∈ signature) side =
          assigned (members needs).toFinset (mergedGroups needs reach caps).keys.toFinset x := by
  have hm : (members needs).Nodup := sortNames_nodup _
  have hp := perm_insertionSort (fun a b => signatureLe a b = true)
    (mergedGroups needs reach caps).keys
  have hsa := toFinset_eq_of_perm _ _ hp
  have hs : ∀ signature ∈ (mergedGroups needs reach caps).keys.insertionSort fun a b =>
    signatureLe a b = true,
      ∃ item, signatureAt (readersOf (members needs) reach) item = signature := by
    intro signature hme
    obtain ⟨item, -, -, hi⟩ := mem_keys_groupsOf.mp (hp.mem_iff.mp hme)
    exact ⟨item, hi⟩
  have hr : ∀ signature ∈ (mergedGroups needs reach caps).keys.insertionSort fun a b =>
    signatureLe a b = true,
      ∀ key ∈ signature, key ∈ members needs := by
    intro signature hme key hk
    obtain ⟨item, rfl⟩ := hs signature hme
    exact (mem_readersAt.mp (mem_sortNames.mp hk)).1
  have hsu : ((members needs).map (needOf needs)).sum = ∑ key ∈ (members needs).toFinset,
    needOf needs key :=
    (sum_toFinset _ hm).symm
  rw [enoughFuel] at hfu
  have hno : ∀ signature ∈ (mergedGroups needs reach caps).keys.insertionSort fun a b =>
    signatureLe a b = true,
      signature.Nodup := by
    intro signature hme
    obtain ⟨item, rfl⟩ := hs signature hme
    exact sortNames_nodup _
  have hst : (members needs).length +
      ((mergedGroups needs reach caps).keys.insertionSort fun a b =>
      signatureLe a b = true).length + 2 ≤ fuel := by
    rw [hp.length_eq]
    omega
  have hu : ∑ key ∈ (members needs).toFinset, needOf needs key < (fuel : Int) := by omega
  obtain ⟨x, hf, hfl, side, hsi, hc⟩ := maxFlow_supply (needOf needs) (groupCap needs reach caps)
    (fun signature => signature) (((members needs).map (needOf needs)).sum + 1) hm
    (hp.nodup_iff.mpr (AList.keys_nodup _)) hno hr
      (fun key hk => Int.le_of_lt (mem_members.mp hk).2)
    (fun signature _ => groupCap_nonneg signature) (by omega) hst hu
  rw [hsa] at hf hfl hc
  refine ⟨x, hf, ?_, side, hsi, ?_⟩
  · have hj : jointNeedGib fuel needs reach caps =
        if (mergedGroups needs reach caps).keys = [] then some 0
        else maxFlow .source .sink (((members needs).map (needOf needs)).sum + 1) fuel fuel
          (network (supplyEdges (members needs)
          (needOf needs) ((mergedGroups needs reach caps).keys.insertionSort fun a b =>
            signatureLe a b = true)
          (groupCap needs reach caps) (fun signature => signature)
            (((members needs).map (needOf needs)).sum + 1))) 0 := rfl
    rw [hj, hfl]
    by_cases hn : (mergedGroups needs reach caps).keys = []
    · rw [if_pos hn, hn]
      simp [assigned]
    · rw [if_neg hn]
  · exact (cut_congr fun _ _ _ => Iff.rfl).trans hc

theorem exists_holds_cutGib (needs : Needs) (reach : Reach) (caps : Caps) :
    ∃ x, Holds needs reach caps x ∧ ∃ side ⊆ windows needs,
      cutGib needs reach caps side = assigned (windows needs) (ranges needs reach) x := by
  have hr : (ranges needs reach).toList.toFinset = ranges needs reach := Finset.toList_toFinset _
  have hb : ∑ key ∈ needs.keys.toFinset, max 0 (needOf needs key) <
      ∑ key ∈ needs.keys.toFinset, max 0 (needOf needs key) + 1 := Int.lt_succ _
  have hu : ∑ key ∈ needs.keys.toFinset, max 0 (needOf needs key) <
      ((∑ key ∈ needs.keys.toFinset, max 0 (needOf needs key)).toNat + 1 : Nat) := by omega
  obtain ⟨x, hf, -, side, hs, hc⟩ :=
    maxFlow_supply (fun key => max 0 (needOf needs key)) (capOf caps)
    (fun item => needs.keys.filter fun key => item ∈ reachOf reach key) _ needs.keys_nodup
      (Finset.nodup_toList (ranges needs reach))
    (fun item _ => needs.keys_nodup.filter _) (fun item _ key hk => (mem_filter.mp hk).1)
    (fun key _ => Int.le_max_left 0 _) (fun item _ => Int.le_max_left 0 _) hb (Nat.le_refl _) hu
  rw [hr] at hf hc
  refine ⟨x, ⟨fun key item hne => ?_, hf.need, hf.cap⟩, side, hs, ?_⟩
  · obtain ⟨hk, hi, hre⟩ := hf.support key item hne
    exact ⟨hk, hi, of_decide_eq_true (mem_filter.mp hre).2⟩
  · refine Eq.trans (cut_congr fun key hk item => ?_) hc
    have hm := mem_toFinset.mp (hs hk)
    simp [hm]

/-- `joint_need_gib` ends, and with the most that the windows can hold at once, which is the least
that a cut holds. -/
theorem jointNeedGib_isGreatest (needs : Needs) (reach : Reach) (caps : Caps) :
    ∃ value : Nat, (∃ enough, ∀ fuel, enough ≤ fuel → jointNeedGib fuel needs reach caps = some
    (value : Int)) ∧
      IsGreatest {n | ∃ x, Holds needs reach caps x ∧ assigned (windows needs) (ranges needs
      reach) x = n} value ∧
      IsLeast {c | ∃ side ⊆ windows needs, cutGib needs reach caps side = c} (value : Int) := by
  obtain ⟨x, hx, side, hs, hc⟩ := exists_holds_cutGib needs reach caps
  have hb : ∀ y, Holds needs reach caps y → ∀ other ⊆ windows needs,
      (assigned (windows needs) (ranges needs reach) y : Int) ≤ cutGib needs reach caps other :=
    fun y hy other ho => hy.assigned_le_cut ho
  refine ⟨assigned (windows needs) (ranges needs reach) x,
    ⟨enoughFuel needs reach caps, fun fuel hf => ?_⟩,
    ⟨⟨x, hx, rfl⟩, ?_⟩, ⟨side, hs, hc⟩, ?_⟩
  · obtain ⟨y, hy, hj, least, hl, hme⟩ := jointNeedGib_assigned hf
    rw [hj]
    congr 1
    -- each of the two values is at most the cut of the other
    have hle := hb x hx least (hl.trans members_subset)
    have hge := hy.assigned_le_cut (Finset.inter_subset_right : side ∩ (members needs).toFinset ⊆ _)
    have hm := cutGib_inter_le needs reach caps side
    rw [← cut_groups Finset.inter_subset_right] at hm
    rw [← cut_groups hl] at hle
    exact Int.le_antisymm (hge.trans (hm.trans (le_of_eq hc))) (hle.trans (le_of_eq hme))
  · rintro n ⟨y, hy, rfl⟩
    have := hb y hy side hs
    omega
  · rintro c ⟨other, ho, rfl⟩
    exact hb x hx other ho

/-- A window whose need is below zero can hold no natural number within it, and is left out of the
answer. -/
theorem jointNeedGib_negative : jointNeedGib 10 [⟨"a", -1⟩, ⟨"b", 1⟩].toAList [⟨"b", ["r"]⟩].toAList
    [⟨"r", 1⟩].toAList = some 1 ∧
      ¬ ∃ x, Feasible (windows [⟨"a", -1⟩, ⟨"b", 1⟩].toAList) (needOf [⟨"a", -1⟩, ⟨"b", 1⟩].toAList)
        (ranges [⟨"a", -1⟩, ⟨"b", 1⟩].toAList [⟨"b", ["r"]⟩].toAList) (capOf [⟨"r", 1⟩].toAList)
        (fun key item => item ∈ reachOf [⟨"b", ["r"]⟩].toAList key) x := by
  refine ⟨by decide, fun ⟨x, hx⟩ => ?_⟩
  have hne := hx.need "a" (by decide)
  have hn : needOf [⟨"a", -1⟩, ⟨"b", 1⟩].toAList "a" = -1 := by decide
  omega

end

end PrismaBuild.WindowCredit
