import PrismaBuild.FlowSupply

namespace PrismaBuild.Flow

open SupplyNode List Finset

variable {α β : Type}

section

/-- An assignment of what the left nodes take from the right nodes that they reach, within the
bounds of both. -/
structure Feasible (lefts : Finset α) (need : α → Int) (rights : Finset β) (cap : β → Int)
    (reach : α → β → Prop)
    (x : α → β → Nat) : Prop where
  support : ∀ a b, x a b ≠ 0 → a ∈ lefts ∧ b ∈ rights ∧ reach a b
  need : ∀ a ∈ lefts, ((∑ b ∈ rights, x a b : Nat) : Int) ≤ need a
  cap : ∀ b ∈ rights, ((∑ a ∈ lefts, x a b : Nat) : Int) ≤ cap b

def assigned (lefts : Finset α) (rights : Finset β) (x : α → β → Nat) : Nat :=
    ∑ a ∈ lefts, ∑ b ∈ rights, x a b

variable [DecidableEq α]

open Classical in
/-- What the left nodes outside `side` need and what the right nodes reached from it hold. -/
noncomputable def cut (lefts : Finset α) (need : α → Int) (rights : Finset β) (cap : β → Int)
    (reach : α → β → Prop)
    (side : Finset α) : Int :=
  ∑ a ∈ lefts \ side, need a + ∑ b ∈ rights with ∃ a ∈ side, reach a b, cap b

variable {lefts side : Finset α} {need : α → Int} {rights : Finset β} {cap : β → Int}
    {reach : α → β → Prop}
  {x : α → β → Nat}

theorem cut_eq {reached : Finset β} (h : ∀ b, b ∈ reached ↔ b ∈ rights ∧ ∃ a ∈ side, reach a b) :
    cut lefts need rights cap reach side = ∑ a ∈ lefts \ side, need a + ∑ b ∈ reached, cap b := by
  classical
  rw [cut]
  congr 2
  exact ext fun b => mem_filter.trans (h b).symm

theorem cut_congr {reach' : α → β → Prop} (h : ∀ a ∈ side, ∀ b, reach a b ↔ reach' a b) :
    cut lefts need rights cap reach side = cut lefts need rights cap reach' side := by
  classical
  have hr : ∀ b, (∃ a ∈ side, reach a b) ↔ ∃ a ∈ side, reach' a b :=
    fun b => exists_congr fun a => and_congr_right fun ha => h a ha b
  rw [cut_eq fun b => mem_filter, cut_eq fun b => mem_filter.trans (and_congr_right fun _ => hr b)]

theorem Feasible.assigned_le_cut (h : Feasible lefts need rights cap reach x) (hsi : side ⊆ lefts) :
    (assigned lefts rights x : Int) ≤ cut lefts need rights cap reach side := by
  classical
  have hs : assigned lefts rights x =
      ∑ a ∈ lefts \ side, ∑ b ∈ rights, x a b + ∑ a ∈ side, ∑ b ∈ rights, x a b :=
      (sum_sdiff hsi).symm
  have ho : ((∑ a ∈ lefts \ side, ∑ b ∈ rights, x a b : Nat) : Int) ≤ ∑ a ∈ lefts \ side,
    need a := by
    rw [Nat.cast_sum]
    exact sum_le_sum fun a ha => h.need a (mem_sdiff.mp ha).1
  -- what is taken from inside is taken from right nodes that the side reaches
  have hi : ((∑ a ∈ side, ∑ b ∈ rights, x a b : Nat) : Int) ≤ ∑ b ∈ rights with ∃ a ∈ side,
    reach a b, cap b := by
    rw [sum_comm, sum_filter, Nat.cast_sum]
    refine sum_le_sum fun b hb => ?_
    by_cases hr : ∃ a ∈ side, reach a b
    · rw [if_pos hr]
      have hle : ∑ a ∈ side, x a b ≤ ∑ a ∈ lefts, x a b := sum_le_sum_of_subset hsi
      have := h.cap b hb
      omega
    · rw [if_neg hr]
      have hz : ∑ a ∈ side, x a b = 0 := by
        refine sum_eq_zero fun a ha => ?_
        by_contra hne
        exact hr ⟨a, ha, (h.support a b hne).2.2⟩
      omega
  rw [cut_eq fun b => mem_filter]
  omega

end

section

variable [DecidableEq α] [DecidableEq β]

def supplyNodes (lefts : Finset α) (rights : Finset β) : Finset (SupplyNode α β) :=
  insert source (insert sink (lefts.image left ∪ rights.image right))

theorem mem_supplyNodes {lefts : Finset α} {rights : Finset β} {v : SupplyNode α β} :
    v ∈ supplyNodes lefts rights ↔
      v = source ∨ v = sink ∨ (∃ a ∈ lefts, left a = v) ∨ ∃ b ∈ rights, right b = v := by
  simp [supplyNodes]

theorem sum_supplyNodes (lefts : Finset α) (rights : Finset β) (g : SupplyNode α β → Int) :
    ∑ v ∈ supplyNodes lefts rights, g v = g source +
    (g sink + (∑ a ∈ lefts, g (left a) + ∑ b ∈ rights, g (right b))) := by
  have hd : Disjoint (lefts.image (left (β := β))) (rights.image (right (α := α))) := by
    refine disjoint_left.mpr fun v hl hr => ?_
    obtain ⟨a, -, rfl⟩ := mem_image.mp hl
    obtain ⟨b, -, hb⟩ := mem_image.mp hr
    cases hb
  rw [supplyNodes, sum_insert (by simp), sum_insert (by simp), sum_union hd,
    sum_image fun _ _ _ _ h => by cases h; rfl, sum_image fun _ _ _ _ h => by cases h; rfl]

end

section

variable [DecidableEq α] [DecidableEq β] {lefts : List α} {need : α → Int} {rights : List β}
    {cap : β → Int}
  {readers : β → List α} {bound value : Int} {res : SupplyNode α β → SupplyNode α β → Int}

theorem supplyCap_nonneg (hn : ∀ a ∈ lefts, 0 ≤ need a) (hc : ∀ b ∈ rights, 0 ≤ cap b)
    (hb : 0 ≤ bound)
    (u v : SupplyNode α β) : 0 ≤ supplyCap lefts need rights cap readers bound u v := by
  cases u <;> cases v <;> simp only [supplyCap, Int.le_refl] <;> split <;> rename_i h
  · exact hn _ h
  · exact Int.le_refl 0
  · exact hb
  · exact Int.le_refl 0
  · exact hc _ h
  · exact Int.le_refl 0

omit [DecidableEq α] [DecidableEq β] in
theorem IsFlow.res_eq_zero {V : Type} [DecidableEq V] {nodes : Finset V} {source sink : V}
    {cap res : V → V → Int}
    (h : IsFlow nodes source sink cap res value) {u v : V} (huv : cap u v = 0) (hvu : cap v u = 0) :
      res u v = 0 := by
  have hp := h.paired u v
  have hf := h.nonneg u v
  have hb := h.nonneg v u
  omega

abbrev SupplyFlow (lefts : List α) (need : α → Int) (rights : List β) (cap : β → Int)
    (readers : β → List α) (bound : Int)
    (res : SupplyNode α β → SupplyNode α β → Int) (value : Int) : Prop :=
  IsFlow (supplyNodes lefts.toFinset rights.toFinset) source sink
    (supplyCap lefts need rights cap readers bound) res value

variable (h : SupplyFlow lefts need rights cap readers bound res value)

include h

theorem SupplyFlow.sent (a : α) (b : β) :
    supplyCap lefts need rights cap readers bound (left a) (right b) - res (left a) (right b) =
    res (right b) (left a) := by
  have hp := h.paired (left a) (right b)
  have hb : supplyCap lefts need rights cap readers bound (right b) (left a) = 0 := rfl
  omega

theorem SupplyFlow.left_balance {a : α} (ha : a ∈ lefts) :
    ∑ b ∈ rights.toFinset, res (right b) (left a) = need a - res source (left a) := by
  have hm : left a ∈ supplyNodes lefts.toFinset rights.toFinset :=
    mem_supplyNodes.mpr (.inr (.inr (.inl ⟨a, mem_toFinset.mpr ha, rfl⟩)))
  have hb := h.balance (left a) hm (by simp)
  rw [outflow, sum_supplyNodes, if_neg (by simp), Finset.sum_congr rfl fun b _ => h.sent a b] at hb
  have hl : ∑ a' ∈ lefts.toFinset, (supplyCap lefts need rights cap readers bound (left a) (left a')
    - res (left a) (left a')) = 0 := by
    refine Finset.sum_eq_zero fun a' _ => ?_
    rw [h.res_eq_zero rfl rfl]
    rfl
  have hs : supplyCap lefts need rights cap readers bound (left a) sink - res (left a) sink =
    0 := by
    rw [h.res_eq_zero rfl rfl]
    rfl
  have hp := h.paired source (left a)
  have hn : supplyCap lefts need rights cap readers bound source (left a) = need a := if_pos ha
  have hba : supplyCap lefts need rights cap readers bound (left a) source = 0 := rfl
  omega

theorem SupplyFlow.right_balance {b : β} (hb : b ∈ rights) :
    ∑ a ∈ lefts.toFinset, res (right b) (left a) = cap b - res (right b) sink := by
  have hm : right b ∈ supplyNodes lefts.toFinset rights.toFinset :=
    mem_supplyNodes.mpr (.inr (.inr (.inr ⟨b, mem_toFinset.mpr hb, rfl⟩)))
  have hba := h.balance (right b) hm (by simp)
  rw [outflow, sum_supplyNodes, if_neg (by simp)] at hba
  have hr : ∑ b' ∈ rights.toFinset,
      (supplyCap lefts need rights cap readers bound (right b) (right b') - res (right b)
      (right b')) = 0 := by
    refine Finset.sum_eq_zero fun b' _ => ?_
    rw [h.res_eq_zero rfl rfl]
    rfl
  have hl : ∑ a ∈ lefts.toFinset, (supplyCap lefts need rights cap readers bound (right b) (left a)
    - res (right b) (left a)) =
      - ∑ a ∈ lefts.toFinset, res (right b) (left a) := by
    rw [← Finset.sum_neg_distrib]
    exact Finset.sum_congr rfl fun a _ => Int.zero_sub _
  have hs : supplyCap lefts need rights cap readers bound (right b) source - res (right b) source =
    0 := by
    rw [h.res_eq_zero rfl rfl]
    rfl
  have hc : supplyCap lefts need rights cap readers bound (right b) sink = cap b := if_pos hb
  omega

theorem SupplyFlow.source_balance :
    ∑ a ∈ lefts.toFinset, (need a - res source (left a)) = value := by
  have hm : source ∈ supplyNodes lefts.toFinset rights.toFinset := mem_supplyNodes.mpr (.inl rfl)
  have hb := h.balance source hm (by simp)
  rw [outflow, sum_supplyNodes, if_pos rfl] at hb
  have hz : ∀ v, (∀ a, v ≠ left a) →
      supplyCap lefts need rights cap readers bound source v - res source v = 0 := by
    intro v hv
    cases v with
    | left a => exact absurd rfl (hv a)
    | source | sink | right b =>
      rw [h.res_eq_zero rfl rfl]
      rfl
  have hr : ∑ b ∈ rights.toFinset, (supplyCap lefts need rights cap readers bound source (right b) -
    res source (right b)) = 0 :=
    sum_eq_zero fun b _ => hz (right b) (by simp)
  have hl : ∑ a ∈ lefts.toFinset, (supplyCap lefts need rights cap readers bound source (left a) -
    res source (left a)) =
      ∑ a ∈ lefts.toFinset, (need a - res source (left a)) := by
    refine sum_congr rfl fun a ha => ?_
    have hn : supplyCap lefts need rights cap readers bound source (left a) = need a :=
      if_pos (mem_toFinset.mp ha)
    rw [hn]
  have hs := hz source (by simp)
  have hsi := hz sink (by simp)
  omega

theorem SupplyFlow.feasible : Feasible lefts.toFinset need rights.toFinset cap
    (fun a b => a ∈ readers b)
        (fun a b => if a ∈ lefts then (res (right b) (left a)).toNat else 0) ∧
        (assigned lefts.toFinset rights.toFinset
        (fun a b => if a ∈ lefts then (res (right b) (left a)).toNat else 0) : Int) = value := by
  have hc : ∀ a ∈ lefts.toFinset, ∀ b,
    ((if a ∈ lefts then (res (right b) (left a)).toNat else 0 : Nat) : Int) =
      res (right b) (left a) := by
    intro a ha b
    rw [if_pos (mem_toFinset.mp ha)]
    exact Int.toNat_of_nonneg (h.nonneg _ _)
  have hr : ∀ a ∈ lefts.toFinset,
      ((∑ b ∈ rights.toFinset, if a ∈ lefts then (res (right b) (left a)).toNat else
      0 : Nat) : Int) =
        need a - res source (left a) := by
    intro a ha
    rw [Nat.cast_sum, sum_congr rfl fun b _ => hc a ha b]
    exact h.left_balance (mem_toFinset.mp ha)
  refine ⟨⟨fun a b hne => ?_, fun a ha => ?_, fun b hb => ?_⟩, ?_⟩
  · -- only along an edge of the network is something sent
    by_cases ha : a ∈ lefts
    · rw [if_pos ha] at hne
      refine ⟨mem_toFinset.mpr ha, ?_⟩
      by_contra hn
      have he : supplyCap lefts need rights cap readers bound (left a) (right b) = 0 := by
        refine if_neg fun hbo => hn ⟨mem_toFinset.mpr hbo.1, hbo.2⟩
      rw [h.res_eq_zero rfl he] at hne
      exact hne rfl
    · rw [if_neg ha] at hne
      exact absurd rfl hne
  · have := h.nonneg source (left a)
    rw [hr a ha]
    omega
  · have := h.nonneg (right b) sink
    rw [Nat.cast_sum, sum_congr rfl fun a ha => hc a ha b, h.right_balance (mem_toFinset.mp hb)]
    omega
  · rw [assigned, Nat.cast_sum, sum_congr rfl hr]
    exact h.source_balance

theorem SupplyFlow.cut_le
    (hbo : ∀ a ∈ lefts, need a < bound) {side : Finset (SupplyNode α β)} (hso : source ∈ side)
    (hsi : sink ∉ side) (hf : ∀ u ∈ side, ∀ v, v ∉ side → res u v = 0) :
    cut lefts.toFinset need rights.toFinset cap (fun a b => a ∈ readers b)
      {a ∈ lefts.toFinset | left a ∈ side} ≤ value := by
  -- a right node that is reached from the side is on it, as the edge to it would have room
  have hre : ∀ a ∈ lefts, left a ∈ side → ∀ b ∈ rights, right b ∉ side → a ∉ readers b := by
    intro a ha hl b hb hri hr
    have hs := h.sent a b
    have he : supplyCap lefts need rights cap readers bound (left a) (right b) = bound :=
      if_pos ⟨hb, hr⟩
    have hroo := hf _ hl _ hri
    have hrow := h.left_balance ha
    have ht :=
      Finset.single_le_sum (f := fun b => res (right b) (left a)) (fun _ _ => h.nonneg _ _)
        (mem_toFinset.mpr hb)
    have hne := hbo a ha
    have hn := h.nonneg source (left a)
    omega
  have hro : value = ∑ a ∈ lefts.toFinset, ∑ b ∈ rights.toFinset, res (right b) (left a) := by
    rw [← h.source_balance]
    exact Finset.sum_congr rfl fun a ha => (h.left_balance (mem_toFinset.mp ha)).symm
  rw [hro, ← Finset.sum_sdiff (Finset.filter_subset (fun a => left a ∈ side) lefts.toFinset),
    cut_eq fun b => Finset.mem_filter]
  -- outside, all that is needed was sent
  have ho : ∑ a ∈ lefts.toFinset \ {a ∈ lefts.toFinset | left a ∈ side}, need a =
      ∑ a ∈ lefts.toFinset \ {a ∈ lefts.toFinset | left a ∈ side}, ∑ b ∈ rights.toFinset,
      res (right b) (left a) := by
    refine Finset.sum_congr rfl fun a ha => ?_
    obtain ⟨hm, hnot⟩ := Finset.mem_sdiff.mp ha
    have hou : left a ∉ side := fun hin => hnot (Finset.mem_filter.mpr ⟨hm, hin⟩)
    rw [h.left_balance (mem_toFinset.mp hm), hf _ hso _ hou, Int.sub_zero]
  -- inside, all that the reached right nodes hold was sent
  have hi : ∑ b ∈ rights.toFinset with ∃ a ∈ ({a ∈ lefts.toFinset | left a ∈ side} : Finset α),
    a ∈ readers b, cap b ≤
      ∑ a ∈ lefts.toFinset with left a ∈ side, ∑ b ∈ rights.toFinset, res (right b) (left a) := by
    rw [Finset.sum_comm, Finset.sum_filter]
    refine Finset.sum_le_sum fun b hb => ?_
    have hb := mem_toFinset.mp hb
    by_cases hr : ∃ a ∈ ({a ∈ lefts.toFinset | left a ∈ side} : Finset α), a ∈ readers b
    · rw [if_pos hr]
      obtain ⟨a, ha, hr⟩ := hr
      obtain ⟨hm, hl⟩ := Finset.mem_filter.mp ha
      have hri : right b ∈ side := by
        by_contra hri
        exact hre a (mem_toFinset.mp hm) hl b hb hri hr
      have hal := h.right_balance hb
      rw [hf _ hri _ hsi, ← Finset.sum_sdiff
        (Finset.filter_subset (fun a => left a ∈ side) lefts.toFinset)] at hal
      have hno : ∑ a ∈ lefts.toFinset \ {a ∈ lefts.toFinset | left a ∈ side},
        res (right b) (left a) = 0 := by
        refine Finset.sum_eq_zero fun a ha => ?_
        obtain ⟨hm, hnot⟩ := Finset.mem_sdiff.mp ha
        exact hf _ hri _ fun hin => hnot (Finset.mem_filter.mpr ⟨hm, hin⟩)
      omega
    · rw [if_neg hr]
      exact Finset.sum_nonneg fun a _ => h.nonneg _ _
  rw [ho]
  omega

end

section

variable [DecidableEq α] [DecidableEq β] {lefts : List α} {need : α → Int} {rights : List β}
    {cap : β → Int}
  {readers : β → List α} {bound : Int}

theorem supplyEdges_ends (need : α → Int) (cap : β → Int) (bound : Int)
    (hr : ∀ b ∈ rights, ∀ a ∈ readers b, a ∈ lefts) :
    ∀ e ∈ supplyEdges lefts need rights cap readers bound,
      e.1 ∈ supplyNodes lefts.toFinset rights.toFinset ∧
      e.2.1 ∈ supplyNodes lefts.toFinset rights.toFinset := by
  intro e he
  rcases mem_append.mp he with he | he
  · obtain ⟨a, ha, rfl⟩ := mem_map.mp he
    simp [mem_supplyNodes, ha]
  · obtain ⟨b, hb, he⟩ := mem_flatMap.mp he
    rcases mem_cons.mp he with rfl | he
    · simp [mem_supplyNodes, hb]
    · obtain ⟨a, ha, rfl⟩ := mem_map.mp he
      simp [mem_supplyNodes, hb, hr b hb a ha]

theorem card_supplyNodes_le : (supplyNodes lefts.toFinset rights.toFinset).card ≤ lefts.length +
    rights.length + 2 := by
  have hl := (card_image_le (f := left (β := β))).trans (toFinset_card_le lefts)
  have hr := (card_image_le (f := right (α := α))).trans (toFinset_card_le rights)
  have hu := card_union_le (lefts.toFinset.image (left (β := β)))
    (rights.toFinset.image (right (α := α)))
  have hsi := card_insert_le sink (lefts.toFinset.image (left (β := β)) ∪ rights.toFinset.image
    (right (α := α)))
  have hs := card_insert_le source
    (insert sink (lefts.toFinset.image (left (β := β)) ∪ rights.toFinset.image (right (α := α))))
  rw [supplyNodes]
  omega

theorem sum_supplyCap_source : ∑ v ∈ supplyNodes lefts.toFinset rights.toFinset,
    supplyCap lefts need rights cap readers bound source v = ∑ a ∈ lefts.toFinset, need a := by
  have hl : ∑ a ∈ lefts.toFinset, supplyCap lefts need rights cap readers bound source (left a) =
      ∑ a ∈ lefts.toFinset, need a := by
    exact sum_congr rfl fun a ha => if_pos (mem_toFinset.mp ha)
  have hr : ∑ b ∈ rights.toFinset, supplyCap lefts need rights cap readers bound source (right b) =
    0 :=
    sum_eq_zero fun _ _ => rfl
  rw [sum_supplyNodes, hl, hr]
  show 0 + (0 + (_ + 0)) = _
  omega

theorem maxFlow_supply (need : α → Int) (cap : β → Int) (readers : β → List α) (bound : Int)
    (hlef : lefts.Nodup) (hri : rights.Nodup) (hno : ∀ b ∈ rights, (readers b).Nodup)
    (hr : ∀ b ∈ rights, ∀ a ∈ readers b, a ∈ lefts) (hn : ∀ a ∈ lefts, 0 ≤ need a)
    (hca : ∀ b ∈ rights, 0 ≤ cap b) (hbo : ∑ a ∈ lefts.toFinset, need a < bound) {steps fuel : Nat}
    (hst : lefts.length + rights.length + 2 ≤ steps) (hfue : ∑ a ∈ lefts.toFinset, need a < fuel) :
    ∃ x, Feasible lefts.toFinset need rights.toFinset cap (fun a b => a ∈ readers b) x ∧
      maxFlow source sink bound steps fuel
      (network (supplyEdges lefts need rights cap readers bound)) 0 =
        some (assigned lefts.toFinset rights.toFinset x : Int) ∧ ∃ side ⊆ lefts.toFinset,
        cut lefts.toFinset need rights.toFinset cap (fun a b => a ∈ readers b) side =
        assigned lefts.toFinset rights.toFinset x := by
  have hsu := sum_nonneg fun a ha => hn a (mem_toFinset.mp ha)
  have hc : capacity (supplyEdges lefts need rights cap readers bound) = supplyCap lefts need rights
    cap readers bound :=
    funext fun u => funext fun v => capacity_supplyEdges hlef hri hno u v
  have hre : (network (supplyEdges lefts need rights cap readers bound)).res = supplyCap lefts need
    rights cap readers bound :=
    funext fun u => funext fun v => (network_res _ u v).trans (by rw [hc])
  have hl := linked_network (supplyEdges_ends need cap bound hr)
  rw [hc] at hl
  have hz : SupplyFlow lefts need rights cap readers bound
      (network (supplyEdges lefts need rights cap readers bound)).res 0 := by
    rw [hre]
    exact isFlow_zero (supplyCap_nonneg hn hca (by omega))
  have hm : source ∈ supplyNodes lefts.toFinset rights.toFinset := mem_supplyNodes.mpr (.inl rfl)
  have hlo : (∑ v ∈ supplyNodes lefts.toFinset rights.toFinset,
      supplyCap lefts need rights cap readers bound source v) - 0 < (fuel : Int) := by
    rw [sum_supplyCap_source]
    omega
  obtain ⟨best, hb, ⟨res, hfl, side, -, hs, hsi, hfu⟩⟩ := maxFlow_saturated hm
    (nofun : source ≠ sink)
    (by omega : 0 < bound) (card_supplyNodes_le.trans hst) hl hz hlo
  obtain ⟨hf, hv⟩ := SupplyFlow.feasible hfl
  refine ⟨_, hf, by rw [hv]; exact hb, _, filter_subset (fun a => left a ∈ side) _, ?_⟩
  have hle := SupplyFlow.cut_le hfl (fun a ha => ?_) hs hsi hfu
  · have hge := hf.assigned_le_cut (filter_subset (fun a => left a ∈ side) _)
    omega
  · have ht := single_le_sum (fun a ha => hn a (mem_toFinset.mp ha)) (mem_toFinset.mpr ha)
    omega

end

end PrismaBuild.Flow
