import PrismaBuild.NameOrder
import PrismaBuild.Ranking

namespace PrismaBuild.ReadyOrder

open Ranking List

/-- A ready record, as the claim reads it. `tags` is `none` for what is no list, and `canary` says
whether it carries a verified publication mark. -/
structure Row (τ : Type) where
  key : Name
  priority : Int
  published : τ
  needsGpu : Bool
  gpu : Int
  tags : Option (List Name)
  canary : Bool
  deriving DecidableEq

structure Placement where
  tags : List Name
  hasGpu : Bool

/-- `ready/`, in the order of its listing. -/
structure Queue (τ : Type) where
  rows : List (Row τ)
  distinct : (rows.map Row.key).Nodup
  passes : Name → Int

structure Item (τ : Type) where
  row : Row τ
  passes : Option Int

section

variable {τ : Type}

/-- An item whose tags are no list cannot be judged. -/
def placementMatches (p : Placement) (r : Row τ) : Option Bool :=
  if (r.needsGpu || 0 < r.gpu) && !p.hasGpu then some false
  else r.tags.map fun required => required.all (· ∈ p.tags)

def placeable (p : Placement) (r : Row τ) : Bool := (placementMatches p r).getD true

def boosted (p : Placement) (r : Row τ) : Bool := r.canary && placementMatches p r = some true

def promote (p : Placement) (ready : List (Item τ)) : List (Item τ) :=
  (ready.filter fun i => boosted p i.row) ++ ready.filter fun i => !boosted p i.row

def queueOrderOf (i : Item τ) : Int ×ₗ Int ×ₗ τ :=
    toLex (-i.row.priority, toLex (-i.passes.getD 0, i.row.published))

variable (queue : Queue τ)

def listed (p : Placement) (r : Row τ) : Item τ :=
    ⟨r, if placeable p r then some (queue.passes r.key) else none⟩

def filled (p : Placement) (i : Item τ) : Item τ :=
  if i.passes = none ∧ placeable p i.row then { i with passes := some (queue.passes i.row.key) }
    else i

def age (r : Row τ) : Int ×ₗ Int ×ₗ τ := queueOrderOf ⟨r, some (queue.passes r.key)⟩

section

variable {queue : Queue τ} {p q : Placement} {r : Row τ}

theorem age_listed (h : placeable p r = true) : queueOrderOf (listed queue p r) = age queue r := by
  rw [listed, if_pos h]
  rfl

theorem age_filled (h : placeable q r = true) :
    queueOrderOf (filled queue q (listed queue p r)) = age queue r := by
  cases hp : placeable p r with
  | true => simp [listed, filled, hp, age]
  | false => simp [listed, filled, hp, h, age]

theorem boosted_eq (hp : placeable p r = true) (hq : placeable q r = true) :
    boosted p r = boosted q r := by
  unfold placeable placementMatches at hp hq
  unfold boosted placementMatches
  split at hp
  next => cases hp
  next hg =>
    split at hq
    next => cases hq
    next hg' =>
      rw [if_neg hg, if_neg hg']
      cases ht : r.tags with
      | none => rfl
      | some required =>
        rw [ht] at hp hq
        have ha := Eq.trans hp hq.symm
        simp only [Option.map_some, Option.getD_some] at ha ⊢
        simp only [ha]

end

variable [LinearOrder τ]

def readyItems (p : Placement) : List (Item τ) :=
    promote p (sortBy queueOrderOf (queue.rows.map (listed queue p)))

def agedFor (p : Placement) (ready : List (Item τ)) : List (Item τ) :=
  if ∃ i ∈ ready, i.passes = none ∧ placeable p i.row then
    sortBy queueOrderOf (ready.map (filled queue p)) else ready

def placed (p : Placement) (ready : List (Item τ)) : List (Row τ) :=
    (ready.map Item.row).filter (placeable p)

section

variable {queue : Queue τ} {p q : Placement} {r : Row τ}

def ListedBefore (queue : Queue τ) (a b : Row τ) : Prop := queue.rows.idxOf a < queue.rows.idxOf b

/-- The order of `ready_items` under a placement. -/
def Before (queue : Queue τ) (p : Placement) : Row τ → Row τ → Prop :=
  Later (fun r => !boosted p r) (Later (fun r => queueOrderOf (listed queue p r))
    (ListedBefore queue))

theorem rows_listed (queue : Queue τ) : queue.rows.Pairwise (ListedBefore queue) := by
  refine pairwise_iff_getElem.mpr fun i j hi hj hlt => ?_
  unfold ListedBefore
  rwa [queue.distinct.of_map.idxOf_getElem, queue.distinct.of_map.idxOf_getElem]

theorem before_asymm (queue : Queue τ) (p : Placement) (a b : Row τ) (h : Before queue p a b) :
    ¬ Before queue p b a :=
  h.asymm (Later.asymm fun hab => lt_asymm hab)

/-- The rows of `ready_items`. -/
def ranked (queue : Queue τ) (p : Placement) : List (Row τ) :=
  let rows := sortBy (fun r => queueOrderOf (listed queue p r)) queue.rows
  rows.filter (boosted p) ++ rows.filter fun r => !boosted p r

theorem sortBy_map {α : Type} (f : α → Item τ) (l : List α) :
    sortBy queueOrderOf (l.map f) = (sortBy (fun a => queueOrderOf (f a)) l).map f :=
  (map_insertionSort _ _ f l fun _ _ _ _ => Iff.rfl).symm

theorem readyItems_eq (queue : Queue τ) (p : Placement) :
    readyItems queue p = (ranked queue p).map (listed queue p) := by
  rw [readyItems, sortBy_map, promote, filter_map, filter_map, ranked, map_append]
  rfl

theorem ranked_pairwise (queue : Queue τ) (p : Placement) :
    (ranked queue p).Pairwise (Before queue p) :=
  partition_pairwise _ (sortBy_pairwise _ (rows_listed queue))

theorem ranked_perm (queue : Queue τ) (p : Placement) : (ranked queue p).Perm queue.rows :=
  (filter_append_perm _ _).trans (perm_insertionSort _ _)

theorem placed_readyItems (queue : Queue τ) (p q : Placement) :
    placed q (readyItems queue p) = (ranked queue p).filter (placeable q) := by
  rw [placed, readyItems_eq, map_map]
  exact congrArg _ (map_id _)

/-- Every promoted canary comes before the other rows by its age already, and rows that tie keep
their places. -/
structure Keeps (queue : Queue τ) (p q : Placement) : Prop where
  promoted : ∀ a ∈ queue.rows, ∀ b ∈ queue.rows, placeable q a = true → placeable q b = true →
    boosted q a = true → boosted q b = false → Later (age queue) (Before queue p) a b
  tied : ∀ a ∈ queue.rows, ∀ b ∈ queue.rows, placeable q a = true → placeable q b = true →
    boosted q a = boosted q b → age queue a = age queue b → ListedBefore queue a b →
    Before queue p a b

theorem keeps_iff : Keeps queue p q ↔ ∀ a ∈ (ranked queue q).filter (placeable q),
    ∀ b ∈ (ranked queue q).filter (placeable q),
    Before queue q a b → Later (age queue) (Before queue p) a b := by
  simp only [mem_filter, (ranked_perm queue q).mem_iff]
  constructor
  · rintro h a ⟨ha, hpa⟩ b ⟨hb, hpb⟩ (hlt | ⟨heq, hle⟩)
    · rw [Bool.lt_iff, Bool.not_eq_false', Bool.not_eq_true'] at hlt
      exact h.promoted a ha b hb hpa hpb hlt.1 hlt.2
    · simp only [Later, age_listed hpa, age_listed hpb] at hle
      rcases hle with hlt | ⟨hag, hl⟩
      · exact .inl hlt
      · exact .inr ⟨hag, h.tied a ha b hb hpa hpb (Bool.not_inj heq) hag hl⟩
  · intro h
    refine ⟨fun a ha b hb hpa hpb hbo hp => ?_, fun a ha b hb hpa hpb hbo hag hl => ?_⟩
    · refine h a ⟨ha, hpa⟩ b ⟨hb, hpb⟩ (.inl ?_)
      simp only [hbo, hp]
      decide
    · have hbe : Before queue q a b := by
        refine .inr ⟨congrArg not hbo, .inr ⟨?_, hl⟩⟩
        simp only [age_listed hpa, age_listed hpb, hag]
      rcases h a ⟨ha, hpa⟩ b ⟨hb, hpb⟩ hbe with hlt | hle
      · exact absurd hag (ne_of_lt hlt)
      · exact hle.2

end

/-- The rows that a claimant can place stand in the re-aged list as in its own exactly when no count
had to be filled in, or the promoted ones lose nothing by the sort and rows that tie are told apart
alike. -/
theorem agedFor_order_iff (queue : Queue τ) (p q : Placement) :
    placed q (agedFor queue q (readyItems queue p)) = placed q (readyItems queue q) ↔
      (∀ r ∈ queue.rows, placeable q r = true → placeable p r = true) ∨ Keeps queue p q := by
  have hra := (ranked_pairwise queue p).filter (placeable q)
  have ho := (ranked_pairwise queue q).filter (placeable q)
  have hs : ∀ {rows : List (Row τ)}, rows.Perm queue.rows →
      (rows.filter (placeable q)).Perm ((ranked queue q).filter (placeable q)) :=
    fun hpe => (hpe.trans (ranked_perm queue q).symm).filter _
  rw [placed_readyItems, agedFor]
  split
  next hf =>
    obtain ⟨i, hi, hn, hpl⟩ := hf
    rw [readyItems_eq] at hi
    obtain ⟨r, hr, rfl⟩ := mem_map.mp hi
    rw [or_iff_right, keeps_iff, readyItems_eq, map_map, sortBy_map, placed, map_map]
    · have hro : (Item.row ∘ filled queue q ∘ listed queue p) = id := by
        funext r
        show (filled queue q (listed queue p r)).row = r
        unfold filled
        split <;> rfl
      rw [hro, map_id]
      refine arranged_eq_iff (before_asymm queue q)
        (fun a b h => h.asymm (before_asymm queue p a b)) (hs ?_) ho ?_
      · exact (perm_insertionSort _ _).trans (ranked_perm queue p)
      · refine ((sortBy_pairwise _ (ranked_pairwise queue p)).filter _).imp_of_mem fun ha hb hab =>
          ?_
        simp only [Later, Function.comp_apply, age_filled (mem_filter.mp ha).2,
          age_filled (mem_filter.mp hb).2] at hab
        exact hab
    · intro hal
      have := hal r ((ranked_perm queue p).mem_iff.mp hr) hpl
      simp [listed, this] at hn
  next hf =>
    have hal : ∀ r ∈ queue.rows, placeable q r = true → placeable p r = true := by
      intro r hr hpl
      by_contra hp
      refine hf ⟨listed queue p r, ?_, ?_, hpl⟩
      · rw [readyItems_eq]
        exact mem_map_of_mem ((ranked_perm queue p).mem_iff.mpr hr)
      · exact if_neg hp
    refine iff_of_true ?_ (.inl hal)
    rw [placed_readyItems]
    refine (arranged_eq_iff (before_asymm queue q) (before_asymm queue p) (hs (ranked_perm queue p))
      ho hra).mpr ?_
    intro a ha b hb hbe
    obtain ⟨ha, hqa⟩ := mem_filter.mp ha
    obtain ⟨hb, hqb⟩ := mem_filter.mp hb
    have hpa := hal a ((ranked_perm queue q).mem_iff.mp ha) hqa
    have hpb := hal b ((ranked_perm queue q).mem_iff.mp hb) hqb
    simp only [Before, Later, boosted_eq hpa hqa, boosted_eq hpb hqb, age_listed hpa,
      age_listed hpb] at hbe ⊢
    simpa only [age_listed hqa, age_listed hqb] using hbe

/-- A canary and an ordinary row that asks for a tag: the claimant with the tag fills in a count,
and the canary stands last again. -/
theorem canary_sinks : ∃ (queue : Queue Nat) (p q : Placement),
    placed q (agedFor queue q (readyItems queue p)) ≠ placed q (readyItems queue q) := by
  refine ⟨⟨[⟨"a".toList, -10, 1, true, 1, some ["canary".toList], true⟩,
    ⟨"b".toList, 0, 2, false, 0, some ["site".toList], false⟩], by decide, fun _ => 0⟩,
    ⟨["canary".toList], true⟩, ⟨["canary".toList, "site".toList], true⟩, ?_⟩
  decide +kernel

end

end PrismaBuild.ReadyOrder
