import Mathlib

namespace PrismaBuild.Spans

open List

variable {α : Type} (size : α → Int)

def total (items : List α) : Int := (items.map size).sum

@[simp] theorem total_nil : total size [] = 0 := rfl

@[simp] theorem total_cons (item : α) (items : List α) :
    total size (item :: items) = size item + total size items := by
  simp [total]

@[simp] theorem total_append (a b : List α) :
    total size (a ++ b) = total size a + total size b := by
  simp [total]

variable {size} {items : List α} {hi lo start : Int}

theorem total_nonneg (h : ∀ item ∈ items, 0 < size item) : 0 ≤ total size items := by
  induction items with
  | nil => exact Int.le_refl 0
  | cons item items ih =>
    have hit := h item (.head _)
    have hr := ih fun i hi => h i (.tail _ hi)
    rw [total_cons]
    omega

theorem total_pos (h : ∀ item ∈ items, 0 < size item) (hne : items ≠ []) :
    0 < total size items := by
  obtain ⟨item, rest, rfl⟩ := exists_cons_of_ne_nil hne
  have hit := h item (.head _)
  have hr := total_nonneg fun i hi => h i (.tail _ hi)
  rw [total_cons]
  omega

variable (size)

/-- A position between two neighbouring items, or at an end of the list. -/
def Boundary (items : List α) (x : Int) : Prop := ∃ before after, items = before ++ after ∧
    x = total size before

def spans (start : Int) : List (List α) → List (Int × Int)
  | [] => []
  | group :: groups => (start, start + total size group) :: spans (start + total size group) groups

/-- Non-empty half-open ranges that follow one another from `lo` to `hi`. -/
def Tiles : Int → List (Int × Int) → Int → Prop
  | lo, [], hi => lo = hi
  | lo, (a, b) :: rest, hi => a = lo ∧ lo < b ∧ Tiles b rest hi

variable {size}

theorem Tiles.append {lo mid hi : Int} {a b : List (Int × Int)} (ha : Tiles lo a mid)
    (hb : Tiles mid b hi) : Tiles lo (a ++ b) hi := by
  induction a generalizing lo with
  | nil =>
    have hlo : lo = mid := ha
    rwa [nil_append, hlo]
  | cons span a ih =>
    obtain ⟨hs, hp, hr⟩ := ha
    exact ⟨hs, hp, ih hr⟩

variable {ranges : List (Int × Int)} (h : Tiles lo ranges hi)

include h

theorem Tiles.le_of_mem : ∀ range ∈ ranges, lo ≤ range.1 := by
  induction ranges generalizing lo with
  | nil => exact forall_mem_nil _
  | cons span ranges ih =>
    obtain ⟨hs, hp, hre⟩ := h
    refine forall_mem_cons.mpr ⟨Int.le_of_eq hs.symm, fun range hr => ?_⟩
    have := ih hre range hr
    omega

theorem Tiles.nonempty : ∀ range ∈ ranges, range.1 < range.2 := by
  induction ranges generalizing lo with
  | nil => exact forall_mem_nil _
  | cons span ranges ih =>
    obtain ⟨hs, hp, hr⟩ := h
    exact forall_mem_cons.mpr ⟨hs ▸ hp, ih hr⟩

theorem Tiles.pairwise : ranges.Pairwise fun a b => a.1 < b.1 := by
  induction ranges generalizing lo with
  | nil => exact .nil
  | cons span ranges ih =>
    obtain ⟨hs, hp, hr⟩ := h
    refine pairwise_cons.mpr ⟨fun range hra => ?_, ih hr⟩
    have := hr.le_of_mem range hra
    omega

theorem Tiles.nodup : ranges.Nodup := by
  refine h.pairwise.imp fun {a b} hlt heq => ?_
  rw [heq] at hlt
  exact Int.lt_irrefl _ hlt

theorem Tiles.last : hi = (ranges.getLast?.map Prod.snd).getD lo := by
  induction ranges generalizing lo with
  | nil =>
    have hlo : lo = hi := h
    exact hlo.symm
  | cons span ranges ih =>
    obtain ⟨-, -, hr⟩ := h
    rw [ih hr, getLast?_cons]
    cases ranges.getLast? <;> rfl

omit h

theorem spans_append (start : Int) (a b : List (List α)) :
    spans size start (a ++ b) = spans size start a ++ spans size (start + total size a.flatten)
    b := by
  induction a generalizing start with
  | nil => simp [spans]
  | cons group a ih =>
    rw [cons_append, spans, ih, spans, cons_append, flatten_cons, total_append, Int.add_assoc]

variable {groups : List (List α)}

theorem spans_tiles (h : ∀ group ∈ groups, 0 < total size group) :
    Tiles start (spans size start groups) (start + total size groups.flatten) := by
  induction groups generalizing start with
  | nil =>
    show start = start + total size []
    rw [total_nil, Int.add_zero]
  | cons group groups ih =>
    have hgr := h group (.head _)
    have hr : Tiles (start + total size group) _ _ := ih fun g hg => h g (.tail _ hg)
    rw [flatten_cons, total_append, ← Int.add_assoc]
    exact ⟨rfl, by omega, hr⟩

theorem exists_group_of_mem_spans {span : Int × Int} (h : span ∈ spans size start groups) :
    ∃ before group after, groups = before ++ group :: after ∧
    span.1 = start + total size before.flatten ∧
      span.2 = span.1 + total size group := by
  induction groups generalizing start with
  | nil => cases h
  | cons group groups ih =>
    rcases mem_cons.mp h with rfl | h
    · refine ⟨[], group, groups, rfl, ?_, rfl⟩
      show start = start + total size []
      rw [total_nil, Int.add_zero]
    · obtain ⟨before, g, after, rfl, hf, hs⟩ := ih h
      refine ⟨group :: before, g, after, rfl, ?_, hs⟩
      rw [hf, flatten_cons, total_append, Int.add_assoc]

theorem spans_chain {bound start : Int}
    (h : groups.IsChain fun a b => bound < total size a + total size b) :
    (spans size start groups).IsChain fun a b => bound < a.2 - a.1 + (b.2 - b.1) := by
  induction groups generalizing start with
  | nil => exact .nil
  | cons group groups ih =>
    cases groups with
    | nil => exact .singleton _
    | cons next groups =>
      obtain ⟨hh, ht⟩ := isChain_cons_cons.mp h
      have hr : (spans size (start + total size group) (next :: groups)).IsChain _ := ih ht
      refine isChain_cons_cons.mpr ⟨?_, hr⟩
      show bound < start + total size group - start +
        (start + total size group + total size next - (start + total size group))
      omega

theorem boundary_append {pre mid post : List α} :
    Boundary size (pre ++ mid ++ post) (total size pre + total size mid) :=
  ⟨pre ++ mid, post, rfl, (total_append size pre mid).symm⟩

theorem boundary_map {x : Int} (h : Boundary size items x) : Boundary id (items.map size) x := by
  obtain ⟨before, after, rfl, rfl⟩ := h
  refine ⟨before.map size, after.map size, map_append, ?_⟩
  rw [total, total, map_id]

theorem exists_between (hp : ∀ item ∈ items, 0 < size item) {a b : Int} (ha : Boundary size items a)
    (hb : Boundary size items b) (hab : a < b) :
    ∃ pre mid post, items = pre ++ mid ++ post ∧ a = total size pre ∧
      b = total size pre + total size mid ∧ mid ≠ [] := by
  obtain ⟨pre, rest, rfl, rfl⟩ := ha
  obtain ⟨front, back, hs, rfl⟩ := hb
  rcases append_eq_append_iff.mp hs with ⟨mid, rfl, rfl⟩ | ⟨mid, rfl, rfl⟩
  · refine ⟨pre, mid, back, by rw [append_assoc], rfl, total_append size pre mid, ?_⟩
    rintro rfl
    rw [append_nil] at hab
    omega
  · have hm := total_nonneg fun item hi => by
      refine hp item ?_
      rw [append_assoc]
      exact mem_append_right _ (mem_append_left _ hi)
    rw [total_append] at hab
    omega

section

structure Closed (size : α → Int) (bound : Int) (groups : List (List α)) : Prop where
  whole : ∀ group ∈ groups, group ≠ [] ∧ (total size group ≤ bound ∨ group.length = 1)
  chain : groups.IsChain fun a b => bound < total size a + total size b

theorem closed_nil (size : α → Int) (bound : Int) : Closed size bound [] := ⟨nofun, .nil⟩

variable {bound : Int}

theorem Closed.snoc {groups : List (List α)} (h : Closed size bound groups) {group : List α}
    (hw : group ≠ [] ∧ (total size group ≤ bound ∨ group.length = 1))
    (hl : ∀ g ∈ groups.getLast?, bound < total size g + total size group) :
      Closed size bound (groups ++ [group]) := by
  refine ⟨fun g hg => ?_, ?_⟩
  · rcases mem_append.mp hg with hg | hg
    · exact h.whole g hg
    · rw [mem_singleton.mp hg]
      exact hw
  · refine isChain_append.mpr ⟨h.chain, .singleton _, fun g hg g' hg' => ?_⟩
    obtain rfl : group = g' := by simpa using hg'
    exact hl g hg

structure Greedy (size : α → Int) (bound : Int) (groups : List (List α)) (opened : List α) :
    Prop where
  closed : Closed size bound groups
  fits : total size opened ≤ bound
  last : ∀ g ∈ groups.getLast?, bound < total size g + total size opened

variable {bound : Int} {groups : List (List α)} {opened : List α} {item : α}

theorem Greedy.add (h : Greedy size bound groups opened) (hit : 0 < size item)
    (hf : total size opened + size item ≤ bound) : Greedy size bound groups (opened ++ [item]) := by
  have ht : total size (opened ++ [item]) = total size opened + size item := by simp
  refine ⟨h.closed, ?_, fun g hg => ?_⟩
  · omega
  · have := h.last g hg
    omega

theorem Greedy.close (h : Greedy size bound groups opened) (hne : opened ≠ []) :
    Closed size bound (groups ++ [opened]) :=
  h.closed.snoc ⟨hne, .inl h.fits⟩ h.last

theorem Greedy.next (h : Greedy size bound groups opened) (hne : opened ≠ [])
    (ho : bound < total size opened + size item) (hf : size item ≤ bound) :
    Greedy size bound (groups ++ [opened]) [item] := by
  have ht : total size [item] = size item := by simp
  refine ⟨h.close hne, ?_, fun g hg => ?_⟩
  · omega
  · obtain rfl : opened = g := by simpa using hg
    omega

theorem Closed.alone (h : Closed size bound groups) (hb : 0 ≤ bound) (ho : bound < size item)
    (hl : ∀ g ∈ groups.getLast?, bound < total size g + size item) :
    Greedy size bound (groups ++ [[item]]) [] := by
  have ht : total size [item] = size item := by simp
  refine ⟨h.snoc ⟨cons_ne_nil _ _, .inr rfl⟩ fun g hg => ?_, hb, fun g hg => ?_⟩
  · have := hl g hg
    omega
  · obtain rfl : [item] = g := by simpa using hg
    rw [total_nil]
    omega

end

end PrismaBuild.Spans
