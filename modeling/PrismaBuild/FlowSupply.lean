import PrismaBuild.FlowMax

namespace PrismaBuild.Flow

open List

section

variable {V : Type} [DecidableEq V]

/-- One edge more: its capacity, and the reverse edge without one. -/
def Network.edge (net : Network V) (e : V × V × Int) : Network V where
  adj u :=
    let out := if u = e.1 ∧ e.2.1 ∉ net.adj u then net.adj u ++ [e.2.1] else net.adj u
    if u = e.2.1 ∧ e.1 ∉ out then out ++ [e.1] else out
  res u v := if u = e.1 ∧ v = e.2.1 then net.res u v + e.2.2 else net.res u v

def Network.empty : Network V := ⟨fun _ => [], fun _ _ => 0⟩

def network (edges : List (V × V × Int)) : Network V := edges.foldl Network.edge Network.empty

variable {net : Network V} {u v : V}

theorem mem_edge_adj {e : V × V × Int} :
    v ∈ (net.edge e).adj u ↔ v ∈ net.adj u ∨ u = e.1 ∧ v = e.2.1 ∨ u = e.2.1 ∧ v = e.1 := by
  have hs : ∀ (out : List V) (x : V) (p : Prop) [Decidable p],
      v ∈ (if p ∧ x ∉ out then out ++ [x] else out) ↔ v ∈ out ∨ p ∧ v = x := by
    intro out x p _
    by_cases hp : p ∧ x ∉ out
    · simp [hp]
    · rw [if_neg hp]
      refine ⟨.inl, ?_⟩
      rintro (h | ⟨hh, rfl⟩)
      · exact h
      · exact not_not.mp fun ho => hp ⟨hh, ho⟩
  show v ∈ (if u = e.2.1 ∧ e.1 ∉ _ then _ else _) ↔ _
  rw [hs, hs, or_assoc]

variable {edges : List (V × V × Int)}

theorem mem_foldl_adj : v ∈ (edges.foldl Network.edge net).adj u ↔
      v ∈ net.adj u ∨ ∃ e ∈ edges, u = e.1 ∧ v = e.2.1 ∨ u = e.2.1 ∧ v = e.1 := by
  induction edges generalizing net with
  | nil => simp
  | cons e edges ih =>
    rw [foldl_cons, ih, mem_edge_adj]
    simp only [mem_cons, exists_eq_or_imp, or_assoc]

theorem mem_network_adj : v ∈ (network edges).adj u ↔ ∃ e ∈ edges, u = e.1 ∧ v = e.2.1 ∨ u = e.2.1 ∧
    v = e.1 := by
  rw [network, mem_foldl_adj]
  simp [Network.empty]

def capacity (edges : List (V × V × Int)) (u v : V) : Int :=
  ((edges.filter fun e => u = e.1 ∧ v = e.2.1).map fun e => e.2.2).sum

theorem foldl_res (u v : V) : (edges.foldl Network.edge net).res u v = net.res u v + capacity edges
    u v := by
  induction edges generalizing net with
  | nil => simp [capacity]
  | cons e edges ih =>
    rw [foldl_cons, ih, capacity, capacity, filter_cons]
    show (if u = e.1 ∧ v = e.2.1 then _ else _) + _ = _
    by_cases he : u = e.1 ∧ v = e.2.1
    · simp [he, Int.add_assoc]
    · simp [he]

theorem network_res (edges : List (V × V × Int)) (u v : V) :
    (network edges).res u v = capacity edges u v := by
  rw [network, foldl_res]
  exact Int.zero_add _

@[simp] theorem capacity_append (a b : List (V × V × Int)) (u v : V) :
    capacity (a ++ b) u v = capacity a u v + capacity b u v := by
  simp [capacity]

@[simp] theorem capacity_cons (e : V × V × Int) (edges : List (V × V × Int)) (u v : V) :
    capacity (e :: edges) u v = (if u = e.1 ∧ v = e.2.1 then e.2.2 else 0) + capacity edges u
    v := by
  by_cases he : u = e.1 ∧ v = e.2.1 <;> simp [capacity, he]

@[simp] theorem capacity_nil (u v : V) : capacity ([] : List (V × V × Int)) u v = 0 := rfl

theorem exists_edge_of_capacity (h : 0 < capacity edges u v) : ∃ e ∈ edges, u = e.1 ∧
    v = e.2.1 := by
  induction edges with
  | nil => exact absurd h (Int.lt_irrefl 0)
  | cons e edges ih =>
    rw [capacity_cons] at h
    by_cases he : u = e.1 ∧ v = e.2.1
    · exact ⟨e, .head _, he⟩
    · rw [if_neg he, Int.zero_add] at h
      obtain ⟨x, hx, hen⟩ := ih h
      exact ⟨x, .tail _ hx, hen⟩

theorem linked_network {nodes : Finset V} (h : ∀ e ∈ edges, e.1 ∈ nodes ∧ e.2.1 ∈ nodes) :
    Linked nodes (capacity edges) (network edges).adj := by
  refine ⟨fun u v hv => ?_, fun u v hp => ?_⟩
  · obtain ⟨e, he, ⟨-, rfl⟩ | ⟨-, rfl⟩⟩ := mem_network_adj.mp hv
    · exact (h e he).2
    · exact (h e he).1
  · obtain ⟨e, he, hen⟩ := exists_edge_of_capacity hp
    exact ⟨mem_network_adj.mpr ⟨e, he, .inl hen⟩, mem_network_adj.mpr ⟨e, he, .inr hen.symm⟩⟩

end

section

variable {α β : Type} [DecidableEq α] [DecidableEq β]

/-- A source that feeds the left nodes, which feed the right nodes they reach, which feed the sink.
-/
inductive SupplyNode (α β : Type)
  | source
  | sink
  | left (a : α)
  | right (b : β)
  deriving DecidableEq

open SupplyNode

def supplyEdges (lefts : List α) (need : α → Int) (rights : List β) (cap : β → Int)
    (readers : β → List α) (bound : Int) :
    List (SupplyNode α β × SupplyNode α β × Int) :=
  lefts.map (fun a => (source, left a, need a)) ++
    rights.flatMap fun b => (right b, sink, cap b) :: (readers b).map fun a =>
      (left a, right b, bound)

variable {lefts : List α} {need : α → Int} {rights : List β} {cap : β → Int} {readers : β → List α}
    {bound : Int}

def supplyCap (lefts : List α) (need : α → Int) (rights : List β) (cap : β → Int)
    (readers : β → List α) (bound : Int) :
    SupplyNode α β → SupplyNode α β → Int
  | source, left a => if a ∈ lefts then need a else 0
  | left a, right b => if b ∈ rights ∧ a ∈ readers b then bound else 0
  | right b, sink => if b ∈ rights then cap b else 0
  | _, _ => 0

theorem capacity_lefts (hl : lefts.Nodup) (u v : SupplyNode α β) :
    capacity (lefts.map fun a => (source, left a, need a)) u v =
      match u, v with
      | source, left a => if a ∈ lefts then need a else 0
      | _, _ => 0 := by
  induction lefts with
  | nil => cases u <;> cases v <;> rfl
  | cons a lefts ih =>
    obtain ⟨hn, hl⟩ := nodup_cons.mp hl
    rw [map_cons, capacity_cons, ih hl]
    cases u <;> cases v <;> simp
    next a' =>
      by_cases heq : a' = a
      · simp [heq, hn]
      · simp [heq]

theorem capacity_readers {b : β} {readers : List α} (hr : readers.Nodup) (u v : SupplyNode α β) :
    capacity (readers.map fun a => (left a, right b, bound)) u v =
      match u, v with
      | left a, right b' => if b' = b ∧ a ∈ readers then bound else 0
      | _, _ => 0 := by
  induction readers with
  | nil => cases u <;> cases v <;> simp
  | cons a readers ih =>
    obtain ⟨hn, hr⟩ := nodup_cons.mp hr
    rw [map_cons, capacity_cons, ih hr]
    cases u <;> cases v <;> simp
    next a' b' =>
      by_cases heq : a' = a
      · simp [heq, hn]
      · simp [heq]

theorem capacity_rights (hr : rights.Nodup) (hre : ∀ b ∈ rights, (readers b).Nodup)
    (u v : SupplyNode α β) :
    capacity (rights.flatMap fun b => (right b, sink, cap b) :: (readers b).map fun a =>
      (left a, right b, bound)) u v =
      match u, v with
      | left a, right b => if b ∈ rights ∧ a ∈ readers b then bound else 0
      | right b, sink => if b ∈ rights then cap b else 0
      | _, _ => 0 := by
  induction rights with
  | nil => cases u <;> cases v <;> simp
  | cons b rights ih =>
    obtain ⟨hn, hr⟩ := nodup_cons.mp hr
    rw [flatMap_cons, capacity_append, capacity_cons, capacity_readers (hre b (.head _)),
      ih hr fun b' hb' => hre b' (.tail _ hb')]
    cases u <;> cases v <;> simp
    next a' b' =>
      by_cases heq : b' = b
      · simp [heq, hn]
      · simp [heq]
    next b' =>
      by_cases heq : b' = b
      · simp [heq, hn]
      · simp [heq]

theorem capacity_supplyEdges (hl : lefts.Nodup) (hri : rights.Nodup)
    (hr : ∀ b ∈ rights, (readers b).Nodup) (u v : SupplyNode α β) :
    capacity (supplyEdges lefts need rights cap readers bound) u v = supplyCap lefts need rights cap
      readers bound u v := by
  rw [supplyEdges, capacity_append, capacity_lefts hl, capacity_rights hri hr]
  cases u <;> cases v <;> simp [supplyCap]

end

end PrismaBuild.Flow
