import Mathlib

namespace PrismaBuild.Flow

open List

variable {V : Type}

/-- Residual capacities, and for each node the nodes its edges lead to, in the order they were
added. -/
structure Network (V : Type) where
  adj : V → List V
  res : V → V → Int

/-- The nodes found by a search, each with the one it was found from, the newest first. -/
abbrev Parents (V : Type) := List (V × V)

def Parents.nodes (parent : Parents V) : List V := parent.map Prod.fst

section

def Open (net : Network V) (tail head : V) : Prop := head ∈ net.adj tail ∧ 0 < net.res tail head

inductive Tree (net : Network V) (source : V) : Parents V → Prop
  | root : Tree net source [(source, source)]
  | grow {parent : Parents V} {tail head : V} (older : Tree net source parent)
    (from_mem : tail ∈ parent.nodes)
    (fresh : head ∉ parent.nodes) (room : Open net tail head) :
      Tree net source ((head, tail) :: parent)

def Leads (source : V) : List (V × V) → V → Prop
  | [], node => node = source
  | (tail, head) :: path, node => head = node ∧ Leads source path tail

variable {net : Network V} {source : V} {parent : Parents V}

theorem Tree.source_mem (h : Tree net source parent) : source ∈ parent.nodes := by
  induction h with
  | root => exact .head _
  | grow _ _ _ _ ih => exact .tail _ ih

theorem Tree.nodup (h : Tree net source parent) : parent.nodes.Nodup := by
  induction h with
  | root => exact nodup_singleton source
  | grow _ _ hf _ ih => exact nodup_cons.mpr ⟨hf, ih⟩

theorem Tree.subset (h : Tree net source parent) {nodes : List V} (hs : source ∈ nodes)
    (ha : ∀ tail, ∀ head ∈ net.adj tail, head ∈ nodes) : ∀ node ∈ parent.nodes, node ∈ nodes := by
  induction h with
  | root =>
    intro node hn
    rw [mem_singleton.mp hn]
    exact hs
  | @grow parent tail head _ _ _ hr ih =>
    intro node hn
    rcases mem_cons.mp hn with rfl | hn
    · exact ha tail _ hr.1
    · exact ih node hn

structure Searched (net : Network V) (source : V) (parent : Parents V) (frontier : List V) :
    Prop where
  tree : Tree net source parent
  queued : ∀ node ∈ frontier, node ∈ parent.nodes
  closed : ∀ tail ∈ parent.nodes, tail ∉ frontier → ∀ head, Open net tail head → head ∈ parent.nodes

theorem searched_source (net : Network V) (source : V) :
    Searched net source [(source, source)] [source] := by
  refine ⟨.root, fun node hn => hn, fun tail ht ho => ?_⟩
  exact absurd ht ho

end

variable [DecidableEq V]

section

def pathTo (source : V) : Parents V → V → List (V × V)
  | [], _ => []
  | (head, tail) :: older, node =>
    if head = node then if node = source then [] else (tail, node) :: pathTo source older tail
    else pathTo source older node

variable {net : Network V} {source : V} {parent : Parents V}

theorem Tree.pathTo (h : Tree net source parent) {node : V} (hno : node ∈ parent.nodes) :
    Leads source (pathTo source parent node) node ∧ (pathTo source parent node).Nodup ∧
      ∀ e ∈ pathTo source parent node, Open net e.1 e.2 ∧ e.1 ≠ e.2 ∧ e.1 ∈ parent.nodes ∧
      e.2 ∈ parent.nodes := by
  induction h generalizing node with
  | root =>
    obtain rfl : node = source := mem_singleton.mp hno
    rw [Flow.pathTo, if_pos rfl, if_pos rfl]
    exact ⟨rfl, .nil, nofun⟩
  | @grow parent tail head hold hfr hf hr ih =>
    rw [Flow.pathTo]
    by_cases hh : head = node
    · subst hh
      have hne : head ≠ source := by
        rintro rfl
        exact hf hold.source_mem
      have hd : tail ≠ head := by
        rintro rfl
        exact hf hfr
      obtain ⟨hl, hn, hed⟩ := ih hfr
      rw [if_pos rfl, if_neg hne]
      refine ⟨⟨rfl, hl⟩, nodup_cons.mpr ⟨fun hm => ?_, hn⟩, fun e he => ?_⟩
      · exact hf (hed (tail, head) hm).2.2.2
      · rcases mem_cons.mp he with rfl | he
        · exact ⟨hr, hd, .tail _ hfr, .head _⟩
        · obtain ⟨ho, hd, ht, hm⟩ := hed e he
          exact ⟨ho, hd, .tail _ ht, .tail _ hm⟩
    · have hold := (mem_cons.mp hno).resolve_left fun heq => hh heq.symm
      obtain ⟨hl, hn, hed⟩ := ih hold
      rw [if_neg hh]
      refine ⟨hl, hn, fun e he => ?_⟩
      obtain ⟨ho, hd, ht, hm⟩ := hed e he
      exact ⟨ho, hd, .tail _ ht, .tail _ hm⟩

end

section

variable (net : Network V)

/-- The nodes that have room from `tail` and were not found before join the frontier. -/
def discover (tail : V) (parent : Parents V) (frontier : List V) : List V → Parents V × List V
  | [] => (parent, frontier)
  | head :: heads =>
    if 0 < net.res tail head ∧ head ∉ parent.nodes then
      discover tail ((head, tail) :: parent) (frontier ++ [head]) heads
    else discover tail parent frontier heads

/-- Breadth first search from the nodes of the frontier until the sink is found. -/
def search (sink : V) : Nat → List V → Parents V → Option (Parents V)
  | 0, frontier, parent => if sink ∈ parent.nodes ∨ frontier = [] then some parent else none
  | fuel + 1, frontier, parent =>
    if sink ∈ parent.nodes then some parent
    else
      match frontier with
      | [] => some parent
      | tail :: rest =>
        let found := discover net tail parent rest (net.adj tail)
        search sink fuel found.2 found.1

structure Discovered (source tail : V) (heads : List V) (parent parent' : Parents V)
    (frontier frontier' : List V) : Prop where
  tree : Tree net source parent → tail ∈ parent.nodes → (∀ head ∈ heads, head ∈ net.adj tail) →
    Tree net source parent'
  kept : ∀ node ∈ parent.nodes, node ∈ parent'.nodes
  found : ∀ head ∈ heads, 0 < net.res tail head → head ∈ parent'.nodes
  queue : ∀ node, node ∈ frontier' ↔ node ∈ frontier ∨ node ∈ parent'.nodes ∧ node ∉ parent.nodes
  length : parent'.length + frontier.length = parent.length + frontier'.length

theorem discovered (source tail : V) (heads : List V) (parent : Parents V) (frontier : List V) :
    Discovered net source tail heads parent (discover net tail parent frontier heads).1 frontier
      (discover net tail parent frontier heads).2 := by
  induction heads generalizing parent frontier with
  | nil =>
    exact ⟨fun h _ _ => h, fun _ h => h, nofun, fun node => by simp [discover], by rw [discover]⟩
  | cons head heads ih =>
    rw [discover]
    by_cases hne : 0 < net.res tail head ∧ head ∉ parent.nodes
    · rw [if_pos hne]
      obtain ⟨ht, hk, hf, hq, hl⟩ := ih ((head, tail) :: parent) (frontier ++ [head])
      refine ⟨fun h hm hh => ?_, fun node hno => hk node (.tail _ hno), fun x hx hr =>
        ?_, fun node => ?_, ?_⟩
      · have hg := h.grow hm hne.2 ⟨hh head (.head _), hne.1⟩
        exact ht hg (.tail _ hm) fun x hx => hh x (.tail _ hx)
      · rcases mem_cons.mp hx with rfl | hx
        · exact hk _ (.head _)
        · exact hf x hx hr
      · have hhe := hk head (.head _)
        have hn : Parents.nodes ((head, tail) :: parent) = head :: parent.nodes := rfl
        rw [hq, hn, mem_cons, mem_append, mem_singleton]
        constructor
        · rintro ((h | rfl) | ⟨hin, ho⟩)
          · exact .inl h
          · exact .inr ⟨hhe, hne.2⟩
          · exact .inr ⟨hin, fun h => ho (.inr h)⟩
        · rintro (h | ⟨hin, ho⟩)
          · exact .inl (.inl h)
          · by_cases heq : node = head
            · exact .inl (.inr heq)
            · refine .inr ⟨hin, ?_⟩
              rintro (h | h)
              · exact heq h
              · exact ho h
      · rw [length_cons, length_append, length_singleton] at hl
        omega
    · rw [if_neg hne]
      obtain ⟨ht, hk, hf, hq, hl⟩ := ih parent frontier
      refine ⟨fun h hm hh => ht h hm fun x hx => hh x (.tail _ hx), hk, fun x hx hr => ?_, hq, hl⟩
      rcases mem_cons.mp hx with rfl | hx
      · exact hk _ (not_not.mp fun ho => hne ⟨hr, ho⟩)
      · exact hf x hx hr

variable {net} {source : V} {parent : Parents V} {frontier : List V}

theorem Searched.pop {tail : V} {rest : List V} (h : Searched net source parent (tail :: rest)) :
    Searched net source (discover net tail parent rest (net.adj tail)).1
    (discover net tail parent rest (net.adj tail)).2 := by
  obtain ⟨htr, hk, hf, hq, -⟩ := discovered net source tail (net.adj tail) parent rest
  refine ⟨htr h.tree (h.queued tail (.head _)) fun _ hx => hx, fun node hn =>
    ?_, fun t ht hou head ho => ?_⟩
  · rcases (hq node).mp hn with hr | hne
    · exact hk node (h.queued node (.tail _ hr))
    · exact hne.1
  · have hno := mt (hq t).mpr hou
    have hold := not_not.mp fun hfr => hno (.inr ⟨ht, hfr⟩)
    by_cases heq : t = tail
    · subst heq
      exact hf head ho.1 ho.2
    · have hb : t ∉ tail :: rest := by
        intro hm
        rcases mem_cons.mp hm with h | h
        · exact heq h
        · exact hno (.inl h)
      exact hk head (h.closed t hold hb head ho)

theorem search_spec (sink : V) {nodes : List V} (hso : source ∈ nodes)
    (ha : ∀ tail, ∀ head ∈ net.adj tail, head ∈ nodes)
    {fuel : Nat} (h : Searched net source parent frontier)
      (hf : nodes.length + frontier.length ≤ fuel + parent.length) :
    ∃ found, search net sink fuel frontier parent = some found ∧ Tree net source found ∧
      (sink ∉ found.nodes → ∀ tail ∈ found.nodes, ∀ head, Open net tail head →
      head ∈ found.nodes) := by
  induction fuel generalizing parent frontier with
  | zero =>
    have hsu := h.tree.nodup.subperm (h.tree.subset hso ha)
    have hle := hsu.length_le
    rw [Parents.nodes, length_map] at hle
    have hn : frontier = [] := length_eq_zero_iff.mp (by omega)
    rw [search, if_pos (.inr hn)]
    refine ⟨parent, rfl, h.tree, fun _ tail ht => h.closed tail ht ?_⟩
    rw [hn]
    exact not_mem_nil
  | succ fuel ih =>
    unfold search
    by_cases hs : sink ∈ parent.nodes
    · rw [if_pos hs]
      exact ⟨parent, rfl, h.tree, fun ho => absurd hs ho⟩
    · rw [if_neg hs]
      cases frontier with
      | nil => exact ⟨parent, rfl, h.tree, fun _ tail ht => h.closed tail ht not_mem_nil⟩
      | cons tail rest =>
        have hl := (discovered net source tail (net.adj tail) parent rest).length
        rw [length_cons] at hf
        exact ih h.pop (by omega)

end

end PrismaBuild.Flow
