import PrismaBuild.FlowSearch

namespace PrismaBuild.Flow

open List Finset

variable {V : Type} [DecidableEq V]

section

/-- Moves `push` from the edge to its reverse. -/
def pushEdge (push : Int) (res : V → V → Int) (e : V × V) : V → V → Int := fun u v =>
  let lowered := if u = e.1 ∧ v = e.2 then res u v - push else res u v
  if u = e.2 ∧ v = e.1 then lowered + push else lowered

def pushPath (push : Int) (path : List (V × V)) (res : V → V → Int) : V → V → Int :=
    path.foldl (pushEdge push) res

def bottleneck (bound : Int) (res : V → V → Int) (path : List (V × V)) : Int :=
  path.foldl (fun push e => min push (res e.1 e.2)) bound

variable {res : V → V → Int}

theorem pushEdge_apply {push : Int} {e : V × V} (u v : V) : pushEdge push res e u v =
      res u v - (if u = e.1 ∧ v = e.2 then push else 0) + if u = e.2 ∧ v = e.1 then
      push else 0 := by
  unfold pushEdge
  dsimp only
  split <;> split <;> omega

omit [DecidableEq V] in
theorem bottleneck_le (bound : Int) (res : V → V → Int) (path : List (V × V)) :
    bottleneck bound res path ≤ bound ∧ ∀ e ∈ path, bottleneck bound res path ≤ res e.1 e.2 := by
  induction path generalizing bound with
  | nil => exact ⟨Int.le_refl bound, nofun⟩
  | cons e path ih =>
    obtain ⟨hb, hp⟩ := ih (min bound (res e.1 e.2))
    have hle : bottleneck bound res (e :: path) = bottleneck (min bound (res e.1 e.2)) res path :=
      rfl
    rw [hle]
    refine ⟨by omega, fun x hx => ?_⟩
    rcases mem_cons.mp hx with rfl | hx
    · omega
    · exact hp x hx

omit [DecidableEq V] in
theorem bottleneck_pos {bound : Int} {path : List (V × V)} (hb : 0 < bound)
    (hp : ∀ e ∈ path, 0 < res e.1 e.2) : 0 < bottleneck bound res path := by
  induction path generalizing bound with
  | nil => exact hb
  | cons e path ih =>
    have he := hp e (.head _)
    have hl : 0 < min bound (res e.1 e.2) := by omega
    exact ih hl fun x hx => hp x (.tail _ hx)

end

section

def outflow (nodes : Finset V) (cap res : V → V → Int) (u : V) : Int :=
    ∑ v ∈ nodes, (cap u v - res u v)

structure IsFlow (nodes : Finset V) (source sink : V) (cap res : V → V → Int) (value : Int) :
    Prop where
  nonneg : ∀ u v, 0 ≤ res u v
  paired : ∀ u v, res u v + res v u = cap u v + cap v u
  balance : ∀ u ∈ nodes, u ≠ sink → outflow nodes cap res u = if u = source then value else 0

variable {nodes : Finset V} {source sink : V} {cap res : V → V → Int} {value push : Int}

theorem isFlow_zero (hc : ∀ u v, 0 ≤ cap u v) : IsFlow nodes source sink cap cap 0 := by
  refine ⟨hc, fun _ _ => rfl, fun u _ _ => ?_⟩
  simp [outflow]

theorem outflow_pushEdge {e : V × V} (hf : e.1 ∈ nodes) (hto : e.2 ∈ nodes) (u : V) :
    outflow nodes cap (pushEdge push res e) u =
      outflow nodes cap res u + (if u = e.1 then push else 0) - if u = e.2 then push else 0 := by
  have hs : ∀ a b : V, b ∈ nodes → (∑ v ∈ nodes, if u = a ∧ v = b then push else 0) = if u = a then
    push else 0 := by
    intro a b hb
    by_cases hu : u = a
    · simp [hu, hb]
    · simp [hu]
  simp only [outflow, pushEdge_apply, sum_sub_distrib, sum_add_distrib]
  rw [hs e.1 e.2 hto, hs e.2 e.1 hf]
  omega

variable {path : List (V × V)}

theorem outflow_pushPath {node : V} (hl : Leads source path node)
    (hn : ∀ e ∈ path, e.1 ∈ nodes ∧ e.2 ∈ nodes) (u : V) :
    outflow nodes cap (pushPath push path res) u =
      outflow nodes cap res u + (if u = source then push else 0) - if u = node then
      push else 0 := by
  induction path generalizing res node with
  | nil =>
    obtain rfl : node = source := hl
    show outflow nodes cap res u = _
    omega
  | cons e path ih =>
    obtain ⟨rfl, hr⟩ := hl
    have he := hn e (.head _)
    have hp : pushPath push (e :: path) res = pushPath push path (pushEdge push res e) := rfl
    rw [hp, ih hr fun x hx => hn x (.tail _ hx), outflow_pushEdge he.1 he.2]
    omega

theorem paired_pushPath (h : ∀ u v, res u v + res v u = cap u v + cap v u) :
    ∀ u v, pushPath push path res u v + pushPath push path res v u = cap u v + cap v u := by
  induction path generalizing res with
  | nil => exact h
  | cons e path ih =>
    refine ih fun u v => ?_
    rw [pushEdge_apply, pushEdge_apply, ← h u v]
    have ha : ∀ a b : V, (v = a ∧ u = b) = (u = b ∧ v = a) := fun a b => propext And.comm
    simp only [ha]
    omega

theorem nonneg_pushPath (hp : 0 ≤ push) (hn : path.Nodup)
    (hr : ∀ e ∈ path, push ≤ res e.1 e.2) (h : ∀ u v, 0 ≤ res u v) :
    ∀ u v, 0 ≤ pushPath push path res u v := by
  induction path generalizing res with
  | nil => exact h
  | cons e path ih =>
    obtain ⟨hnew, hn⟩ := nodup_cons.mp hn
    refine ih hn (fun x hx => ?_) fun u v => ?_
    · -- the edges still to come are other ones, so none of them has lost room
      have hne : ¬ (x.1 = e.1 ∧ x.2 = e.2) := by
        rintro ⟨hf, hs⟩
        rw [← Prod.ext hf hs] at hnew
        exact hnew hx
      have hx := hr x (.tail _ hx)
      rw [pushEdge_apply, if_neg hne]
      split <;> omega
    · have ht := hr e (.head _)
      have huv := h u v
      rw [pushEdge_apply]
      by_cases he : u = e.1 ∧ v = e.2
      · rw [if_pos he, he.1, he.2]
        split <;> omega
      · rw [if_neg he]
        split <;> omega

theorem IsFlow.augment (h : IsFlow nodes source sink cap res value)
    (hl : Leads source path sink) (hn : ∀ e ∈ path, e.1 ∈ nodes ∧ e.2 ∈ nodes) (hno : path.Nodup)
    (hp : 0 ≤ push) (hr : ∀ e ∈ path, push ≤ res e.1 e.2) :
    IsFlow nodes source sink cap (pushPath push path res) (value + push) := by
  refine ⟨nonneg_pushPath hp hno hr h.nonneg, paired_pushPath h.paired, fun u hu hs => ?_⟩
  rw [outflow_pushPath hl hn, h.balance u hu hs, if_neg hs]
  split <;> omega

theorem IsFlow.value_le (h : IsFlow nodes source sink cap res value) (hs : source ∈ nodes)
    (hne : source ≠ sink) :
    value ≤ ∑ v ∈ nodes, cap source v := by
  have hb := h.balance source hs hne
  rw [if_pos rfl, outflow, sum_sub_distrib] at hb
  have hr := sum_nonneg fun v (_ : v ∈ nodes) => h.nonneg source v
  omega

end

section

/-- Pushes along the shortest path with room until there is none, and gives the value of the flow.
-/
def maxFlow (source sink : V) (bound : Int) (steps : Nat) : Nat → Network V → Int → Option Int
  | 0, _, _ => none
  | fuel + 1, net, value =>
    (search net sink steps [source] [(source, source)]).bind fun parent =>
      if sink ∉ parent.nodes then some value
      else
        let path := pathTo source parent sink
        let push := bottleneck bound net.res path
        maxFlow source sink bound steps fuel { net with res := pushPath push path net.res }
          (value + push)

variable {nodes : Finset V} {source sink : V} {cap : V → V → Int} {value bound : Int}

structure Linked (nodes : Finset V) (cap : V → V → Int) (adj : V → List V) : Prop where
  within : ∀ u, ∀ v ∈ adj u, v ∈ nodes
  both : ∀ u v, 0 < cap u v → v ∈ adj u ∧ u ∈ adj v

theorem IsFlow.adj_of_room {adj : V → List V} {res : V → V → Int}
    (h : IsFlow nodes source sink cap res value)
    (hl : Linked nodes cap adj) {u v : V} (hr : 0 < res u v) : v ∈ adj u := by
  have hp := h.paired u v
  have hb := h.nonneg v u
  by_cases hc : 0 < cap u v
  · exact (hl.both u v hc).1
  · exact (hl.both v u (by omega)).2

structure Saturated (nodes : Finset V) (source sink : V) (cap : V → V → Int) (value : Int) :
    Prop where
  flow : ∃ res, IsFlow nodes source sink cap res value ∧
    ∃ side ⊆ nodes, source ∈ side ∧ sink ∉ side ∧ ∀ u ∈ side, ∀ v, v ∉ side → res u v = 0

theorem maxFlow_saturated (hso : source ∈ nodes) (hne : source ≠ sink) (hb : 0 < bound)
    {steps fuel : Nat}
    (hst : nodes.card ≤ steps) {net : Network V} (hli : Linked nodes cap net.adj)
    (h : IsFlow nodes source sink cap net.res value)
      (hfu : (∑ v ∈ nodes, cap source v) - value < fuel) :
    ∃ best, maxFlow source sink bound steps fuel net value = some best ∧
      Saturated nodes source sink cap best := by
  induction fuel generalizing net value with
  | zero =>
    have := h.value_le hso hne
    omega
  | succ fuel ih =>
    have hl := mem_toList.mpr hso
    have ha : ∀ tail, ∀ head ∈ net.adj tail, head ∈ nodes.toList := fun tail head hh =>
      mem_toList.mpr (hli.within tail head hh)
    have hen : nodes.toList.length + [source].length ≤ steps + [(source, source)].length := by
      rw [length_toList]
      show nodes.card + 1 ≤ steps + 1
      omega
    obtain ⟨parent, hf, ht, hc⟩ := search_spec sink hl ha (searched_source net source) hen
    have hme : ∀ node ∈ parent.nodes, node ∈ nodes := fun node hn =>
      mem_toList.mp (ht.subset hl ha node hn)
    rw [maxFlow, hf, Option.bind_some]
    by_cases hs : sink ∈ parent.nodes
    · rw [if_neg (not_not.mpr hs)]
      obtain ⟨hle, hno, hed⟩ := ht.pathTo hs
      have hp := bottleneck_pos hb fun e he => (hed e he).1.2
      have hr := (bottleneck_le bound net.res (pathTo source parent sink)).2
      have hm := h.augment hle (fun e he => ⟨hme _ (hed e he).2.2.1, hme _ (hed e he).2.2.2⟩) hno
        (Int.le_of_lt hp) hr
      exact @ih (value + bottleneck bound net.res (pathTo source parent sink))
        { net with res := pushPath (bottleneck bound net.res (pathTo source parent sink)) (pathTo
          source parent sink) net.res }
        hli hm (by omega)
    · rw [if_pos hs]
      refine ⟨value, rfl, net.res, h, parent.nodes.toFinset, fun node hn => ?_, ?_, ?_,
        fun u hu v hv => ?_⟩
      · exact hme node (mem_toFinset.mp hn)
      · exact mem_toFinset.mpr ht.source_mem
      · exact fun hin => hs (mem_toFinset.mp hin)
      · -- an edge with room would have been followed
        have hnon := h.nonneg u v
        by_contra hzero
        have ho : Open net u v := ⟨h.adj_of_room hli (by omega), by omega⟩
        exact hv (mem_toFinset.mpr (hc hs u (mem_toFinset.mp hu) v ho))

end

end PrismaBuild.Flow
