import PrismaBuild.NameOrder
import PrismaBuild.Ranking

namespace PrismaBuild.WindowCredit

open Ranking List

/-- A claimed consumer of a tier: when it was claimed, what its window takes from the free room next
and whether the consumer is blocked on it. -/
structure Claim (τ : Type) where
  consumer : Name
  claimedUnix : τ
  needGib : Option Int
  blocked : Bool
  blockedSinceUnix : Option τ
  needMover : Option Name

inductive Standing
  | satisfied
  | granted (sharedWith : Option Name)
  | head (shortfallGib : Int)
  | heldBack (waitingOn : Name)
  deriving DecidableEq

structure Entry (τ : Type) where
  consumer : Name
  rank : Nat
  claimedUnix : τ
  blocked : Bool
  needGib : Int
  ahead : Option Name
  blockedSinceUnix : Option τ
  standing : Standing
  deriving DecidableEq

structure Order (τ : Type) where
  entries : List (Entry τ)
  head : Option Name
  targetFreeGib : Int
  deriving DecidableEq

variable {τ : Type}

def waitedFrom (claim : Claim τ) : τ :=
  if claim.blocked then claim.blockedSinceUnix.getD claim.claimedUnix else claim.claimedUnix

def Claim.need (claim : Claim τ) : Int := max 0 (claim.needGib.getD 0)

def Claim.mover (claim : Claim τ) : Option Name := claim.needMover.filter (· ≠ [])

/-- Blocked first, then the longest wait, the older claim and the key. -/
def claimLe [LinearOrder τ] : Claim τ → Claim τ → Bool :=
  thenBy (fun claim => !claim.blocked) <| thenBy waitedFrom <| thenBy Claim.claimedUnix fun a b =>
    nameLe a.consumer b.consumer

/-- The walk over the ranked claims: what is left to spend, and which range was granted to whom. -/
structure Walk (τ : Type) where
  (left target : Int)
  (head ahead : Option Name)
  grantedMover : List (Name × Name)
  entries : List (Entry τ)

/-- What the walk does for a claim that is in need: its standing, and what it spends. -/
def Walk.serve (w : Walk τ) (claim : Claim τ) : Standing × Walk τ :=
  match claim.mover.bind fun mover => w.grantedMover.lookup mover with
  | some sharer => (.granted (some sharer), w)
  | none =>
    match w.head with
    | some head => (.heldBack head, w)
    | none =>
      if claim.need ≤ w.left then
        (.granted none, { w with
          left := w.left - claim.need, target := w.target + claim.need,
          grantedMover := match claim.mover with
            | some mover => (mover, claim.consumer) :: w.grantedMover
            | none => w.grantedMover })
      else (.head (claim.need - w.left),
        { w with head := some claim.consumer, target := w.target + claim.need })

def Walk.next (w : Walk τ) (claim : Claim τ) : Walk τ :=
  let served := if claim.need ≤ 0 then (.satisfied, w) else w.serve claim
  { served.2 with
    ahead := some claim.consumer
    entries := w.entries ++ [{
      consumer := claim.consumer, rank := w.entries.length, claimedUnix := claim.claimedUnix,
        blocked := claim.blocked,
      needGib := claim.need, ahead := w.ahead,
      blockedSinceUnix := if claim.blocked then some (waitedFrom claim) else none, standing :=
        served.1 }] }

def claimOrder [LinearOrder τ] (claims : List (Claim τ)) (freeGib : Int) : Order τ :=
  let walked := (rank claimLe claims).foldl Walk.next ⟨freeGib, 0, none, none, [], []⟩
  ⟨walked.entries, walked.head, walked.target⟩

section

def Entry.isHead (e : Entry τ) : Bool :=
  match e.standing with
  | .head _ => true
  | _ => false

def Entry.spends (e : Entry τ) : Bool := e.standing = .granted none

def spentGib (entries : List (Entry τ)) : Int :=
    ((entries.filter Entry.spends).map Entry.needGib).sum

def headGib (entries : List (Entry τ)) : Int :=
    ((entries.filter Entry.isHead).map Entry.needGib).sum

theorem spentGib_snoc (entries : List (Entry τ)) (e : Entry τ) :
    spentGib (entries ++ [e]) = spentGib entries + if e.spends then e.needGib else 0 := by
  cases h : e.spends <;> simp [spentGib, h]

theorem headGib_snoc (entries : List (Entry τ)) (e : Entry τ) :
    headGib (entries ++ [e]) = headGib entries + if e.isHead then e.needGib else 0 := by
  cases h : e.isHead <;> simp [headGib, h]

def Waits (claims : List (Claim τ)) (before : List (Entry τ)) (e : Entry τ) : Prop :=
  (∃ head, e.standing = .heldBack head) ∨
    ∃ g ∈ before, g.spends = true ∧ e.standing = .granted (some g.consumer) ∧
      ∃ c ∈ claims, ∃ c' ∈ claims, c.consumer = g.consumer ∧ c'.consumer = e.consumer ∧
      c.mover ≠ none ∧ c.mover = c'.mover

variable {e : Entry τ} {freeGib : Int}

theorem Waits.mono {claims claims' : List (Claim τ)} (hsu : ∀ c ∈ claims, c ∈ claims')
    {before : List (Entry τ)}
    (h : Waits claims before e) : Waits claims' before e := by
  rcases h with h | ⟨g, hg, hsp, hs, c, hc, c', hc', hsa⟩
  · exact .inl h
  · exact .inr ⟨g, hg, hsp, hs, c, hsu c hc, c', hsu c' hc', hsa⟩

def Entry.Of (e : Entry τ) (claim : Claim τ) : Prop :=
  e.consumer = claim.consumer ∧ e.blocked = claim.blocked ∧ e.needGib = claim.need

structure Walked (freeGib : Int) (done : List (Claim τ)) (w : Walk τ) : Prop where
  entries : List.Forall₂ Entry.Of w.entries done
  left : w.left = freeGib - spentGib w.entries
  spent : spentGib w.entries ≤ max 0 freeGib
  target : w.target = spentGib w.entries + headGib w.entries
  noHead : w.head = none → ∀ e ∈ w.entries, e.isHead = false
  heads : (w.entries.filter Entry.isHead).length ≤ 1
  served : ∀ i e, w.entries[i]? = some e → (∃ h ∈ w.entries.take i, h.isHead = true) →
    0 < e.needGib →
    Waits done (w.entries.take i) e
  movers : ∀ mover sharer, (mover, sharer) ∈ w.grantedMover → ∃ g ∈ w.entries, g.spends = true ∧
    g.consumer = sharer ∧
    ∃ c ∈ done, c.consumer = sharer ∧ c.mover = some mover

inductive Served (w : Walk τ) (claim : Claim τ) : Standing → Walk τ → Prop
  | shared {mover sharer : Name} (named : claim.mover = some mover)
    (granted : (mover, sharer) ∈ w.grantedMover) :
    Served w claim (.granted (some sharer)) w
  | heldBack {head : Name} (behind : w.head = some head) : Served w claim (.heldBack head) w
  | granted {movers : List (Name × Name)} (first : w.head = none) (fits : claim.need ≤ w.left)
    (movers_eq : movers = match claim.mover with
      | some mover => (mover, claim.consumer) :: w.grantedMover
      | none => w.grantedMover) :
    Served w claim (.granted none)
      { w with left := w.left - claim.need, target := w.target + claim.need, grantedMover := movers }
  | head (first : w.head = none) (short : w.left < claim.need) :
    Served w claim (.head (claim.need - w.left))
    { w with head := some claim.consumer, target := w.target + claim.need }

theorem served_serve (w : Walk τ) (claim : Claim τ) :
    Served w claim (w.serve claim).1 (w.serve claim).2 := by
  unfold Walk.serve
  split
  next sharer hs =>
    obtain ⟨mover, hm, hl⟩ := Option.bind_eq_some_iff.mp hs
    obtain ⟨before, after, hsp, -⟩ := lookup_eq_some_iff.mp hl
    exact .shared hm (by simp [hsp])
  next =>
    split
    next head hh => exact .heldBack hh
    next hf =>
      split
      next hfi => exact .granted hf hfi rfl
      next hsh => exact .head hf (by omega)

variable {done : List (Claim τ)}

theorem Walked.push {w w' : Walk τ} (h : Walked freeGib done w)
    {claim : Claim τ} (hof : e.Of claim) (hen : w'.entries = w.entries ++ [e])
    (hle : w'.left = w.left - if e.spends then e.needGib else 0)
    (ht : w'.target = w.target + (if e.spends then e.needGib else 0) + if e.isHead then
      e.needGib else 0)
    (hfi : e.spends = true → e.needGib ≤ w.left) (hf : e.isHead = true → w.head = none)
    (hhe : w'.head = none → w.head = none ∧ e.isHead = false)
    (hw : (∃ x ∈ w.entries, x.isHead = true) → 0 < e.needGib → Waits (done ++ [claim]) w.entries e)
    (hmov : ∀ mover sharer, (mover, sharer) ∈ w'.grantedMover →
      (mover, sharer) ∈ w.grantedMover ∨ e.spends = true ∧ e.consumer = sharer ∧
      claim.mover = some mover) :
    Walked freeGib (done ++ [claim]) w' := by
  have hsp := spentGib_snoc w.entries e
  have hh := headGib_snoc w.entries e
  have hbo := h.spent
  have hr := h.left
  have hne := h.target
  rw [← hen] at hsp hh
  refine ⟨?_, by omega, ?_, by omega, fun hn x hx => ?_, ?_, fun i x hx hb hp => ?_, fun mover sharer hm => ?_⟩
  · rw [hen]
    exact rel_append h.entries (.cons hof .nil)
  · by_cases hs : e.spends = true
    · have := hfi hs
      rw [if_pos hs] at hsp
      omega
    · rw [if_neg hs] at hsp
      omega
  · obtain ⟨hb, hl⟩ := hhe hn
    rw [hen] at hx
    rcases mem_append.mp hx with hx | hx
    · exact h.noHead hb x hx
    · rw [mem_singleton.mp hx]
      exact hl
  · rw [hen, filter_append, length_append]
    by_cases hl : e.isHead = true
    · have he : w.entries.filter Entry.isHead = [] :=
        filter_eq_nil_iff.mpr fun x hx => by simp [h.noHead (hf hl) x hx]
      simp [he, hl]
    · have := h.heads
      simpa [hl] using this
  · rw [hen] at hx hb ⊢
    rcases Nat.lt_or_ge i w.entries.length with hi | hi
    · rw [getElem?_append_left hi] at hx
      rw [take_append_of_le_length (Nat.le_of_lt hi)] at hb ⊢
      exact (h.served i x hx hb hp).mono fun c hc => mem_append_left _ hc
    · -- the last entry: all others are before it
      obtain rfl : i = w.entries.length := by
        have hlt := (List.getElem?_eq_some_iff.mp hx).1
        rw [length_append, length_singleton] at hlt
        omega
      obtain rfl : e = x := by simpa using hx
      rw [take_left] at hb ⊢
      exact hw hb hp
  · rw [hen]
    rcases hmov mover sharer hm with hold | ⟨hs, hsh, hmo⟩
    · obtain ⟨g, hg, hgr, hco, c, hc, hsa⟩ := h.movers mover sharer hold
      exact ⟨g, mem_append_left _ hg, hgr, hco, c, mem_append_left _ hc, hsa⟩
    · exact ⟨e, by simp, hs, hsh, claim, by simp, hof.1.symm.trans hsh, hmo⟩

variable {w : Walk τ}

theorem Walked.next (h : Walked freeGib done w) (claim : Claim τ) :
    Walked freeGib (done ++ [claim]) (w.next claim) := by
  by_cases hz : claim.need ≤ 0
  · rw [Walk.next, if_pos hz]
    refine h.push ⟨rfl, rfl, rfl⟩ rfl (by simp [Entry.spends])
      (by simp [Entry.spends, Entry.isHead]) nofun nofun
      (fun hn => ⟨hn, rfl⟩) (fun _ hp => ?_) fun mover sharer hm => .inl hm
    have : 0 < claim.need := hp
    omega
  · rw [Walk.next, if_neg hz]
    have hs := served_serve w claim
    generalize w.serve claim = served at hs ⊢
    obtain ⟨standing, w'⟩ := served
    cases hs with
    | @shared mover sharer hna hgr =>
      refine h.push ⟨rfl, rfl, rfl⟩ rfl (by simp [Entry.spends])
        (by simp [Entry.spends, Entry.isHead]) nofun nofun
        (fun hn => ⟨hn, rfl⟩) (fun _ _ => ?_) fun mover sharer hm => .inl hm
      obtain ⟨g, hg, hsp, rfl, c, hc, hco, hmo⟩ := h.movers mover sharer hgr
      refine .inr ⟨g, hg, hsp, rfl, c, mem_append_left _ hc, claim, by simp, hco, rfl, ?_, ?_⟩
      · rw [hmo]
        exact Option.some_ne_none mover
      · rw [hmo, hna]
    | @heldBack head hb =>
      exact h.push ⟨rfl, rfl, rfl⟩ rfl (by simp [Entry.spends])
        (by simp [Entry.spends, Entry.isHead]) nofun nofun
        (fun hn => ⟨hn, rfl⟩) (fun _ _ => .inl ⟨head, rfl⟩) fun mover sharer hm => .inl hm
    | @granted movers hf hfi hmov =>
      refine h.push ⟨rfl, rfl, rfl⟩ rfl (by simp [Entry.spends])
        (by simp [Entry.spends, Entry.isHead]) (fun _ => hfi) nofun
        (fun hn => ⟨hn, rfl⟩) (fun ⟨x, hx, hh⟩ _ => ?_) fun mover sharer hm => ?_
      · rw [h.noHead hf x hx] at hh
        cases hh
      · have hm := hm
        rw [hmov] at hm
        cases hmo : claim.mover with
        | none =>
          rw [hmo] at hm
          exact .inl hm
        | some named =>
          rw [hmo] at hm
          rcases mem_cons.mp hm with heq | hm
          · cases heq
            exact .inr ⟨by simp [Entry.spends], rfl, rfl⟩
          · exact .inl hm
    | head hf hsh =>
      refine h.push ⟨rfl, rfl, rfl⟩ rfl (by simp [Entry.spends])
        (by simp [Entry.spends, Entry.isHead]) nofun (fun _ => hf)
        nofun (fun ⟨x, hx, hh⟩ _ => ?_) fun mover sharer hm => .inl hm
      rw [h.noHead hf x hx] at hh
      cases hh

theorem walked_foldl (h : Walked freeGib done w)
    (claims : List (Claim τ)) : Walked freeGib (done ++ claims) (claims.foldl Walk.next w) := by
  induction claims generalizing done w with
  | nil =>
    rw [append_nil]
    exact h
  | cons claim claims ih =>
    have hr := ih (h.next claim)
    rw [append_assoc, singleton_append] at hr
    exact hr

theorem walked_nil (freeGib : Int) :
    Walked (τ := τ) freeGib [] ⟨freeGib, 0, none, none, [], []⟩ := by
  refine ⟨.nil, (Int.sub_zero freeGib).symm, Int.le_max_left 0 freeGib, rfl, fun _ => nofun,
    Nat.zero_le 1, ?_, nofun⟩
  intro i e he
  cases he

end

section

theorem map_eq_of_forall₂ {α : Type} {entries : List (Entry τ)} {claims : List (Claim τ)}
    {f : Entry τ → α} {g : Claim τ → α}
    (hfg : ∀ e c, Entry.Of e c → f e = g c) (h : List.Forall₂ Entry.Of entries claims) :
      entries.map f = claims.map g := by
  induction h with
  | nil => rfl
  | cons hof _ ih => rw [map_cons, map_cons, hfg _ _ hof, ih]

variable [LinearOrder τ]

theorem comparison_claimLe : Comparison (claimLe (τ := τ)) := by
  have hk : Comparison fun a b : Claim τ => nameLe a.consumer b.consumer :=
    ⟨fun a b => nameLe_total a.consumer b.consumer, nameLe_trans⟩
  exact ((hk.thenBy Claim.claimedUnix).thenBy waitedFrom).thenBy fun claim => !claim.blocked

variable {a b : Claim τ}

theorem blocked_of_claimLe (h : claimLe a b = true) (hb : b.blocked = true) : a.blocked = true := by
  have hle := key_le_of_thenBy h
  rw [hb] at hle
  cases ha : a.blocked with
  | true => rfl
  | false =>
    rw [ha] at hle
    exact absurd hle (by decide)

theorem consumer_eq_of_claimLe (hab : claimLe a b = true) (hba : claimLe b a = true) :
    a.consumer = b.consumer := by
  obtain ⟨-, hab, hba⟩ := thenBy_antisymm hab hba
  obtain ⟨-, hab, hba⟩ := thenBy_antisymm hab hba
  obtain ⟨-, hab, hba⟩ := thenBy_antisymm hab hba
  exact nameLe_antisymm hab hba

/-- The order spends the free room once and in the order of the ranks. -/
structure SpendsOnce (claims : List (Claim τ)) (freeGib : Int) (order : Order τ) : Prop where
  listed : (order.entries.map Entry.consumer).Perm (claims.map Claim.consumer)
  oneHead : (order.entries.filter Entry.isHead).length ≤ 1
  spent : spentGib order.entries ≤ max 0 freeGib
  behindHead : ∀ i e, order.entries[i]? = some e → (∃ h ∈ order.entries.take i, h.isHead = true) →
    0 < e.needGib →
    Waits claims (order.entries.take i) e
  target : order.targetFreeGib = spentGib order.entries + headGib order.entries
  blockedFirst : order.entries.Pairwise fun a b => b.blocked = true → a.blocked = true

/-- However the claims are listed, the free room is spent once and in rank order. -/
theorem claimOrder_spendsOnce (claims : List (Claim τ)) (hkeys : (claims.map Claim.consumer).Nodup)
    (freeGib : Int) :
    SpendsOnce claims freeGib (claimOrder claims freeGib) ∧
      ∀ claims' : List (Claim τ), claims'.Perm claims →
      claimOrder claims' freeGib = claimOrder claims freeGib := by
  refine ⟨?_, fun claims' hpe => ?_⟩
  · have hr := rank_perm claimLe claims
    have hw := walked_foldl (walked_nil freeGib) (rank claimLe claims)
    rw [nil_append] at hw
    refine ⟨?_, hw.heads, hw.spent, fun i e he hbe hp => ?_, hw.target, ?_⟩
    · rw [claimOrder, map_eq_of_forall₂ (fun _ _ hof => hof.1) hw.entries]
      exact hr.map _
    · exact (hw.served i e he hbe hp).mono fun c hc => hr.mem_iff.mp hc
    · have hbl := map_eq_of_forall₂ (fun _ _ hof => hof.2.1) hw.entries
      have hpa : ((rank claimLe claims).map Claim.blocked).Pairwise fun a b => b = true →
        a = true :=
        pairwise_map.mpr ((comparison_claimLe.rank_pairwise claims).imp blocked_of_claimLe)
      rw [← hbl] at hpa
      exact pairwise_map.mp hpa
  · have han : ∀ a ∈ claims', ∀ b ∈ claims', claimLe a b = true → claimLe b a = true → a = b := by
      intro a ha b hb hab hba
      have hn := (hpe.map _).nodup_iff.mpr hkeys
      exact inj_on_of_nodup_map hn ha hb (consumer_eq_of_claimLe hab hba)
    rw [claimOrder, claimOrder, comparison_claimLe.rank_congr hpe han]

/-- Three claims on five free GiB: the older reader is granted, its sharer with it, and a third is
the head. -/
def threeClaims : List (Claim Nat) :=
  [⟨"c", 1, some 4, false, none, some "n"⟩, ⟨"a", 2, some 3, true, some 5, some "m"⟩,
    ⟨"b", 3, some 3, false, none, some "m"⟩]

theorem threeClaims_spendsOnce :
    (claimOrder threeClaims 5).entries.map Entry.standing =
    [.granted none, .head 2, .granted (some "a")] ∧
      SpendsOnce threeClaims 5 (claimOrder threeClaims 5) ∧
      claimOrder threeClaims.reverse 5 = claimOrder threeClaims 5 := by
  have ho := claimOrder_spendsOnce threeClaims (by decide) 5
  exact ⟨by decide, ho.1, ho.2 _ (reverse_perm _)⟩

end

end PrismaBuild.WindowCredit
