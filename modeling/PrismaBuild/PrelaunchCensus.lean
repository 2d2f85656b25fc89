import PrismaBuild.PrelaunchGroup
import PrismaBuild.LedgerWithin

namespace PrismaBuild.PrelaunchGroup

open Prog ResourceLedger Ledger List

section

theorem isDigits_toDigits (n : Nat) : isDigits (Nat.toDigits 10 n) = true := by
  have hne : Nat.toDigits 10 n ≠ [] := by
    have hl := Nat.length_toDigits_pos (b := 10) (n := n)
    exact ne_nil_of_length_pos hl
  have ha : (Nat.toDigits 10 n).all Char.isDigit = true :=
    all_eq_true.mpr fun c hc => Nat.isDigit_of_mem_toDigits (by decide) (by decide) hc
  simp [isDigits, ha, hne]

theorem dot_not_mem_hex {n : Name} (h : n.all isHex = true) : '.' ∉ n := by
  intro hin
  exact absurd (all_eq_true.mp h '.' hin) (by decide)

end

variable {g : Group} {w : Machine}

section

theorem handleName_parts (g : Group) (w : Machine) (e : Entry) : (handleName g w e).splitOn '.' =
      [['c', 'l', 'a', 'i', 'm', 'i', 'n', 'g'], Nat.toDigits 10 e.usec, g.holder] ++
        (w.host.splitOn '.' ++ [Nat.toDigits 10 w.pid, e.nonce.val]) := by
  have hs : handleName g w e = ['c', 'l', 'a', 'i', 'm', 'i', 'n', 'g'] ++ '.' ::
      (Nat.toDigits 10 e.usec ++ '.' :: (g.holder ++ '.' :: (w.host ++ '.' ::
        (Nat.toDigits 10 w.pid ++ '.' :: e.nonce.val)))) := rfl
  rw [hs, splitOn_append_cons_self, splitOn_append_cons_self, splitOn_append_cons_self,
    splitOn_append_cons_self, splitOn_append_cons_self,
    splitOn_eq_singleton (not_mem_toDigits (by decide) _),
      splitOn_eq_singleton (not_mem_toDigits (by decide) _), splitOn_eq_singleton g.dotless,
    splitOn_eq_singleton (dot_not_mem_hex e.nonce.property.2), splitOn_eq_singleton (by decide)]
  simp

theorem acquisitionHandleOf_handleName (g : Group) (w : Machine) (e : Entry) :
    acquisitionHandleOf (handleName g w e) g.holder = some (e.usec, w.host, w.pid) := by
  have hpo : 0 < (w.host.splitOn '.').length := length_pos_iff.mpr (splitOn_ne_nil _ _)
  have hp : isPrivateHolder (handleName g w e) = true :=
    isPrefixOf_iff_prefix.mpr (prefix_append _ _)
  have hl : ((handleName g w e).splitOn '.').length = (w.host.splitOn '.').length + 5 := by
    rw [handleName_parts]
    simp
  have hu : ((handleName g w e).splitOn '.').getD 1 [] = Nat.toDigits 10 e.usec := by
    rw [handleName_parts]
    rfl
  have hh : ((handleName g w e).splitOn '.').getD 2 [] = g.holder := by
    rw [handleName_parts]
    rfl
  have hpi : ((handleName g w e).splitOn '.').getD ((w.host.splitOn '.').length + 3) [] =
    Nat.toDigits 10 w.pid := by
    rw [handleName_parts]
    simp [getD_eq_getElem?_getD]
  have hn : ((handleName g w e).splitOn '.').getD ((w.host.splitOn '.').length + 4) [] =
    e.nonce.val := by
    rw [handleName_parts]
    simp [getD_eq_getElem?_getD]
  have hho : (((handleName g w e).splitOn '.').drop 3).take (w.host.splitOn '.').length =
    w.host.splitOn '.' := by
    rw [handleName_parts]
    simp
  have hg : (isDigits (Nat.toDigits 10 e.usec) && isDigits (Nat.toDigits 10 w.pid) &&
      (e.nonce.val.length == 8 && e.nonce.val.all isHex)) = true := by
    rw [isDigits_toDigits, isDigits_toDigits, e.nonce.property.1, e.nonce.property.2]
    rfl
  unfold acquisitionHandleOf
  rw [if_neg (by rw [hl, hp, hh]; simp; omega), hl, hu,
    show (w.host.splitOn '.').length + 5 - 2 = (w.host.splitOn '.').length + 3 from rfl,
    show (w.host.splitOn '.').length + 5 - 1 = (w.host.splitOn '.').length + 4 from rfl,
    show (w.host.splitOn '.').length + 5 - 5 = (w.host.splitOn '.').length from rfl, hpi, hn, hho,
      if_pos hg,
    intercalate_splitOn, if_neg w.named, Nat.ofDigitChars_ten_toDigits,
      Nat.ofDigitChars_ten_toDigits]

theorem acquisitionHandleOf_holder (g : Group) : acquisitionHandleOf g.holder g.holder = none := by
  have hp := splitOn_eq_singleton g.dotless
  unfold acquisitionHandleOf
  rw [if_pos (.inl (by rw [hp]; simp))]

end

section

variable {s : Ledger}

/-- The handle that a name of `held/` stands for. -/
def handleAt (g : Group) (s : Ledger) (entry : Name) : Option Handle :=
  (acquisitionHandleOf entry g.holder).map fun x =>
    ⟨entry, x.1, x.2.1, x.2.2, (s.names (.held entry)).countP fun n => !isMetadata n⟩

def handlesOf (g : Group) (s : Ledger) : List Handle := s.holderNames.filterMap (handleAt g s)

def holding (g : Group) (s : Ledger) : Nat := s.tokens (.held g.holder) g.kind

def pending (g : Group) (s : Ledger) : Nat := ((handlesOf g s).map Handle.tokens).sum

theorem isDir_along {I : Ledger → Prop} {α : Type} {Q : α → Ledger → Prop} {p : Place}
    (hp : p ∈ s.dirs) (hs : I s)
    {k : Bool → LedgerProg α} (h : Along quiet I Q (k true) s) :
      Along quiet I Q (isDir p >>= k) s := by
  refine .perform hs fun _ => ?_
  rw [quiet_isDir hp]
  exact h

theorem acquisitionsUnder_along (g : Group) (entries : List Name)
    (hd : ∀ entry ∈ entries, Place.held entry ∈ s.dirs)
    (found : List Handle) : Along quiet (· = s) (fun r u => u = s ∧
      r = .ok (found ++ entries.filterMap (handleAt g s)))
      (acquisitionsUnder g.holder entries found) s := by
  induction entries generalizing found with
  | nil => exact ⟨rfl, rfl, by rw [filterMap_nil, append_nil]⟩
  | cons entry entries ih =>
    have hr := ih fun x hx => hd x (.tail _ hx)
    refine isDir_along (I := (· = s)) (hd entry (.head _)) rfl ?_
    cases hp : acquisitionHandleOf entry g.holder with
    | none =>
      have hs : handleAt g s entry = none := by rw [handleAt, hp]; rfl
      rw [filterMap_cons_none hs]
      exact hr found
    | some x =>
      have ht : handleAt g s entry =
          some ⟨entry, x.1, x.2.1, x.2.2, (s.names (.held entry)).countP fun n =>
          !isMetadata n⟩ := by
        rw [handleAt, hp]
        rfl
      rw [filterMap_cons_some ht, append_cons]
      exact .andThen (scanOptional_along rfl (hr _))

theorem acquisitionsOf_along (g : Group) (s : Ledger) :
    Along quiet (· = s) (fun r u => u = s ∧ r = .ok (handlesOf g s)) (acquisitionsOf g.holder)
    s := by
  refine .andThen (.perform rfl fun _ => ⟨rfl, ?_⟩)
  have hn := acquisitionsUnder_along g s.holderNames (fun _ h => mem_holderNames.mp h) []
  rwa [nil_append] at hn

theorem unparsedUnder_along (holder : Name) (entries found : List Name)
    (hd : ∀ entry ∈ entries, Place.held entry ∈ s.dirs) :
    Along quiet (· = s) (fun r u => u = s ∧ ∃ names, r = .ok names)
      (unparsedUnder holder entries found) s := by
  induction entries generalizing found with
  | nil => exact ⟨rfl, rfl, found, rfl⟩
  | cons entry entries ih =>
    have hr := fun found => ih found fun x hx => hd x (.tail _ hx)
    refine isDir_along (I := (· = s)) (hd entry (.head _)) rfl ?_
    dsimp only
    split
    · split
      · exact hr _
      · exact hr _
    · exact hr _

structure Reads (g : Group) (c : Coverage) (receipts : Receipts) (s : Ledger) (found : Census) :
    Prop where
  held : found.h = holding g s
  inFlight : found.p = pending g s
  movers : found.m = c.m
  shared : found.s = c.s
  released : found.r = c.r
  receipts : found.receipts = receipts
  handles : found.handles = handlesOf g s
  unknown : found.unknown = c.unreadable

theorem census_along (g : Group) (c : Coverage) (receipts : Receipts) (s : Ledger) :
    Along quiet (· = s) (fun found u => u = s ∧ Reads g c receipts s found) (census g c receipts)
    s := by
  refine .perform rfl fun _ => ?_
  have hx : quiet (.glob (.held g.holder)) () s = (.ok (s.names (.held g.holder)), s) := rfl
  rw [hx]
  refine .bind ((acquisitionsOf_along g s).imp ?_)
  rintro handles t - ⟨rfl, rfl⟩
  have hu : Along quiet (· = t) (fun r u => u = t ∧ ∃ names, r = .ok names)
    (unparsedAcquisitionsOf g.holder) t := by
    refine .andThen (.perform rfl fun _ => ⟨rfl, ?_⟩)
    exact unparsedUnder_along _ _ _ fun _ h => mem_holderNames.mp h
  refine .bind (hu.imp ?_)
  rintro unparsed u - ⟨rfl, names, rfl⟩
  exact ⟨rfl, rfl, rfl, rfl, rfl, rfl, rfl, rfl, rfl, rfl⟩

end

end PrismaBuild.PrelaunchGroup
