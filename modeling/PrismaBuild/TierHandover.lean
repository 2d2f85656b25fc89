import PrismaBuild.TierMirror

namespace PrismaBuild.TierHoldings

open Prog ResourceLedger Ledger List

variable {s : Holdings}

section

theorem Sound.tierToken (hs : Sound s) (h : Name) (n : Name) (hn : (.held h, n) ∈ s.tier.files) :
    isToken n = true :=
  (hs.tierHeld h n hn).1.isToken

theorem Sound.mirrorToken (hs : Sound s) (h : Name) (n : Name)
    (hn : (.held (mirrorOf h), n) ∈ s.host.files) : isToken n = true :=
  (hs.mirrors h n hn).1.isToken

theorem Sound.mirrorKind (hs : Sound s) (h : Name) (n : Name)
    (hn : n ∈ s.host.names (.held (mirrorOf h))) :
    isKind hostMemoryKind n = true := by
  obtain ⟨hnu, hk⟩ := hs.mirrors h n (mem_names.mp hn)
  simp [isKind, hnu.isToken, hk]

theorem Sound.countP_take (hs : Sound s) (h : Name) (k : Nat) :
    ((s.host.names (.held (mirrorOf h))).take k).countP (isKind hostMemoryKind) =
    min k (mirror s h) := by
  have ha : ∀ n ∈ (s.host.names (.held (mirrorOf h))).take k, isKind hostMemoryKind n = true :=
    fun n hn => hs.mirrorKind h n (mem_of_mem_take hn)
  rw [countP_eq_length.mpr ha, length_take, mirror, Ledger.tokens,
    countP_eq_length.mpr (hs.mirrorKind h)]

end

section

theorem transfer_self (a : Name) : transfer a a = pure (.ok 0) := by simp [transfer]

theorem transferCount_self (a : Name) (count : Int) : transferCount a a count = pure (.ok 0) := by
  simp [transferCount]

variable {a b : Name}

theorem keys_cases (a b : Holder) :
    a = b ∨ (¬ (a.val = [] ∨ b.val = [] ∨ a.val = b.val) ∧
    (isPrivateHolder a || isPrivateHolder b) = true) ∨ Accepted a.val b.val := by
  by_cases heq : a = b
  · exact .inl heq
  · have hne : a.val ≠ b.val := fun he => heq (Subtype.ext he)
    cases hp : isPrivateHolder a || isPrivateHolder b with
    | true => exact .inr (.inl ⟨by simp [a.property, b.property, hne], rfl⟩)
    | false =>
      obtain ⟨ha, hb⟩ := Bool.or_eq_false_iff.mp hp
      exact .inr (.inr ⟨a.property, b.property, hne, ha, hb⟩)

theorem mirror_accepted (h : Accepted a b) : Accepted (mirrorOf a) (mirrorOf b) :=
  ⟨mirrorOf_ne_nil a, mirrorOf_ne_nil b, fun he => h.distinct (mirrorOf_inj.mp he),
    isPrivateHolder_mirrorOf a,
    isPrivateHolder_mirrorOf b⟩

end

theorem handover_mirrored (hs : Sound s) (h : Mirrored s) (a b : Holder) :
    Mirrored (handover true s a b).2 := by
  rcases keys_cases a b with rfl | ⟨hk, hp⟩ | hab
  · unfold handover onHost
    rw [transfer_self, transfer_self]
    exact h
  · unfold handover
    rw [transfer, if_neg hk, if_pos hp]
    exact h
  · have ht := run_of_ends (transfer_ends hab hs.tierUnique (hs.tierToken a))
    have hh := run_of_ends (transfer_ends (mirror_accepted hab) hs.hostUnique (hs.mirrorToken a))
    unfold handover
    generalize run (transfer a.val b.val) s.tier = moved at ht
    obtain ⟨outcome, tier⟩ := moved
    obtain ⟨rfl, hT⟩ := ht
    exact h.transfer hT hh.2 (halves_held a) (halves_held b) (h a hab.fromPublic).symm

section

variable {A : List Name} {p q : Place} {t u : Ledger}

theorem mem_arrived (hm : Moved p q A t u) (hT : Transfer p q A t u) (n : Name) :
    n ∈ arrived q t u ↔ n ∈ A := by
  have hd := hm q n
  simp only [true_and, Ne.symm hT.distinct, false_and, not_false_eq_true, and_true] at hd
  simp only [arrived, mem_filter, mem_names, decide_eq_true_eq, hd]
  constructor
  · rintro ⟨hA | hin, hn, -⟩
    · exact hA
    · exact absurd hin hn
  · intro hA
    exact ⟨.inl hA, hT.absent n hA, isMetadata_of_isToken (hT.token n hA)⟩

theorem countP_arrived (hm : Moved p q A t u) (hT : Transfer p q A t u) :
    ((arrived q t u).countP fun n => kindOf n == ramCapacityKind) =
    A.countP (isKind ramCapacityKind) := by
  have hp : (arrived q t u).Perm A :=
    (perm_ext_iff_of_nodup ((names_nodup u q).filter _) hT.nodup).mpr (mem_arrived hm hT)
  rw [hp.countP_eq]
  refine countP_congr fun n hn => ?_
  simp [isKind, hT.token n hn]

theorem handoverNamed_mirrored (hs : Sound s) (h : Mirrored s) (a b : Name) (names : List Name) :
    Mirrored (handoverNamed true s a b names).2 := by
  unfold handoverNamed
  rcases transferTokens_cases a b names with ⟨e, he⟩ | ⟨hab, hn, hto, he⟩
  · rw [he]
    exact h
  · have ht := run_of_ends (namedTokens_ends (s := s.tier) hab.distinct hn hto)
    rw [he]
    generalize run _ s.tier = moved at ht
    obtain ⟨outcome, tier⟩ := moved
    obtain ⟨⟨done, rfl⟩, hm, hT⟩ := ht
    have hc := countP_arrived hm hT
    have hso := hT.tokens_source ramCapacityKind
    have hb : mirror s a = s.tier.tokens (.held a) ramCapacityKind := h a hab.fromPublic
    dsimp only at hm hT hc hso ⊢
    rw [hc]
    split
    next hz =>
      have hne : Place.held (mirrorOf a) ≠ .held (mirrorOf b) :=
        fun he => (mirror_accepted hab).distinct (Place.held.inj he)
      exact h.transfer hT (Transfer.nil hne s.host) (halves_held a) (halves_held b) hz
    next =>
      have hh := run_of_ends (transferCount_ends (mirror_accepted hab)
        ((namedTokens a b names s.tier).countP (isKind ramCapacityKind)) hs.hostUnique
        (hs.mirrorToken a))
      refine h.transfer hT hh.2 (halves_held a) (halves_held b) ?_
      rw [Int.toNat_natCast, hs.countP_take]
      omega

end

section

theorem countP_take_iff {names : List Name} (hn : names.Nodup) (good : Name → Bool) (k : Nat) :
    (names.take k).countP good = min (names.take k).length (names.countP good) ↔
      (∀ n ∈ names.take k, good n = true) ∨ ∀ n ∈ names, good n = true → n ∈ names.take k := by
  have hs : names.countP good = (names.take k).countP good + (names.drop k).countP good := by
    rw [← countP_append, take_append_drop]
  have ha : (∀ n ∈ names.take k, good n = true) ↔
    (names.take k).countP good = (names.take k).length :=
    countP_eq_length.symm
  have hr : (∀ n ∈ names, good n = true → n ∈ names.take k) ↔ (names.drop k).countP good = 0 := by
    rw [countP_eq_zero]
    constructor
    · intro hin n hn' hg
      exact disjoint_take_drop hn (le_refl k) (hin n (mem_of_mem_drop hn') hg) hn'
    · intro hb n hn' hg
      rw [← take_append_drop k names, mem_append] at hn'
      exact hn'.resolve_right fun hd => hb n hd hg
  have hle := countP_le_length (p := good) (l := names.take k)
  rw [ha, hr]
  omega

/-- A counted handover moves occupancy only, or all the occupancy there is. -/
def Countable (s : Holdings) (fromKey toKey : Name) (count : Int) : Prop :=
  let moved := (MoveCall.transferCount fromKey toKey count).plan s.tier
  (∀ n ∈ moved, isKind ramCapacityKind n = true) ∨
    ∀ n ∈ s.tier.names (.held fromKey), isKind ramCapacityKind n = true → n ∈ moved

variable {a b : Name}

theorem plan_accepted {s : Ledger} (hab : Accepted a b) (count : Int) (hu : s.Unique)
    (ht : ∀ n, (.held a, n) ∈ s.files → isToken n = true) :
    (MoveCall.transferCount a b count).plan s = (s.names (.held a)).take count.toNat := by
  have hne : Place.held a ≠ .held b := fun he => hab.distinct (Place.held.inj he)
  have hr : (MoveCall.transferCount a b count).refused = false := by
    simp [MoveCall.refused, MoveCall.refusedKeys, hab.fromNonempty, hab.toNonempty, hab.distinct,
      hab.fromPublic,
      hab.toPublic]
  have ha : candidates (.held a) (.held b) (fun n => !isMetadata n) s = s.names (.held a) := by
    refine candidates_eq_names hne (by simp) (by simp) hu ht fun n hn => ?_
    rw [isMetadata_of_isToken hn]
    rfl
  rw [MoveCall.plan, hr, if_neg Bool.false_ne_true, MoveCall.work, ha]

theorem countable_of_refused {count : Int} (h : (MoveCall.transferCount a b count).refused = true) :
    Countable s a b count := by
  refine .inl fun n hn => ?_
  rw [MoveCall.plan, if_pos h] at hn
  cases hn

theorem handoverCount_of_moved {count moved : Int} {tier : Ledger}
    (h : run (transferCount a b count) s.tier = (.ok moved, tier)) :
    (handoverCount true s a b count).2 =
      ⟨tier, (run (transferCount (mirrorOf a) (mirrorOf b) moved) s.host).2⟩ := by
  rw [handoverCount, h]
  rfl

theorem handoverCount_mirrored_iff (hs : Sound s) (h : Mirrored s) (a b : Holder) (count : Int) :
    Mirrored (handoverCount true s a b count).2 ↔ Countable s a b count := by
  rcases keys_cases a b with rfl | ⟨hk, hp⟩ | hab
  · have hr : (MoveCall.transferCount a a count).refused = true := by
      simp [MoveCall.refused, MoveCall.refusedKeys]
    refine iff_of_true ?_ (countable_of_refused hr)
    have hn : run (transferCount a.val a.val count) s.tier = (.ok 0, s.tier) := by
      rw [transferCount_self]
      rfl
    rw [handoverCount_of_moved hn, transferCount_self]
    exact h
  · have hr : (MoveCall.transferCount a b count).refused = true := by
      rw [MoveCall.refused, MoveCall.refusedKeys, hp, Bool.or_true]
    refine iff_of_true ?_ (countable_of_refused hr)
    unfold handoverCount
    rw [transferCount, if_neg hk, if_pos hp]
    exact h
  · have ht := run_of_ends (transferCount_ends hab count hs.tierUnique (hs.tierToken a))
    have hb : mirror s a = s.tier.tokens (.held a) ramCapacityKind := h a hab.fromPublic
    unfold Countable
    rw [plan_accepted hab count hs.tierUnique (hs.tierToken a), ← countP_take_iff (names_nodup _ _)]
    obtain ⟨ho, hT⟩ := ht
    have hm : run (transferCount a.val b.val count) s.tier =
        (.ok (((s.tier.names (.held a)).take count.toNat).length : Int),
        (run (transferCount a b count) s.tier).2) :=
      Prod.ext ho rfl
    have hh := run_of_ends (transferCount_ends (mirror_accepted hab)
      (((s.tier.names (.held a)).take count.toNat).length : Int) hs.hostUnique (hs.mirrorToken a))
    have hB := hs.countP_take a ((s.tier.names (.held a)).take count.toNat).length
    rw [Int.toNat_natCast] at hh
    rw [handoverCount_of_moved hm]
    constructor
    · intro ha
      have hso := ha a hab.fromPublic
      have hto := hT.tokens_source ramCapacityKind
      have hmi := hh.2.tokens_source hostMemoryKind
      unfold mirror occupancy at hso
      unfold mirror at hb hB
      dsimp only at hso
      show _ = min _ (s.tier.tokens (.held a) ramCapacityKind)
      omega
    · intro hc
      refine h.transfer hT hh.2 (halves_held a) (halves_held b) ?_
      rw [hB, hc, hb]
      rfl

end

end PrismaBuild.TierHoldings
