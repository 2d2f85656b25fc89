import Mathlib

namespace PrismaBuild.Ranking

open List

variable {α β : Type}

/-- A comparison by a key first, and by another comparison where the keys are equal. -/
def thenBy [LinearOrder β] (key : α → β) (rest : α → α → Bool) (a b : α) : Bool :=
  if key a = key b then rest a b else decide (key a < key b)

structure Comparison (le : α → α → Bool) : Prop where
  total : ∀ a b, le a b = true ∨ le b a = true
  trans : ∀ {a b c}, le a b = true → le b c = true → le a c = true

section

variable [LinearOrder β] {key : α → β} {rest : α → α → Bool} {a b : α}

theorem key_le_of_thenBy (h : thenBy key rest a b = true) : key a ≤ key b := by
  unfold thenBy at h
  split at h
  next heq => exact le_of_eq heq
  next => exact le_of_lt (of_decide_eq_true h)

theorem thenBy_of_lt (h : key a < key b) : thenBy key rest a b = true := by
  rw [thenBy, if_neg (ne_of_lt h)]
  exact decide_eq_true h

theorem thenBy_of_eq (h : key a = key b) : thenBy key rest a b = rest a b := by
  rw [thenBy, if_pos h]

theorem thenBy_antisymm (hab : thenBy key rest a b = true) (hba : thenBy key rest b a = true) :
    key a = key b ∧ rest a b = true ∧ rest b a = true := by
  have heq := le_antisymm (key_le_of_thenBy hab) (key_le_of_thenBy hba)
  rw [thenBy_of_eq heq] at hab
  rw [thenBy_of_eq heq.symm] at hba
  exact ⟨heq, hab, hba⟩

theorem Comparison.thenBy (h : Comparison rest) (key : α → β) : Comparison (thenBy key rest) where
  total a b := by
    rcases lt_trichotomy (key a) (key b) with hlt | heq | hgt
    · exact .inl (thenBy_of_lt hlt)
    · rw [thenBy_of_eq heq, thenBy_of_eq heq.symm]
      exact h.total a b
    · exact .inr (thenBy_of_lt hgt)
  trans {a b c} hab hbc := by
    have hle := key_le_of_thenBy hab
    have hle' := key_le_of_thenBy hbc
    rcases lt_or_eq_of_le (le_trans hle hle') with hlt | heq
    · exact thenBy_of_lt hlt
    · -- all three keys are equal, so the rest decides both
      have hf := le_antisymm hle (le_of_le_of_eq hle' heq.symm)
      have hs := hf.symm.trans heq
      rw [thenBy_of_eq hf] at hab
      rw [thenBy_of_eq hs] at hbc
      rw [thenBy_of_eq heq]
      exact h.trans hab hbc

end

section

variable (le : α → α → Bool)

def rank (items : List α) : List α := items.insertionSort fun a b => le a b = true

theorem rank_perm (items : List α) : (rank le items).Perm items := perm_insertionSort _ items

variable {le}

theorem Comparison.rank_pairwise (h : Comparison le) (items : List α) :
    (rank le items).Pairwise fun a b => le a b = true := by
  have : Std.Total fun a b => le a b = true := ⟨h.total⟩
  have : IsTrans α fun a b => le a b = true := ⟨fun _ _ _ => h.trans⟩
  exact pairwise_insertionSort _ items

theorem Comparison.rank_congr (h : Comparison le) {items items' : List α} (hp : items.Perm items')
    (han : ∀ a ∈ items, ∀ b ∈ items, le a b = true → le b a = true → a = b) :
    rank le items = rank le items' := by
  refine List.Perm.eq_of_pairwise (fun a b ha hb => ?_) (h.rank_pairwise items)
    (h.rank_pairwise items') ?_
  · have ha := (rank_perm le items).mem_iff.mp ha
    have hb := hp.mem_iff.mpr ((rank_perm le items').mem_iff.mp hb)
    exact han a ha b hb
  · exact ((rank_perm le items).trans hp).trans (rank_perm le items').symm

end

section

variable {α β : Type} [LinearOrder β]

/-- By a key first, and by another relation where the keys are equal. -/
def Later (key : α → β) (rest : α → α → Prop) (a b : α) : Prop :=
    key a < key b ∨ key a = key b ∧ rest a b

variable {rest : α → α → Prop}

theorem Later.asymm {key : α → β} {a b : α} (hr : rest a b → ¬ rest b a)
    (h : Later key rest a b) : ¬ Later key rest b a := by
  rintro (hlt | ⟨heq, hba⟩)
  · rcases h with h | h
    · exact lt_asymm h hlt
    · exact absurd h.1 (ne_of_gt hlt)
  · rcases h with h | h
    · exact absurd heq (ne_of_gt h)
    · exact hr h.2 hba

/-- Insertion in front of what is not less is stable. -/
def sortBy (key : α → β) (items : List α) : List α := items.insertionSort fun a b => key a ≤ key b

variable {items : List α}

theorem sortBy_pairwise (key : α → β) (h : items.Pairwise rest) :
    (sortBy key items).Pairwise (Later key rest) := by
  induction items with
  | nil => exact .nil
  | cons a items ih =>
    obtain ⟨ha, hi⟩ := pairwise_cons.mp h
    have hr : ∀ b ∈ sortBy key items, key a ≤ key b → Later key rest a b := by
      intro b hb hle
      rcases lt_or_eq_of_le hle with hlt | heq
      · exact .inl hlt
      · exact .inr ⟨heq, ha b ((mem_insertionSort _).mp hb)⟩
    have hs := ih hi
    show (orderedInsert _ a (sortBy key items)).Pairwise _
    generalize sortBy key items = sorted at hr hs
    induction sorted with
    | nil => exact pairwise_singleton _ _
    | cons b sorted ihs =>
      obtain ⟨hb, hs'⟩ := pairwise_cons.mp hs
      by_cases hle : key a ≤ key b
      · rw [orderedInsert_cons, if_pos hle]
        refine pairwise_cons.mpr ⟨fun c hc => ?_, hs⟩
        refine hr c hc (hle.trans ?_)
        rcases mem_cons.mp hc with rfl | hc
        · exact le_rfl
        · rcases hb c hc with hlt | heq
          · exact le_of_lt hlt
          · exact le_of_eq heq.1
      · rw [orderedInsert_cons, if_neg hle]
        refine pairwise_cons.mpr ⟨fun c hc => ?_, ihs (fun c hc => hr c (.tail _ hc)) hs'⟩
        rcases (mem_orderedInsert _).mp hc with rfl | hc
        · exact .inl (not_le.mp hle)
        · exact hb c hc

theorem partition_pairwise (first : α → Bool) (h : items.Pairwise rest) :
    (items.filter first ++ items.filter fun a => !first a).Pairwise
    (Later (fun a => !first a) rest) := by
  have hs : ∀ test : α → Bool, (∀ a b, test a = true → test b = true → first a = first b) →
      (items.filter test).Pairwise (Later (fun a => !first a) rest) := by
    intro test hc
    refine (h.filter test).imp_of_mem fun {a b} ha hb hab => .inr ⟨?_, hab⟩
    exact congrArg not (hc a b (mem_filter.mp ha).2 (mem_filter.mp hb).2)
  refine pairwise_append.mpr ⟨hs _ ?_, hs _ ?_, fun a ha b hb => .inl ?_⟩
  · exact fun a b ha hb => ha.trans hb.symm
  · exact fun a b ha hb => Bool.not_inj (ha.trans hb.symm)
  · show (!first a) < !first b
    rw [(mem_filter.mp ha).2, (mem_filter.mp hb).2]
    decide

theorem arranged_eq_iff {r r' : α → α → Prop} (hr : ∀ a b, r a b → ¬ r b a)
    (hr' : ∀ a b, r' a b → ¬ r' b a)
    {items items' : List α} (hp : items'.Perm items) (h : items.Pairwise r)
      (h' : items'.Pairwise r') :
    items' = items ↔ ∀ a ∈ items, ∀ b ∈ items, r a b → r' a b := by
  constructor
  · rintro rfl a ha b hb hab
    have : Std.Symm fun a b => (r a b ∧ r' a b) ∨ (r b a ∧ r' b a) := ⟨fun _ _ => Or.symm⟩
    have hbo : items'.Pairwise fun a b => (r a b ∧ r' a b) ∨ (r b a ∧ r' b a) := (h.and h').imp .inl
    have hne : a ≠ b := fun heq => hr a b hab (heq ▸ hab)
    rcases hbo.forall ha hb hne with hbo | hbo
    · exact hbo.2
    · exact absurd hab (hr b a hbo.1)
  · intro hi
    have hi' := h.imp_of_mem fun ha hb => hi _ ha _ hb
    exact hp.eq_of_pairwise (fun a b _ _ hab hba => absurd hba (hr' a b hab)) h' hi'

end

end PrismaBuild.Ranking
