import PrismaBuild.JsonScan

namespace PrismaBuild.Json

open List

variable {F : Type} {fields : List (Name × Json F)} {cs key rest : Name} {v : Json F}

theorem mem_insertField {p : Name × Json F} : p ∈ insertField key v fields ↔ p = (key, v) ∨
    p ∈ fields := by
  induction fields with
  | nil => simp [insertField]
  | cons q fields ih =>
    unfold insertField
    split
    · simp
    · rw [mem_cons, ih, mem_cons]
      tauto

theorem before_trans {a b c : Name} (hab : before a b = true) (hbc : before b c = true) :
    before a c = true := by
  rw [before_iff, Bool.eq_false_iff] at *
  intro hca
  rcases nameLe_total b c with h | h
  · exact hab (nameLe_trans h hca)
  · exact hbc h

theorem before_of_le_ne {a b : Name} (hle : nameLe a b = true) (hne : a ≠ b) :
    before a b = true := by
  rw [before_iff, Bool.eq_false_iff]
  intro h
  exact hne (nameLe_antisymm hle h)

theorem Ordered.insertField (h : Ordered fields) (v : Json F)
    (hn : ∀ p ∈ fields, p.1 ≠ key) : Ordered (insertField key v fields) := by
  induction fields with
  | nil => exact pairwise_singleton _ _
  | cons q fields ih =>
    obtain ⟨hq, ht⟩ := pairwise_cons.mp h
    unfold Json.insertField
    split
    next hle =>
      have hk := before_of_le_ne hle (Ne.symm (hn q (by simp)))
      refine pairwise_cons.mpr ⟨fun p hp => ?_, h⟩
      rcases mem_cons.mp hp with rfl | hp
      · exact hk
      · exact before_trans hk (hq p hp)
    next hle =>
      have hk := before_iff.mpr (Bool.eq_false_iff.mpr hle)
      refine pairwise_cons.mpr ⟨fun p hp => ?_, ih ht fun p hp => hn p (by simp [hp])⟩
      rcases mem_insertField.mp hp with rfl | hp
      · exact hk
      · exact hq p hp

theorem uniqueJsonObject_sorted {acc pairs fields : List (Name × Json F)} (hac : Ordered acc)
    (ha : SortedFields acc) (hp : SortedFields pairs)
    (h : uniqueJsonObject acc pairs = .ok fields) :
    Ordered fields ∧ SortedFields fields := by
  induction pairs generalizing acc with
  | nil =>
    cases h
    exact ⟨hac, ha⟩
  | cons p pairs ih =>
    obtain ⟨key, v⟩ := p
    unfold uniqueJsonObject at h
    obtain ⟨han, h⟩ := guard_ok.mp h
    rw [Bool.not_eq_true, any_eq_false] at han
    refine ih (hac.insertField v fun q hq he => han q hq (by simp [he])) ?_ hp.2 h
    rw [sortedFields_iff] at ha ⊢
    intro q hq
    rcases mem_insertField.mp hq with rfl | hq
    · exact hp.1
    · exact ha q hq

variable [FloatFormat F]

theorem scanAtom_sorted (h : scanAtom cs = .ok (v, rest)) : v.Sorted := by
  unfold scanAtom at h
  split at h
  next word w hf =>
    cases h
    have hm := mem_of_find?_eq_some hf
    simp only [words, mem_cons, Prod.mk.injEq, not_mem_nil, or_false] at hm
    rcases hm with ⟨-, hw⟩ | ⟨-, hw⟩ | ⟨-, hw⟩ | ⟨-, hw⟩ | ⟨-, hw⟩ | ⟨-, hw⟩ <;> cases hw
      <;> trivial
  next => cases h
  next =>
    unfold scanNumber at h
    split at h
    · cases h
    · split at h
      · obtain ⟨-, h⟩ := ite_ok.mp h
        cases h; trivial
      · cases h; trivial

theorem scan_sorted_all (fuel : Nat) :
    (∀ cs (v : Json F) rest, scanValue fuel cs = .ok (v, rest) → v.Sorted) ∧
    (∀ cs (items : List (Json F)) rest, scanItems fuel cs = .ok (items, rest) → SortedItems items) ∧
    ∀ cs (fields : List (Name × Json F)) rest, scanFields fuel cs = .ok (fields, rest) →
    SortedFields fields := by
  induction fuel with
  | zero =>
    exact ⟨fun cs v rest h => by simp [scanValue] at h, fun cs v rest h => by simp [scanItems] at h,
      fun cs v rest h => by simp [scanFields] at h⟩
  | succ fuel ih =>
    obtain ⟨ihv, ihi, ihf⟩ := ih
    refine ⟨fun cs v rest h => ?_, fun cs items rest h => ?_, fun cs fields rest h => ?_⟩
    · cases cs with
      | nil => simp [scanValue] at h
      | cons c cs =>
        rw [scanValue] at h
        split at h
        · split at h
          · cases h; trivial
          · cases h
        · split at h
          · split at h
            · cases h; exact ⟨List.Pairwise.nil, trivial⟩
            · obtain ⟨⟨pairs, tail⟩, hp, h⟩ := bind_ok.mp h
              obtain ⟨fields, hf, h⟩ := bind_ok.mp h
              cases h
              exact uniqueJsonObject_sorted List.Pairwise.nil trivial (ihf _ _ _ hp) hf
          · split at h
            · split at h
              · cases h; trivial
              · obtain ⟨⟨items, tail⟩, hi, h⟩ := bind_ok.mp h
                cases h
                exact ihi _ _ _ hi
            · exact scanAtom_sorted h
    · rw [scanItems] at h
      obtain ⟨⟨v, tail⟩, hv, h⟩ := bind_ok.mp h
      dsimp only at h
      split at h
      · cases h; exact ⟨ihv _ _ _ hv, trivial⟩
      · obtain ⟨⟨items, tail⟩, hi, h⟩ := bind_ok.mp h
        cases h
        exact ⟨ihv _ _ _ hv, ihi _ _ _ hi⟩
      · cases h
    · unfold scanFields at h
      split at h
      next => cases h
      next n tail hn =>
        obtain rfl : fuel = n := Nat.succ.inj hn
        split at h
        · cases h
        · split at h
          · obtain ⟨⟨v, tail⟩, hv, h⟩ := bind_ok.mp h
            dsimp only at h
            split at h
            · cases h; exact ⟨ihv _ _ _ hv, trivial⟩
            · obtain ⟨⟨fields, tail⟩, hf, h⟩ := bind_ok.mp h
              cases h
              exact ⟨ihv _ _ _ hv, ihf _ _ _ hf⟩
            · cases h
          · cases h
      next => cases h

theorem scan_sorted (h : scan cs = .ok v) : v.Sorted := by
  obtain ⟨⟨w, rest⟩, hw, h⟩ := bind_ok.mp h
  obtain ⟨-, h⟩ := ite_ok.mp h
  cases h
  exact (scan_sorted_all _).1 _ _ _ hw

end PrismaBuild.Json
