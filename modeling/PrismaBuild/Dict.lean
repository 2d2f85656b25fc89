import Mathlib

namespace PrismaBuild.Dict

open List

variable {κ α : Type} [DecidableEq κ]

/-- Set a key of a dictionary that lists its keys in the order they came. -/
def set (key : κ) (value : α) : List (κ × α) → List (κ × α)
  | [] => [(key, value)]
  | item :: items => if item.1 = key then (key, value) :: items else item :: set key value items

def update (items more : List (κ × α)) : List (κ × α) :=
    more.foldl (fun items item => set item.1 item.2 items) items

variable {item : κ × α} {items : List (κ × α)} {key : κ} {value : α}

theorem mem_of_mem_set (h : item ∈ set key value items) : item = (key, value) ∨ item ∈ items := by
  induction items with
  | nil => exact .inl (mem_singleton.mp h)
  | cons head items ih =>
    rw [set] at h
    split at h
    · rcases mem_cons.mp h with h | h
      · exact .inl h
      · exact .inr (.tail _ h)
    · rcases mem_cons.mp h with h | h
      · exact .inr (h ▸ .head _)
      · exact (ih h).imp_right (.tail _)

theorem mem_set_self (key : κ) (value : α) (items : List (κ × α)) :
    (key, value) ∈ set key value items := by
  induction items with
  | nil => exact .head _
  | cons head items ih =>
    rw [set]
    split
    · exact .head _
    · exact .tail _ ih

theorem mem_set_of_mem (h : item ∈ items)
    (hs : item.1 = key → item = (key, value)) : item ∈ set key value items := by
  induction items with
  | nil => cases h
  | cons head items ih =>
    rw [set]
    split
    next hk =>
      rcases mem_cons.mp h with h | h
      · rw [hs (h ▸ hk)]
        exact .head _
      · exact .tail _ h
    next =>
      rcases mem_cons.mp h with h | h
      · exact h ▸ .head _
      · exact .tail _ (ih h)

variable {more : List (κ × α)}

theorem mem_of_mem_update (h : item ∈ update items more) : item ∈ items ∨ item ∈ more := by
  induction more generalizing items with
  | nil => exact .inl h
  | cons head more ih =>
    rcases ih h with h | h
    · rcases mem_of_mem_set h with h | h
      · exact .inr (h ▸ .head _)
      · exact .inl h
    · exact .inr (.tail _ h)

theorem mem_update (h : item ∈ items ∨ item ∈ more)
    (hs : ∀ other ∈ more, other.1 = item.1 → other = item) : item ∈ update items more := by
  induction more generalizing items with
  | nil => exact h.resolve_right not_mem_nil
  | cons head more ih =>
    obtain ⟨hh, hm⟩ := forall_mem_cons.mp hs
    refine ih ?_ hm
    rcases h with h | h
    · exact .inl (mem_set_of_mem h fun hk => (hh hk.symm).symm)
    · rcases mem_cons.mp h with h | h
      · exact .inl (h ▸ mem_set_self _ _ _)
      · exact .inr h

section

variable [BEq κ] [LawfulBEq κ]

variable {key other : κ}

omit [DecidableEq κ] in
theorem lookup_cons_of_ne (h : other ≠ key) (value : α) (items : List (κ × α)) :
    ((key, value) :: items).lookup other = items.lookup other := by
  rw [lookup_cons, beq_eq_false_iff_ne.mpr h]

theorem lookup_set_self (key : κ) (value : α) (items : List (κ × α)) :
    (set key value items).lookup key = some value := by
  induction items with
  | nil => exact lookup_cons_self
  | cons head items ih =>
    rw [set]
    split
    next => exact lookup_cons_self
    next hk => exact (lookup_cons_of_ne (Ne.symm hk) head.2 _).trans ih

theorem lookup_set_of_ne (h : other ≠ key) (value : α) (items : List (κ × α)) :
    (set key value items).lookup other = items.lookup other := by
  induction items with
  | nil => exact lookup_cons_of_ne h value []
  | cons head items ih =>
    obtain ⟨first, held⟩ := head
    rw [set]
    split
    next hk =>
      have hk : first = key := hk
      rw [lookup_cons_of_ne h, lookup_cons_of_ne (hk ▸ h)]
    next =>
      by_cases hf : other = first
      · subst hf
        rw [lookup_cons_self, lookup_cons_self]
      · rw [lookup_cons_of_ne hf, lookup_cons_of_ne hf, ih]

end

end PrismaBuild.Dict
