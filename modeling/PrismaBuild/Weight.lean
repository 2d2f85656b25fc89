import Mathlib

namespace PrismaBuild

open List

variable {K V : Type} [DecidableEq K] {f g : K → V → Nat} {s : AList fun _ : K => V} {k : K} {v : V}

def weight (f : K → V → Nat) (s : AList fun _ : K => V) : Nat :=
    (s.entries.map fun e => f e.1 e.2).sum

theorem weight_le (h : ∀ k v, s.lookup k = some v → f k v ≤ g k v) : weight f s ≤ weight g s := by
  refine sum_le_sum fun e he => ?_
  exact h e.1 e.2 (AList.mem_lookup_iff.mpr he)

theorem weight_congr (h : ∀ k v, s.lookup k = some v → f k v = g k v) :
    weight f s = weight g s := by
  refine congrArg sum (map_congr_left fun e he => ?_)
  exact h e.1 e.2 (AList.mem_lookup_iff.mpr he)

theorem weight_insert : weight f (s.insert k v) = f k v + weight f (s.erase k) := rfl

theorem weight_erase (h : s.lookup k = some v) : weight f s = f k v + weight f (s.erase k) := by
  have hk := AList.lookup_isSome.mp (Option.isSome_of_eq_some h)
  obtain ⟨w, before, after, -, he, her⟩ := exists_of_kerase hk
  have hw : s.lookup k = some w := by
    refine AList.mem_lookup_iff.mpr ?_
    rw [he]
    exact mem_append_right _ (.head _)
  have hwv : w = v := Option.some.inj (hw.symm.trans h)
  have hs : weight f s = (before.map fun e => f e.1 e.2).sum +
    (f k w + (after.map fun e => f e.1 e.2).sum) := by
    unfold weight
    rw [he, map_append, sum_append]
    rfl
  have hr : weight f (s.erase k) = (before.map fun e => f e.1 e.2).sum +
    (after.map fun e => f e.1 e.2).sum := by
    show ((s.entries.kerase k).map fun e => f e.1 e.2).sum = _
    rw [her, map_append, sum_append]
  rw [hs, hr, hwv]
  omega

theorem weight_erase_le (f : K → V → Nat) (s : AList fun _ : K => V) (k : K) :
    weight f (s.erase k) ≤ weight f s := by
  cases h : s.lookup k with
  | none =>
    have hn : k ∉ s := by
      intro hm
      have hs := AList.lookup_isSome.mpr hm
      rw [h] at hs
      cases hs
    have hsa : (s.erase k).entries = s.entries := kerase_of_notMem_keys hn
    unfold weight
    rw [hsa]
  | some v =>
    have hsu := weight_erase (f := f) h
    omega

end PrismaBuild
