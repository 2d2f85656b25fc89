import Mathlib

namespace PrismaBuild

open List

abbrev Name := List Char

instance : Coe String Name := ⟨String.toList⟩

instance : LawfulBEq Name := inferInstance

/-- The order in which sorted texts are listed: by code point, a proper beginning first. -/
def nameLe : Name → Name → Bool
  | [], _ => true
  | _ :: _, [] => false
  | a :: as, b :: bs => a.toNat < b.toNat || a == b && nameLe as bs

theorem nameLe_cons {a b : Char} {as bs : Name} :
    nameLe (a :: as) (b :: bs) = true ↔ a.toNat < b.toNat ∨ a = b ∧ nameLe as bs = true := by
  simp [nameLe]

theorem nameLe_refl (a : Name) : nameLe a a = true := by
  induction a with
  | nil => rfl
  | cons c cs ih => exact nameLe_cons.mpr (.inr ⟨rfl, ih⟩)

theorem nameLe_total (a b : Name) : nameLe a b = true ∨ nameLe b a = true := by
  induction a generalizing b with
  | nil => exact .inl rfl
  | cons c cs ih =>
    cases b with
    | nil => exact .inr rfl
    | cons d ds =>
      rw [nameLe_cons, nameLe_cons]
      rcases Nat.lt_trichotomy c.toNat d.toNat with h | h | h
      · exact .inl (.inl h)
      · have he : c = d := Char.ext (UInt32.toNat_inj.mp h)
        rcases ih ds with hle | hle
        · exact .inl (.inr ⟨he, hle⟩)
        · exact .inr (.inr ⟨he.symm, hle⟩)
      · exact .inr (.inl h)

theorem nameLe_trans {a b c : Name} (hab : nameLe a b = true) (hbc : nameLe b c = true) :
    nameLe a c = true := by
  induction a generalizing b c with
  | nil => rfl
  | cons x xs ih =>
    cases b with
    | nil => simp [nameLe] at hab
    | cons y ys =>
      cases c with
      | nil => simp [nameLe] at hbc
      | cons z zs =>
        rw [nameLe_cons] at hab hbc ⊢
        rcases hab with hab | ⟨rfl, hab⟩ <;> rcases hbc with hbc | ⟨rfl, hbc⟩
        · exact .inl (hab.trans hbc)
        · exact .inl hab
        · exact .inl hbc
        · exact .inr ⟨rfl, ih hab hbc⟩

theorem nameLe_antisymm {a b : Name} (hab : nameLe a b = true) (hba : nameLe b a = true) :
    a = b := by
  induction a generalizing b with
  | nil =>
    cases b with
    | nil => rfl
    | cons y ys => simp [nameLe] at hba
  | cons x xs ih =>
    cases b with
    | nil => simp [nameLe] at hab
    | cons y ys =>
      rw [nameLe_cons] at hab hba
      rcases hab with hab | ⟨rfl, hab⟩ <;> rcases hba with hba | ⟨he, hba⟩
      · omega
      · subst he
        omega
      · omega
      · rw [ih hab hba]

instance : Std.Total (fun a b : Name => nameLe a b = true) := ⟨nameLe_total⟩

instance : IsTrans Name (fun a b => nameLe a b = true) := ⟨fun _ _ _ => nameLe_trans⟩

def sortNames (names : List Name) : List Name :=
  names.dedup.insertionSort (fun a b => nameLe a b)

@[simp] theorem mem_sortNames {names : List Name} {n : Name} : n ∈ sortNames names ↔ n ∈ names := by
  simp [sortNames]

theorem sortNames_nodup (names : List Name) : (sortNames names).Nodup :=
  (perm_insertionSort _ _).nodup_iff.mpr (nodup_dedup _)

theorem sortNames_pairwise (names : List Name) :
    (sortNames names).Pairwise (fun a b => nameLe a b = true) :=
  pairwise_insertionSort _ _

theorem sortNames_eq {names l : List Name} (hn : l.Nodup)
    (hs : l.Pairwise (fun a b => nameLe a b = true)) (hm : ∀ n, n ∈ names ↔ n ∈ l) :
    sortNames names = l := by
  refine List.Perm.eq_of_pairwise (fun a b _ _ => nameLe_antisymm) (sortNames_pairwise names) hs ?_
  refine (perm_ext_iff_of_nodup (sortNames_nodup names) hn).mpr fun n => ?_
  rw [mem_sortNames, hm]

theorem length_sortNames {names : List Name} (h : names.Nodup) :
    (sortNames names).length = names.length := by
  have hp : (sortNames names).Perm names := by
    refine (perm_ext_iff_of_nodup (sortNames_nodup names) h).mpr fun n => ?_
    exact mem_sortNames
  exact hp.length_eq

theorem not_mem_toDigits {c : Char} (h : c.isDigit = false) (n : Nat) : c ∉ Nat.toDigits 10 n := by
  intro hc
  rw [Nat.isDigit_of_mem_toDigits (by decide) (by decide) hc] at h
  cases h

end PrismaBuild
