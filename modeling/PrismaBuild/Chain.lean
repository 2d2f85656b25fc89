import Mathlib

namespace PrismaBuild

/-! Places with at most one link each, and the chains that following them makes. -/

namespace Chain

variable {α : Type} {link link' : α → Option α} {u v x y : α}

def Leads (link : α → Option α) : α → α → Prop := Relation.ReflTransGen fun x y => link x = some y

def Ends (link : α → Option α) : Prop := ∀ x y, link x = some y → ¬ Leads link y x

theorem Leads.head (hl : link x = some y) (h : Leads link y v) : Leads link x v :=
  Relation.ReflTransGen.head hl h

theorem Leads.eq_of_none (hl : link x = none) (h : Leads link x y) : x = y := by
  rcases Relation.ReflTransGen.cases_head h with heq | ⟨z, hxz, -⟩
  · exact heq
  · rw [hl] at hxz
    cases hxz

theorem Leads.of_extend (ho : ∀ x, x ≠ u → link' x = link x) (hn : link' u = some v)
    (h : Leads link' x y) :
    Leads link x y ∨ Leads link x u ∧ Leads link v y := by
  induction h using Relation.ReflTransGen.head_induction_on with
  | refl => exact .inl .refl
  | @head a b hab hby ih =>
    by_cases hau : a = u
    · subst hau
      obtain rfl : v = b := Option.some.inj (hn.symm.trans hab)
      rcases ih with h | ⟨-, h⟩
      · exact .inr ⟨.refl, h⟩
      · exact .inr ⟨.refl, h⟩
    · have hold := (ho a hau).symm.trans hab
      rcases ih with h | ⟨hu, hv⟩
      · exact .inl (h.head hold)
      · exact .inr ⟨hu.head hold, hv⟩

theorem Ends.extend_iff (h : Ends link) (ho : ∀ x, x ≠ u → link' x = link x) (hnon : link u = none)
    (hn : link' u = some v) : Ends link' ↔ ¬ Leads link v u := by
  have hm : ∀ x y, link x = some y → link' x = some y := by
    intro x y hxy
    have hxu : x ≠ u := by
      rintro rfl
      cases hnon.symm.trans hxy
    rw [ho x hxu, hxy]
  refine ⟨fun he hb => he u v hn (Relation.ReflTransGen.mono hm _ _ hb), fun hno x y hxy hb => ?_⟩
  by_cases hxu : x = u
  · subst hxu
    obtain rfl : v = y := Option.some.inj (hn.symm.trans hxy)
    rcases hb.of_extend ho hn with hb | ⟨-, hb⟩
    · exact hno hb
    · exact hno hb
  · have hold := (ho x hxu).symm.trans hxy
    rcases hb.of_extend ho hn with hb | ⟨hyu, hvx⟩
    · exact h x y hold hb
    · exact hno (hvx.trans (hyu.head hold))

def trail (link : α → Option α) : Nat → α → List α
  | 0, _ => []
  | n + 1, x =>
    match link x with
    | none => []
    | some y => y :: trail link n y

theorem trail_some (hl : link x = some y) (n : Nat) :
    trail link (n + 1) x = y :: trail link n y := by
  rw [trail, hl]

theorem leads_of_mem_trail {n : Nat} {z : α} (h : z ∈ trail link n x) : ∃ y, link x = some y ∧
    Leads link y z := by
  induction n generalizing x with
  | zero => cases h
  | succ n ih =>
    cases hl : link x with
    | none =>
      rw [trail, hl] at h
      cases h
    | some y =>
      rw [trail_some hl] at h
      refine ⟨y, rfl, ?_⟩
      rcases List.mem_cons.mp h with rfl | h
      · exact .refl
      · obtain ⟨w, hyw, hwz⟩ := ih h
        exact hwz.head hyw

theorem Ends.nodup_trail (h : Ends link) (n : Nat) (x : α) : (x :: trail link n x).Nodup := by
  induction n generalizing x with
  | zero => simp [trail]
  | succ n ih =>
    refine List.nodup_cons.mpr ⟨fun hm => ?_, ?_⟩
    · obtain ⟨y, hxy, hb⟩ := leads_of_mem_trail hm
      exact h x y hxy hb
    · cases hl : link x with
      | none => simp [trail, hl]
      | some y =>
        rw [trail_some hl]
        exact ih y

theorem mem_trail_of_leads (hl : link x = some y) (h : Leads link y v) :
    ∃ n, v ∈ trail link n x := by
  induction h using Relation.ReflTransGen.head_induction_on generalizing x with
  | refl => exact ⟨1, by simp [trail, hl]⟩
  | head hbc _ ih =>
    obtain ⟨n, hn⟩ := ih hbc
    refine ⟨n + 1, ?_⟩
    rw [trail_some hl]
    exact .tail _ hn

theorem ends_iff_nodup_trail : Ends link ↔ ∀ x n, (x :: trail link n x).Nodup := by
  refine ⟨fun h x n => h.nodup_trail n x, fun h x y hxy hb => ?_⟩
  obtain ⟨n, hn⟩ := mem_trail_of_leads hxy hb
  exact (List.nodup_cons.mp (h x n)).1 hn

def Shorter (link : α → Option α) (limit : Nat) : Prop :=
  ∀ x n, (x :: trail link n x).Nodup → (trail link n x).length < limit

def Finishes (link : α → Option α) (n : Nat) (x : α) : Prop := (trail link n x).length < n

theorem Ends.finishes (h : Ends link) {limit : Nat} (hs : Shorter link limit) (x : α) :
    Finishes link limit x :=
  hs x limit (h.nodup_trail limit x)

theorem Finishes.next {n : Nat} (h : Finishes link (n + 1) x) (hl : link x = some y) :
    Finishes link n y := by
  unfold Finishes at h
  rw [trail_some hl] at h
  exact Nat.lt_of_succ_lt_succ h

end Chain

end PrismaBuild
