import Mathlib

namespace PrismaBuild

open List

section

/-- The loop that halves `[low, high)` towards the first index with the property; `first` is the
last index it was seen at. -/
def bisectFirst (p : Nat → Bool) : Nat → Nat → Nat → Nat → Nat
  | 0, _, _, first => first
  | fuel + 1, low, high, first =>
    if low < high then
      if p ((low + high) / 2) then bisectFirst p fuel low ((low + high) / 2) ((low + high) / 2)
      else bisectFirst p fuel ((low + high) / 2 + 1) high first
    else first

def bisectLast (p : Nat → Bool) : Nat → Nat → Nat → Nat → Nat
  | 0, _, _, last => last
  | fuel + 1, low, high, last =>
    if low < high then
      if p ((low + high) / 2) then bisectLast p fuel ((low + high) / 2 + 1) high ((low + high) / 2)
      else bisectLast p fuel low ((low + high) / 2) last
    else last

theorem bisectFirst_spec (p : Nat → Bool) (fuel low high : Nat) (hle : low ≤ high)
    (hf : high - low ≤ fuel)
    (hm : ∀ a b, low ≤ a → a ≤ b → b < high → p a = true → p b = true) :
    low ≤ bisectFirst p fuel low high high ∧ bisectFirst p fuel low high high ≤ high ∧
      ∀ j, low ≤ j → j < high → (p j = true ↔ bisectFirst p fuel low high high ≤ j) := by
  induction fuel generalizing low high with
  | zero =>
    have heq : low = high := by omega
    exact ⟨hle, Nat.le_refl _, fun j hj hj' => by omega⟩
  | succ fuel ih =>
    unfold bisectFirst
    by_cases hlt : low < high
    · rw [if_pos hlt]
      cases hp : p ((low + high) / 2) with
      | true =>
        rw [if_pos rfl]
        obtain ⟨h1, h2, h3⟩ := ih low ((low + high) / 2) (by omega) (by omega)
          fun a b ha hab hb => hm a b ha hab (by omega)
        refine ⟨h1, by omega, fun j hj hj' => ?_⟩
        by_cases hjm : j < (low + high) / 2
        · exact h3 j hj hjm
        · have hpj := hm ((low + high) / 2) j (by omega) (by omega) hj' hp
          exact ⟨fun _ => by omega, fun _ => hpj⟩
      | false =>
        rw [if_neg (by simp)]
        obtain ⟨h1, h2, h3⟩ := ih ((low + high) / 2 + 1) high (by omega) (by omega)
          fun a b ha hab hb => hm a b (by omega) hab hb
        refine ⟨by omega, h2, fun j hj hj' => ?_⟩
        by_cases hjm : (low + high) / 2 + 1 ≤ j
        · exact h3 j hjm hj'
        · have hn : ¬ p j = true := by
            intro hpj
            rw [hm j ((low + high) / 2) hj (by omega) (by omega) hpj] at hp
            cases hp
          exact ⟨fun hpj => absurd hpj hn, fun hle' => by omega⟩
    · rw [if_neg hlt]
      exact ⟨hle, Nat.le_refl _, fun j hj hj' => by omega⟩

theorem bisectLast_succ (p : Nat → Bool) (fuel low high : Nat) (hle : low + 1 ≤ high)
    (hf : high - (low + 1) ≤ fuel) :
    bisectLast p fuel (low + 1) high low + 1 = bisectFirst (fun i => !p i) fuel (low + 1) high
      high := by
  induction fuel generalizing low high with
  | zero =>
    show low + 1 = high
    omega
  | succ fuel ih =>
    unfold bisectLast bisectFirst
    by_cases hlt : low + 1 < high
    · rw [if_pos hlt, if_pos hlt]
      cases hp : p ((low + 1 + high) / 2) with
      | true =>
        simp only [if_true, Bool.not_true, Bool.false_eq_true, if_false]
        exact ih _ _ (by omega) (by omega)
      | false =>
        simp only [Bool.false_eq_true, if_false, Bool.not_false, if_true]
        exact ih _ _ (by omega) (by omega)
    · rw [if_neg hlt, if_neg hlt]
      omega

theorem bisectLast_spec (p : Nat → Bool) (fuel low high : Nat) (hle : low + 1 ≤ high)
    (hf : high - (low + 1) ≤ fuel)
    (han : ∀ a b, low < a → a ≤ b → b < high → p b = true → p a = true) :
    low ≤ bisectLast p fuel (low + 1) high low ∧ bisectLast p fuel (low + 1) high low < high ∧
      ∀ j, low < j → j < high → (p j = true ↔ j ≤ bisectLast p fuel (low + 1) high low) := by
  have hn := bisectLast_succ p fuel low high hle hf
  obtain ⟨h1, h2, h3⟩ := bisectFirst_spec (fun i => !p i) fuel (low + 1) high hle hf
    fun a b ha hab hb hpa => by
    cases hpb : p b with
    | false => simp
    | true => simp [han a b ha hab hb hpb] at hpa
  refine ⟨by omega, by omega, fun j hj hj' => ?_⟩
  have hj := h3 j hj hj'
  cases hpj : p j with
  | false =>
    simp only [hpj, Bool.not_false, true_iff] at hj
    simp
    omega
  | true =>
    simp only [hpj, Bool.not_true, Bool.false_eq_true, false_iff] at hj
    simp
    omega

end

section

variable {α : Type}

/-- The loop that fills a table from position `n - 1` down to its start. -/
def fillDown (entry : List α → Nat → α) : Nat → List α → List α
  | 0, table => table
  | n + 1, table => fillDown entry n (table.set n (entry table n))

theorem fillDown_above (entry : List α → Nat → α) {n i : Nat} (hi : n ≤ i) (table : List α) :
    (fillDown entry n table)[i]? = table[i]? := by
  induction n generalizing table with
  | zero => rfl
  | succ n ih => rw [fillDown, ih (by omega), getElem?_set_ne (by omega)]

theorem fillDown_at {entry : List α → Nat → α} {n : Nat}
    (hl : ∀ t t' s, s < n → (∀ i, s < i → t[i]? = t'[i]?) → entry t s = entry t' s) {table : List α}
    (hle : n ≤ table.length) {s : Nat} (hs : s < n) :
      (fillDown entry n table)[s]? = some (entry (fillDown entry n table) s) := by
  induction n generalizing table with
  | zero => omega
  | succ n ih =>
    rw [fillDown]
    by_cases hsn : s < n
    · exact ih (fun t t' i hi => hl t t' i (by omega)) (by rw [length_set]; omega) hsn
    · obtain rfl : s = n := by omega
      rw [fillDown_above entry (Nat.le_refl s), getElem?_set_self (by omega)]
      congr 1
      refine hl _ _ s hs fun i hi => ?_
      rw [fillDown_above entry (by omega), getElem?_set_ne (by omega)]

theorem find?_le_of_pairwise {p : Nat → Bool} {l : List Nat} (hl : l.Pairwise (· < ·)) {g f : Nat}
    (h : l.find? p = some g) (hf : f ∈ l) (hp : p f = true) : g ≤ f := by
  obtain ⟨-, before, after, rfl, hb⟩ := find?_eq_some_iff_append.mp h
  rcases mem_append.mp hf with hm | hm
  · have hn := hb f hm
    rw [hp] at hn
    cases hn
  · rcases mem_cons.mp hm with rfl | hm
    · exact Nat.le_refl _
    · exact Nat.le_of_lt ((pairwise_cons.mp (pairwise_append.mp hl).2.1).1 f hm)

theorem foldl_largest {ι : Type} [LinearOrder α] (counts : ι → Prop) [DecidablePred counts]
    (value : ι → α) (l : List ι)
    (b : α) :
    let r := l.foldl (fun best i => if counts i ∧ best < value i then value i else best) b
    b ≤ r ∧ (∀ i ∈ l, counts i → value i ≤ r) ∧ (r = b ∨ ∃ i ∈ l, counts i ∧ r = value i) := by
  induction l generalizing b with
  | nil => exact ⟨le_refl b, by simp, .inl rfl⟩
  | cons i l ih =>
    rw [foldl_cons]
    by_cases h : counts i ∧ b < value i
    · rw [if_pos h]
      obtain ⟨h1, h2, h3⟩ := ih (value i)
      refine ⟨h.2.le.trans h1, fun j hj hc => ?_, .inr ?_⟩
      · rcases mem_cons.mp hj with rfl | hj
        · exact h1
        · exact h2 j hj hc
      · rcases h3 with h3 | ⟨j, hj, hc, h3⟩
        · exact ⟨i, by simp, h.1, h3⟩
        · exact ⟨j, by simp [hj], hc, h3⟩
    · rw [if_neg h]
      obtain ⟨h1, h2, h3⟩ := ih b
      refine ⟨h1, fun j hj hc => ?_, ?_⟩
      · rcases mem_cons.mp hj with rfl | hj
        · exact (not_lt.mp fun hlt => h ⟨hc, hlt⟩).trans h1
        · exact h2 j hj hc
      · rcases h3 with h3 | ⟨j, hj, hc, h3⟩
        · exact .inl h3
        · exact .inr ⟨j, by simp [hj], hc, h3⟩

end

end PrismaBuild
