import Mathlib

namespace PrismaBuild.Rounding

/-- The nearest integer, and the even one of two that are as near. -/
def roundHalfEven (x : Rat) : Int :=
  if x - ⌊x⌋ < 1 / 2 ∨ x - ⌊x⌋ = 1 / 2 ∧ ⌊x⌋ % 2 = 0 then ⌊x⌋ else ⌊x⌋ + 1

/-- `round(x, digits)`. -/
def round (x : Rat) (digits : Nat) : Rat := roundHalfEven (x * 10 ^ digits) / 10 ^ digits

theorem floor_le_roundHalfEven (x : Rat) : ⌊x⌋ ≤ roundHalfEven x := by
  unfold roundHalfEven
  split <;> omega

theorem roundHalfEven_le (x : Rat) : roundHalfEven x ≤ ⌊x⌋ + 1 := by
  unfold roundHalfEven
  split <;> omega

variable {x y : Rat}

theorem roundHalfEven_mono (h : x ≤ y) : roundHalfEven x ≤ roundHalfEven y := by
  rcases lt_or_eq_of_le (Int.floor_le_floor h) with hlt | heq
  · have hx := roundHalfEven_le x
    have hy := floor_le_roundHalfEven y
    omega
  · -- over the same integer, what is rounded up stays rounded up further on
    unfold roundHalfEven
    rw [← heq]
    split
    next => split <;> omega
    next hup =>
      rw [if_neg]
      intro hd
      apply hup
      rcases hd with hl | ⟨ht, he⟩
      · exact .inl (by linarith)
      · rcases lt_or_eq_of_le h with hlt | hxy
        · exact .inl (by linarith)
        · exact .inr ⟨by linarith, he⟩

theorem round_mono (h : x ≤ y) (digits : Nat) : round x digits ≤ round y digits := by
  have hp : (0 : Rat) < 10 ^ digits := by positivity
  have hs := mul_le_mul_of_nonneg_right h (le_of_lt hp)
  have hr : (roundHalfEven (x * 10 ^ digits) : Rat) ≤ roundHalfEven (y * 10 ^ digits) :=
    Int.cast_le.mpr (roundHalfEven_mono hs)
  exact div_le_div_of_nonneg_right hr (le_of_lt hp)

example : (round (1 / 2) 0, round (3 / 2) 0, round (12345675 / 10000000) 6) =
    (0, 2, 1234568 / 1000000) := by decide +kernel

end PrismaBuild.Rounding
