import Mathlib

namespace PrismaBuild.Tally

open List

variable {M α C : Type} [DecidableEq α] [AddCommMonoid C]

section

variable (reach : M → Finset α) (cost : M → Finset α → C)

end

variable {reach : M → Finset α} {cost : M → Finset α → C}

variable {a b : List (α × C)}

end PrismaBuild.Tally
