import Bourse.Decimal.Basic

/-!
# Rounding a result into range

Sums and products of decimals are computed exactly, on integers of any size,
and then fitted: the result loses as few digits after its point as it must for
the coefficient and the scale to be in range again. What is lost is rounded to
nearest, a half to the even neighbour. A number that is too large for every
scale does not fit at all.
-/

namespace Bourse

/-- The quotient rounded to nearest, a half going to the even neighbour. -/
def divHalfEven (n d : Nat) : Nat :=
  if 2 * (n % d) < d ∨ (2 * (n % d) = d ∧ n / d % 2 = 0) then n / d else n / d + 1

/-- The quotient rounded to nearest, a half going up. -/
def divHalfUp (n d : Nat) : Nat :=
  if 2 * (n % d) < d then n / d else n / d + 1

namespace Decimal

/-- The number `n` with its last `k` digits rounded away, a half going to the even
neighbour. -/
def dropDigits (n k : Nat) : Nat := divHalfEven n (tenTo k)

/-- The decimal nearest to `± n / 10 ^ s` that is got by dropping as few digits as
the ranges of coefficient and scale ask for. It keeps its sign even where all its
digits are lost. -/
def fit? (negative : Bool) (n s : Nat) : Option Decimal :=
  (List.range (s + 1)).findSome? fun k => ofParts? negative (dropDigits n k) (s - k)

end Decimal

theorem divHalfEven_one (n : Nat) : divHalfEven n 1 = n := by
  simp [divHalfEven, Nat.mod_one]

namespace Decimal

@[simp] theorem dropDigits_zero (n : Nat) : dropDigits n 0 = n := by
  rw [dropDigits, tenTo_zero, divHalfEven_one]

/-- A result that is in range already is taken as it is. -/
theorem fit?_eq_some_of_inRange {negative : Bool} {n s : Nat} {d : Decimal}
    (h : ofParts? negative n s = some d) : fit? negative n s = some d := by
  simp [fit?, List.range_succ_eq_map, h]

end Decimal

end Bourse
