import Bourse.Decimal.Rounding

/-!
# Binary floating point, exactly

Numbers without a sign in the 64-bit binary format: 53 bits of significand and
an exponent. The operations are defined on the numbers themselves: the exact
quotient or product is formed as a ratio of integers and rounded once, to
nearest and a half to even, so nothing here rests on the processor.
-/

namespace Bourse

/-- The finite number `significand * 2 ^ exponent`. -/
structure Binary64 where
  significand : Nat
  exponent : Int
deriving DecidableEq

namespace Binary64

/-- What has 53 bits is below this bound. -/
def significandBound : Nat := 9007199254740992

/-- The exponent of the smallest positive number. -/
def minExponent : Int := -1074

/-- The exponent of the largest number. -/
def maxExponent : Int := 971

/-- The number as a ratio of integers. -/
def ratio (x : Binary64) : Nat × Nat :=
  (x.significand * twoTo x.exponent.toNat, twoTo (-x.exponent).toNat)

/-- The exponent with which `num / den` has a significand of 53 bits, or the least
exponent if that is larger. -/
def exponentOf (num den : Nat) : Int :=
  let e : Int := num.log2 - den.log2 - 52
  let short := num * twoTo (-(e + 52)).toNat < den * twoTo (e + 52).toNat
  max (if short then e - 1 else e) minExponent

/-- The number nearest to `num / den`; none if that is beyond the largest. -/
def ofRatio? (num den : Nat) : Option Binary64 :=
  if num = 0 then some ⟨0, minExponent⟩
  else
    let e := exponentOf num den
    let m := divHalfEven (num * twoTo (-e).toNat) (den * twoTo e.toNat)
    let x : Binary64 := if m = significandBound then ⟨m / 2, e + 1⟩ else ⟨m, e⟩
    if maxExponent < x.exponent then none else some x

/-- The number nearest to `n`. -/
def ofNat? (n : Nat) : Option Binary64 := ofRatio? n 1

/-- The product, rounded. -/
def mul? (x y : Binary64) : Option Binary64 :=
  ofRatio? (x.ratio.1 * y.ratio.1) (x.ratio.2 * y.ratio.2)

/-- The quotient, rounded; `y` is not zero. -/
def div? (x y : Binary64) : Option Binary64 :=
  ofRatio? (x.ratio.1 * y.ratio.2) (x.ratio.2 * y.ratio.1)

end Binary64

end Bourse
