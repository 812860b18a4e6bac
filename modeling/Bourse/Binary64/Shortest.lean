import Bourse.Binary64.Basic

/-!
# The shortest decimal of a binary number

Among the decimals that round to a given binary number there is a shortest one.
The search goes over the grids of multiples of powers of ten, the coarsest
first. On each it tries the two neighbours of the number, so the first hit has
as few digits as any decimal that reads back. Of two hits the nearer wins, and the
larger if they are equally near.
-/

namespace Bourse

namespace Binary64

/-- A decimal `coefficient * 10 ^ exponent`. -/
structure Scaled where
  coefficient : Nat
  exponent : Int
deriving DecidableEq

/-- Whether `c * 10 ^ k` rounds to `x`. The midpoints to the neighbours of `x` do so if its
significand is even. Below a power of two the neighbour is half as far away. -/
def roundsTo (x : Binary64) (c : Nat) (k : Int) : Bool :=
  let below := if x.significand = significandBound / 2 ∧ minExponent < x.exponent then 1 else 2
  let (num, den) := (twoTo (x.exponent - 2).toNat, twoTo (2 - x.exponent).toNat)
  let low := (4 * x.significand - below) * num * tenTo (-k).toNat
  let high := (4 * x.significand + 2) * num * tenTo (-k).toNat
  let point := c * tenTo k.toNat * den
  if x.significand % 2 = 0 then low ≤ point ∧ point ≤ high else low < point ∧ point < high

/-- The better neighbour of `x` among the multiples of `10 ^ k`, if one rounds to `x`. -/
def onGrid? (x : Binary64) (k : Int) : Option Scaled :=
  let num := x.ratio.1 * tenTo (-k).toNat
  let den := x.ratio.2 * tenTo k.toNat
  let c := num / den
  match roundsTo x c k, roundsTo x (c + 1) k with
  | true, true => some ⟨if 2 * (num % den) < den then c else c + 1, k⟩
  | true, false => some ⟨c, k⟩
  | false, true => some ⟨c + 1, k⟩
  | false, false => none

/-- The shortest decimal that rounds to `x`. -/
def shortest (x : Binary64) : Scaled :=
  if x.significand = 0 then ⟨0, 0⟩
  else ((List.range 652).findSome? fun i : Nat => onGrid? x (309 - (i : Int))).getD ⟨0, 0⟩

/-- A scaled number written out, without an exponent. -/
def Scaled.toChars (d : Scaled) : List Char :=
  let written := Nat.toDigits 10 d.coefficient
  if 0 ≤ d.exponent then written ++ List.replicate d.exponent.toNat '0'
  else
    let places := (-d.exponent).toNat
    let written := List.replicate (places + 1 - written.length) '0' ++ written
    written.take (written.length - places) ++ '.' :: written.drop (written.length - places)

end Binary64

end Bourse
