import Bourse.Decimal.Rounding

/-!
# Decimal arithmetic

Addition, subtraction, multiplication and division, each total: an operation without a
result that fits answers `none`. A zero operand of a sum leaves the other operand as it
is, with its own scale, so `1 - 0.00` is `1` while `1.00 - 1` is `0.00`. Only a product of
long coefficients may come out as a zero with a minus (`mul?`); a sum that cancels and a
quotient that vanishes are plain.

Division is long division by chunks of at most nine digits (`chunk`, `extend`). It stops
when the remainder is used up or no more digits fit, rounds what is left to nearest
(`round?`), and takes back part of the zeros it has run up to: `tidy` strips blocks of
eight, four, two and one, each only where the coefficient shows enough factors of two. A
chunk that carries the coefficient out of range costs a digit again (`shorten?`), and a
half digit then goes to even, or up under a divisor of more than 64 bits (`halfUp`).
-/

namespace Bourse

/-- Why a decimal operation has no result. -/
inductive ArithmeticError where
  | additionOverflow
  | subtractionOverflow
  | divisionOverflow
  | divisionByZero
deriving DecidableEq

/-- The words in which an arithmetic error is reported. -/
def ArithmeticError.message : ArithmeticError → String
  | .additionOverflow => "Addition overflowed"
  | .subtractionOverflow => "Subtraction overflowed"
  | .divisionOverflow => "Division overflowed"
  | .divisionByZero => "Division by zero"

namespace Decimal

/-- The sum, if it fits. -/
def add? (a b : Decimal) : Option Decimal :=
  if a.coeff = 0 then some b
  else if b.coeff = 0 then some a
  else
    let s := max a.scale b.scale
    let x := a.signed * tenTo (s - a.scale) + b.signed * tenTo (s - b.scale)
    fit? (decide (x < 0)) x.natAbs s

/-- The difference, if it fits. -/
def sub? (a b : Decimal) : Option Decimal := add? a (-b)

/-- The sum, or the greatest or least decimal where it does not fit. -/
def saturatingAdd (a b : Decimal) : Decimal :=
  (add? a b).getD (if b.negative then least else greatest)

/-- What has 32 bits is below this bound. -/
def shortBound : Nat := 4294967296

/-- What has 64 bits is below this bound. -/
def longBound : Nat := 18446744073709551616

/-- The product, if it fits. Two factors of 32 bits whose product vanishes give a plain
zero, and one without scale if their scales together pass 47, as does a zero factor. -/
def mul? (a b : Decimal) : Option Decimal :=
  let product := fit? (a.negative != b.negative) (a.coeff * b.coeff) (a.scale + b.scale)
  if a.coeff = 0 ∨ b.coeff = 0 then some 0
  else if a.coeff < shortBound ∧ b.coeff < shortBound then
    if 47 < a.scale + b.scale then some 0 else product.map plain
  else product

/-! ## Division -/

/-- A quotient under way: its digits so far, the remainder they leave, how many
of the digits stand after the point, and whether the remainder was ever seen to
be nonzero. -/
structure LongDivision where
  digits : Nat
  rest : Nat
  places : Int
  inexact : Bool

namespace LongDivision

/-- Appends `n` digits of the quotient by `divisor`. -/
def extend (divisor n : Nat) (q : LongDivision) : LongDivision :=
  { q with
    digits := q.digits * tenTo n + q.rest * tenTo n / divisor
    rest := q.rest * tenTo n % divisor
    places := q.places + n }

/-- How many digits may be appended at once: at most nine, at most up to 28
places, and only as long as the digits so far leave room for them. -/
def chunk (q : LongDivision) : Nat :=
  let places := min 9 (28 - q.places).toNat
  ((List.range (places + 1)).reverse.find? fun p => q.digits * tenTo p < coeffBound).getD 0

/-- Whether a half digit goes up: there is something beyond it, the digits in front of it
are odd, or the divisor is long. -/
def halfUp (divisor : Nat) (q : LongDivision) : Bool :=
  0 < q.rest || q.digits / 10 % 2 = 1 || longBound ≤ divisor

/-- Takes one digit back from a coefficient that has grown out of range, and rounds. -/
def shorten? (divisor : Nat) (q : LongDivision) : Option LongDivision :=
  if q.places ≤ 0 then none
  else
    let up := 5 < q.digits % 10 ∨ (q.digits % 10 = 5 ∧ q.halfUp divisor)
    some { q with digits := q.digits / 10 + if up then 1 else 0, places := q.places - 1 }

/-- Rounds the remainder away, to nearest and a half to even. -/
def round? (divisor : Nat) (q : LongDivision) : Option LongDivision :=
  let up := divisor < 2 * q.rest ∨ (divisor = 2 * q.rest ∧ q.digits % 2 = 1)
  let q : LongDivision := { q with digits := q.digits + if up then 1 else 0 }
  if q.digits < coeffBound then some q else q.shorten? divisor

/-- Runs a division to its end; every round but the last appends a digit. -/
def run? (divisor : Nat) : Nat → LongDivision → Option LongDivision
  | 0, _ => none
  | rounds + 1, q =>
    if q.rest = 0 then
      if 0 ≤ q.places then some q
      else
        let q := q.extend divisor (min 9 (-q.places).toNat)
        if q.digits < coeffBound then run? divisor rounds q else none
    else
      let p := q.chunk
      if p < 9 ∧ q.places + p < 0 then none
      else if p = 0 then round? divisor { q with inexact := true }
      else
        let q : LongDivision := { q.extend divisor p with inexact := true }
        if q.digits < coeffBound then run? divisor rounds q else q.shorten? divisor

/-- Drops `n` final zeros if there are so many after the point and `twos`
divides the digits. -/
def strip (n twos : Nat) (q : LongDivision) : LongDivision :=
  if q.digits % twos = 0 ∧ (n : Int) ≤ q.places ∧ q.digits % tenTo n = 0 then
    { q with digits := q.digits / tenTo n, places := q.places - n }
  else q

/-- Takes back zeros that an inexact division has run up to. -/
def tidy (q : LongDivision) : LongDivision :=
  if q.inexact then
    let eight := strip 8 shortBound
    (eight (eight (eight q))) |>.strip 4 16 |>.strip 2 4 |>.strip 1 2
  else q

end LongDivision

/-- The quotient, or why there is none. -/
def div (a b : Decimal) : Except ArithmeticError Decimal :=
  if b.coeff = 0 then .error .divisionByZero
  else if a.coeff = 0 then .ok 0
  else
    let start : LongDivision := ⟨a.coeff / b.coeff, a.coeff % b.coeff, a.scale - b.scale, false⟩
    let found := do
      let q ← start.run? b.coeff 64
      let q := q.tidy
      ofParts? (a.negative != b.negative) q.digits q.places.toNat
    match found with
    | some q => .ok q.plain
    | none => .error .divisionOverflow

/-- Whether `a` is an integer multiple of `b`; a zero `b` is a division by zero. -/
def isMultipleOf (a b : Decimal) : Except ArithmeticError Bool :=
  if b.coeff = 0 then .error .divisionByZero else .ok (a.atoms % b.atoms = 0)

/-! ## Operations that must have a result

The same sums and differences with the error that a caller reports who did not
allow for the missing result. -/

/-- The sum, or an addition overflow. -/
def add (a b : Decimal) : Except ArithmeticError Decimal :=
  match add? a b with
  | some c => .ok c
  | none => .error .additionOverflow

/-- The difference, or a subtraction overflow. -/
def sub (a b : Decimal) : Except ArithmeticError Decimal :=
  match sub? a b with
  | some c => .ok c
  | none => .error .subtractionOverflow

/-- The sum of a list, taken from the left. -/
def sum (l : List Decimal) : Except ArithmeticError Decimal :=
  l.foldlM add 0

end Decimal

end Bourse
