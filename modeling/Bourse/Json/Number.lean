import Bourse.Binary64.Shortest
import Bourse.Decimal.Text

/-!
# Numbers in JSON

A number in JSON is a text, and what it means depends on who reads it. A whole number
without fraction and exponent is read as it stands while it fits into 64 bits
(`integer?`). Any other number is read as a binary floating point number: its digits are
gathered while they fit into 64 bits (`significant`), and the result is scaled by a power
of ten with one rounding for the digits and one for the scaling (`scale?`). As a decimal
it is then the shortest one that rounds to that binary number.
-/

namespace Bourse.Json

/-- What has 64 bits is below this bound. -/
def wordBound : Nat := 18446744073709551616

/-- The text of a number, taken apart: digits before the point, digits after it, and an
exponent with its sign, `true` for a minus. -/
structure Number where
  negative : Bool
  whole : List Char
  fraction : List Char
  exponent : Option (Bool × List Char)
deriving DecidableEq

namespace Number

/-- The number that counts something. -/
def ofNat (n : Nat) : Number := ⟨false, Nat.toDigits 10 n, [], none⟩

/-- The text of the number. -/
def toChars (n : Number) : List Char :=
  (if n.negative then ['-'] else []) ++ n.whole ++
    (if n.fraction.isEmpty then [] else '.' :: n.fraction) ++
    match n.exponent with
    | none => []
    | some (negative, digits) => 'e' :: (if negative then '-' :: digits else digits)

/-- There is neither a fraction nor an exponent. -/
def isWhole (n : Number) : Bool := n.fraction.isEmpty && n.exponent.isNone

/-- The number meant by digits. -/
def valueOf (digits : List Char) : Nat := Nat.ofDigitChars 10 digits 0

/-- The number as a count of 64 bits. -/
def count? (n : Number) : Option Nat :=
  if n.isWhole && !n.negative && decide (valueOf n.whole < wordBound) then some (valueOf n.whole)
  else none

/-- The number as an integer with or without a sign of 64 bits. A negative zero is none. -/
def integer? (n : Number) : Option Int :=
  if n.isWhole then
    let v := valueOf n.whole
    if n.negative then (if 0 < v ∧ v ≤ wordBound / 2 then some (-v) else none)
    else if v < wordBound then some v
    else none
  else none

/-! ## As a binary number -/

/-- Gathers digits while the number they make has 64 bits; gives that number and how many
digits were gathered. -/
def gather (m : Nat) : List Char → Nat × Nat
  | [] => (m, 0)
  | c :: rest =>
    let next := 10 * m + (c.toNat - '0'.toNat)
    if next < wordBound then
      let (m, k) := gather next rest
      (m, k + 1)
    else (m, 0)

/-- The digits of a number that are gathered, and the power of ten they are to be scaled by
as far as the place of the point determines it. -/
def significant (n : Number) : Nat × Int :=
  let (m, k) := gather 0 n.whole
  let (m, j) := gather m n.fraction
  (m, (n.whole.length - k : Nat) - (j : Int))

/-- The power of ten, rounded. -/
def powerOfTen? (k : Nat) : Option Binary64 := Binary64.ofNat? (tenTo k)

/-- The number `f * 10 ^ e`, by powers of ten up to the 308th. Below, four steps of 308 lead
to zero from anywhere. -/
def scale? : Nat → Binary64 → Int → Option Binary64
  | steps, f, e =>
    if e.natAbs ≤ 308 then
      (powerOfTen? e.natAbs).bind fun p => if 0 ≤ e then f.mul? p else f.div? p
    else if f.significand = 0 then some f
    else if 0 ≤ e then none
    else
      match steps with
      | 0 => some ⟨0, Binary64.minExponent⟩
      | steps + 1 =>
        (powerOfTen? 308).bind fun p => (f.div? p).bind fun f => scale? steps f (e + 308)

/-- The magnitude of the number as a binary number; none if it is too large. -/
def magnitude? (n : Number) : Option Binary64 :=
  let (m, e) := n.significant
  (Binary64.ofNat? m).bind fun f =>
    match n.exponent with
    | none => scale? 4 f e
    | some (negative, digits) =>
      let x := valueOf digits
      if x < 2147483648 then scale? 4 f (if negative then e - x else e + x)
      else if m = 0 ∨ negative then some ⟨0, Binary64.minExponent⟩
      else none

/-! ## As a decimal -/

/-- The number as a decimal. -/
def decimal? (n : Number) : Option Decimal :=
  match n.integer? with
  | some i => Decimal.ofInt? i 0
  | none =>
    n.magnitude?.bind fun f =>
      let written := f.shortest.toChars
      Decimal.ofChars? (if n.negative then '-' :: written else written)

end Number

end Bourse.Json
