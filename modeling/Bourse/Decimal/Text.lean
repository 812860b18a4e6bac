import Bourse.Decimal.Rounding

/-!
# Decimals as text

A decimal is written with all the digits of its scale, `1.50` and not `1.5`, and
at least one digit before the point.

Reading is more lenient. A sign may lead, digits may be set apart by `_` once
one of them has been read, and digits may be missing on one side of the point.
As many digits are taken as the coefficient and the scale have room for; after
the point, the first digit without room rounds the coefficient, a half going up,
and the digits behind it count for nothing. A text that cannot be read so may
still be a decimal with an exponent, `1.5e3`.

What is read without an exponent has no minus if it is zero. An exponent may
shift a negative number out of sight, and then its minus stays.
-/

namespace Bourse

namespace Decimal

/-! ## Writing -/

/-- The digits of a coefficient, with zeros in front for `scale + 1` of them at least. -/
def digits (n scale : Nat) : List Char :=
  let written := Nat.toDigits 10 n
  List.replicate (scale + 1 - written.length) '0' ++ written

/-- The written form, as a list of characters. -/
def toChars (d : Decimal) : List Char :=
  let ds := digits d.coeff d.scale
  let whole := ds.take (ds.length - d.scale)
  let part := ds.drop (ds.length - d.scale)
  (if d.negative then ['-'] else []) ++ whole ++ if d.scale = 0 then [] else '.' :: part

/-- The written form. -/
def text (d : Decimal) : String := String.ofList d.toChars

/-! ## Reading -/

/-- The value of a decimal digit. -/
def digit? (c : Char) : Option Nat :=
  if c.isDigit then some (c.toNat - '0'.toNat) else none

/-- Whether a character may stand among digits. -/
def isFiller (c : Char) : Bool := c.isDigit || c == '_'

/-- Rounds the digits read so far by the next one. If that runs over the range, the
last digit goes too, as long as it stands after the point. -/
def roundBy (next m s : Nat) : Option (Nat × Nat) :=
  if next < 5 then some (m, s)
  else if m + 1 < coeffBound then some (m + 1, s)
  else if s = 0 then none
  else some ((m + 1 + 4) / 10, s - 1)

/-- Coefficients that do not reach this bound are short. A number whose coefficient is short
before its last digit is rounded by the character that follows it. -/
def briefBound : Nat := 1844674407370954906

/-- The digit that rounds the digits `m`, which have reached the last place, if `cs` follows
them. Separators are passed over, but behind a short coefficient one counts as a zero. -/
def roundingDigit (m : Nat) (cs : List Char) : Nat :=
  let cs := if m / 10 < briefBound then cs else cs.dropWhile (· == '_')
  (cs.head?.bind digit?).getD 0

/-- Reads an unsigned decimal behind the digits `m`, of which `s` stand after the
point; `point` says whether the point has been read and `anyDigit` whether any
digit has. -/
def readDigits (m s : Nat) (point anyDigit : Bool) : List Char → Option (Nat × Nat)
  | [] => if anyDigit then some (m, s) else none
  | c :: rest =>
    if point && 28 ≤ s then
      if (c :: rest).all isFiller then roundBy (roundingDigit m (c :: rest)) m s else none
    else
      match digit? c with
      | some n =>
        if 10 * m + n < coeffBound then
          readDigits (10 * m + n) (if point then s + 1 else s) point true rest
        else if point && rest.all isFiller then roundBy n m s
        else none
      | none =>
        if c = '.' ∧ point = false then readDigits m s true anyDigit rest
        else if c = '_' ∧ anyDigit = true then readDigits m s point anyDigit rest
        else none

/-- Splits a leading sign off; `true` is a minus. -/
def splitSign : List Char → Bool × List Char
  | '-' :: rest => (true, rest)
  | '+' :: rest => (false, rest)
  | cs => (false, cs)

/-- Reads a decimal without an exponent. -/
def ofPlain? (cs : List Char) : Option Decimal :=
  let (negative, body) := splitSign cs
  (readDigits 0 0 false false body).bind fun (m, s) => (ofParts? negative m s).map plain

/-- Reads an unsigned number, with or without a plus in front. -/
def readExponent (cs : List Char) : Option Nat :=
  let body := match cs with
    | '+' :: rest => rest
    | cs => cs
  if body.isEmpty || !body.all Char.isDigit then none
  else some (Nat.ofDigitChars 10 body 0)

/-- The decimal divided by `10 ^ n`; digits without room are rounded away, a half up, and
the sign stays even if nothing else does. -/
def shiftRight? (d : Decimal) (n : Nat) : Option Decimal :=
  if 28 < n then none
  else if d.scale + n ≤ 28 then ofParts? d.negative d.coeff (d.scale + n)
  else ofParts? d.negative (divHalfUp d.coeff (tenTo (d.scale + n - 28))) 28

/-- The decimal multiplied by `10 ^ n`, with no more places than are needed. -/
def shiftLeft? (d : Decimal) (n : Nat) : Option Decimal :=
  if n ≤ d.scale then ofParts? d.negative d.coeff (d.scale - n)
  else if 28 < n then none
  else ofParts? d.negative (d.coeff * tenTo (n - d.scale)) 0

/-- Whether a character sets an exponent off. -/
def isExponentMark (c : Char) : Bool := c == 'e' || c == 'E'

/-- Reads a decimal with an exponent of at most 28. -/
def ofScientific? (cs : List Char) : Option Decimal :=
  match cs.dropWhile (!isExponentMark ·) with
  | [] => none
  | _ :: exponent => do
    let base ← ofPlain? (cs.takeWhile (!isExponentMark ·))
    match exponent with
    | '-' :: rest => shiftRight? base (← readExponent rest)
    | rest => shiftLeft? base (← readExponent rest)

/-- Reads a decimal. -/
def ofChars? (cs : List Char) : Option Decimal :=
  match ofPlain? cs with
  | some d => some d
  | none => ofScientific? cs

/-- Reads a decimal from a text. -/
def ofText? (s : String) : Option Decimal := ofChars? s.toList

end Decimal

end Bourse
