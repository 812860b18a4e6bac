/-!
# Universally unique identifiers

A `Uuid` is a number of 128 bits. It is written as 32 lower-case hexadecimal digits in
`groups` of 8, 4, 4, 4 and 12, set apart by hyphens. It is read from that form, from that
form in braces or behind `urn:uuid:`, and from the bare digits. The case of its letters,
those of `urn:uuid:` among them, does not matter.
-/

namespace Bourse

/-- What has 128 bits is below this bound. -/
def uuidBound : Nat := 340282366920938463463374607431768211456

/-- An identifier of 128 bits. -/
structure Uuid where
  toNat : Nat
  toNat_lt : toNat < uuidBound
deriving DecidableEq

namespace Uuid

instance : Inhabited Uuid := ⟨⟨0, by decide⟩⟩

/-- The identifier with this number, if it has at most 128 bits. -/
def ofNat? (n : Nat) : Option Uuid :=
  if h : n < uuidBound then some ⟨n, h⟩ else none

/-- The identifier with the last 128 bits of a number. -/
def ofNat (n : Nat) : Uuid := ⟨n % uuidBound, Nat.mod_lt n (by decide)⟩

/-! ## Writing -/

/-- The lengths of the groups of digits. -/
def groups : List Nat := [8, 4, 4, 4, 12]

/-- The 32 hexadecimal digits. -/
def hexDigits (u : Uuid) : List Char :=
  let written := Nat.toDigits 16 u.toNat
  List.replicate (32 - written.length) '0' ++ written

/-- Cuts digits into groups with a hyphen between each two. -/
def hyphenate : List Nat → List Char → List Char
  | [], _ => []
  | [n], cs => cs.take n
  | n :: rest, cs => cs.take n ++ '-' :: hyphenate rest (cs.drop n)

/-- The written form, as a list of characters. -/
def toChars (u : Uuid) : List Char := hyphenate groups u.hexDigits

/-- The written form. -/
def text (u : Uuid) : String := String.ofList u.toChars

/-! ## Reading -/

/-- The value of a hexadecimal digit of either case. -/
def hexDigit? (c : Char) : Option Nat :=
  if c.isDigit then some (c.toNat - '0'.toNat)
  else if 'a' ≤ c ∧ c ≤ 'f' then some (c.toNat - 'a'.toNat + 10)
  else if 'A' ≤ c ∧ c ≤ 'F' then some (c.toNat - 'A'.toNat + 10)
  else none

/-- Reads a number from hexadecimal digits. -/
def readHex (cs : List Char) : Option Nat :=
  cs.foldlM (fun n c => (hexDigit? c).map (16 * n + ·)) 0

/-- Takes the hyphens out of text grouped as an identifier is. -/
def unhyphenate : List Nat → List Char → Option (List Char)
  | [], _ => none
  | [n], cs => if cs.length = n then some cs else none
  | n :: rest, cs =>
    match cs.drop n with
    | '-' :: more => (unhyphenate rest more).map (cs.take n ++ ·)
    | _ => none

/-- Reads the hyphenated form. -/
def ofHyphenated? (cs : List Char) : Option Uuid := do
  let hex ← unhyphenate groups cs
  ofNat? (← readHex hex)

/-- What stands in front of the hyphenated form in a resource name, in lower
case. -/
def urnLead : List Char := "urn:uuid:".toList

/-- Takes the lead of a resource name off. Its letters are the ASCII ones, in
either case. -/
def dropUrnLead? (cs : List Char) : Option (List Char) :=
  if (cs.take urnLead.length).map Char.toLower = urnLead then some (cs.drop urnLead.length)
  else none

/-- Reads an identifier. -/
def ofChars? (cs : List Char) : Option Uuid :=
  if cs.length = 32 then (readHex cs).bind ofNat?
  else if cs.length = 36 then ofHyphenated? cs
  else if cs.length = 38 ∧ cs.head? = some '{' ∧ cs.getLast? = some '}' then
    ofHyphenated? (cs.drop 1).dropLast
  else (dropUrnLead? cs).bind ofHyphenated?

/-- Reads an identifier from a text. -/
def ofText? (s : String) : Option Uuid := ofChars? s.toList

end Uuid

end Bourse
