import Bourse.Json.Basic
import Bourse.Uuid

/-!
# Reading JSON

A reader takes a value off the front of a text and gives what follows it. Values may be
nested to any depth; `readValue`, `readItems` and `readMembers` call each other and share
their fuel. A string may not hold a bare control character; it is garbled, but still a
string, if an escape in it stands for half of a surrogate pair (`Piece.half`). Numbers are
taken apart by `readNumber`, not interpreted.
-/

namespace Bourse.Json

/-- What may stand between the parts of a value. -/
def isSpace (c : Char) : Bool := c == ' ' || c == '\n' || c == '\t' || c == '\r'

/-- The text from its first character that is no space. -/
def skipSpace (cs : List Char) : List Char := cs.dropWhile isSpace

/-! ## Strings -/

/-- What a string is spelled with. -/
inductive Piece where
  | char (c : Char)
  /-- Half of a surrogate pair. -/
  | half (code : Nat)

/-- The code that four hexadecimal digits stand for. -/
def hexCode? (a b c d : Char) : Option Nat := do
  let a ← Uuid.hexDigit? a
  let b ← Uuid.hexDigit? b
  let c ← Uuid.hexDigit? c
  let d ← Uuid.hexDigit? d
  return ((a * 16 + b) * 16 + c) * 16 + d

/-- The piece that has a code of sixteen bits. -/
def Piece.ofCode (n : Nat) : Piece :=
  if 0xD800 ≤ n ∧ n < 0xE000 then .half n else .char (Char.ofNat n)

/-- The character of a surrogate pair. -/
def pairCode? (high low : Nat) : Option Char :=
  if 0xD800 ≤ high ∧ high < 0xDC00 ∧ 0xDC00 ≤ low ∧ low < 0xE000 then
    some (Char.ofNat (0x10000 + (high - 0xD800) * 0x400 + (low - 0xDC00)))
  else none

/-- The character behind a backslash. -/
def escaped? (c : Char) : Option Char :=
  if c = '"' ∨ c = '\\' ∨ c = '/' then some c
  else if c = 'b' then some '\x08'
  else if c = 'f' then some '\x0c'
  else if c = 'n' then some '\n'
  else if c = 'r' then some '\r'
  else if c = 't' then some '\t'
  else none

/-- Puts a piece in front of those that have been read. -/
def prepend (p : Piece) : Option (List Piece × List Char) → Option (List Piece × List Char) :=
  Option.map fun (pieces, rest) => (p :: pieces, rest)

/-- Reads the rest of a string, up to its closing quote. -/
def readPieces : List Char → Option (List Piece × List Char)
  | [] => none
  | '"' :: rest => some ([], rest)
  | '\\' :: 'u' :: a :: b :: c :: d :: rest => do
    let code ← hexCode? a b c d
    prepend (.ofCode code) (readPieces rest)
  | '\\' :: c :: rest => do
    let ch ← escaped? c
    prepend (.char ch) (readPieces rest)
  | c :: rest => if c.toNat < 0x20 then none else prepend (.char c) (readPieces rest)

/-- The characters that pieces spell out; there are none if a half stands alone. -/
def spell? : List Piece → Option (List Char)
  | [] => some []
  | .char c :: rest => (spell? rest).map (c :: ·)
  | .half high :: .half low :: rest => do
    let c ← pairCode? high low
    (spell? rest).map (c :: ·)
  | .half _ :: _ => none

theorem spell?_char (cs : List Char) : spell? (cs.map .char) = some cs := by
  induction cs with
  | nil => rfl
  | cons c rest ih => rw [List.map_cons, spell?, ih, Option.map_some]

/-- Reads the rest of a string; a garbled one is read as none. -/
def readString (cs : List Char) : Option (Option String × List Char) :=
  (readPieces cs).map fun (pieces, rest) => ((spell? pieces).map String.ofList, rest)

/-! ## Numbers -/

/-- Splits leading digits off; there must be one at least. -/
def readDigits (cs : List Char) : Option (List Char × List Char) :=
  let ds := cs.takeWhile Char.isDigit
  if ds.isEmpty then none else some (ds, cs.dropWhile Char.isDigit)

/-- Reads the digits before the point; no other digit follows a leading zero. -/
def readWhole (cs : List Char) : Option (List Char × List Char) :=
  (readDigits cs).bind fun (ds, rest) =>
    if ds.head? = some '0' ∧ ds ≠ ['0'] then none else some (ds, rest)

/-- Reads the digits after the point, if there is a point. -/
def readFraction : List Char → Option (List Char × List Char)
  | '.' :: rest => readDigits rest
  | cs => some ([], cs)

/-- Reads an exponent, if there is one. -/
def readExponent : List Char → Option (Option (Bool × List Char) × List Char)
  | 'e' :: rest | 'E' :: rest =>
    let (negative, rest) := Decimal.splitSign rest
    (readDigits rest).map fun (ds, rest) => (some (negative, ds), rest)
  | cs => some (none, cs)

/-- Reads a number. -/
def readNumber (cs : List Char) : Option (Number × List Char) := do
  let (negative, cs) := match cs with
    | '-' :: rest => (true, rest)
    | cs => (false, cs)
  let (whole, cs) ← readWhole cs
  let (fraction, cs) ← readFraction cs
  let (exponent, cs) ← readExponent cs
  return (⟨negative, whole, fraction, exponent⟩, cs)

/-! ## Values -/

/-- Reads the name of a member and the colon behind it; a garbled name is none. -/
def readName : List Char → Option (Option String × List Char)
  | '"' :: rest => do
    let (name, rest) ← readString rest
    match skipSpace rest with
    | ':' :: rest => some (name, rest)
    | _ => none
  | _ => none

mutual

/-- Reads a value; `fuel` bounds the length of the text. -/
def readValue : (fuel : Nat) → List Char → Option (Json × List Char)
  | 0, _ => none
  | fuel + 1, cs =>
    match skipSpace cs with
    | 'n' :: 'u' :: 'l' :: 'l' :: rest => some (.null, rest)
    | 't' :: 'r' :: 'u' :: 'e' :: rest => some (.bool true, rest)
    | 'f' :: 'a' :: 'l' :: 's' :: 'e' :: rest => some (.bool false, rest)
    | '"' :: rest => (readString rest).map fun (s, rest) => (ofSpelling s, rest)
    | '[' :: rest =>
      match skipSpace rest with
      | ']' :: rest => some (.array [], rest)
      | rest => (readItems fuel rest).map fun (items, rest) => (.array items, rest)
    | '\x7b' :: rest =>
      match skipSpace rest with
      | '\x7d' :: rest => some (.object [], rest)
      | rest => (readMembers fuel rest).map fun (members, rest) => (ofMembers members, rest)
    | cs => (readNumber cs).map fun (n, rest) => (.number n, rest)

/-- Reads the items of an array, of which there is one at least, and its bracket. -/
def readItems : (fuel : Nat) → List Char → Option (List Json × List Char)
  | 0, _ => none
  | fuel + 1, cs => do
    let (item, cs) ← readValue fuel cs
    match skipSpace cs with
    | ']' :: rest => some ([item], rest)
    | ',' :: rest =>
      let (items, rest) ← readItems fuel rest
      return (item :: items, rest)
    | _ => none

/-- Reads the members of an object, of which there is one at least, and its brace. -/
def readMembers : (fuel : Nat) → List Char → Option (List (Option String × Json) × List Char)
  | 0, _ => none
  | fuel + 1, cs => do
    let (name, cs) ← readName (skipSpace cs)
    let (value, cs) ← readValue fuel cs
    match skipSpace cs with
    | '\x7d' :: rest => some ([(name, value)], rest)
    | ',' :: rest =>
      let (members, rest) ← readMembers fuel rest
      return ((name, value) :: members, rest)
    | _ => none

end

/-- Reads a whole text as one value. Each step of the readers uses up a character, and at
most one other step comes between two that do. -/
def ofChars? (cs : List Char) : Option Json :=
  match readValue (2 * cs.length + 2) cs with
  | some (value, rest) => if (skipSpace rest).isEmpty then some value else none
  | none => none

/-- Reads a text. -/
def parse? (s : String) : Option Json := ofChars? s.toList

end Bourse.Json
