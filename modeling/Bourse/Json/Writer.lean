import Bourse.Json.Basic

/-!
# Writing JSON

A value is written without blanks. In a string the quote, the backslash and the control
characters are escaped and all else stands for itself (`escape`). A garbled value is
written as half of a surrogate pair (`halfPair`), so that it stays garbled.
-/

namespace Bourse.Json

/-- A hexadecimal digit in lower case. -/
def hexChar (n : Nat) : Char := Nat.digitChar (n % 16)

/-- A character inside a string. -/
def escape (c : Char) : List Char :=
  if c = '"' then ['\\', '"']
  else if c = '\\' then ['\\', '\\']
  else if c = '\n' then ['\\', 'n']
  else if c = '\r' then ['\\', 'r']
  else if c = '\t' then ['\\', 't']
  else if c = '\x08' then ['\\', 'b']
  else if c = '\x0c' then ['\\', 'f']
  else if c.toNat < 0x20 then ['\\', 'u', '0', '0', hexChar (c.toNat / 16), hexChar c.toNat]
  else [c]

/-- A string in its quotes. -/
def quote (s : String) : List Char := '"' :: s.toList.flatMap escape ++ ['"']

/-- A string of half a surrogate pair. -/
def halfPair : List Char := ['"', '\\', 'u', 'd', '8', '0', '0', '"']

mutual

/-- The written form of a value, in front of a given rest. -/
def writeTo : Json → List Char → List Char
  | .null, rest => "null".toList ++ rest
  | .bool true, rest => "true".toList ++ rest
  | .bool false, rest => "false".toList ++ rest
  | .number n, rest => n.toChars ++ rest
  | .string s, rest => quote s ++ rest
  | .garbled, rest => halfPair ++ rest
  | .array [], rest => '[' :: ']' :: rest
  | .array (item :: items), rest => '[' :: writeTo item (writeItems items rest)
  | .object [], rest => '\x7b' :: '\x7d' :: rest
  | .object ((name, value) :: members), rest =>
    '\x7b' :: (quote name ++ ':' :: writeTo value (writeMembers members rest))
termination_by structural j => j

/-- What follows the first item of an array. -/
def writeItems : List Json → List Char → List Char
  | [], rest => ']' :: rest
  | item :: items, rest => ',' :: writeTo item (writeItems items rest)
termination_by structural items => items

/-- What follows the first member of an object. -/
def writeMembers : List (String × Json) → List Char → List Char
  | [], rest => '\x7d' :: rest
  | (name, value) :: members, rest =>
    ',' :: (quote name ++ ':' :: writeTo value (writeMembers members rest))
termination_by structural members => members

end

/-- The written form of a value. -/
def text (j : Json) : String := String.ofList (writeTo j [])

end Bourse.Json
