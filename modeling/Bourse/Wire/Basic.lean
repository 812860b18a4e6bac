import Bourse.Json.Reader
import Bourse.Json.Writer
import Bourse.Order.Terms
import Bourse.Timestamp

/-!
# The wire format

Values travel as JSON. `encode` gives the one form in which a value is written, `decode`
accepts that form and its variants.

A record is written as an object with named members. It is read by `fieldsOf` from an
object, where members of other names are ignored but none of its own may occur twice, or
from an array of its fields in order. A field may be declared `optional`, so that `null`
or nothing in an object stands for none, or with a default (`orDefault`), which it takes
in an object without it and in an array that ends before it.

A value of a union is written as the name of its case, if that has no content, and
otherwise as an object whose only member is named for the case (`caseOf`).
-/

namespace Bourse

/-- Values with a form on the wire. -/
class Wire (α : Type) where
  encode : α → Json
  decode : Json → Option α

namespace Wire

/-- The value as a text. -/
def text {α : Type} [Wire α] (a : α) : String := (encode a).text

/-- The value that a text stands for. -/
def parse? {α : Type} [Wire α] (s : String) : Option α := (Json.parse? s).bind decode

/-! ## Fields of a record -/

/-- What a JSON value has for a field of a record. -/
inductive Given where
  | value (j : Json)
  /-- An object has no member of that name. -/
  | absent
  /-- An array has ended before. -/
  | beyond

/-- What an object has for a field; none if the field occurs twice. -/
def givenIn (members : List (String × Json)) (name : String) : Option Given :=
  match members.filter fun m => m.1 = name with
  | [] => some .absent
  | [m] => some (.value m.2)
  | _ => none

/-- What a JSON value has for the fields of a record. -/
def fieldsOf (names : List String) : Json → Option (List Given)
  | .object members => names.mapM (givenIn members)
  | .array items =>
    if items.length ≤ names.length then
      some (items.map .value ++ List.replicate (names.length - items.length) .beyond)
    else none
  | _ => none

/-- Reads a field that must be there. -/
def required {α : Type} [Wire α] : Given → Option α
  | .value j => decode j
  | _ => none

/-- Reads null as none. -/
def decodeOption {α : Type} [Wire α] : Json → Option (Option α)
  | .null => some none
  | j => (decode j).map some

/-- Reads an optional field. -/
def optional {α : Type} [Wire α] : Given → Option (Option α)
  | .value j => decodeOption j
  | .absent => some none
  | .beyond => none

/-- Reads a field with a default. -/
def orDefault {α : Type} (default : α) (read : Json → Option α) : Given → Option α
  | .value j => read j
  | .absent | .beyond => some default

/-! ## Simple values -/

instance : Wire Json := ⟨id, some⟩

instance : Wire String where
  encode := .string
  decode
    | .string s => some s
    | _ => none

/-- A count of 64 bits. -/
instance : Wire Nat where
  encode := .ofNat
  decode
    | .number n => n.count?
    | _ => none

/-- A decimal is written as a text and read from a text or a number. -/
instance : Wire Decimal where
  encode d := .string d.text
  decode
    | .string s => Decimal.ofText? s
    | .number n => n.decimal?
    | _ => none

instance : Wire Uuid where
  encode u := .string u.text
  decode
    | .string s => Uuid.ofText? s
    | _ => none

instance : Wire OrderId where
  encode id := encode id.uuid
  decode j := (decode j).map OrderId.mk

instance : Wire Timestamp where
  encode t := .string t.text
  decode
    | .string s => Timestamp.ofText? s
    | _ => none

instance {α : Type} [Wire α] : Wire (Option α) where
  encode
    | none => .null
    | some a => encode a
  decode := decodeOption

instance {α : Type} [Wire α] : Wire (List α) where
  encode l := .array (l.map encode)
  decode
    | .array items => items.mapM decode
    | _ => none

instance {α β : Type} [Wire α] [Wire β] : Wire (α × β) where
  encode p := .array [encode p.1, encode p.2]
  decode
    | .array [a, b] => do return (← decode a, ← decode b)
    | _ => none

/-! ## Unions -/

/-- The case of a union that a JSON value names, with its content if there is more than the
name. -/
def caseOf : Json → Option (String × Option Json)
  | .string name => some (name, none)
  | .object [(name, content)] => some (name, some content)
  | _ => none

/-- A case without content. -/
def bare {α : Type} (a : α) : Option Json → Option α
  | none | some .null => some a
  | some _ => none

/-- A case with content. -/
def holding {α β : Type} [Wire α] (make : α → β) : Option Json → Option β
  | some j => (decode j).map make
  | none => none

/-- A case written with its content. -/
def encodeCase (name : String) (content : Json) : Json := .object [(name, content)]

/-- Values of an enumeration travel by name. -/
def decodeNamed {α : Type} [Named α] (j : Json) : Option α := do
  let (name, content) ← caseOf j
  bare (← Named.ofName? name) content

instance : Wire Side := ⟨fun a => .string (nameOf a), decodeNamed⟩
instance : Wire OrderType := ⟨fun a => .string (nameOf a), decodeNamed⟩
instance : Wire TimeInForce := ⟨fun a => .string (nameOf a), decodeNamed⟩

end Wire

end Bourse
