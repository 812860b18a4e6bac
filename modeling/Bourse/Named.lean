/-!
# Names of enumerated values

The values of a small enumeration, such as `Side`, are written by name. A name is read
back by looking for the value that bears it (`Named.ofName?`).
-/

namespace Bourse

/-- An enumeration whose values have names. -/
class Named (α : Type) where
  /-- Every value once. -/
  values : List α
  name : α → String

/-- The value with a given name. -/
def Named.ofName? {α : Type} [Named α] (s : String) : Option α :=
  (Named.values : List α).find? fun a => Named.name a = s

/-- The name of a value. -/
def nameOf {α : Type} [Named α] (a : α) : String := Named.name a

end Bourse
