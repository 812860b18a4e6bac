import Bourse.Json.Number

/-!
# JSON

The values of JSON. The members of an object are a list, in the order of the text and with
whatever is said twice, so that a reader of the value can decide what to make of it;
`member?` finds one of them.

A text may be well formed and yet spell out no string, where it escapes one half of a
surrogate pair. Such a value is `garbled`: it can be passed over but not used.
-/

namespace Bourse

/-- A value of JSON. -/
inductive Json where
  | null
  | bool (b : Bool)
  | number (n : Json.Number)
  | string (s : String)
  | array (items : List Json)
  | object (members : List (String × Json))
  /-- A string with half of a surrogate pair in it, or an object with one for a name. -/
  | garbled

namespace Json

instance : Inhabited Json := ⟨.null⟩

/-- A count, as a value. -/
def ofNat (n : Nat) : Json := .number (.ofNat n)

/-- A text, if there is one. -/
def ofText? : Option String → Json
  | none => .null
  | some s => .string s

/-- The string that a text spells out, if it does. -/
def ofSpelling : Option String → Json
  | some s => .string s
  | none => .garbled

/-- The object with these members, which is garbled if one of their names is. -/
def ofMembers (members : List (Option String × Json)) : Json :=
  match members.mapM fun m => m.1.map (·, m.2) with
  | some members => .object members
  | none => .garbled

/-- The last member of a given name. -/
def member? (j : Json) (name : String) : Option Json :=
  match j with
  | .object members => (members.reverse.find? fun m => m.1 = name).map Prod.snd
  | _ => none

theorem ofMembers_some (members : List (String × Json)) :
    ofMembers (members.map fun m => (some m.1, m.2)) = .object members := by
  have h : (members.map fun m => (some m.1, m.2)).mapM
      (fun m : Option String × Json => m.1.map (·, m.2)) = some members := by
    induction members with
    | nil => rfl
    | cons m rest ih => simp [ih]
  rw [ofMembers, h]

end Json

end Bourse
