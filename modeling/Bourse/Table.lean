/-!
# Finite tables

A `Table` holds at most one value for a key. It is a list of entries; a key that is
entered again loses its old value. Three equations say what `get?` finds after an entry is
made or erased.
-/

namespace Bourse

/-- A finite map from keys to values. -/
structure Table (κ ν : Type) where
  entries : List (κ × ν)
deriving DecidableEq

namespace Table

variable {κ ν : Type} [DecidableEq κ]

/-- The table without entries. -/
def empty : Table κ ν := ⟨[]⟩

instance : Inhabited (Table κ ν) := ⟨empty⟩

/-- The value entered for a key. -/
def get? (t : Table κ ν) (k : κ) : Option ν :=
  (t.entries.find? fun e => e.1 = k).map Prod.snd

/-- Whether there is an entry for a key. -/
def contains (t : Table κ ν) (k : κ) : Bool := (t.get? k).isSome

/-- Takes the entry for a key out. -/
def erase (t : Table κ ν) (k : κ) : Table κ ν := ⟨t.entries.filter fun e => e.1 ≠ k⟩

/-- Enters a value for a key. -/
def insert (t : Table κ ν) (k : κ) (v : ν) : Table κ ν := ⟨(k, v) :: (t.erase k).entries⟩

/-- The number of entries. -/
def size (t : Table κ ν) : Nat := t.entries.length

@[simp] theorem get?_erase_self (t : Table κ ν) (k : κ) : (t.erase k).get? k = none := by
  simp [get?, erase, List.find?_eq_none]

theorem get?_erase_of_ne (t : Table κ ν) {k k' : κ} (h : k' ≠ k) :
    (t.erase k).get? k' = t.get? k' := by
  have same : (fun e : κ × ν => decide (decide (e.1 ≠ k) = true ∧ decide (e.1 = k') = true)) =
      fun e => decide (e.1 = k') := by
    funext e
    by_cases he : e.1 = k'
    · simp [he, h]
    · simp [he]
  simp only [get?, erase, List.find?_filter, same]

theorem get?_erase_of_none {t : Table κ ν} {k' : κ} (h : t.get? k' = none) (k : κ) :
    (t.erase k).get? k' = none := by
  by_cases hk : k' = k
  · rw [hk, get?_erase_self]
  · rw [get?_erase_of_ne t hk, h]

@[simp] theorem get?_insert_self (t : Table κ ν) (k : κ) (v : ν) :
    (t.insert k v).get? k = some v := by
  simp [get?, insert]

theorem get?_insert_of_ne (t : Table κ ν) {k k' : κ} (h : k' ≠ k) (v : ν) :
    (t.insert k v).get? k' = t.get? k' := by
  rw [← get?_erase_of_ne t h]
  simp [get?, insert, Ne.symm h]

end Table

end Bourse
