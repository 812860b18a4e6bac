import Mathlib.Data.List.Perm.Subperm
import Bourse.Table

/-!
# The entries of a table

An entry that is made and erased again leaves no trace (`erase_insert`). A table counts
its entries; `size` is the number of its keys as long as no key is entered twice, which is
what `Keyed` says and neither `insert` nor `erase` brings about.
-/

namespace Bourse

namespace Table

variable {κ ν : Type} [DecidableEq κ] {t : Table κ ν}

/-- To `erase` what is not entered changes nothing. -/
theorem erase_of_none {k : κ} (h : t.get? k = none) : t.erase k = t := by
  have hne : ∀ e ∈ t.entries, decide (e.1 ≠ k) = true := by
    simpa [get?, List.find?_eq_none] using h
  simp only [erase, List.filter_eq_self.mpr hne]

/-- A new entry that is erased again leaves the table as it was. -/
theorem erase_insert {k : κ} (h : t.get? k = none) (v : ν) : (t.insert k v).erase k = t := by
  have hkept : (t.erase k).erase k = t.erase k := erase_of_none (get?_erase_self t k)
  have hentry : (t.insert k v).erase k = (t.erase k).erase k := by
    simp only [insert, erase, List.filter_cons, ne_eq, not_true_eq_false, decide_false,
      Bool.false_eq_true, if_false]
  rw [hentry, hkept, erase_of_none h]

/-- No key is entered twice. -/
def Keyed (t : Table κ ν) : Prop := (t.entries.map Prod.fst).Nodup

omit [DecidableEq κ] in
theorem keyed_empty : (empty : Table κ ν).Keyed := List.nodup_nil

theorem mem_keys {k : κ} : k ∈ t.entries.map Prod.fst ↔ (t.get? k).isSome = true := by
  unfold get?
  rw [Option.isSome_map, List.find?_isSome, List.mem_map]
  simp only [decide_eq_true_eq]

theorem Keyed.erase (h : t.Keyed) (k : κ) : (t.erase k).Keyed :=
  h.sublist (List.Sublist.map _ List.filter_sublist)

theorem Keyed.insert (h : t.Keyed) (k : κ) (v : ν) : (t.insert k v).Keyed := by
  refine List.nodup_cons.mpr ⟨?_, h.erase k⟩
  rw [mem_keys, get?_erase_self]
  exact Bool.false_ne_true

/-- The `size` of a `Keyed` table is the length of any list of just the keys that it has. -/
theorem Keyed.size_eq (h : t.Keyed) {keys : List κ} (hkeys : keys.Nodup)
    (hiff : ∀ k, k ∈ keys ↔ (t.get? k).isSome = true) : t.size = keys.length := by
  have hperm : (t.entries.map Prod.fst).Perm keys :=
    (List.perm_ext_iff_of_nodup h hkeys).mpr fun k => by rw [mem_keys, hiff]
  rw [← hperm.length_eq, List.length_map]
  rfl

end Table

end Bourse
