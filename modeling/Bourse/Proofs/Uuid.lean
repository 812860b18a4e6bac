import Bourse.Uuid

/-!
# Written identifiers are read back

`unhyphenate` finds the hyphens where `hyphenate` has put them, and 32 digits are as many
as any identifier needs (`length_hexDigits`).
-/

namespace Bourse.Uuid

/-! ## Hyphens -/

theorem length_hyphenate {groups : List Nat} (hne : groups ≠ []) :
    ∀ cs : List Char, cs.length = groups.foldr (· + ·) 0 →
      (hyphenate groups cs).length + 1 = cs.length + groups.length := by
  induction groups with
  | nil => exact absurd rfl hne
  | cons n rest ih =>
    intro cs hcs
    cases rest with
    | nil =>
      simp only [List.foldr_cons, List.foldr_nil, Nat.add_zero] at hcs
      simp [hyphenate, hcs]
    | cons m rest =>
      rw [List.foldr_cons] at hcs
      have hmore := ih (List.cons_ne_nil m rest) (cs.drop n)
        (by rw [List.length_drop]; omega)
      simp only [hyphenate, List.length_append, List.length_cons, List.length_take,
        List.length_drop] at hmore ⊢
      omega

theorem unhyphenate_hyphenate {groups : List Nat} (hne : groups ≠ []) :
    ∀ cs : List Char, cs.length = groups.foldr (· + ·) 0 →
      unhyphenate groups (hyphenate groups cs) = some cs := by
  induction groups with
  | nil => exact absurd rfl hne
  | cons n rest ih =>
    intro cs hcs
    cases rest with
    | nil =>
      simp only [List.foldr_cons, List.foldr_nil, Nat.add_zero] at hcs
      simp [hyphenate, unhyphenate, List.take_of_length_le (Nat.le_of_eq hcs), hcs]
    | cons m rest =>
      rw [List.foldr_cons] at hcs
      have hmore := ih (List.cons_ne_nil m rest) (cs.drop n)
        (by rw [List.length_drop]; omega)
      have hlength : (cs.take n).length = n := by
        rw [List.length_take]
        omega
      have hdrop : (cs.take n ++ '-' :: hyphenate (m :: rest) (cs.drop n)).drop n =
          '-' :: hyphenate (m :: rest) (cs.drop n) := List.drop_left' hlength
      have htake : (cs.take n ++ '-' :: hyphenate (m :: rest) (cs.drop n)).take n = cs.take n :=
        List.take_left' hlength
      simp only [hyphenate, unhyphenate, hdrop, htake, hmore, Option.map_some,
        List.take_append_drop]

/-! ## Digits -/

theorem hexDigit?_digitChar : ∀ n < 16, hexDigit? (Nat.digitChar n) = some n := by
  decide

theorem readHex_append (cs ds : List Char) :
    readHex (cs ++ ds) =
      (readHex cs).bind fun m => ds.foldlM (fun n c => (hexDigit? c).map (16 * n + ·)) m := by
  rw [readHex, List.foldlM_append]
  rfl

theorem readHex_zeros (k : Nat) : readHex (List.replicate k '0') = some 0 := by
  induction k with
  | zero => rfl
  | succ k ih => exact ih

theorem readHex_toDigits (n : Nat) : readHex (Nat.toDigits 16 n) = some n := by
  induction n using Nat.strongRecOn with
  | ind n ih =>
    by_cases hn : n < 16
    · rw [Nat.toDigits_of_lt_base hn]
      simp [readHex, hexDigit?_digitChar n hn]
    · rw [Nat.toDigits_of_base_le (by decide) (by omega), readHex_append,
        ih (n / 16) (by omega)]
      simp [hexDigit?_digitChar (n % 16) (Nat.mod_lt n (by decide)), Nat.div_add_mod]

theorem readHex_hexDigits (u : Uuid) : readHex u.hexDigits = some u.toNat := by
  rw [hexDigits, readHex_append, readHex_zeros]
  exact readHex_toDigits u.toNat

theorem length_hexDigits (u : Uuid) : u.hexDigits.length = 32 := by
  have hfits : (Nat.toDigits 16 u.toNat).length ≤ 32 :=
    (Nat.length_toDigits_le_iff (by decide) (by decide)).mpr u.toNat_lt
  simp only [hexDigits, List.length_append, List.length_replicate]
  omega

theorem length_toChars (u : Uuid) : u.toChars.length = 36 := by
  have hlength : u.toChars.length + 1 = u.hexDigits.length + groups.length :=
    length_hyphenate (by decide) u.hexDigits u.length_hexDigits
  rw [length_hexDigits] at hlength
  exact Nat.succ.inj hlength

theorem ofNat?_toNat (u : Uuid) : ofNat? u.toNat = some u :=
  dif_pos u.toNat_lt

/-- An identifier is read back from its `text`. -/
theorem ofText?_text (u : Uuid) : ofText? u.text = some u := by
  have hyphens : unhyphenate groups u.toChars = some u.hexDigits :=
    unhyphenate_hyphenate (by decide) u.hexDigits u.length_hexDigits
  simp [ofText?, text, ofChars?, length_toChars, ofHyphenated?, hyphens, readHex_hexDigits,
    ofNat?_toNat]

end Bourse.Uuid
