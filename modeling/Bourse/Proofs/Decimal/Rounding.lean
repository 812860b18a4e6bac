import Bourse.Decimal.Rounding

/-!
# What rounding into range does to a number

`fit?` drops as few digits as it must. Four things follow, and all later arithmetic rests
on them. The result is off by at most half a unit of its last digit, so by at most half of
one (`fit?_near`). A number that some decimal means exactly comes out unchanged
(`fit?_same`), even where digits are dropped on the way, because those digits are zeros.
Rounding never crosses a decimal: what is at most `y` stays at most `y` when `y` is one
(`fit?_le`). And it keeps the order of any two numbers, however many places each of them
brings (`fit?_mono`).

The last two have an argument in them. If `y` has at least as many places as the number
that is rounded, nothing is rounded at all; if it has fewer, `y` itself shows that
dropping down to its places is enough, so the result keeps at least as many places as `y`
and can be compared with it digit for digit. Of two numbers the smaller keeps at least as
many places as the larger, unless it has no more to keep; and a number that loses a place
has used up all digits there are, so one that keeps more places is smaller (`fit?_full`).
-/

namespace Bourse

theorem mul_divHalfEven_le {n d : Nat} (hd : 0 < d) :
    2 * (d * divHalfEven n d) ≤ 2 * n + d := by
  have hn := Nat.div_add_mod n d
  have hm := Nat.mod_lt n hd
  unfold divHalfEven
  split
  · omega
  · rw [Nat.mul_add]
    omega

theorem le_mul_divHalfEven {n d : Nat} (hd : 0 < d) :
    2 * n ≤ 2 * (d * divHalfEven n d) + d := by
  have hn := Nat.div_add_mod n d
  have hm := Nat.mod_lt n hd
  unfold divHalfEven
  split
  · omega
  · rw [Nat.mul_add]
    omega

/-- `divHalfEven` does not go above a whole number that bounds the quotient. -/
theorem divHalfEven_le_of_le_mul {n m d : Nat} (hd : 0 < d) (h : n ≤ m * d) :
    divHalfEven n d ≤ m := by
  have hq := mul_divHalfEven_le (n := n) hd
  refine Nat.le_of_lt_succ (Nat.lt_of_mul_lt_mul_left (a := d) ?_)
  rw [Nat.mul_succ, Nat.mul_comm d m]
  rcases Nat.eq_zero_or_pos (n % d) with hz | hz
  · have hn := Nat.div_add_mod n d
    have : divHalfEven n d = n / d := by simp [divHalfEven, hz, hd]
    rw [this]
    omega
  · omega

theorem le_divHalfEven_of_mul_le {n m d : Nat} (hd : 0 < d) (h : m * d ≤ n) :
    m ≤ divHalfEven n d := by
  have hm : m ≤ n / d := (Nat.le_div_iff_mul_le hd).mpr h
  unfold divHalfEven
  split <;> omega

theorem divHalfEven_mono {n m d : Nat} (h : n ≤ m) : divHalfEven n d ≤ divHalfEven m d := by
  have hn := Nat.div_add_mod n d
  have hm := Nat.div_add_mod m d
  rcases Nat.eq_or_lt_of_le (Nat.div_le_div_right (c := d) h) with heq | hlt
  · have hmod : n % d ≤ m % d := by
      rw [heq] at hn
      omega
    unfold divHalfEven
    rw [heq]
    split <;> split <;> omega
  · unfold divHalfEven
    split <;> split <;> omega

theorem divHalfEven_mul_right (n d : Nat) {k : Nat} (hk : 0 < k) :
    divHalfEven (n * k) (d * k) = divHalfEven n d := by
  have hlt : 2 * (n % d * k) < d * k ↔ 2 * (n % d) < d := by
    rw [← Nat.mul_assoc]
    exact Nat.mul_lt_mul_right hk
  have heq : 2 * (n % d * k) = d * k ↔ 2 * (n % d) = d := by
    rw [← Nat.mul_assoc]
    exact Nat.mul_left_inj (Nat.ne_of_gt hk)
  unfold divHalfEven
  rw [Nat.mul_mod_mul_right, Nat.mul_div_mul_right _ _ hk]
  simp only [hlt, heq]

/-- A quotient by more is rounded to no more. -/
theorem divHalfEven_mul_le (n : Nat) {d k : Nat} (hd : 0 < d) (hk : 0 < k) :
    divHalfEven n (d * k) ≤ divHalfEven n d := by
  rcases Nat.eq_or_lt_of_le (Nat.succ_le_of_lt hk) with rfl | htwo
  · exact Nat.le_of_eq (by rw [Nat.mul_one])
  · have hup := mul_divHalfEven_le (n := n) (Nat.mul_pos hd hk)
    have hlo := le_mul_divHalfEven (n := n) hd
    refine Nat.le_of_not_lt fun hlt => ?_
    have hgap := Nat.mul_le_mul_left (d * k) (Nat.succ_le_of_lt hlt)
    have hdouble : 2 * d ≤ d * k := by
      rw [Nat.mul_comm 2 d]
      exact Nat.mul_le_mul_left d htwo
    have hscaled := Nat.mul_le_mul_right (divHalfEven n d) hdouble
    rw [Nat.mul_succ] at hgap
    rw [Nat.mul_assoc] at hscaled
    omega

namespace Decimal

/-- Some decimal means exactly the number with this many atoms. -/
def Representable (x : Int) : Prop := ∃ d : Decimal, d.atoms = x

theorem representable_atoms (d : Decimal) : Representable d.atoms := ⟨d, rfl⟩

/-- The size of `n / 10 ^ s` in atoms. -/
def magnitude (n s : Nat) : Nat := n * tenTo (28 - s)

/-- The number `± n / 10 ^ s` in atoms. -/
def atomsOf (negative : Bool) (n s : Nat) : Int :=
  if negative then -(magnitude n s : Int) else magnitude n s

theorem atomsOf_false (n s : Nat) : atomsOf false n s = magnitude n s := rfl

theorem atomsOf_true (n s : Nat) : atomsOf true n s = -(magnitude n s : Int) := rfl

theorem atoms_eq_atomsOf (d : Decimal) : d.atoms = atomsOf d.negative d.coeff d.scale := by
  unfold atoms signed atomsOf magnitude
  split
  · rw [Int.neg_mul, Int.natCast_mul]
  · rw [Int.natCast_mul]

theorem natAbs_atoms (d : Decimal) : d.atoms.natAbs = magnitude d.coeff d.scale := by
  rw [atoms_eq_atomsOf, atomsOf]
  split
  · rw [Int.natAbs_neg, Int.natAbs_natCast]
  · rw [Int.natAbs_natCast]

theorem fit?_eq_some {negative : Bool} {n s : Nat} {d : Decimal}
    (h : fit? negative n s = some d) :
    ∃ k, k ≤ s ∧ d.negative = negative ∧ d.coeff = dropDigits n k ∧ d.scale = s - k ∧
      ∀ j < k, ofParts? negative (dropDigits n j) (s - j) = none := by
  obtain ⟨before, k, after, hsplit, hk, hnone⟩ := List.findSome?_eq_some_iff.mp h
  obtain ⟨hneg, hcoeff, hscale⟩ := ofParts?_eq_some.mp hk
  have hlen : k = before.length := by
    have hget : (List.range (s + 1))[before.length]? = some k := by rw [hsplit]; simp
    obtain ⟨_, hval⟩ := List.getElem?_eq_some_iff.mp hget
    rw [List.getElem_range] at hval
    exact hval.symm
  have hks : k ≤ s := by
    have hmem : k ∈ List.range (s + 1) := by rw [hsplit]; simp
    exact Nat.le_of_lt_succ (List.mem_range.mp hmem)
  refine ⟨k, hks, hneg, hcoeff, hscale, fun j hj => hnone j ?_⟩
  have hget : (List.range (s + 1))[j]? = some j := by
    rw [List.getElem?_range (by omega)]
  rw [hsplit, List.getElem?_append_left (by omega)] at hget
  exact List.mem_of_getElem? hget

theorem ofParts?_eq_none {negative : Bool} {c s : Nat} (h : ofParts? negative c s = none)
    (hs : s ≤ 28) : coeffBound ≤ c := by
  unfold ofParts? at h
  split at h
  · cases h
  · next hc => exact Nat.not_lt.mp fun hlt => hc ⟨hlt, hs⟩

theorem fit?_isSome {negative : Bool} {n s : Nat} (h : n ≤ (coeffBound - 1) * tenTo s) :
    ∃ d, fit? negative n s = some d := by
  have hc : dropDigits n s < coeffBound := by
    have := divHalfEven_le_of_le_mul (tenTo_pos s) h
    have hb : 0 < coeffBound := by decide
    unfold dropDigits
    omega
  have hp : (ofParts? negative (dropDigits n s) (s - s)).isSome := by
    unfold ofParts?
    rw [dif_pos ⟨hc, by omega⟩]
    rfl
  exact Option.isSome_iff_exists.mp
    (List.findSome?_isSome_iff.mpr ⟨s, List.mem_range.mpr (Nat.lt_succ_self s), hp⟩)

theorem dropDigits_anti {n i j : Nat} (h : i ≤ j) : dropDigits n j ≤ dropDigits n i := by
  unfold dropDigits
  rw [show j = i + (j - i) by omega, tenTo_add]
  exact divHalfEven_mul_le n (tenTo_pos i) (tenTo_pos _)

/-- What `dropDigits` leaves down to some places depends on the number alone. -/
theorem dropDigits_eq {n s k : Nat} (hk : k ≤ s) (hs : s ≤ 28) :
    dropDigits n k = dropDigits (magnitude n s) (28 - (s - k)) := by
  unfold dropDigits magnitude
  rw [show 28 - (s - k) = k + (28 - s) by omega, tenTo_add,
    divHalfEven_mul_right _ _ (tenTo_pos _)]

/-- How the result of dropping `k` places measures in atoms. -/
theorem magnitude_sub {c s k : Nat} (hk : k ≤ s) (hs : s ≤ 28) :
    magnitude c (s - k) = tenTo k * c * tenTo (28 - s) := by
  rw [magnitude, show 28 - (s - k) = k + (28 - s) by omega, tenTo_add, Nat.mul_comm (tenTo k) c,
    Nat.mul_assoc]

/-- `fit?` is off by at most half a unit of the last digit that is kept. -/
theorem fit?_near {negative : Bool} {n s : Nat} {d : Decimal}
    (h : fit? negative n s = some d) (hs : s ≤ 28) :
    2 * magnitude d.coeff d.scale ≤ 2 * magnitude n s + tenTo (28 - d.scale) ∧
      2 * magnitude n s ≤ 2 * magnitude d.coeff d.scale + tenTo (28 - d.scale) := by
  obtain ⟨k, hk, -, hc, hd, -⟩ := fit?_eq_some h
  have hunit : tenTo (28 - (s - k)) = tenTo k * tenTo (28 - s) := by
    rw [← tenTo_add, show 28 - (s - k) = k + (28 - s) by omega]
  rw [hc, hd, magnitude_sub hk hs, hunit, magnitude, dropDigits]
  have hup := Nat.mul_le_mul_right (tenTo (28 - s)) (mul_divHalfEven_le (n := n) (tenTo_pos k))
  have hlo := Nat.mul_le_mul_right (tenTo (28 - s)) (le_mul_divHalfEven (n := n) (tenTo_pos k))
  simp only [Nat.add_mul, Nat.mul_assoc] at hup hlo ⊢
  exact ⟨hup, hlo⟩

/-- `fit?` does not go above a decimal that bounds the number. -/
theorem fit?_le {negative : Bool} {n s : Nat} {d y : Decimal}
    (h : fit? negative n s = some d) (hs : s ≤ 28)
    (hy : magnitude n s ≤ magnitude y.coeff y.scale) :
    magnitude d.coeff d.scale ≤ magnitude y.coeff y.scale := by
  obtain ⟨k, hk, -, hc, hd, hnone⟩ := fit?_eq_some h
  have hkept : ∀ j, j ≤ s → dropDigits n j < coeffBound → k ≤ j := by
    intro j hj hlt
    refine Nat.not_lt.mp fun hjk => ?_
    have := ofParts?_eq_none (hnone j hjk) (by omega)
    omega
  have hyt := y.scale_le
  have hyc := y.coeff_lt
  rcases Nat.lt_or_ge y.scale s with hts | hst
  · -- `y` has fewer places, and dropping down to them is enough.
    have hle : n ≤ y.coeff * tenTo (s - y.scale) := by
      refine Nat.le_of_mul_le_mul_right (c := tenTo (28 - s)) ?_ (tenTo_pos _)
      rw [Nat.mul_assoc, ← tenTo_add, show s - y.scale + (28 - s) = 28 - y.scale by omega]
      exact hy
    have hkt : k ≤ s - y.scale := by
      refine hkept _ (by omega) (Nat.lt_of_le_of_lt ?_ hyc)
      exact divHalfEven_le_of_le_mul (tenTo_pos _) hle
    have hdrop : dropDigits n k ≤ y.coeff * tenTo (s - y.scale - k) := by
      refine divHalfEven_le_of_le_mul (tenTo_pos _) ?_
      rw [Nat.mul_assoc, ← tenTo_add, show s - y.scale - k + k = s - y.scale by omega]
      exact hle
    rw [hc, hd, magnitude, magnitude]
    calc dropDigits n k * tenTo (28 - (s - k))
        ≤ y.coeff * tenTo (s - y.scale - k) * tenTo (28 - (s - k)) :=
          Nat.mul_le_mul_right _ hdrop
      _ = y.coeff * tenTo (28 - y.scale) := by
          rw [Nat.mul_assoc, ← tenTo_add,
            show s - y.scale - k + (28 - (s - k)) = 28 - y.scale by omega]
  · -- `y` has at least as many places, so the number is in range as it stands.
    have hle : n ≤ y.coeff := by
      refine Nat.le_of_mul_le_mul_right (c := tenTo (28 - s)) ?_ (tenTo_pos _)
      exact Nat.le_trans hy (Nat.mul_le_mul_left _ (tenTo_le_tenTo (by omega)))
    have hk0 : k = 0 := by
      refine Nat.le_zero.mp (hkept 0 (Nat.zero_le _) ?_)
      rw [dropDigits_zero]
      omega
    rw [hc, hd, hk0, dropDigits_zero, Nat.sub_zero]
    exact hy

/-- Dropping one digit more than would fit leaves no fewer than a tenth of what fits. -/
theorem coeffBound_le_of_drop {n k : Nat} (h : coeffBound ≤ dropDigits n k) :
    coeffBound ≤ 10 * dropDigits n (k + 1) := by
  have hup := mul_divHalfEven_le (n := n) (tenTo_pos k)
  have hlo := le_mul_divHalfEven (n := n) (tenTo_pos (k + 1))
  have hb := Nat.mul_le_mul_left (tenTo k) h
  have hcancel : tenTo k * (2 * coeffBound) ≤ tenTo k * (20 * dropDigits n (k + 1) + 11) := by
    simp only [dropDigits, tenTo_succ, Nat.mul_assoc, Nat.mul_add, Nat.mul_left_comm _ 2,
      Nat.mul_left_comm _ 20, Nat.mul_comm _ 11] at hup hlo hb ⊢
    rw [Nat.mul_left_comm (tenTo k) 10] at hlo
    omega
  have := Nat.le_of_mul_le_mul_left hcancel (tenTo_pos k)
  unfold coeffBound at this ⊢
  omega

/-- A number of which something was dropped is kept with nearly all digits there are, so with no
fewer than any decimal of more places has. -/
theorem fit?_full {negative : Bool} {n s : Nat} {d y : Decimal}
    (h : fit? negative n s = some d) (hs : s ≤ 28) (hdropped : d.scale < s)
    (hlt : d.scale < y.scale) : magnitude y.coeff y.scale ≤ magnitude d.coeff d.scale := by
  obtain ⟨k, hk, -, hc, hd, hnone⟩ := fit?_eq_some h
  have hyt := y.scale_le
  have hyc := y.coeff_lt
  cases k with
  | zero => omega
  | succ k =>
      have hbig := coeffBound_le_of_drop
        (ofParts?_eq_none (hnone k (Nat.lt_succ_self k)) (by omega))
      rw [← hc] at hbig
      calc y.coeff * tenTo (28 - y.scale)
          ≤ coeffBound * tenTo (28 - y.scale) := Nat.mul_le_mul_right _ (Nat.le_of_lt hyc)
        _ ≤ 10 * d.coeff * tenTo (28 - y.scale) := Nat.mul_le_mul_right _ hbig
        _ = d.coeff * tenTo (28 - y.scale + 1) := by
            rw [tenTo_succ, Nat.mul_comm 10, Nat.mul_assoc, Nat.mul_comm 10]
        _ ≤ d.coeff * tenTo (28 - d.scale) := Nat.mul_le_mul_left _ (tenTo_le_tenTo (by omega))

theorem fit?_same {negative : Bool} {n s : Nat} {d : Decimal}
    (h : fit? negative n s = some d) (hsame : d.scale = s) :
    magnitude d.coeff d.scale = magnitude n s := by
  obtain ⟨k, hk, -, hc, hd, -⟩ := fit?_eq_some h
  have hk0 : k = 0 := by omega
  rw [hc, hd, hk0, dropDigits_zero, Nat.sub_zero]

/-- `fit?` does not go below a decimal that the number reaches. -/
theorem le_fit? {negative : Bool} {n s : Nat} {d y : Decimal}
    (h : fit? negative n s = some d) (hs : s ≤ 28)
    (hy : magnitude y.coeff y.scale ≤ magnitude n s) :
    magnitude y.coeff y.scale ≤ magnitude d.coeff d.scale := by
  obtain ⟨k, hk, -, hc, hd, -⟩ := fit?_eq_some h
  have hyt := y.scale_le
  rcases Nat.lt_or_ge d.scale y.scale with hlt | hge
  · rcases Nat.eq_or_lt_of_le (hd ▸ Nat.sub_le s k : d.scale ≤ s) with hsame | hdropped
    · exact fit?_same h hsame ▸ hy
    · exact fit?_full h hs hdropped hlt
  · rw [hd] at hge
    have hdrop : y.coeff * tenTo (s - k - y.scale) ≤ dropDigits n k := by
      refine le_divHalfEven_of_mul_le (tenTo_pos _) ?_
      refine Nat.le_of_mul_le_mul_right (c := tenTo (28 - s)) ?_ (tenTo_pos _)
      rw [Nat.mul_assoc, Nat.mul_assoc, ← tenTo_add, ← tenTo_add,
        show s - k - y.scale + (k + (28 - s)) = 28 - y.scale by omega]
      exact hy
    rw [hc, hd, magnitude, magnitude]
    calc y.coeff * tenTo (28 - y.scale)
        = y.coeff * tenTo (s - k - y.scale) * tenTo (28 - (s - k)) := by
          rw [Nat.mul_assoc, ← tenTo_add,
            show s - k - y.scale + (28 - (s - k)) = 28 - y.scale by omega]
      _ ≤ dropDigits n k * tenTo (28 - (s - k)) := Nat.mul_le_mul_right _ hdrop

/-- `fit?` keeps the order of numbers. -/
theorem fit?_mono {negative negative' : Bool} {n n' s s' : Nat} {d d' : Decimal}
    (h : fit? negative n s = some d) (h' : fit? negative' n' s' = some d') (hs : s ≤ 28)
    (hs' : s' ≤ 28) (hle : magnitude n s ≤ magnitude n' s') :
    magnitude d.coeff d.scale ≤ magnitude d'.coeff d'.scale := by
  obtain ⟨k, hk, -, hc, hd, hnone⟩ := fit?_eq_some h
  obtain ⟨k', hk', -, hc', hd', -⟩ := fit?_eq_some h'
  rcases Nat.lt_trichotomy d.scale d'.scale with hlt | heq | hgt
  · rcases Nat.eq_or_lt_of_le (hd ▸ Nat.sub_le s k : d.scale ≤ s) with hsame | hdropped
    · exact le_fit? h' hs' (fit?_same h hsame ▸ hle)
    · -- The smaller number would have fitted with one place more, as the larger one did.
      have hfits : dropDigits n (k - 1) < coeffBound := by
        refine Nat.lt_of_le_of_lt ?_ d'.coeff_lt
        rw [hc', dropDigits_eq (by omega) hs, dropDigits_eq hk' hs']
        exact Nat.le_trans (dropDigits_anti (by omega)) (divHalfEven_mono hle)
      have := ofParts?_eq_none (hnone (k - 1) (by omega)) (by omega)
      omega
  · have hplaces : s - k = s' - k' := by omega
    rw [hc, hc', heq, dropDigits_eq hk hs, dropDigits_eq hk' hs', hplaces]
    exact Nat.mul_le_mul_right _ (divHalfEven_mono hle)
  · rcases Nat.eq_or_lt_of_le (hd' ▸ Nat.sub_le s' k' : d'.scale ≤ s') with hsame | hdropped
    · exact fit?_le h hs (fit?_same h' hsame ▸ hle)
    · exact fit?_full h' hs' hdropped hgt

/-- What is at most `10 ^ (28 - t)` keeps `t` places if it has them. -/
theorem fit?_places {negative : Bool} {n s t : Nat} {d : Decimal}
    (h : fit? negative n s = some d) (hs : s ≤ 28) (ht : t ≤ 28)
    (hm : magnitude n s ≤ tenTo 28 * tenTo (28 - t)) : d.scale = s ∨ t ≤ d.scale := by
  obtain ⟨k, hk, -, -, hd, -⟩ := fit?_eq_some h
  refine Decidable.or_iff_not_imp_left.mpr fun hne => Nat.le_of_not_lt fun hlt => ?_
  have hfull := fit?_full (y := ⟨false, tenTo 28 + 1, t, by decide, ht⟩) h hs (by omega) hlt
  have hle := fit?_le (y := ⟨false, tenTo 28, t, by decide, ht⟩) h hs hm
  exact Nat.not_succ_le_self _
    (Nat.le_of_mul_le_mul_right (Nat.le_trans hfull hle) (tenTo_pos (28 - t)))

end Decimal

end Bourse
