import Bourse.Proofs.Decimal.Sums

/-!
# Products that some decimal means

A product brings as many places as its factors have together, up to fifty-six, and is
rounded to what fits. The rounding of sums never has to do with more than twenty-eight
places, so what is said of it does not carry over; but the one thing that is needed does.
A product that some decimal means exactly comes out as that number (`fit?_meant`), because
all that is dropped on the way there is zeros.

Two factors below `shortBound` whose scales together pass forty-seven are given no
coefficient at all by `mul?`. Such a product has no exact decimal unless it is zero: it
has fewer than twenty digits, and the last of them would have to be zeros
(`not_many_places`).
-/

namespace Bourse

namespace Decimal

/-- `dropDigits` drops zeros without a trace. -/
theorem dropDigits_mul (c : Nat) {j k : Nat} (h : k ≤ j) :
    dropDigits (c * tenTo j) k = c * tenTo (j - k) := by
  have hsplit : c * tenTo j = c * tenTo (j - k) * tenTo k := by
    rw [Nat.mul_assoc, ← tenTo_add, Nat.sub_add_cancel h]
  have hround := divHalfEven_mul_right (c * tenTo (j - k)) 1 (tenTo_pos k)
  rw [Nat.one_mul, divHalfEven_one] at hround
  rw [dropDigits, hsplit, hround]

/-- The fewest digits that `fit?` can drop are no more than any that are enough. -/
theorem fit?_of_drop (negative : Bool) {n s k : Nat} (hk : k ≤ s) (hs : s - k ≤ 28)
    (hlt : dropDigits n k < coeffBound) :
    ∃ j ≤ k, ∃ d, fit? negative n s = some d ∧ d.negative = negative ∧
      d.coeff = dropDigits n j ∧ d.scale = s - j := by
  have hfits : (ofParts? negative (dropDigits n k) (s - k)).isSome = true := by
    unfold ofParts?
    rw [dif_pos ⟨hlt, hs⟩]
    rfl
  obtain ⟨d, hd⟩ : ∃ d, fit? negative n s = some d := Option.isSome_iff_exists.mp
    (List.findSome?_isSome_iff.mpr ⟨k, List.mem_range.mpr (Nat.lt_succ_of_le hk), hfits⟩)
  obtain ⟨j, -, hneg, hcoeff, hscale, hnone⟩ := fit?_eq_some hd
  refine ⟨j, Nat.not_lt.mp fun hkj => ?_, d, hd, hneg, hcoeff, hscale⟩
  rw [hnone k hkj] at hfits
  cases hfits

/-- A number that a decimal means comes out as it is, however many places it brings. -/
theorem fit?_meant {n s : Nat} {y : Decimal} (negative : Bool)
    (h : magnitude y.coeff y.scale * tenTo s = n * tenTo 28) :
    ∃ d, fit? negative n s = some d ∧ d.negative = negative ∧
      magnitude d.coeff d.scale = magnitude y.coeff y.scale := by
  have hscale := y.scale_le
  rcases Nat.le_total y.scale s with hle | hle
  · -- The number has all its places beyond those of `y` for zeros.
    have hn : n = y.coeff * tenTo (s - y.scale) := by
      refine Nat.eq_of_mul_eq_mul_right (tenTo_pos 28) ?_
      rw [← h, magnitude, Nat.mul_assoc, Nat.mul_assoc, ← tenTo_add, ← tenTo_add]
      congr 2
      omega
    obtain ⟨j, hj, d, hd, hneg, hcoeff, hplaces⟩ :=
      fit?_of_drop negative (n := n) (s := s) (k := s - y.scale) (by omega)
        (by omega) (by rw [hn, dropDigits_mul _ (Nat.le_refl _), Nat.sub_self, tenTo_zero,
          Nat.mul_one]; exact y.coeff_lt)
    have hd28 := d.scale_le
    refine ⟨d, hd, hneg, ?_⟩
    rw [hcoeff, hplaces, hn, dropDigits_mul _ hj, magnitude, magnitude, Nat.mul_assoc, ← tenTo_add]
    congr 2
    omega
  · -- The number has no more places than `y`, and no more digits.
    have hn : n * tenTo (y.scale - s) = y.coeff := by
      refine Nat.eq_of_mul_eq_mul_right (tenTo_pos (28 - y.scale + s)) ?_
      rw [Nat.mul_assoc, ← tenTo_add, tenTo_add (28 - y.scale), ← Nat.mul_assoc]
      refine Eq.trans ?_ h.symm
      congr 2
      omega
    have hlt : n < coeffBound := by
      refine Nat.lt_of_le_of_lt ?_ y.coeff_lt
      rw [← hn]
      exact Nat.le_mul_of_pos_right _ (tenTo_pos _)
    obtain ⟨j, hj, d, hd, hneg, hcoeff, hplaces⟩ :=
      fit?_of_drop negative (n := n) (s := s) (k := 0) (Nat.zero_le _) (by omega)
        (by rw [dropDigits_zero]; exact hlt)
    obtain rfl := Nat.le_zero.mp hj
    refine ⟨d, hd, hneg, ?_⟩
    rw [hcoeff, hplaces, dropDigits_zero, magnitude, magnitude, ← hn, Nat.mul_assoc, ← tenTo_add]
    congr 2
    omega

/-- Some decimal means the product, which is told in squares of `atoms`. -/
def RepresentableProduct (x : Int) : Prop := ∃ d : Decimal, d.atoms * tenTo 28 = x

/-- The sizes of such a product and of its factors, without signs. -/
theorem magnitude_mul_magnitude {a b y : Decimal} (h : y.atoms * tenTo 28 = a.atoms * b.atoms) :
    magnitude y.coeff y.scale * tenTo 28 =
      magnitude a.coeff a.scale * magnitude b.coeff b.scale := by
  have habs := congrArg Int.natAbs h
  rw [Int.natAbs_mul, Int.natAbs_mul, Int.natAbs_natCast] at habs
  simpa only [natAbs_atoms] using habs

theorem magnitude_mul_coeff {a b y : Decimal} (h : y.atoms * tenTo 28 = a.atoms * b.atoms) :
    magnitude y.coeff y.scale * tenTo (a.scale + b.scale) = a.coeff * b.coeff * tenTo 28 := by
  have ha := a.scale_le
  have hb := b.scale_le
  have habs := magnitude_mul_magnitude h
  change _ = a.coeff * tenTo (28 - a.scale) * (b.coeff * tenTo (28 - b.scale)) at habs
  refine Nat.eq_of_mul_eq_mul_right (tenTo_pos 28) ?_
  rw [Nat.mul_right_comm, habs, Nat.mul_mul_mul_comm, Nat.mul_assoc (a.coeff * b.coeff),
    Nat.mul_assoc (a.coeff * b.coeff), ← tenTo_add, ← tenTo_add, ← tenTo_add]
  congr 2
  omega

/-- Signs multiply. -/
theorem atoms_mul (a b : Decimal) :
    a.atoms * b.atoms =
      if a.negative != b.negative then
        -((magnitude a.coeff a.scale * magnitude b.coeff b.scale : Nat) : Int)
      else (magnitude a.coeff a.scale * magnitude b.coeff b.scale : Nat) := by
  rw [atoms_eq_atomsOf a, atoms_eq_atomsOf b, Int.natCast_mul]
  unfold atomsOf
  cases a.negative <;> cases b.negative
  · rfl
  · exact Int.mul_neg _ _
  · exact Int.neg_mul _ _
  · exact Int.neg_mul_neg _ _

/-- Short factors have fewer than twenty digits together, so a product of more than forty-seven
places that some decimal means is zero. -/
theorem not_many_places {a b y : Decimal}
    (hmeant : magnitude y.coeff y.scale * tenTo (a.scale + b.scale) = a.coeff * b.coeff * tenTo 28)
    (hsome : ¬ (a.coeff = 0 ∨ b.coeff = 0)) (ha : a.coeff < shortBound)
    (hb : b.coeff < shortBound) : ¬ 47 < a.scale + b.scale := by
  intro hmany
  have hpos : 0 < magnitude y.coeff y.scale := by
    refine Nat.pos_of_ne_zero fun hnone => ?_
    rw [hnone, Nat.zero_mul] at hmeant
    have hcoeffs :=
      (Nat.mul_eq_zero.mp hmeant.symm).resolve_right (Nat.ne_of_gt (tenTo_pos 28))
    exact hsome (Nat.mul_eq_zero.mp hcoeffs)
  have hlarge : tenTo 48 ≤ a.coeff * b.coeff * tenTo 28 := by
    rw [← hmeant]
    exact Nat.le_trans (tenTo_le_tenTo hmany) (Nat.le_mul_of_pos_left _ hpos)
  have hsmall : a.coeff * b.coeff * tenTo 28 ≤ shortBound * shortBound * tenTo 28 :=
    Nat.mul_le_mul_right _ (Nat.mul_le_mul (Nat.le_of_lt ha) (Nat.le_of_lt hb))
  have hgap : shortBound * shortBound * tenTo 28 < tenTo 48 := by decide
  omega

/-- A `RepresentableProduct` comes out of `mul?` as it is. -/
theorem mul?_exact {a b : Decimal} (h : RepresentableProduct (a.atoms * b.atoms)) :
    ∃ c, a.mul? b = some c ∧ c.atoms * tenTo 28 = a.atoms * b.atoms := by
  obtain ⟨y, hy⟩ := h
  unfold mul?
  dsimp only
  by_cases hzero : a.coeff = 0 ∨ b.coeff = 0
  · rw [if_pos hzero]
    refine ⟨0, rfl, ?_⟩
    rcases hzero with ha | hb
    · rw [(atoms_eq_zero_iff a).mpr ha, Int.zero_mul, atoms_zero, Int.zero_mul]
    · rw [(atoms_eq_zero_iff b).mpr hb, Int.mul_zero, atoms_zero, Int.zero_mul]
  · rw [if_neg hzero]
    have hmeant := magnitude_mul_coeff hy
    obtain ⟨d, hd, hneg, hsize⟩ := fit?_meant (a.negative != b.negative) hmeant
    have hatoms : d.atoms * tenTo 28 = a.atoms * b.atoms := by
      rw [atoms_mul, atoms_eq_atomsOf d, hneg, atomsOf, hsize, ← magnitude_mul_magnitude hy,
        Int.natCast_mul]
      split
      · rw [Int.neg_mul]
      · rfl
    rw [hd]
    by_cases hshort : a.coeff < shortBound ∧ b.coeff < shortBound
    · rw [if_pos hshort]
      have hplaces := not_many_places hmeant hzero hshort.1 hshort.2
      rw [if_neg hplaces]
      exact ⟨d.plain, rfl, by rw [atoms_plain]; exact hatoms⟩
    · rw [if_neg hshort]
      exact ⟨d, rfl, hatoms⟩

end Decimal

end Bourse
