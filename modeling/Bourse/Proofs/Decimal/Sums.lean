import Bourse.Decimal.Arithmetic
import Bourse.Proofs.Decimal.Rounding

/-!
# Sums and differences of decimals

A sum is the exact sum fitted, so all that is known of `fit?` carries over, and
it carries over to both signs: `add?_le` and `le_add?` say that a sum never
crosses a decimal, `add?_mono` that sums come out in the order of the exact
sums, `add?_exact` that a sum which some decimal means comes out as it is,
`add?_near` that any other is off by at most half of one, and `add?_fine` that
small sums are off by far less.

`Precision` gathers what the proofs about books need of it: a range of numbers,
a grid on which they lie, and how far the sum of two of them can be off. There
are two. `coarse` takes any decimals as far as sums fit at all; `exact` takes
multiples of a power of ten that 96 bits can count, and there nothing is ever
off.
-/

namespace Bourse

namespace Decimal

/-- A sum is the exact sum through `fit?`. A zero operand is no exception, since the other operand
is in range as it stands. -/
theorem add?_eq_fit? (a b : Decimal) :
    ∃ negative n s, s ≤ 28 ∧ a.add? b = fit? negative n s ∧
      atomsOf negative n s = a.atoms + b.atoms := by
  have fits (d : Decimal) : fit? d.negative d.coeff d.scale = some d :=
    fit?_eq_some_of_inRange (ofParts?_eq_some.mpr ⟨rfl, rfl, rfl⟩)
  unfold add?
  split
  · next ha =>
      refine ⟨_, _, _, b.scale_le, (fits b).symm, ?_⟩
      rw [(atoms_eq_zero_iff a).mpr ha, Int.zero_add, atoms_eq_atomsOf]
  · split
    · next hb =>
        refine ⟨_, _, _, a.scale_le, (fits a).symm, ?_⟩
        rw [(atoms_eq_zero_iff b).mpr hb, Int.add_zero, atoms_eq_atomsOf]
    · have hs : max a.scale b.scale ≤ 28 := Nat.max_le.mpr ⟨a.scale_le, b.scale_le⟩
      refine ⟨_, _, _, hs, rfl, ?_⟩
      have widen (d : Decimal) (h : d.scale ≤ max a.scale b.scale) :
          d.signed * tenTo (max a.scale b.scale - d.scale) * tenTo (28 - max a.scale b.scale) =
            d.atoms := by
        rw [Int.mul_assoc, ← Int.natCast_mul, ← tenTo_add, atoms,
          show max a.scale b.scale - d.scale + (28 - max a.scale b.scale) = 28 - d.scale by omega]
      rw [← widen a (Nat.le_max_left _ _), ← widen b (Nat.le_max_right _ _), ← Int.add_mul]
      generalize a.signed * tenTo (max a.scale b.scale - a.scale) +
        b.signed * tenTo (max a.scale b.scale - b.scale) = x
      unfold atomsOf magnitude
      rw [Int.natCast_mul]
      by_cases hx : x < 0
      · rw [decide_eq_true hx, if_pos rfl, ← Int.neg_mul, Int.ofNat_natAbs_of_nonpos (by omega),
          Int.neg_neg]
      · rw [decide_eq_false hx, if_neg (by simp), Int.natAbs_of_nonneg (by omega)]

/-- The greatest number of atoms any decimal means. -/
def greatestAtoms : Nat := (coeffBound - 1) * tenTo 28

theorem add?_isSome {a b : Decimal} (hlo : -(greatestAtoms : Int) ≤ a.atoms + b.atoms)
    (hhi : a.atoms + b.atoms ≤ greatestAtoms) : ∃ c, a.add? b = some c := by
  obtain ⟨negative, n, s, hs, hfit, hsum⟩ := add?_eq_fit? a b
  rw [hfit]
  refine fit?_isSome ?_
  refine Nat.le_of_mul_le_mul_right (c := tenTo (28 - s)) ?_ (tenTo_pos _)
  rw [Nat.mul_assoc, ← tenTo_add, show s + (28 - s) = 28 by omega]
  change magnitude n s ≤ greatestAtoms
  unfold atomsOf at hsum
  split at hsum <;> omega

theorem add?_near {a b c : Decimal} (h : a.add? b = some c) :
    2 * c.atoms ≤ 2 * (a.atoms + b.atoms) + tenTo 28 ∧
      2 * (a.atoms + b.atoms) ≤ 2 * c.atoms + tenTo 28 := by
  obtain ⟨negative, n, s, hs, hfit, hsum⟩ := add?_eq_fit? a b
  rw [hfit] at h
  obtain ⟨k, -, hneg, -, -, -⟩ := fit?_eq_some h
  have hnear := fit?_near h hs
  have hunit : tenTo (28 - c.scale) ≤ tenTo 28 := tenTo_le_tenTo (by omega)
  rw [← hsum, atoms_eq_atomsOf c, hneg]
  unfold atomsOf
  split <;> omega

/-- Half a unit. No sum is off by more. -/
def halfUnit : Nat := 5 * tenTo 27

theorem add?_off {a b c : Decimal} (h : a.add? b = some c) :
    c.atoms ≤ a.atoms + b.atoms + halfUnit ∧ a.atoms + b.atoms ≤ c.atoms + halfUnit := by
  have hnear := add?_near h
  rw [tenTo_succ] at hnear
  unfold halfUnit
  omega

/-- A sum does not go above a decimal that bounds the exact sum. -/
theorem add?_le {a b c y : Decimal} (h : a.add? b = some c)
    (hy : a.atoms + b.atoms ≤ y.atoms) : c.atoms ≤ y.atoms := by
  obtain ⟨negative, n, s, hs, hfit, hsum⟩ := add?_eq_fit? a b
  rw [hfit] at h
  obtain ⟨k, -, hneg, -, -, -⟩ := fit?_eq_some h
  have hym := natAbs_atoms y
  rw [← hsum] at hy
  rw [atoms_eq_atomsOf c, hneg]
  cases negative with
  | false =>
      rw [atomsOf_false] at hy ⊢
      have := fit?_le (y := y) h hs (by omega)
      omega
  | true =>
      rw [atomsOf_true] at hy ⊢
      by_cases hlt : y.atoms < 0
      · have := le_fit? (y := y) h hs (by omega)
        omega
      · omega

/-- A sum does not go below a decimal that the exact sum reaches. -/
theorem le_add? {a b c y : Decimal} (h : a.add? b = some c)
    (hy : y.atoms ≤ a.atoms + b.atoms) : y.atoms ≤ c.atoms := by
  obtain ⟨negative, n, s, hs, hfit, hsum⟩ := add?_eq_fit? a b
  rw [hfit] at h
  obtain ⟨k, -, hneg, -, -, -⟩ := fit?_eq_some h
  have hym := natAbs_atoms y
  rw [← hsum] at hy
  rw [atoms_eq_atomsOf c, hneg]
  cases negative with
  | false =>
      rw [atomsOf_false] at hy ⊢
      by_cases hlt : 0 < y.atoms
      · have := le_fit? (y := y) h hs (by omega)
        omega
      · omega
  | true =>
      rw [atomsOf_true] at hy ⊢
      have := fit?_le (y := y) h hs (by omega)
      omega

/-- Greater exact sums do not come out smaller. -/
theorem add?_mono {a b a' b' c c' : Decimal} (h : a.add? b = some c) (h' : a'.add? b' = some c')
    (hle : a.atoms + b.atoms ≤ a'.atoms + b'.atoms) : c.atoms ≤ c'.atoms := by
  obtain ⟨negative, n, s, hs, hfit, hsum⟩ := add?_eq_fit? a b
  obtain ⟨negative', n', s', hs', hfit', hsum'⟩ := add?_eq_fit? a' b'
  rw [hfit] at h
  rw [hfit'] at h'
  obtain ⟨k, -, hneg, -, -, -⟩ := fit?_eq_some h
  obtain ⟨k', -, hneg', -, -, -⟩ := fit?_eq_some h'
  rw [← hsum, ← hsum'] at hle
  rw [atoms_eq_atomsOf c, atoms_eq_atomsOf c', hneg, hneg']
  cases negative <;> cases negative' <;> simp only [atomsOf_false, atomsOf_true] at hle ⊢
  case false.false =>
    have := fit?_mono h h' hs hs' (by omega)
    omega
  case true.true =>
    have := fit?_mono h' h hs' hs (by omega)
    omega
  case true.false => omega
  case false.true =>
    -- Both are zeros, and stay so.
    have hzero := fit?_le (y := 0) h hs (by omega)
    have hzero' := fit?_le (y := 0) h' hs' (by omega)
    have hnone : magnitude (0 : Decimal).coeff (0 : Decimal).scale = 0 := Nat.zero_mul _
    omega

/-- A sum of at most `10 ^ (28 - t)` is off by at most half a unit of the place `t`. -/
theorem add?_fine {a b c : Decimal} {t : Nat} (h : a.add? b = some c) (ht : t ≤ 28)
    (hsize : (a.atoms + b.atoms).natAbs ≤ tenTo 28 * tenTo (28 - t)) :
    2 * c.atoms ≤ 2 * (a.atoms + b.atoms) + tenTo (28 - t) ∧
      2 * (a.atoms + b.atoms) ≤ 2 * c.atoms + tenTo (28 - t) := by
  obtain ⟨negative, n, s, hs, hfit, hsum⟩ := add?_eq_fit? a b
  rw [hfit] at h
  obtain ⟨k, -, hneg, -, -, -⟩ := fit?_eq_some h
  have hm : magnitude n s ≤ tenTo 28 * tenTo (28 - t) := by
    refine Nat.le_trans (Nat.le_of_eq ?_) hsize
    rw [← hsum]
    unfold atomsOf
    split <;> omega
  have hnear : 2 * magnitude c.coeff c.scale ≤ 2 * magnitude n s + tenTo (28 - t) ∧
      2 * magnitude n s ≤ 2 * magnitude c.coeff c.scale + tenTo (28 - t) := by
    rcases fit?_places h hs ht hm with hsame | hplaces
    · rw [fit?_same h hsame]
      exact ⟨Nat.le_add_right _ _, Nat.le_add_right _ _⟩
    · have hunit : tenTo (28 - c.scale) ≤ tenTo (28 - t) := tenTo_le_tenTo (by omega)
      have := fit?_near h hs
      omega
  rw [← hsum, atoms_eq_atomsOf c, hneg]
  unfold atomsOf
  split <;> omega

/-- A `Representable` sum comes out as it is. -/
theorem add?_exact {a b c : Decimal} (h : a.add? b = some c)
    (hr : Representable (a.atoms + b.atoms)) : c.atoms = a.atoms + b.atoms := by
  obtain ⟨y, hy⟩ := hr
  have hle := add?_le (y := y) h (by omega)
  have hge := le_add? (y := y) h (by omega)
  omega

theorem Representable.bounds {x : Int} (h : Representable x) :
    -(greatestAtoms : Int) ≤ x ∧ x ≤ greatestAtoms := by
  obtain ⟨d, rfl⟩ := h
  have hm := natAbs_atoms d
  have hle : magnitude d.coeff d.scale ≤ greatestAtoms := by
    have := d.coeff_lt
    exact Nat.mul_le_mul (by omega) (tenTo_le_tenTo (by omega))
  omega

/-- Whole multiples of a power of ten that 96 bits can count are decimals. -/
theorem representable_mul {x : Int} {k : Nat} (hk : k ≤ 28)
    (hlo : -((coeffBound - 1 : Nat) : Int) ≤ x) (hhi : x ≤ (coeffBound - 1 : Nat)) :
    Representable (x * tenTo (28 - k)) := by
  have hb : 0 < coeffBound := by decide
  have hx : x.natAbs < coeffBound := by omega
  obtain ⟨d, hd⟩ : ∃ d, ofInt? x k = some d :=
    ⟨_, dif_pos (⟨hx, hk⟩ : x.natAbs < coeffBound ∧ k ≤ 28)⟩
  obtain ⟨hs, hk'⟩ := signed_of_ofInt? hd
  exact ⟨d, by rw [atoms, hs, hk']⟩

/-- A range of decimals in which sums are known: numbers on a grid whose sum is within the cap
have a sum, it lies on the grid again, and it is off by no more than the slack. -/
structure Precision where
  grid : Int
  cap : Nat
  slack : Nat
  cap_le : cap ≤ greatestAtoms
  add?_of_le : ∀ {a b : Decimal}, grid ∣ a.atoms → grid ∣ b.atoms →
    -(cap : Int) ≤ a.atoms + b.atoms → a.atoms + b.atoms ≤ cap →
    ∃ c, a.add? b = some c ∧ grid ∣ c.atoms ∧
      c.atoms ≤ a.atoms + b.atoms + slack ∧ a.atoms + b.atoms ≤ c.atoms + slack

namespace Precision

/-- All decimals, as far as sums fit; a sum may be off by half of one. -/
def coarse : Precision where
  grid := 1
  cap := greatestAtoms
  slack := 5 * tenTo 27
  cap_le := Nat.le_refl _
  add?_of_le := by
    intro a b _ _ hlo hhi
    obtain ⟨c, hc⟩ := add?_isSome hlo hhi
    have hnear := add?_near hc
    rw [tenTo_succ] at hnear
    exact ⟨c, hc, Int.one_dvd _, by omega, by omega⟩

/-- Multiples of `10 ^ (-k)` that 96 bits can count; sums are exact. -/
def exact (k : Nat) (hk : k ≤ 28) : Precision where
  grid := tenTo (28 - k)
  cap := (coeffBound - 1) * tenTo (28 - k)
  slack := 0
  cap_le := Nat.mul_le_mul_left _ (tenTo_le_tenTo (Nat.sub_le _ _))
  add?_of_le := by
    intro a b ha hb hlo hhi
    have hpos : (0 : Int) < tenTo (28 - k) := Int.natCast_pos.mpr (tenTo_pos _)
    obtain ⟨x, hx⟩ := Int.dvd_add ha hb
    rw [hx, Int.mul_comm, Int.natCast_mul] at hlo hhi
    rw [← Int.neg_mul] at hlo
    have hr : Representable (a.atoms + b.atoms) := by
      rw [hx, Int.mul_comm]
      exact representable_mul hk (Int.le_of_mul_le_mul_right hlo hpos)
        (Int.le_of_mul_le_mul_right hhi hpos)
    obtain ⟨c, hc⟩ := add?_isSome hr.bounds.1 hr.bounds.2
    have he := add?_exact hc hr
    exact ⟨c, hc, by rw [he]; exact Int.dvd_add ha hb, by omega, by omega⟩

/-- What lies on the grid of `exact` and has few enough digits is within the cap. -/
theorem le_cap_exact {k : Nat} (hk : k ≤ 28) {x : Int} (hx : (tenTo (28 - k) : Int) ∣ x)
    (hlt : x * tenTo k < coeffBound * tenTo 28) : x ≤ (exact k hk).cap := by
  obtain ⟨m, rfl⟩ := hx
  have hpos : (0 : Int) < tenTo 28 := Int.natCast_pos.mpr (tenTo_pos 28)
  have hsplit : (tenTo 28 : Int) = tenTo (28 - k) * tenTo k := by
    rw [← Int.natCast_mul, ← tenTo_add, Nat.sub_add_cancel hk]
  rw [Int.mul_right_comm, ← hsplit, Int.mul_comm] at hlt
  have hm : m < coeffBound := Int.lt_of_mul_lt_mul_right hlt (Int.le_of_lt hpos)
  have hle : m ≤ (coeffBound - 1 : Nat) := by
    have hbound : 0 < coeffBound := by decide
    omega
  rw [Int.mul_comm]
  show _ ≤ (((coeffBound - 1) * tenTo (28 - k) : Nat) : Int)
  rw [Int.natCast_mul]
  exact Int.mul_le_mul_of_nonneg_right hle (Int.natCast_nonneg _)

end Precision

/-! ## Differences -/

theorem sub_eq_ok {a b c : Decimal} : a.sub b = .ok c ↔ a.add? (-b) = some c := by
  unfold sub sub?
  cases a.add? (-b) <;> simp

theorem add_eq_ok {a b c : Decimal} : a.add b = .ok c ↔ a.add? b = some c := by
  unfold add
  cases a.add? b <;> simp

namespace Precision

variable (p : Precision) {a b : Decimal}

theorem add_of_le (ha : p.grid ∣ a.atoms) (hb : p.grid ∣ b.atoms)
    (hlo : -(p.cap : Int) ≤ a.atoms + b.atoms) (hhi : a.atoms + b.atoms ≤ p.cap) :
    ∃ c, a.add b = .ok c ∧ p.grid ∣ c.atoms ∧
      c.atoms ≤ a.atoms + b.atoms + p.slack ∧ a.atoms + b.atoms ≤ c.atoms + p.slack := by
  obtain ⟨c, hc, hgrid, hle, hge⟩ := p.add?_of_le ha hb hlo hhi
  exact ⟨c, add_eq_ok.mpr hc, hgrid, hle, hge⟩

theorem sub_of_le (ha : p.grid ∣ a.atoms) (hb : p.grid ∣ b.atoms)
    (hlo : -(p.cap : Int) ≤ a.atoms - b.atoms) (hhi : a.atoms - b.atoms ≤ p.cap) :
    ∃ c, a.sub b = .ok c ∧ p.grid ∣ c.atoms ∧
      c.atoms ≤ a.atoms - b.atoms + p.slack ∧ a.atoms - b.atoms ≤ c.atoms + p.slack := by
  have hneg : a.atoms + (-b).atoms = a.atoms - b.atoms := by rw [atoms_neg]; omega
  obtain ⟨c, hc, hgrid, hle, hge⟩ := p.add?_of_le (b := -b) ha
    (by rw [atoms_neg]; exact Int.dvd_neg.mpr hb) (by omega) (by omega)
  exact ⟨c, sub_eq_ok.mpr hc, hgrid, by omega, by omega⟩

/-- Without slack `saturatingAdd` is right in range, and never falls back on the greatest decimal.
-/
theorem saturatingAdd_of_le (hp : p.slack = 0) (ha : p.grid ∣ a.atoms) (hb : p.grid ∣ b.atoms)
    (hlo : -(p.cap : Int) ≤ a.atoms + b.atoms) (hhi : a.atoms + b.atoms ≤ p.cap) :
    p.grid ∣ (a.saturatingAdd b).atoms ∧ (a.saturatingAdd b).atoms = a.atoms + b.atoms := by
  obtain ⟨c, hc, hgrid, hle, hge⟩ := p.add?_of_le ha hb hlo hhi
  have hsum : a.saturatingAdd b = c := by rw [saturatingAdd, hc]; rfl
  rw [hsum]
  exact ⟨hgrid, by omega⟩

end Precision

theorem sub_off {a b c : Decimal} (h : a.sub b = .ok c) :
    c.atoms ≤ a.atoms - b.atoms + halfUnit ∧ a.atoms - b.atoms ≤ c.atoms + halfUnit := by
  have hoff := add?_off (sub_eq_ok.mp h)
  rw [atoms_neg] at hoff
  omega

/-- What is left after a positive part is taken is no more than there was. -/
theorem sub_le {a b c : Decimal} (h : a.sub b = .ok c) (hb : 0 ≤ b.atoms) :
    c.atoms ≤ a.atoms := by
  refine add?_le (sub_eq_ok.mp h) ?_
  rw [atoms_neg]
  omega

/-- A part can be taken, whatever the places of the two. -/
theorem sub_isOk {a b : Decimal} (hb : 0 ≤ b.atoms) (hle : b.atoms ≤ a.atoms) :
    ∃ c, a.sub b = .ok c := by
  have hbounds := (representable_atoms a).bounds
  obtain ⟨c, hc⟩ := add?_isSome (a := a) (b := -b)
    (by rw [atoms_neg]; omega) (by rw [atoms_neg]; omega)
  exact ⟨c, sub_eq_ok.mpr hc⟩

theorem sub_nonneg {a b c : Decimal} (h : a.sub b = .ok c) (hle : b.atoms ≤ a.atoms) :
    0 ≤ c.atoms := by
  refine le_add? (y := 0) (sub_eq_ok.mp h) ?_
  rw [atoms_zero, atoms_neg]
  omega

theorem sub_mono {a a' b c c' : Decimal} (h : a.sub b = .ok c) (h' : a'.sub b = .ok c')
    (hle : a.atoms ≤ a'.atoms) : c.atoms ≤ c'.atoms :=
  add?_mono (sub_eq_ok.mp h) (sub_eq_ok.mp h') (by omega)

theorem sub_fine {a b c : Decimal} {t : Nat} (h : a.sub b = .ok c) (ht : t ≤ 28)
    (hsize : (a.atoms - b.atoms).natAbs ≤ tenTo 28 * tenTo (28 - t)) :
    2 * c.atoms ≤ 2 * (a.atoms - b.atoms) + tenTo (28 - t) ∧
      2 * (a.atoms - b.atoms) ≤ 2 * c.atoms + tenTo (28 - t) := by
  have hdiff : a.atoms + (-b).atoms = a.atoms - b.atoms := by rw [atoms_neg]; omega
  rw [← hdiff] at hsize ⊢
  exact add?_fine (sub_eq_ok.mp h) ht hsize

theorem sub_exact {a b c : Decimal} (h : a.sub b = .ok c)
    (hr : Representable (a.atoms - b.atoms)) : c.atoms = a.atoms - b.atoms := by
  have hdiff : a.atoms + (-b).atoms = a.atoms - b.atoms := by rw [atoms_neg]; omega
  rw [← hdiff] at hr ⊢
  exact add?_exact (sub_eq_ok.mp h) hr

/-- The number `n / 10 ^ s`, if it is in range; otherwise what is left of its parts. -/
def scaled (n s : Nat) : Decimal :=
  ⟨false, n % coeffBound, s % 29, Nat.mod_lt n (by decide),
    Nat.le_of_lt_succ (Nat.mod_lt s (by decide))⟩

/-- The smallest positive decimal. -/
def atom : Decimal := .scaled 1 28

theorem sub_pos {a b c : Decimal} (h : a.sub b = .ok c) (hb : b.atoms < a.atoms) :
    0 < c.atoms := by
  refine le_add? (y := atom) (sub_eq_ok.mp h) ?_
  rw [atoms_neg]
  change (1 : Int) ≤ _
  omega

/-- Nothing can be taken from any number. -/
theorem sub_zero (a : Decimal) {b : Decimal} (hb : b.atoms = 0) :
    ∃ c, a.sub b = .ok c ∧ c.atoms = a.atoms := by
  have hsum : a.atoms + (-b).atoms = a.atoms := by rw [atoms_neg]; omega
  have hbounds := (representable_atoms a).bounds
  obtain ⟨c, hc⟩ := add?_isSome (a := a) (b := -b) (by omega) (by omega)
  refine ⟨c, sub_eq_ok.mpr hc, ?_⟩
  rw [add?_exact hc (by rw [hsum]; exact representable_atoms a), hsum]

theorem sub_self {a b c : Decimal} (h : a.sub b = .ok c) (hb : b.atoms = a.atoms) :
    c.atoms = 0 := by
  have hz : a.atoms - b.atoms = 0 := by omega
  rw [sub_exact h ⟨0, by rw [hz]; exact atoms_zero⟩, hz]

end Decimal

end Bourse
