import Bourse.Decimal.Arithmetic

/-!
# Half of a decimal

A division can fail for its divisor, and for a quotient that is too large. Half of a
decimal is no larger than the decimal, and the remainder of a division by two is used up
by one more digit (`extend_half`); so a division by two always has a result. Where there
is no room for that digit the half is rounded away (`round?_half`), and that cannot carry
the digits out of range, for they are only half of what is in it.
-/

namespace Bourse

namespace Decimal

namespace LongDivision

/-- The digits and their places are those of a decimal. -/
structure InRange (q : LongDivision) : Prop where
  digits_lt : q.digits < coeffBound
  places_nonneg : 0 ≤ q.places
  places_le : q.places ≤ 28

variable {q : LongDivision}

theorem InRange.strip (h : q.InRange) (n twos : Nat) : (q.strip n twos).InRange := by
  unfold LongDivision.strip
  split
  · next hzeros =>
      obtain ⟨-, hn, -⟩ := hzeros
      have hle := Nat.div_le_self q.digits (tenTo n)
      have hdigits := h.digits_lt
      have hplaces := h.places_le
      constructor <;> dsimp only <;> omega
  · exact h

theorem InRange.tidy (h : q.InRange) : q.tidy.InRange := by
  unfold LongDivision.tidy
  split
  · exact ((((((h.strip 8 _).strip 8 _).strip 8 _).strip 4 _).strip 2 _).strip 1 _)
  · exact h

theorem InRange.ofParts? (h : q.InRange) (negative : Bool) :
    ∃ d, Decimal.ofParts? negative q.digits q.places.toNat = some d := by
  have hplaces := h.places_le
  unfold Decimal.ofParts?
  rw [dif_pos ⟨h.digits_lt, by omega⟩]
  exact ⟨_, rfl⟩

/-- A `chunk` of digits is short, and fits behind the digits so far and behind the point. -/
theorem chunk_spec (q : LongDivision) :
    q.chunk ≤ 9 ∧ q.chunk ≤ (28 - q.places).toNat ∧
      (q.chunk ≠ 0 → q.digits * tenTo q.chunk < coeffBound) := by
  unfold chunk
  dsimp only
  cases hfind : (List.range (min 9 (28 - q.places).toNat + 1)).reverse.find? fun p =>
      decide (q.digits * tenTo p < coeffBound) with
  | none => simp
  | some p =>
      have hroom := List.find?_some hfind
      have hmem := List.mem_of_find?_eq_some hfind
      simp only [decide_eq_true_eq] at hroom
      simp only [List.mem_reverse, List.mem_range] at hmem
      simp only [Option.getD_some]
      exact ⟨by omega, by omega, fun _ => hroom⟩

/-- Without a remainder a division has come to its end. -/
theorem run?_done (h : q.rest = 0) (hplaces : 0 ≤ q.places) (divisor rounds : Nat) :
    run? divisor (rounds + 1) q = some q := by
  rw [run?, if_pos h, if_pos hplaces]

/-- `round?` rounds half a unit away. -/
theorem round?_half (hdigits : 2 * q.digits < coeffBound)
    (hplaces : 0 ≤ q.places ∧ q.places ≤ 28) :
    ∃ q', round? 2 q = some q' ∧ q'.InRange := by
  have hbound : 2 < coeffBound := by decide
  have hlt {up : Prop} [Decidable up] : q.digits + (if up then 1 else 0) < coeffBound := by
    split <;> omega
  unfold round?
  dsimp only
  rw [if_pos hlt]
  exact ⟨_, rfl, hlt, hplaces.1, hplaces.2⟩

/-- `shorten?` gives a digit too many back. -/
theorem shorten?_half (hdigits : q.digits < 2 * coeffBound)
    (hplaces : 0 < q.places ∧ q.places ≤ 28) :
    ∃ q', shorten? 2 q = some q' ∧ q'.InRange := by
  have hbound : 10 < coeffBound := by decide
  unfold shorten?
  rw [if_neg (by omega)]
  dsimp only
  have hlt {up : Prop} [Decidable up] : q.digits / 10 + (if up then 1 else 0) < coeffBound := by
    split <;> omega
  have hback : 0 ≤ q.places - 1 ∧ q.places - 1 ≤ 28 := by omega
  exact ⟨_, rfl, hlt, hback.1, hback.2⟩

/-- Any number of digits uses half a unit up. -/
theorem extend_half (hrest : q.rest = 1) (n : Nat) :
    (q.extend 2 (n + 1)).digits = q.digits * tenTo (n + 1) + 5 * tenTo n ∧
      (q.extend 2 (n + 1)).rest = 0 := by
  have hten : tenTo (n + 1) = 2 * (5 * tenTo n) := by
    rw [tenTo_succ]
    omega
  unfold extend
  dsimp only
  rw [hrest, Nat.one_mul, hten, Nat.mul_div_cancel_left _ (by decide), Nat.mul_mod_right]
  exact ⟨rfl, rfl⟩

theorem run?_half (hrest : q.rest = 1) (hdigits : 2 * q.digits < coeffBound)
    (hplaces : 0 ≤ q.places ∧ q.places ≤ 28) (rounds : Nat) :
    ∃ q', run? 2 (rounds + 2) q = some q' ∧ q'.InRange := by
  obtain ⟨-, hchunk, hroom⟩ := q.chunk_spec
  rw [run?, if_neg (by omega)]
  dsimp only
  rw [if_neg (by omega)]
  by_cases hp : q.chunk = 0
  · rw [if_pos hp]
    exact round?_half hdigits hplaces
  · obtain ⟨n, hn⟩ : ∃ n, q.chunk = n + 1 := ⟨q.chunk - 1, by omega⟩
    obtain ⟨hmore, hnone⟩ := extend_half hrest n
    have hmoved : (q.extend 2 (n + 1)).places = q.places + (n + 1 : Nat) := rfl
    rw [if_neg hp, hn]
    rw [hn] at hchunk hroom
    have hroom := hroom (Nat.succ_ne_zero n)
    have hten : tenTo (n + 1) ≤ tenTo 28 := tenTo_le_tenTo (by omega)
    have hbound : tenTo 28 < coeffBound := by decide
    rw [tenTo_succ] at hten
    generalize q.extend 2 (n + 1) = q' at hmore hnone hmoved ⊢
    obtain ⟨digits, rest, places, inexact⟩ := q'
    dsimp only at hmore hnone hmoved ⊢
    have hdigits' : digits < 2 * coeffBound := by omega
    have hplaces' : 0 < places ∧ places ≤ 28 := by omega
    split
    · next hlt =>
        have hnonneg := Int.le_of_lt hplaces'.1
        exact ⟨_, run?_done hnone hnonneg 2 rounds, hlt, hnonneg, hplaces'.2⟩
    · exact shorten?_half hdigits' hplaces'

end LongDivision

/-- Every decimal has a half. -/
theorem div_two_isOk (a : Decimal) : ∃ q, a.div (.whole 2 (by decide)) = .ok q := by
  have hcoeff := a.coeff_lt
  have hscale := a.scale_le
  have hdigits : 2 * (a.coeff / 2) < coeffBound := by omega
  have hplaces : (0 : Int) ≤ a.scale - (0 : Nat) ∧ (a.scale : Int) - (0 : Nat) ≤ 28 := by omega
  unfold div
  rw [if_neg (by decide)]
  by_cases hzero : a.coeff = 0
  · rw [if_pos hzero]
    exact ⟨_, rfl⟩
  · rw [if_neg hzero]
    dsimp only [whole]
    generalize hstart :
      (⟨a.coeff / 2, a.coeff % 2, a.scale - (0 : Nat), false⟩ : LongDivision) = start
    have hrun : ∃ q, start.run? 2 64 = some q ∧ q.InRange := by
      rw [← hstart]
      by_cases heven : a.coeff % 2 = 0
      · refine ⟨_, LongDivision.run?_done heven hplaces.1 2 63, ?_, hplaces.1, hplaces.2⟩
        exact Nat.lt_of_le_of_lt (Nat.div_le_self ..) hcoeff
      · exact LongDivision.run?_half (Nat.mod_two_ne_zero.mp heven) hdigits hplaces 62
    obtain ⟨q, hq, hrange⟩ := hrun
    obtain ⟨d, hd⟩ := hrange.tidy.ofParts? (a.negative != false)
    rw [hq]
    dsimp only [bind, Option.bind]
    rw [hd]
    exact ⟨_, rfl⟩

end Decimal

end Bourse
