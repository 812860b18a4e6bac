import Bourse.Proofs.Decimal.Halving
import Bourse.Proofs.Decimal.Sums

/-!
# What a division answers

Long division appends chunks of digits until the remainder is used up or no more
digits fit, and then rounds once, or twice where a chunk has carried the
coefficient out of range and costs a digit again. So a quotient is not always the
nearest decimal. But it is never past a neighbour: no decimal lies between the
quotient that is meant and the one that is answered (`Faithful`). And there is no
answer exactly where the greatest decimal is exceeded by half a unit or more.

All along the digits so far and the remainder mean the same number, `target`, which
the rounds of the division do not change (`target_extend`); one lemma for each way
out of the loop says that the result is next to that number, and `run?_settles`
puts them together by induction on the rounds. A number of `s` places can only be
told from one of more places if it has used up all the digits there are: this is
what the two ways to be full, at the last place or with nearly all digits, are
needed for in `faithful_of_grid`.
-/

namespace Bourse

namespace Decimal

/-- No decimal lies between `t / m` and `v`, in atoms. -/
def Faithful (t m v : Nat) : Prop :=
  ∀ d : Decimal,
    (magnitude d.coeff d.scale * m ≤ t → magnitude d.coeff d.scale ≤ v) ∧
      (t ≤ magnitude d.coeff d.scale * m → v ≤ magnitude d.coeff d.scale)

/-- Twice the first number that is too large to be rounded to a decimal. -/
def twiceTooLarge : Nat := 2 * coeffBound - 1

/-- `twiceTooLarge` in atoms. -/
def twiceTooMuch : Nat := twiceTooLarge * tenTo 28

namespace LongDivision

variable {q : LongDivision} {m n t : Nat}

/-- One unit of the last digit, in atoms. -/
def unit (q : LongDivision) : Nat := tenTo (28 - q.places).toNat

/-- The digits so far, in atoms. -/
def value (q : LongDivision) : Nat := q.digits * q.unit

/-- The number that digits and remainder stand for: the quotient in atoms, times the divisor. -/
def target (m : Nat) (q : LongDivision) : Nat := (q.digits * m + q.rest) * q.unit

theorem unit_pos (q : LongDivision) : 0 < q.unit := tenTo_pos _

theorem unit_extend (hplaces : q.places + n ≤ 28) : q.unit = tenTo n * (q.extend m n).unit := by
  unfold unit
  rw [← tenTo_add]
  congr 1
  simp only [extend]
  omega

/-- `extend` does not change the number. -/
theorem target_extend (hplaces : q.places + n ≤ 28) : (q.extend m n).target m = q.target m := by
  unfold target
  rw [unit_extend (m := m) hplaces, ← Nat.mul_assoc]
  congr 1
  have hrest := Nat.div_add_mod (q.rest * tenTo n) m
  simp only [extend, Nat.add_mul]
  rw [Nat.mul_comm (q.rest * tenTo n / m) m, Nat.add_assoc, hrest, Nat.mul_right_comm]

/-! ## Ending next to the number -/

/-- How a division ends: next to the number, or because the number is too large. -/
def Settles (t m : Nat) : Option LongDivision → Prop
  | some q => q.InRange ∧ Faithful t m q.value ∧ 2 * t < twiceTooMuch * m
  | none => twiceTooMuch * m ≤ 2 * t

/-- A decimal of no more places is a multiple of the `unit`. -/
theorem magnitude_of_scale_le {d : Decimal} (h : (d.scale : Int) ≤ q.places)
    (hplaces : q.places ≤ 28) : ∃ k, magnitude d.coeff d.scale = k * q.unit := by
  refine ⟨d.coeff * tenTo (q.places - d.scale).toNat, ?_⟩
  unfold magnitude unit
  rw [Nat.mul_assoc, ← tenTo_add]
  congr 2
  omega

/-- A decimal of more places has at most a tenth of what the digits can count. -/
theorem magnitude_of_lt_scale {d : Decimal} (h : q.places < d.scale) :
    10 * magnitude d.coeff d.scale ≤ (coeffBound - 1) * q.unit := by
  have hcoeff := d.coeff_lt
  have hscale := d.scale_le
  have hunit : tenTo (28 - d.scale) * 10 ≤ q.unit := by
    rw [← tenTo_succ]
    exact tenTo_le_tenTo (by omega)
  calc 10 * magnitude d.coeff d.scale = d.coeff * (tenTo (28 - d.scale) * 10) := by
        rw [magnitude, Nat.mul_comm, Nat.mul_assoc]
    _ ≤ (coeffBound - 1) * q.unit := Nat.mul_le_mul (by omega) hunit

/-- A number of full length that is less than a `unit` away is next to the number. -/
theorem faithful_of_grid (hrange : q.InRange) (hlo : q.digits * (q.unit * m) < t + q.unit * m)
    (hhi : t < (q.digits + 1) * (q.unit * m))
    (hfull : q.places < 28 →
      coeffBound ≤ 10 * q.digits + 1 ∧ (coeffBound - 1) * (q.unit * m) < 10 * t) :
    Faithful t m q.value := by
  intro d
  unfold value
  rcases Int.lt_or_le q.places d.scale with hmore | hfew
  · have hscale := d.scale_le
    have hsmall := magnitude_of_lt_scale hmore
    obtain ⟨hdigits, hlarge⟩ := hfull (by omega)
    constructor
    · intro _
      have := Nat.mul_le_mul_right q.unit (show coeffBound - 1 ≤ 10 * q.digits by omega)
      rw [Nat.mul_assoc] at this
      omega
    · intro hle
      have := Nat.mul_le_mul_right m hsmall
      rw [Nat.mul_assoc, Nat.mul_assoc] at this
      omega
  · obtain ⟨k, hk⟩ := magnitude_of_scale_le hfew hrange.places_le
    rw [hk, Nat.mul_assoc]
    constructor
    · intro hle
      have hlt : k < q.digits + 1 := Nat.lt_of_mul_lt_mul_right (Nat.lt_of_le_of_lt hle hhi)
      exact Nat.mul_le_mul_right _ (Nat.le_of_lt_succ hlt)
    · intro hle
      have hlt : q.digits < k + 1 := by
        refine Nat.lt_of_mul_lt_mul_right (a := q.unit * m) ?_
        rw [Nat.succ_mul]
        omega
      exact Nat.mul_le_mul_right _ (Nat.le_of_lt_succ hlt)

theorem settles_some (hrange : q.InRange) (hlo : q.digits * (q.unit * m) < t + q.unit * m)
    (hhi : t < (q.digits + 1) * (q.unit * m))
    (hfull : q.places < 28 →
      coeffBound ≤ 10 * q.digits + 1 ∧ (coeffBound - 1) * (q.unit * m) < 10 * t)
    (hsize : 2 * t < (2 * coeffBound - 1) * (q.unit * m)) : Settles t m (some q) := by
  refine ⟨hrange, faithful_of_grid hrange hlo hhi hfull, Nat.lt_of_lt_of_le hsize ?_⟩
  have hplaces := hrange.places_nonneg
  have hunit : q.unit ≤ tenTo 28 := tenTo_le_tenTo (by omega)
  rw [twiceTooMuch, Nat.mul_assoc]
  exact Nat.mul_le_mul_left _ (Nat.mul_le_mul_right _ hunit)

/-- Without a remainder the digits are the number. -/
theorem settles_exact (hrange : q.InRange) (hrest : q.rest = 0) (hm : 0 < m) :
    Settles (q.target m) m (some q) := by
  have ht : q.target m = q.value * m := by
    rw [target, value, hrest, Nat.add_zero, Nat.mul_right_comm]
  rw [ht]
  refine ⟨hrange, fun d => ⟨fun h => Nat.le_of_mul_le_mul_right h hm,
    fun h => Nat.le_of_mul_le_mul_right h hm⟩, ?_⟩
  rw [← Nat.mul_assoc]
  refine Nat.mul_lt_mul_of_pos_right ?_ hm
  have hdigits := hrange.digits_lt
  have hplaces := hrange.places_nonneg
  have hunit : q.unit ≤ tenTo 28 := tenTo_le_tenTo (by omega)
  calc 2 * (q.digits * q.unit) = 2 * q.digits * q.unit := (Nat.mul_assoc ..).symm
    _ ≤ 2 * q.digits * tenTo 28 := Nat.mul_le_mul_left _ hunit
    _ < (2 * coeffBound - 1) * tenTo 28 := Nat.mul_lt_mul_of_pos_right (by omega) (tenTo_pos 28)

/-- Digits that overflow before the point is reached are too many. -/
theorem settles_none (h : coeffBound * tenTo 28 ≤ q.value) : Settles (q.target m) m none := by
  unfold Settles twiceTooMuch twiceTooLarge target
  have hvalue : q.value * m ≤ (q.digits * m + q.rest) * q.unit := by
    rw [value, Nat.mul_right_comm]
    exact Nat.mul_le_mul_right _ (Nat.le_add_right ..)
  calc (2 * coeffBound - 1) * tenTo 28 * m ≤ 2 * (coeffBound * tenTo 28) * m := by
        rw [← Nat.mul_assoc]
        exact Nat.mul_le_mul_right _ (Nat.mul_le_mul_right _ (by omega))
    _ ≤ 2 * (q.value * m) := by
        rw [Nat.mul_assoc]
        exact Nat.mul_le_mul_left _ (Nat.mul_le_mul_right _ h)
    _ ≤ _ := Nat.mul_le_mul_left _ hvalue

/-- `shorten?` takes back a digit too many and rounds once more, and is not past a neighbour for
that. -/
theorem shorten?_settles (hm : 0 < m) (hplaces : q.places ≤ 28) (hdigits : coeffBound ≤ q.digits)
    (hsmall : q.digits ≤ coeffBound + tenTo 9)
    (hlo : 2 * (q.digits * (q.unit * m)) ≤ 2 * t + q.unit * m)
    (hhi : t < (q.digits + 1) * (q.unit * m)) : Settles t m (q.shorten? m) := by
  have hw : 0 < q.unit * m := Nat.mul_pos q.unit_pos hm
  unfold shorten?
  by_cases hpoint : q.places ≤ 0
  · rw [if_pos hpoint]
    have hunit : tenTo 28 ≤ q.unit := tenTo_le_tenTo (by omega)
    have hfull := Nat.mul_le_mul_right (q.unit * m) hdigits
    calc twiceTooMuch * m = (2 * coeffBound - 1) * (tenTo 28 * m) := Nat.mul_assoc ..
      _ ≤ (2 * coeffBound - 1) * (q.unit * m) :=
        Nat.mul_le_mul_left _ (Nat.mul_le_mul_right _ hunit)
      _ ≤ 2 * t := by
        rw [Nat.sub_mul, Nat.mul_assoc]
        omega
  · rw [if_neg hpoint]
    dsimp only
    generalize hup :
      (if 5 < q.digits % 10 ∨ q.digits % 10 = 5 ∧ q.halfUp m = true then 1 else 0) = up
    have hround : q.digits ≤ 10 * (q.digits / 10 + up) + 5 ∧
        10 * (q.digits / 10 + up) ≤ q.digits + 5 ∧ up ≤ 1 := by
      split at hup <;> omega
    generalize hback : (⟨q.digits / 10 + up, q.rest, q.places - 1, q.inexact⟩ : LongDivision) = q'
    have hunit : q'.unit * m = 10 * (q.unit * m) := by
      rw [← Nat.mul_assoc, Nat.mul_comm 10, ← hback]
      unfold unit
      rw [← tenTo_succ]
      congr 2
      dsimp only
      omega
    have hdigits' : q'.digits = q.digits / 10 + up := by rw [← hback]
    have hplaces' : q'.places = q.places - 1 := by rw [← hback]
    rw [← hdigits'] at hround
    have hrange : q'.InRange := by
      have hbound : coeffBound + tenTo 9 + 5 < 10 * coeffBound := by decide
      exact ⟨by omega, by omega, by omega⟩
    have hwide := Nat.mul_le_mul_right (q.unit * m) hround.1
    have hnarrow := Nat.mul_le_mul_right (q.unit * m) hround.2.1
    have hfull := Nat.mul_le_mul_right (q.unit * m) hdigits
    simp only [Nat.add_mul, Nat.mul_assoc, Nat.one_mul] at hwide hnarrow hhi
    refine settles_some hrange ?_ ?_ (fun _ => ⟨?_, ?_⟩) ?_
    · rw [hunit, Nat.mul_left_comm]
      omega
    · rw [hunit, Nat.add_mul, Nat.one_mul, Nat.mul_left_comm]
      omega
    · have htens := hround.1
      unfold coeffBound at hdigits ⊢
      omega
    · have hone : q.unit * m ≤ coeffBound * (q.unit * m) :=
        Nat.le_mul_of_pos_left _ (by decide)
      rw [hunit, Nat.mul_left_comm, Nat.sub_mul]
      omega
    · have hmuch : 2 * (coeffBound + tenTo 9 + 1) ≤ 10 * (2 * coeffBound - 1) := by decide
      have hsmall' := Nat.mul_le_mul_right (q.unit * m) hsmall
      have hmuch' := Nat.mul_le_mul_right (q.unit * m) hmuch
      simp only [Nat.add_mul, Nat.mul_assoc, Nat.one_mul] at hsmall' hmuch'
      rw [hunit, Nat.mul_left_comm]
      omega

/-- The `target` is what the digits count and a part of the next `unit`. -/
theorem target_eq (q : LongDivision) (m : Nat) :
    q.target m = q.digits * (q.unit * m) + q.unit * q.rest := by
  rw [target, Nat.add_mul, Nat.mul_assoc, Nat.mul_comm m, Nat.mul_comm q.rest]

theorem unit_mul_rest_lt (hlt : q.rest < m) : q.unit * q.rest < q.unit * m :=
  Nat.mul_lt_mul_of_pos_left hlt q.unit_pos

/-- A number of full length is larger than what more places can tell. -/
theorem lt_target (hrest : 0 < q.rest) (hfull : coeffBound ≤ 10 * q.digits) :
    (coeffBound - 1) * (q.unit * m) < 10 * q.target m := by
  have hpart : 0 < q.unit * q.rest := Nat.mul_pos q.unit_pos hrest
  have hdigits := Nat.mul_le_mul_right (q.unit * m) hfull
  rw [Nat.mul_assoc] at hdigits
  rw [target_eq, Nat.sub_mul]
  omega

/-- Half a unit or more goes up. -/
theorem settles_up (hrest : 0 < q.rest) (hlt : q.rest < m) (hhalf : m ≤ 2 * q.rest)
    (hdigits : q.digits < coeffBound) (hplaces : 0 ≤ q.places) (hplaces' : q.places ≤ 28)
    (hfull : q.places < 28 → coeffBound ≤ 10 * q.digits) :
    Settles (q.target m) m
      (if q.digits + 1 < coeffBound then some { q with digits := q.digits + 1 }
        else shorten? m { q with digits := q.digits + 1 }) := by
  have hm : 0 < m := Nat.lt_of_le_of_lt (Nat.zero_le _) hlt
  have ht := target_eq q m
  have hpart := unit_mul_rest_lt hlt
  have hhalf' : q.unit * m ≤ 2 * (q.unit * q.rest) := by
    rw [Nat.mul_left_comm]
    exact Nat.mul_le_mul_left _ hhalf
  by_cases hroom : q.digits + 1 < coeffBound
  · have hdigits' := Nat.mul_le_mul_right (q.unit * m) (show q.digits + 2 ≤ coeffBound by omega)
    rw [Nat.add_mul] at hdigits'
    rw [if_pos hroom]
    refine settles_some ⟨hroom, hplaces, hplaces'⟩ ?_ ?_
      (fun h => ⟨?_, lt_target hrest (hfull h)⟩) ?_
    · change (q.digits + 1) * (q.unit * m) < _ + q.unit * m
      rw [ht, Nat.add_mul]
      omega
    · change _ < (q.digits + 1 + 1) * (q.unit * m)
      rw [ht]
      simp only [Nat.add_mul]
      omega
    · have := hfull h
      dsimp only
      omega
    · change _ < (2 * coeffBound - 1) * (q.unit * m)
      rw [ht, Nat.sub_mul, Nat.mul_assoc]
      omega
  · rw [if_neg hroom]
    have hnine : 0 < tenTo 9 := tenTo_pos 9
    refine shorten?_settles hm hplaces' (Nat.not_lt.mp hroom) (by dsimp only; omega) ?_ ?_
    · change 2 * ((q.digits + 1) * (q.unit * m)) ≤ _ + q.unit * m
      rw [ht, Nat.add_mul]
      omega
    · change _ < (q.digits + 1 + 1) * (q.unit * m)
      rw [ht]
      simp only [Nat.add_mul]
      omega

/-- Half a unit or less is dropped, half a unit only after an even digit. -/
theorem settles_down (hrest : 0 < q.rest) (hlt : q.rest < m)
    (hhalf : ¬ (m < 2 * q.rest ∨ m = 2 * q.rest ∧ q.digits % 2 = 1))
    (hdigits : q.digits < coeffBound) (hplaces : 0 ≤ q.places) (hplaces' : q.places ≤ 28)
    (hfull : q.places < 28 → coeffBound ≤ 10 * q.digits) :
    Settles (q.target m) m (some q) := by
  have ht := target_eq q m
  have hpart := unit_mul_rest_lt hlt
  have hpart' : 0 < q.unit * m := Nat.lt_of_le_of_lt (Nat.zero_le _) hpart
  -- The last coefficient in range is odd, so half a unit would have gone up.
  have hbelow : 2 * q.digits * m + 2 * q.rest < (2 * coeffBound - 1) * m := by
    have hle := Nat.mul_le_mul_right m (show q.digits + 1 ≤ coeffBound from hdigits)
    rw [Nat.add_mul, Nat.one_mul] at hle
    rw [Nat.sub_mul, Nat.one_mul, Nat.mul_assoc, Nat.mul_assoc]
    by_cases hlast : q.digits + 1 = coeffBound
    · have hodd : q.digits % 2 = 1 := by
        unfold coeffBound at hlast
        omega
      omega
    · have hle' := Nat.mul_le_mul_right m (show q.digits + 2 ≤ coeffBound by omega)
      rw [Nat.add_mul] at hle'
      omega
  refine settles_some ⟨hdigits, hplaces, hplaces'⟩ ?_ ?_
    (fun h => ⟨?_, lt_target hrest (hfull h)⟩) ?_
  · omega
  · rw [ht, Nat.add_mul]
    omega
  · have := hfull h
    omega
  · have hscaled := Nat.mul_lt_mul_of_pos_left hbelow q.unit_pos
    rw [ht]
    simp only [Nat.mul_add, Nat.mul_assoc, Nat.mul_left_comm q.unit] at hscaled ⊢
    exact hscaled

/-- `round?` rounds the remainder away and leads to the nearest number of so many places. -/
theorem round?_settles (hrest : 0 < q.rest) (hlt : q.rest < m) (hdigits : q.digits < coeffBound)
    (hplaces : 0 ≤ q.places) (hplaces' : q.places ≤ 28)
    (hfull : q.places < 28 → coeffBound ≤ 10 * q.digits) :
    Settles (q.target m) m (q.round? m) := by
  unfold round?
  dsimp only
  by_cases hup : m < 2 * q.rest ∨ m = 2 * q.rest ∧ q.digits % 2 = 1
  · rw [if_pos hup]
    exact settles_up hrest hlt (by omega) hdigits hplaces hplaces' hfull
  · rw [if_neg hup, Nat.add_zero, if_pos hdigits]
    exact settles_down hrest hlt hup hdigits hplaces hplaces' hfull

/-- The last number in a range that passes a test is not exceeded by another one. -/
theorem le_of_find?_reverse_range {passes : Nat → Bool} {k p i : Nat}
    (h : (List.range k).reverse.find? passes = some p) (hi : i < k) (hpass : passes i = true) :
    i ≤ p := by
  obtain ⟨-, before, after, hsplit, hnone⟩ := List.find?_eq_some_iff_append.mp h
  have hsorted : (List.range k).reverse.Pairwise (· > ·) :=
    List.pairwise_reverse.mpr List.pairwise_lt_range
  have hmem : i ∈ (List.range k).reverse := List.mem_reverse.mpr (List.mem_range.mpr hi)
  rw [hsplit] at hsorted hmem
  rcases List.mem_append.mp hmem with hbefore | hafter
  · have hfails := hnone i hbefore
    rw [hpass] at hfails
    cases hfails
  · rcases List.mem_cons.mp hafter with rfl | hafter
    · exact Nat.le_refl _
    · have htail := (List.pairwise_append.mp hsorted).2.1
      exact Nat.le_of_lt ((List.pairwise_cons.mp htail).1 i hafter)

/-- A `chunk` is short of nine digits and of the last place only where one digit more would not fit.
-/
theorem chunk_full (h : q.chunk < 9) (hplaces : q.places + q.chunk < 28) :
    coeffBound ≤ q.digits * tenTo (q.chunk + 1) := by
  refine Nat.not_lt.mp fun hroom => ?_
  unfold chunk at h hplaces hroom
  dsimp only at h hplaces hroom
  cases hfind : (List.range (min 9 (28 - q.places).toNat + 1)).reverse.find? fun p =>
      decide (q.digits * tenTo p < coeffBound) with
  | none =>
      rw [hfind, Option.getD_none] at h hplaces hroom
      have hfails := List.find?_eq_none.mp hfind 1 (by simp; omega)
      exact hfails (decide_eq_true hroom)
  | some p =>
      rw [hfind, Option.getD_some] at h hplaces hroom
      have hle := le_of_find?_reverse_range hfind (i := p + 1) (by omega) (decide_eq_true hroom)
      omega

/-- Digits that `extend` appends leave less than one of their units. -/
theorem extend_digits_le (hm : 0 < m) (hrest : q.rest < m) (n : Nat) :
    (q.extend m n).rest < m ∧ (q.extend m n).digits ≤ q.digits * tenTo n + tenTo n := by
  refine ⟨Nat.mod_lt _ hm, Nat.add_le_add_left ?_ _⟩
  refine Nat.div_le_of_le_mul ?_
  exact Nat.mul_le_mul_right _ (Nat.le_of_lt hrest)

/-- A coefficient that a chunk has carried out of range costs a digit. -/
theorem shorten?_settles_of_rest (hrest : q.rest < m) (hplaces : q.places ≤ 28)
    (hdigits : coeffBound ≤ q.digits) (hsmall : q.digits ≤ coeffBound + tenTo 9) :
    Settles (q.target m) m (q.shorten? m) := by
  have hm : 0 < m := Nat.lt_of_le_of_lt (Nat.zero_le _) hrest
  have ht := target_eq q m
  have hpart := unit_mul_rest_lt hrest
  refine shorten?_settles hm hplaces hdigits hsmall ?_ ?_
  · rw [ht]
    omega
  · rw [ht, Nat.add_mul]
    omega

/-- Digits in front of the point that do not fit are too many. -/
theorem settles_none_of_extend (hplaces : q.places + n ≤ 0)
    (hfull : coeffBound ≤ (q.extend m n).digits) : Settles (q.target m) m none := by
  rw [← target_extend (n := n) (by omega)]
  refine settles_none (Nat.mul_le_mul hfull (tenTo_le_tenTo ?_))
  simp only [extend]
  omega

/-- So are digits that fill up in front of the point. -/
theorem settles_none_of_chunk (h : q.chunk < 9) (hplaces : q.places + q.chunk < 0) :
    Settles (q.target m) m none := by
  refine settles_none ?_
  have hunit : tenTo (q.chunk + 1) * tenTo 28 ≤ q.unit := by
    rw [← tenTo_add]
    exact tenTo_le_tenTo (by omega)
  calc coeffBound * tenTo 28 ≤ q.digits * tenTo (q.chunk + 1) * tenTo 28 :=
        Nat.mul_le_mul_right _ (chunk_full h (by omega))
    _ = q.digits * (tenTo (q.chunk + 1) * tenTo 28) := Nat.mul_assoc ..
    _ ≤ q.value := Nat.mul_le_mul_left _ hunit

/-- A `chunk` that carries the coefficient out of range costs a digit. -/
theorem shorten?_chunk_settles (hrest : q.rest < m) (hchunk : q.chunk ≠ 0)
    (hfull : coeffBound ≤ (q.extend m q.chunk).digits) :
    Settles (q.target m) m (shorten? m { q.extend m q.chunk with inexact := true }) := by
  obtain ⟨hnine, hplaces, hroom⟩ := q.chunk_spec
  have hroom := hroom hchunk
  have hten : tenTo q.chunk ≤ tenTo 9 := tenTo_le_tenTo hnine
  obtain ⟨hrest', hdigits⟩ :=
    extend_digits_le (Nat.lt_of_le_of_lt (Nat.zero_le _) hrest) hrest q.chunk
  rw [← target_extend (n := q.chunk) (by omega)]
  refine shorten?_settles_of_rest (q := { q.extend m q.chunk with inexact := true }) hrest' ?_
    hfull (by dsimp only; omega)
  simp only [extend]
  omega

/-- From wherever it stands, `run?` ends next to the number it works out, or the number is too
large. -/
theorem run?_settles (rounds : Nat) (hrest : q.rest < m) (hdigits : q.digits < coeffBound)
    (hplaces : q.places ≤ 28) (hrounds : 28 - q.places < rounds) :
    Settles (q.target m) m (run? m rounds q) := by
  have hm : 0 < m := Nat.lt_of_le_of_lt (Nat.zero_le _) hrest
  induction rounds generalizing q with
  | zero => omega
  | succ rounds ih =>
      have hmore {n : Nat} (hn : 0 < n) (hroom : q.places + n ≤ 28)
          (hfits : (q.extend m n).digits < coeffBound) (inexact : Bool) :
          Settles (q.target m) m (run? m rounds { q.extend m n with inexact }) := by
        rw [← target_extend hroom]
        refine ih (q := { q.extend m n with inexact }) (extend_digits_le hm hrest n).1 hfits
          hroom ?_
        simp only [extend]
        omega
      rw [run?]
      by_cases hdone : q.rest = 0
      · rw [if_pos hdone]
        by_cases hpoint : 0 ≤ q.places
        · rw [if_pos hpoint]
          exact settles_exact ⟨hdigits, hpoint, hplaces⟩ hdone hm
        · rw [if_neg hpoint]
          dsimp only
          generalize hn : min 9 (-q.places).toNat = n
          by_cases hfits : (q.extend m n).digits < coeffBound
          · rw [if_pos hfits]
            exact hmore (by omega) (by omega) hfits q.inexact
          · rw [if_neg hfits]
            exact settles_none_of_extend (n := n) (by omega) (Nat.not_lt.mp hfits)
      · rw [if_neg hdone]
        have hchunk := q.chunk_spec.2.1
        dsimp only
        by_cases hshort : q.chunk < 9 ∧ q.places + q.chunk < 0
        · rw [if_pos hshort]
          exact settles_none_of_chunk hshort.1 hshort.2
        · rw [if_neg hshort]
          by_cases hnone : q.chunk = 0
          · rw [if_pos hnone]
            refine round?_settles (q := { q with inexact := true }) (by dsimp only; omega) hrest
              hdigits (by dsimp only; omega) hplaces fun hlt => ?_
            dsimp only at hlt
            have hfull := chunk_full (q := q) (by omega) (by omega)
            rw [hnone, Nat.mul_comm] at hfull
            exact hfull
          · rw [if_neg hnone]
            by_cases hfits : (q.extend m q.chunk).digits < coeffBound
            · rw [if_pos hfits]
              exact hmore (by omega) (by omega) hfits true
            · rw [if_neg hfits]
              exact shorten?_chunk_settles hrest hnone (Nat.not_lt.mp hfits)

/-! ## Zeros taken back -/

theorem value_strip (h : q.InRange) (n twos : Nat) : (q.strip n twos).value = q.value := by
  unfold strip
  split
  · next hzeros =>
      obtain ⟨-, hn, hdvd⟩ := hzeros
      have hplaces := h.places_le
      have hunit : tenTo (28 - (q.places - n)).toNat = tenTo n * tenTo (28 - q.places).toNat := by
        rw [← tenTo_add]
        congr 1
        omega
      unfold value unit
      dsimp only
      rw [hunit, ← Nat.mul_assoc, Nat.div_mul_cancel (Nat.dvd_of_mod_eq_zero hdvd)]
  · rfl

theorem value_tidy (h : q.InRange) : q.tidy.value = q.value := by
  have h₁ := h.strip 8 shortBound
  have h₂ := h₁.strip 8 shortBound
  have h₃ := h₂.strip 8 shortBound
  have h₄ := h₃.strip 4 16
  have h₅ := h₄.strip 2 4
  unfold tidy
  split
  · dsimp only
    rw [value_strip h₅, value_strip h₄, value_strip h₃, value_strip h₂, value_strip h₁,
      value_strip h]
  · rfl

end LongDivision

/-! ## The quotient of two decimals -/

variable {a b c : Decimal}

theorem Faithful.mul_right {t m v e : Nat} (h : Faithful t m v) (he : 0 < e) :
    Faithful (t * e) (m * e) v := by
  intro d
  rw [← Nat.mul_assoc]
  exact ⟨fun hle => (h d).1 (Nat.le_of_mul_le_mul_right hle he),
    fun hle => (h d).2 (Nat.le_of_mul_le_mul_right hle he)⟩

/-- No decimal lies between the quotient of `x` by `y`, in atoms, and `c`. -/
structure NextTo (x y : Int) (c : Decimal) : Prop where
  le_of_le : ∀ d : Decimal, d.atoms * y ≤ x → d.atoms ≤ c.atoms
  ge_of_ge : ∀ d : Decimal, x ≤ d.atoms * y → c.atoms ≤ d.atoms

theorem atoms_of_pos (hb : 0 < b.atoms) :
    b.negative = false ∧ b.coeff ≠ 0 ∧ b.atoms = magnitude b.coeff b.scale := by
  have hcoeff : b.coeff ≠ 0 := fun hzero => Int.ne_of_gt hb ((atoms_eq_zero_iff b).mpr hzero)
  have hatoms := atoms_eq_atomsOf b
  unfold atomsOf at hatoms
  cases hneg : b.negative with
  | false =>
      rw [hneg] at hatoms
      exact ⟨rfl, hcoeff, hatoms⟩
  | true =>
      rw [hneg, if_pos rfl] at hatoms
      omega

/-- A quotient of sizes that is `Faithful` is next to what is meant as a number. -/
theorem Faithful.nextTo {x y v : Nat} (h : Faithful x y v) (hx : 0 < x) (hc : c.atoms = v) :
    NextTo x y c where
  le_of_le := by
    intro d hd
    rw [hc]
    rcases Int.lt_or_le 0 d.atoms with hpos | hnone
    · obtain ⟨-, -, hatoms⟩ := atoms_of_pos hpos
      rw [hatoms] at hd ⊢
      exact_mod_cast (h d).1 (by exact_mod_cast hd)
    · exact Int.le_trans hnone (Int.natCast_nonneg v)
  ge_of_ge := by
    intro d hd
    have hpos : 0 < d.atoms := by
      refine Int.not_le.mp fun hnone => ?_
      have hmul : d.atoms * y ≤ 0 * y := Int.mul_le_mul_of_nonneg_right hnone (Int.natCast_nonneg y)
      omega
    obtain ⟨-, -, hatoms⟩ := atoms_of_pos hpos
    rw [hatoms] at hd
    rw [hc, hatoms]
    exact_mod_cast (h d).2 (by exact_mod_cast hd)

theorem NextTo.neg {x y : Int} (h : NextTo x y (-c)) : NextTo (-x) y c where
  le_of_le := by
    intro d hd
    have hge := h.ge_of_ge (-d) (by rw [atoms_neg, Int.neg_mul]; omega)
    rw [atoms_neg, atoms_neg] at hge
    omega
  ge_of_ge := by
    intro d hd
    have hle := h.le_of_le (-d) (by rw [atoms_neg, Int.neg_mul]; omega)
    rw [atoms_neg, atoms_neg] at hle
    omega

/-- The sign is put on last, and changes sides. -/
theorem Faithful.nextTo_signed {x y v : Nat} (h : Faithful x y v) (hx : 0 < x) (negative : Bool)
    (hc : c.atoms = if negative then -(v : Int) else v) :
    NextTo (if negative then -(x : Int) else x) y c := by
  cases negative with
  | false => exact h.nextTo hx hc
  | true =>
      refine NextTo.neg (h.nextTo hx ?_)
      rw [atoms_neg, hc, if_pos rfl, Int.neg_neg]

/-- The first digits of a quotient, all in one. -/
def divStart (a b : Decimal) : LongDivision :=
  ⟨a.coeff / b.coeff, a.coeff % b.coeff, a.scale - b.scale, false⟩

/-- `div` runs, gives zeros back with `tidy` and puts its sign on. -/
theorem div_eq (ha : a.coeff ≠ 0) (hb : b.coeff ≠ 0) :
    a.div b =
      match (divStart a b).run? b.coeff 64 with
      | none => .error .divisionOverflow
      | some q =>
        match ofParts? (a.negative != b.negative) q.tidy.digits q.tidy.places.toNat with
        | none => .error .divisionOverflow
        | some c => .ok c.plain := by
  unfold div
  rw [if_neg hb, if_neg ha]
  unfold divStart
  dsimp only
  cases LongDivision.run? b.coeff 64
      ⟨a.coeff / b.coeff, a.coeff % b.coeff, a.scale - b.scale, false⟩ with
  | none => rfl
  | some q =>
      dsimp only [bind, Option.bind]
      cases ofParts? (a.negative != b.negative) q.tidy.digits q.tidy.places.toNat <;> rfl

/-- What `div` works out, in atoms. -/
theorem target_divStart (a b : Decimal) :
    (divStart a b).target b.coeff * tenTo (28 - b.scale) =
      magnitude a.coeff a.scale * tenTo 28 := by
  have ha := a.scale_le
  have hb := b.scale_le
  have hdigits : a.coeff / b.coeff * b.coeff + a.coeff % b.coeff = a.coeff := by
    rw [Nat.mul_comm]
    exact Nat.div_add_mod ..
  have hplaces : (28 - ((a.scale : Int) - b.scale)).toNat + (28 - b.scale) =
      (28 - a.scale) + 28 := by omega
  unfold divStart LongDivision.target LongDivision.unit magnitude
  dsimp only
  rw [hdigits, Nat.mul_assoc, ← tenTo_add, hplaces, tenTo_add, Nat.mul_assoc]

theorem divStart_settles (hb : b.coeff ≠ 0) :
    LongDivision.Settles ((divStart a b).target b.coeff) b.coeff
      ((divStart a b).run? b.coeff 64) := by
  have ha := a.scale_le
  have hb' := b.scale_le
  refine LongDivision.run?_settles 64 (Nat.mod_lt _ (Nat.pos_of_ne_zero hb)) ?_ ?_ ?_
  · exact Nat.lt_of_le_of_lt (Nat.div_le_self ..) a.coeff_lt
  · simp only [divStart]
    omega
  · simp only [divStart]
    omega

theorem tooMuch_iff (a b : Decimal) :
    twiceTooMuch * b.coeff ≤ 2 * (divStart a b).target b.coeff ↔
      twiceTooLarge * magnitude b.coeff b.scale ≤ 2 * magnitude a.coeff a.scale := by
  have hpos : 0 < tenTo (28 - b.scale) := tenTo_pos _
  have hleft : twiceTooMuch * b.coeff * tenTo (28 - b.scale) =
      twiceTooLarge * magnitude b.coeff b.scale * tenTo 28 := by
    rw [twiceTooMuch, magnitude, Nat.mul_right_comm _ (tenTo 28), Nat.mul_right_comm _ (tenTo 28),
      Nat.mul_assoc _ b.coeff]
  rw [← Nat.mul_le_mul_right_iff hpos, hleft, Nat.mul_assoc 2, target_divStart, ← Nat.mul_assoc 2,
    Nat.mul_le_mul_right_iff (tenTo_pos 28)]

/-- The decimal that `ofParts?` makes of the digits has their value and the dividend's sign. -/
theorem ofParts?_tidy {q : LongDivision} (h : q.InRange) (negative : Bool) :
    ∃ c, ofParts? negative q.tidy.digits q.tidy.places.toNat = some c ∧
      c.atoms = if negative then -(q.value : Int) else q.value := by
  obtain ⟨c, hc⟩ := h.tidy.ofParts? negative
  obtain ⟨hsign, hcoeff, hscale⟩ := ofParts?_eq_some.mp hc
  have hplaces := h.tidy.places_nonneg
  have hvalue : magnitude c.coeff c.scale = q.value := by
    rw [← LongDivision.value_tidy h, hcoeff, hscale, magnitude, LongDivision.value,
      LongDivision.unit]
    congr 2
    omega
  exact ⟨c, hc, by rw [atoms_eq_atomsOf, hsign, atomsOf, hvalue]⟩

/-- A quotient by a positive number is `NextTo` what is meant, unless that is too large. -/
theorem div_settles (a : Decimal) (hb : 0 < b.atoms) :
    match a.div b with
    | .ok c => NextTo (a.atoms * tenTo 28) b.atoms c ∧
        2 * (a.atoms.natAbs : Int) < twiceTooLarge * b.atoms
    | .error e => e = .divisionOverflow ∧
        twiceTooLarge * b.atoms ≤ 2 * (a.atoms.natAbs : Int) := by
  obtain ⟨hsign, hcoeff, hatoms⟩ := atoms_of_pos hb
  by_cases ha : a.coeff = 0
  · have hzero : a.atoms = 0 := (atoms_eq_zero_iff a).mpr ha
    have hdiv : a.div b = .ok 0 := by rw [div, if_neg hcoeff, if_pos ha]
    rw [hdiv, hzero]
    refine ⟨⟨fun d hd => ?_, fun d hd => ?_⟩, Int.mul_pos (by decide) hb⟩
    · rw [Int.zero_mul] at hd
      exact Int.not_lt.mp fun hpos => Int.not_lt.mpr hd (Int.mul_pos hpos hb)
    · rw [Int.zero_mul] at hd
      exact Int.not_lt.mp fun hneg => Int.not_lt.mpr hd (Int.mul_neg_of_neg_of_pos hneg hb)
  · have hsettles := divStart_settles (a := a) hcoeff
    have htoo := tooMuch_iff a b
    rw [div_eq ha hcoeff, hatoms, natAbs_atoms]
    cases hrun : (divStart a b).run? b.coeff 64 with
    | none =>
        rw [hrun] at hsettles
        exact ⟨rfl, by exact_mod_cast htoo.mp hsettles⟩
    | some q =>
        rw [hrun] at hsettles
        obtain ⟨hrange, hfaithful, hless⟩ := hsettles
        obtain ⟨c, hc, hc'⟩ := ofParts?_tidy hrange (a.negative != b.negative)
        have hless := Nat.lt_of_not_le fun hle => Nat.not_le.mpr hless (htoo.mpr hle)
        have hscaled := hfaithful.mul_right (tenTo_pos (28 - b.scale))
        rw [target_divStart] at hscaled
        rw [hsign, Bool.bne_false] at hc'
        have hpos : 0 < magnitude a.coeff a.scale * tenTo 28 :=
          Nat.mul_pos (Nat.mul_pos (Nat.pos_of_ne_zero ha) (tenTo_pos _)) (tenTo_pos 28)
        have hnext := hscaled.nextTo_signed hpos a.negative hc'
        have hmeant : a.atoms * tenTo 28 =
            if a.negative then -((magnitude a.coeff a.scale * tenTo 28 : Nat) : Int)
            else (magnitude a.coeff a.scale * tenTo 28 : Nat) := by
          rw [atoms_eq_atomsOf, atomsOf, Int.natCast_mul]
          split
          · rw [Int.neg_mul]
          · rfl
        dsimp only
        rw [hc, hmeant]
        refine ⟨⟨?_, ?_⟩, by exact_mod_cast hless⟩
        · rw [atoms_plain]
          exact hnext.le_of_le
        · rw [atoms_plain]
          exact hnext.ge_of_ge

end Decimal

end Bourse
