import Bourse.Power

/-!
# Decimals

A price or a quantity is a decimal: a sign, a coefficient and a scale, the
number of its digits that stand after the point. The scale is part of the
value that is stored and printed, `1.50` and `1.5` are different decimals, but
it is no part of the number meant: all comparisons go through `atoms`, which
counts the number in units of the smallest positive decimal, so that the two
are ordered alike and share one place in a book.

A zero may carry a minus too. It means the same number as the plain zero and
comes about only where a negative number is too small for its scale.
-/

namespace Bourse

/-- What has 96 bits is below this bound. -/
def coeffBound : Nat := 79228162514264337593543950336

/-- A number `± coeff / 10 ^ scale` with at most 96 bits of coefficient and at
most 28 digits after the point. -/
structure Decimal where
  negative : Bool
  coeff : Nat
  scale : Nat
  coeff_lt : coeff < coeffBound
  scale_le : scale ≤ 28
deriving DecidableEq

namespace Decimal

/-- The decimal with these parts, if they are in range. -/
def ofParts? (negative : Bool) (coeff scale : Nat) : Option Decimal :=
  if h : coeff < coeffBound ∧ scale ≤ 28 then some ⟨negative, coeff, scale, h.1, h.2⟩ else none

/-- The decimal `x / 10 ^ scale`, if it is in range. -/
def ofInt? (x : Int) (scale : Nat) : Option Decimal :=
  ofParts? (decide (x < 0)) x.natAbs scale

/-- The coefficient with the sign of the number. -/
def signed (d : Decimal) : Int := if d.negative then -d.coeff else d.coeff

/-- The number meant, in units of `10 ^ (-28)`. -/
def atoms (d : Decimal) : Int :=
  d.signed * tenTo (28 - d.scale)

instance : Zero Decimal := ⟨⟨false, 0, 0, by decide, by decide⟩⟩
instance : One Decimal := ⟨⟨false, 1, 0, by decide, by decide⟩⟩
instance : Inhabited Decimal := ⟨0⟩

/-- A whole number, without digits after the point. -/
def whole (n : Nat) (h : n < coeffBound) : Decimal := ⟨false, n, 0, h, by decide⟩

/-- The largest decimal. -/
def greatest : Decimal := ⟨false, coeffBound - 1, 0, by decide, by decide⟩

/-- The smallest decimal. -/
def least : Decimal := ⟨true, coeffBound - 1, 0, by decide, by decide⟩

/-- The number with its sign turned, at the same scale; a zero stays as it is. -/
def neg (d : Decimal) : Decimal :=
  if d.coeff = 0 then d else { d with negative := !d.negative }

instance : Neg Decimal := ⟨neg⟩

/-- The same number at the same scale, without the minus if it is zero. -/
def plain (d : Decimal) : Decimal :=
  if d.coeff = 0 then { d with negative := false } else d

instance : LE Decimal := ⟨fun a b => a.atoms ≤ b.atoms⟩
instance : LT Decimal := ⟨fun a b => a.atoms < b.atoms⟩

instance (a b : Decimal) : Decidable (a ≤ b) := inferInstanceAs (Decidable (a.atoms ≤ b.atoms))
instance (a b : Decimal) : Decidable (a < b) := inferInstanceAs (Decidable (a.atoms < b.atoms))

/-- Two decimals mean the same number, whatever their scales. -/
def SameValue (a b : Decimal) : Prop := a.atoms = b.atoms

instance (a b : Decimal) : Decidable (SameValue a b) :=
  inferInstanceAs (Decidable (a.atoms = b.atoms))

/-- The smaller of two decimals, the first of them if they mean the same number. -/
def smaller (a b : Decimal) : Decimal := if b < a then b else a

theorem le_def {a b : Decimal} : a ≤ b ↔ a.atoms ≤ b.atoms := Iff.rfl

theorem lt_def {a b : Decimal} : a < b ↔ a.atoms < b.atoms := Iff.rfl

theorem SameValue.refl (a : Decimal) : a.SameValue a := Eq.refl a.atoms

theorem SameValue.symm {a b : Decimal} (h : a.SameValue b) : b.SameValue a := Eq.symm h

theorem SameValue.trans {a b c : Decimal} (h : a.SameValue b) (k : b.SameValue c) :
    a.SameValue c := Eq.trans h k

@[simp] theorem atoms_zero : (0 : Decimal).atoms = 0 := rfl

theorem natAbs_signed (d : Decimal) : d.signed.natAbs = d.coeff := by
  unfold signed
  split
  · exact (Int.natAbs_neg _).trans (Int.natAbs_natCast _)
  · exact Int.natAbs_natCast _

theorem signed_eq_zero_iff (d : Decimal) : d.signed = 0 ↔ d.coeff = 0 := by
  rw [← Int.natAbs_eq_zero, natAbs_signed]

theorem signed_neg (d : Decimal) : (-d).signed = -d.signed := by
  change (neg d).signed = _
  unfold neg
  split
  · next h => rw [(signed_eq_zero_iff d).mpr h, Int.neg_zero]
  · unfold signed
    cases d.negative <;> simp

@[simp] theorem atoms_neg (d : Decimal) : (-d).atoms = -d.atoms := by
  rw [atoms, signed_neg, Int.neg_mul]
  change -(_ * (tenTo (28 - (neg d).scale) : Int)) = _
  unfold neg
  split <;> rfl

@[simp] theorem signed_plain (d : Decimal) : d.plain.signed = d.signed := by
  unfold plain
  split
  · next h => simp [signed, h]
  · rfl

@[simp] theorem scale_plain (d : Decimal) : d.plain.scale = d.scale := by
  unfold plain
  split <;> rfl

@[simp] theorem atoms_plain (d : Decimal) : d.plain.atoms = d.atoms := by
  simp only [atoms, signed_plain, scale_plain]

theorem atoms_eq_zero_iff (d : Decimal) : d.atoms = 0 ↔ d.coeff = 0 :=
  (Int.mul_eq_zero.trans (or_iff_left (Int.natCast_ne_zero.mpr (Nat.ne_of_gt (tenTo_pos _))))).trans
    (signed_eq_zero_iff d)

theorem ofParts?_eq_some {negative : Bool} {c s : Nat} {d : Decimal} :
    ofParts? negative c s = some d ↔ d.negative = negative ∧ d.coeff = c ∧ d.scale = s := by
  unfold ofParts?
  split
  · next h =>
      constructor
      · intro e
        cases e
        exact ⟨rfl, rfl, rfl⟩
      · rintro ⟨rfl, rfl, rfl⟩
        rfl
  · next h =>
      constructor
      · intro e
        cases e
      · rintro ⟨rfl, rfl, rfl⟩
        exact absurd ⟨d.coeff_lt, d.scale_le⟩ h

theorem signed_of_ofInt? {x : Int} {s : Nat} {d : Decimal} (h : ofInt? x s = some d) :
    d.signed = x ∧ d.scale = s := by
  obtain ⟨hn, hc, hs⟩ := ofParts?_eq_some.mp h
  refine ⟨?_, hs⟩
  unfold signed
  rw [hn, hc]
  by_cases hx : x < 0
  · simp only [hx, decide_true, if_true]
    omega
  · simp only [hx, decide_false, Bool.false_eq_true, if_false]
    omega

theorem smaller_le_left (a b : Decimal) : smaller a b ≤ a := by
  unfold smaller
  split
  · next h => exact Int.le_of_lt h
  · exact Int.le_refl _

theorem smaller_le_right (a b : Decimal) : smaller a b ≤ b := by
  unfold smaller
  split
  · exact Int.le_refl _
  · next h => exact Int.not_lt.mp h

end Decimal

end Bourse
