import Bourse.Decimal.Text
import Bourse.Proofs.Numerals

/-!
# Written decimals are read back

A decimal is read back from its `text` with the coefficient and the scale it has, hence as
the same number, and with its sign, unless it is a zero, which is read without a minus;
that is what `plain` leaves of it. `readDigits` takes every digit of the text, since
neither the coefficient nor the scale of what is written runs over its room.
-/

namespace Bourse.Decimal

/-! ## The digits that are written -/

theorem isDigit_of_mem_digits {n scale : Nat} : ∀ c ∈ digits n scale, c.isDigit = true :=
  Numeral.isDigit_of_mem_padded

theorem ofDigitChars_digits (n scale : Nat) : Nat.ofDigitChars 10 (digits n scale) 0 = n :=
  Numeral.ofDigitChars_padded _ n

theorem length_digits (n scale : Nat) : scale < (digits n scale).length := by
  simp only [digits, List.length_append, List.length_replicate]
  omega

/-- The digits before the point. -/
def wholeDigits (d : Decimal) : List Char :=
  (digits d.coeff d.scale).take ((digits d.coeff d.scale).length - d.scale)

/-- The digits after the point. -/
def partDigits (d : Decimal) : List Char :=
  (digits d.coeff d.scale).drop ((digits d.coeff d.scale).length - d.scale)

theorem wholeDigits_append_partDigits (d : Decimal) :
    d.wholeDigits ++ d.partDigits = digits d.coeff d.scale :=
  List.take_append_drop _ _

theorem isDigit_of_mem_wholeDigits {d : Decimal} : ∀ c ∈ d.wholeDigits, c.isDigit = true := by
  intro c hc
  exact isDigit_of_mem_digits c (List.mem_of_mem_take hc)

theorem isDigit_of_mem_partDigits {d : Decimal} : ∀ c ∈ d.partDigits, c.isDigit = true := by
  intro c hc
  exact isDigit_of_mem_digits c (List.mem_of_mem_drop hc)

@[simp] theorem length_partDigits (d : Decimal) : d.partDigits.length = d.scale := by
  have := length_digits d.coeff d.scale
  rw [partDigits, List.length_drop]
  omega

theorem wholeDigits_ne_nil (d : Decimal) : d.wholeDigits ≠ [] := by
  have := length_digits d.coeff d.scale
  rw [wholeDigits, ← List.length_pos_iff, List.length_take]
  omega

/-- `partDigits` go on with the number that `wholeDigits` make. -/
theorem ofDigitChars_partDigits (d : Decimal) :
    Nat.ofDigitChars 10 d.partDigits (Nat.ofDigitChars 10 d.wholeDigits 0) = d.coeff := by
  rw [← Nat.ofDigitChars_append, wholeDigits_append_partDigits, ofDigitChars_digits]

/-! ## Reading digits -/

theorem digit?_of_isDigit {c : Char} (h : c.isDigit = true) :
    digit? c = some (c.toNat - '0'.toNat) :=
  if_pos h

/-- `readDigits` takes all digits while there is room for them. -/
theorem readDigits_append {ds : List Char} (hds : ∀ c ∈ ds, c.isDigit = true) {point : Bool}
    {rest : List Char} :
    ∀ {m s : Nat} {anyDigit : Bool}, Nat.ofDigitChars 10 ds m < coeffBound →
      (point = true → s + ds.length ≤ 28) →
      readDigits m s point anyDigit (ds ++ rest) =
        readDigits (Nat.ofDigitChars 10 ds m) (if point then s + ds.length else s) point
          (anyDigit || !ds.isEmpty) rest := by
  induction ds with
  | nil =>
    intro m s anyDigit _ _
    simp
  | cons c ds ih =>
    intro m s anyDigit hvalue hroom
    rw [Nat.ofDigitChars_cons] at hvalue ⊢
    have hfull : ¬ (point && decide (28 ≤ s)) = true := by
      cases point with
      | false => simp
      | true =>
        have := hroom rfl
        simp only [List.length_cons] at this
        simp
        omega
    have hfits : 10 * m + (c.toNat - '0'.toNat) < coeffBound :=
      Nat.lt_of_le_of_lt (Numeral.le_ofDigitChars ds _) hvalue
    rw [List.cons_append, readDigits, if_neg hfull,
      digit?_of_isDigit (hds c List.mem_cons_self)]
    simp only [if_pos hfits]
    rw [ih (fun x hx => hds x (List.mem_cons_of_mem c hx)) hvalue]
    · cases point with
      | false => simp
      | true => simp [Nat.add_assoc, Nat.add_comm 1]
    · intro hpoint
      have := hroom hpoint
      simp only [List.length_cons] at this
      rw [if_pos hpoint]
      omega

/-! ## Reading what is written -/

/-- The text without the sign. -/
def body (d : Decimal) : List Char :=
  d.wholeDigits ++ if d.scale = 0 then [] else '.' :: d.partDigits

theorem toChars_eq (d : Decimal) :
    d.toChars = (if d.negative then ['-'] else []) ++ d.body := by
  simp only [toChars, body, wholeDigits, partDigits, List.append_assoc]

/-- `splitSign` splits the sign off as it was put on, since the `body` begins with a digit. -/
theorem splitSign_toChars (d : Decimal) : splitSign d.toChars = (d.negative, d.body) := by
  rw [toChars_eq]
  cases d.negative with
  | true => rfl
  | false =>
    obtain ⟨c, more, hwhole⟩ := List.exists_cons_of_ne_nil d.wholeDigits_ne_nil
    have hc : c.isDigit = true := isDigit_of_mem_wholeDigits c (by rw [hwhole]; simp)
    simp only [body, hwhole, Bool.false_eq_true, if_false, List.nil_append, List.cons_append]
    unfold splitSign
    split
    · next heq =>
        rw [(List.cons.inj heq).1] at hc
        cases hc
    · next heq =>
        rw [(List.cons.inj heq).1] at hc
        cases hc
    · rfl

theorem readDigits_body (d : Decimal) :
    readDigits 0 0 false false d.body = some (d.coeff, d.scale) := by
  have hcoeff := d.ofDigitChars_partDigits
  have hwhole : Nat.ofDigitChars 10 d.wholeDigits 0 < coeffBound := by
    have := Numeral.le_ofDigitChars d.partDigits (Nat.ofDigitChars 10 d.wholeDigits 0)
    have := d.coeff_lt
    omega
  rw [body, readDigits_append isDigit_of_mem_wholeDigits hwhole (by simp)]
  have hany : (false || !d.wholeDigits.isEmpty) = true := by simp [d.wholeDigits_ne_nil]
  rw [hany]
  by_cases hscale : d.scale = 0
  · have hpart : d.partDigits = [] := by
      rw [← List.length_eq_zero_iff, length_partDigits, hscale]
    rw [hpart, Nat.ofDigitChars_nil] at hcoeff
    simp [hscale, readDigits, hcoeff]
  · have hpart : readDigits (Nat.ofDigitChars 10 d.wholeDigits 0) 0 true true
        (d.partDigits ++ []) = readDigits d.coeff d.scale true true [] := by
      rw [readDigits_append isDigit_of_mem_partDigits (by rw [hcoeff]; exact d.coeff_lt)
        (by simpa using d.scale_le), hcoeff, length_partDigits]
      simp
    rw [List.append_nil] at hpart
    simp [hscale, readDigits, digit?, hpart]

/-- A decimal is read back from its text as the `plain` one. -/
theorem ofText?_text (d : Decimal) : ofText? d.text = some d.plain := by
  have hparts : ofParts? d.negative d.coeff d.scale = some d :=
    ofParts?_eq_some.mpr ⟨rfl, rfl, rfl⟩
  simp [ofText?, text, ofChars?, ofPlain?, splitSign_toChars, readDigits_body, hparts]

/-! ## What is read -/

@[simp] theorem plain_plain (d : Decimal) : d.plain.plain = d.plain := by
  unfold plain
  split <;> simp_all

/-- Only a zero with a minus is read as another decimal. -/
theorem plain_eq_self_iff {d : Decimal} : d.plain = d ↔ ¬ (d.negative = true ∧ d.coeff = 0) := by
  unfold plain
  split
  · next hzero =>
      cases d
      simp_all
  · next hzero => simp [hzero]

end Bourse.Decimal
