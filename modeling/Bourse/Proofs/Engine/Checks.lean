import Bourse.Engine.Basic

/-!
# What the checks see to

A check either lets a request pass or refuses it. The one thing that could stop
`checkGrid` in between is a grid of size zero, and an instrument that has been listed has
none (`grids_of_validate`). What has `Passed` has a positive quantity of at most
`maxOrderQuantity`, and a limit order that passes has a price.
-/

namespace Bourse

/-- The refusal is for an identity that is live. -/
def RejectReason.isDuplicate : RejectReason → Bool
  | .duplicateOrderId _ => true
  | .unknownSymbol _ | .nonPositiveQuantity | .nonPositivePrice | .missingLimitPrice
  | .marketOrderWithPrice | .tickSizeViolation _ _ | .lotSizeViolation _ _
  | .quantityBelowMinimum _ _ | .quantityAboveMaximum _ _ => false

namespace InstrumentConfig

variable {i : InstrumentConfig}

theorem grids_of_validate (h : i.validate = .ok ()) :
    AllowedBy (0 < ·) i.tickSize ∧ AllowedBy (0 < ·) i.lotSize := by
  unfold validate at h
  split at h
  · cases h
  · split at h
    · cases h
    · next htick =>
        split at h
        · cases h
        · next hlot => exact ⟨Decidable.not_not.mp htick, Decidable.not_not.mp hlot⟩

theorem checkGrid_ne_fault {grid : Option Decimal} {d : Decimal} {reason : Decimal → RejectReason}
    {f : Fault} (h : AllowedBy (0 < ·) grid) : checkGrid grid d reason ≠ .error (.fault f) := by
  intro hc
  unfold checkGrid at hc
  cases grid with
  | none => cases hc
  | some step =>
      have hpos : (0 : Int) < step.atoms := h
      have hne : step.coeff ≠ 0 := by
        intro hz
        have := (Decimal.atoms_eq_zero_iff step).mpr hz
        omega
      unfold Decimal.isMultipleOf at hc
      dsimp only at hc
      rw [if_neg hne] at hc
      cases hm : decide (d.atoms % step.atoms = 0) <;> rw [hm] at hc <;> cases hc

theorem checkQuantity_ne_fault {q : Quantity} {f : Fault} (h : AllowedBy (0 < ·) i.lotSize) :
    i.checkQuantity q ≠ .error (.fault f) := by
  unfold checkQuantity
  cases hg : checkGrid i.lotSize q (.lotSizeViolation q) with
  | error o =>
      intro hc
      cases hc
      exact checkGrid_ne_fault h hg
  | ok u =>
      unfold checkMinimum checkMaximum
      dsimp only [bind, Except.bind]
      intro hc
      split at hc
      · next hm =>
          cases hc
          split at hm
          · cases hm
          · split at hm <;> cases hm
      · split at hc <;> cases hc

theorem checkGrid_refusal {grid : Option Decimal} {d : Decimal} {reason : Decimal → RejectReason}
    {r : RejectReason} (h : checkGrid grid d reason = .error (.refusal r)) :
    ∃ step, r = reason step := by
  unfold checkGrid at h
  split at h
  · cases h
  · next step =>
      split at h
      · cases h
      · cases h
      · cases h
        exact ⟨step, rfl⟩

/-- What passes `checkGrid` lies on the grid. -/
theorem dvd_of_checkGrid {grid : Option Decimal} {d : Decimal} {reason : Decimal → RejectReason}
    (h : checkGrid grid d reason = .ok ()) :
    AllowedBy (fun step => step.atoms ∣ d.atoms) grid := by
  cases grid with
  | none => trivial
  | some step =>
      unfold checkGrid Decimal.isMultipleOf at h
      dsimp only at h
      by_cases hz : step.coeff = 0
      · rw [if_pos hz] at h
        cases h
      · rw [if_neg hz] at h
        cases hm : decide (d.atoms % step.atoms = 0) with
        | false =>
            rw [hm] at h
            cases h
        | true => exact Int.dvd_of_emod_eq_zero (of_decide_eq_true hm)

/-- What is wrong with a quantity is never an identity. -/
theorem checkQuantity_refusal {q : Quantity} {r : RejectReason}
    (h : i.checkQuantity q = .error (.refusal r)) : r.isDuplicate = false := by
  unfold checkQuantity at h
  cases hg : checkGrid i.lotSize q (.lotSizeViolation q) with
  | error o =>
      rw [hg] at h
      cases h
      obtain ⟨step, rfl⟩ := checkGrid_refusal hg
      rfl
  | ok u =>
      rw [hg] at h
      unfold checkMinimum checkMaximum at h
      dsimp only [bind, Except.bind] at h
      split at h
      · next hm =>
          cases h
          split at hm
          · cases hm
          · split at hm <;> cases hm
            rfl
      · split at h <;> cases h
        rfl

/-- A quantity that passes `checkQuantity` is in whole lots and keeps to the bound in force. -/
theorem allowed_of_checkQuantity {q : Quantity} (h : i.checkQuantity q = .ok ()) :
    AllowedBy (fun lot => lot.atoms ∣ q.atoms) i.lotSize ∧ q ≤ i.effectiveMax := by
  unfold checkQuantity checkMaximum at h
  cases hg : checkGrid i.lotSize q (.lotSizeViolation q) with
  | error o => rw [hg] at h; cases h
  | ok u =>
      rw [hg] at h
      cases hm : i.checkMinimum q with
      | error o => rw [hm] at h; cases h
      | ok u =>
          rw [hm] at h
          dsimp only [bind, Except.bind] at h
          split at h
          · cases h
          · next hle => exact ⟨dvd_of_checkGrid hg, Int.not_lt.mp hle⟩

theorem effectiveMax_le (i : InstrumentConfig) : i.effectiveMax ≤ maxOrderQuantity := by
  unfold effectiveMax
  cases i.maxQuantity with
  | none => exact Int.le_refl _
  | some m => exact Decimal.smaller_le_right m maxOrderQuantity

theorem le_max_of_checkQuantity {q : Quantity} (h : i.checkQuantity q = .ok ()) :
    q ≤ maxOrderQuantity :=
  Int.le_trans (allowed_of_checkQuantity h).2 i.effectiveMax_le

end InstrumentConfig

namespace Engine

variable {config : InstrumentConfig}

theorem checkTerms_ne_fault {t : OrderType} {price : Option Price} {f : Fault}
    (h : InstrumentConfig.AllowedBy (0 < ·) config.tickSize) :
    checkTerms config t price ≠ .error (.fault f) := by
  unfold checkTerms
  cases t <;> cases price
  · intro hc; cases hc
  · dsimp only
    split
    · intro hc; cases hc
    · exact InstrumentConfig.checkGrid_ne_fault h
  · intro hc; cases hc
  · intro hc; cases hc

theorem checkIntent_eq (config : InstrumentConfig) (intent : OrderIntent) :
    checkIntent config intent =
      if intent.quantity ≤ 0 then .error (.refusal .nonPositiveQuantity)
      else
        match checkTerms config intent.orderType intent.price with
        | .error o => .error o
        | .ok () => config.checkQuantity intent.quantity := by
  unfold checkIntent
  split
  · rfl
  · cases checkTerms config intent.orderType intent.price <;> rfl

theorem checkTerms_of_checkIntent {intent : OrderIntent} (h : checkIntent config intent = .ok ()) :
    checkTerms config intent.orderType intent.price = .ok () := by
  rw [checkIntent_eq] at h
  split at h
  · cases h
  · split at h
    · cases h
    · next hterms => exact hterms

/-- A listed instrument has its checks carried out. -/
theorem checkIntent_ne_fault {intent : OrderIntent} {f : Fault} (h : config.validate = .ok ()) :
    checkIntent config intent ≠ .error (.fault f) := by
  obtain ⟨htick, hlot⟩ := InstrumentConfig.grids_of_validate h
  rw [checkIntent_eq]
  intro hc
  split at hc
  · cases hc
  · split at hc
    · next ht =>
        cases hc
        exact checkTerms_ne_fault htick ht
    · exact InstrumentConfig.checkQuantity_ne_fault hlot hc

/-- What `checkIntent` refuses an intent for is never its identity. -/
theorem checkIntent_refusal {intent : OrderIntent} {reason : RejectReason}
    (h : checkIntent config intent = .error (.refusal reason)) : reason.isDuplicate = false := by
  rw [checkIntent_eq] at h
  split at h
  · cases h
    rfl
  · split at h
    · next ht =>
        cases h
        unfold checkTerms at ht
        split at ht
        · cases ht
          rfl
        · split at ht
          · cases ht
            rfl
          · obtain ⟨step, rfl⟩ := InstrumentConfig.checkGrid_refusal ht
            rfl
        · cases ht
          rfl
        · cases ht
    · exact InstrumentConfig.checkQuantity_refusal h

theorem checkRequest_eq (config : InstrumentConfig) (request : ModifyRequest) :
    checkRequest config request =
      if request.quantity ≤ 0 then .error (.refusal .nonPositiveQuantity)
      else
        match request.price with
        | none => config.checkQuantity request.quantity
        | some price =>
          if price ≤ 0 then .error (.refusal .nonPositivePrice)
          else
            match config.checkPrice price with
            | .error o => .error o
            | .ok () => config.checkQuantity request.quantity := by
  obtain ⟨price, q⟩ := request
  unfold checkRequest
  by_cases hq : q ≤ 0
  · cases price <;> simp only [if_pos hq] <;> rfl
  · simp only [if_neg hq]
    cases price with
    | none => rfl
    | some price =>
        by_cases hp : price ≤ 0
        · simp only [if_pos hp]
          rfl
        · simp only [if_neg hp]
          cases config.checkPrice price <;> rfl

theorem checkRequest_ne_fault {request : ModifyRequest} {f : Fault}
    (h : config.validate = .ok ()) : checkRequest config request ≠ .error (.fault f) := by
  obtain ⟨htick, hlot⟩ := InstrumentConfig.grids_of_validate h
  rw [checkRequest_eq]
  intro hc
  split at hc
  · cases hc
  · split at hc
    · exact InstrumentConfig.checkQuantity_ne_fault hlot hc
    · split at hc
      · cases hc
      · split at hc
        · next hp =>
            cases hc
            exact InstrumentConfig.checkGrid_ne_fault htick hp
        · exact InstrumentConfig.checkQuantity_ne_fault hlot hc

/-- What passes the checks. -/
structure Passed (intent : OrderIntent) : Prop where
  pos : 0 < intent.quantity
  le : intent.quantity ≤ maxOrderQuantity
  priced : intent.orderType = .limit → ∃ price, intent.price = some price
  unpriced : intent.orderType = .market → intent.price = none

theorem checkQuantity_of_checkIntent {intent : OrderIntent}
    (h : checkIntent config intent = .ok ()) : config.checkQuantity intent.quantity = .ok () := by
  have ht := checkTerms_of_checkIntent h
  rw [checkIntent_eq, ht] at h
  split at h
  · cases h
  · exact h

theorem checkQuantity_of_checkRequest {request : ModifyRequest}
    (h : checkRequest config request = .ok ()) :
    config.checkQuantity request.quantity = .ok () := by
  rw [checkRequest_eq] at h
  split at h
  · cases h
  · split at h
    · exact h
    · split at h
      · cases h
      · split at h
        · cases h
        · exact h

/-- A limit price that passes `checkTerms` is positive and lies on the grid. -/
theorem allowed_of_checkTerms {price : Price} (h : checkTerms config .limit (some price) = .ok ()) :
    0 < price ∧
      InstrumentConfig.AllowedBy (fun tick => tick.atoms ∣ price.atoms) config.tickSize := by
  unfold checkTerms at h
  dsimp only at h
  split at h
  · cases h
  · next hpos => exact ⟨Int.not_le.mp hpos, InstrumentConfig.dvd_of_checkGrid h⟩

theorem passed_of_checkIntent {intent : OrderIntent} (h : checkIntent config intent = .ok ()) :
    Passed intent := by
  have ht := checkTerms_of_checkIntent h
  have hmax := InstrumentConfig.le_max_of_checkQuantity (checkQuantity_of_checkIntent h)
  rw [checkIntent_eq] at h
  split at h
  · cases h
  · next hpos =>
      refine ⟨Int.not_le.mp hpos, hmax, fun htype => ?_, fun htype => ?_⟩
      · rw [htype] at ht
        cases hp : intent.price with
        | none => rw [hp] at ht; cases ht
        | some price => exact ⟨price, rfl⟩
      · rw [htype] at ht
        cases hp : intent.price with
        | none => rfl
        | some price => rw [hp] at ht; cases ht

theorem passed_of_checkRequest {request : ModifyRequest}
    (h : checkRequest config request = .ok ()) :
    0 < request.quantity ∧ request.quantity ≤ maxOrderQuantity := by
  refine ⟨?_, InstrumentConfig.le_max_of_checkQuantity (checkQuantity_of_checkRequest h)⟩
  rw [checkRequest_eq] at h
  split at h
  · cases h
  · next hpos => exact Int.not_le.mp hpos

end Engine

end Bourse
