import Bourse.Config.Error
import Bourse.Rejection
import Bourse.Violation
import Bourse.Text.Blank

/-!
# Instruments

The trading rules of one instrument, an `InstrumentConfig`: prices on a grid of ticks,
quantities on a grid of lots and between bounds. Each rule is optional. Whatever an
instrument allows, no order carries more than `maxOrderQuantity`, which keeps the sums
over a book far from the end of the decimal range. `effectiveMax` is the bound in force.
-/

namespace Bourse

/-- The largest quantity of any order, ten to the eighteenth. -/
def maxOrderQuantity : Quantity := .whole 1000000000000000000 (by decide)

/-- The trading rules of an instrument. -/
structure InstrumentConfig where
  symbol : String
  /-- The grid of prices. -/
  tickSize : Option Decimal
  /-- The grid of quantities. -/
  lotSize : Option Decimal
  minQuantity : Option Quantity
  maxQuantity : Option Quantity
deriving DecidableEq

/-- What a check may have against a price or a quantity. -/
inductive Objection where
  | refusal (reason : RejectReason)
  /-- The check itself could not be carried out. -/
  | fault (f : Fault)
deriving DecidableEq

namespace InstrumentConfig

/-- An instrument without rules. -/
def plain (symbol : String) : InstrumentConfig := ⟨symbol, none, none, none, none⟩

/-- Whole shares at prices in hundredths. -/
def equity (symbol : String) : InstrumentConfig :=
  { plain symbol with
    tickSize := Decimal.ofInt? 1 2
    lotSize := some 1 }

/-- Hundred-thousandths of a coin at prices in hundredths. -/
def crypto (symbol : String) : InstrumentConfig :=
  { plain symbol with
    tickSize := Decimal.ofInt? 1 2
    lotSize := Decimal.ofInt? 1 5 }

/-- A rule holds of a number that may be absent. -/
def AllowedBy (rule : Decimal → Prop) : Option Decimal → Prop
  | none => True
  | some d => rule d

instance (rule : Decimal → Prop) [DecidablePred rule] (d : Option Decimal) :
    Decidable (AllowedBy rule d) := by
  cases d <;> unfold AllowedBy <;> infer_instance

/-- The bounds of quantities are positive and the lower is not above the upper. -/
def BoundsInOrder (i : InstrumentConfig) : Prop :=
  AllowedBy (0 < ·) i.minQuantity ∧ AllowedBy (0 < ·) i.maxQuantity ∧
    AllowedBy (fun least => AllowedBy (least ≤ ·) i.maxQuantity) i.minQuantity

instance (i : InstrumentConfig) : Decidable i.BoundsInOrder := by
  unfold BoundsInOrder
  infer_instance

/-- The rules make sense; if not, the first thing that is wrong with them. -/
def validate (i : InstrumentConfig) : Except ConfigError Unit :=
  if Text.isBlank i.symbol then .error .emptySymbol
  else if ¬AllowedBy (0 < ·) i.tickSize then .error (.nonPositiveTickSize i.symbol)
  else if ¬AllowedBy (0 < ·) i.lotSize then .error (.nonPositiveLotSize i.symbol)
  else if ¬i.BoundsInOrder then .error (.invalidQuantityBounds i.symbol)
  else .ok ()

/-- The largest quantity in force. -/
def effectiveMax (i : InstrumentConfig) : Quantity :=
  match i.maxQuantity with
  | none => maxOrderQuantity
  | some q => q.smaller maxOrderQuantity

/-- Checks that a number lies on an optional grid; `reason` is the refusal if it does not. -/
def checkGrid (grid : Option Decimal) (d : Decimal) (reason : Decimal → RejectReason) :
    Except Objection Unit :=
  match grid with
  | none => .ok ()
  | some step =>
    match d.isMultipleOf step with
    | .error e => .error (.fault (.arithmetic e))
    | .ok true => .ok ()
    | .ok false => .error (.refusal (reason step))

/-- Checks a limit price. -/
def checkPrice (i : InstrumentConfig) (price : Price) : Except Objection Unit :=
  checkGrid i.tickSize price (.tickSizeViolation price)

/-- Checks a quantity against the lower bound. -/
def checkMinimum (i : InstrumentConfig) (quantity : Quantity) : Except Objection Unit :=
  match i.minQuantity with
  | none => .ok ()
  | some minimum =>
    if quantity < minimum then .error (.refusal (.quantityBelowMinimum quantity minimum))
    else .ok ()

/-- Checks a quantity against the upper bound in force. -/
def checkMaximum (i : InstrumentConfig) (quantity : Quantity) : Except Objection Unit :=
  if i.effectiveMax < quantity then
    .error (.refusal (.quantityAboveMaximum quantity i.effectiveMax))
  else .ok ()

/-- Checks a quantity against the grid of lots and then against the bounds. -/
def checkQuantity (i : InstrumentConfig) (quantity : Quantity) : Except Objection Unit := do
  checkGrid i.lotSize quantity (.lotSizeViolation quantity)
  i.checkMinimum quantity
  i.checkMaximum quantity

end InstrumentConfig

end Bourse
