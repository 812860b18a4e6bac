import Bourse.Wire.Basic
import Bourse.Config.Engine

/-!
# Configurations on the wire

A configuration document is read and then checked by `EngineConfig.validate`, so that what
is accepted can be used.
-/

namespace Bourse

namespace Wire

instance : Wire OverflowPolicy := ⟨fun a => .string (nameOf a), decodeNamed⟩

instance : Wire InstrumentConfig where
  encode i := .object [
    ("symbol", encode i.symbol),
    ("tick_size", encode i.tickSize),
    ("lot_size", encode i.lotSize),
    ("min_quantity", encode i.minQuantity),
    ("max_quantity", encode i.maxQuantity)]
  decode j := do
    match ← fieldsOf ["symbol", "tick_size", "lot_size", "min_quantity", "max_quantity"] j with
    | [symbol, tickSize, lotSize, minQuantity, maxQuantity] =>
      return {
        symbol := ← required symbol
        tickSize := ← optional tickSize
        lotSize := ← optional lotSize
        minQuantity := ← optional minQuantity
        maxQuantity := ← optional maxQuantity }
    | _ => none

instance : Wire DeliveryConfig where
  encode d := .object [
    ("capacity", encode d.capacity),
    ("overflow_policy", encode d.overflowPolicy)]
  decode j := do
    match ← fieldsOf ["capacity", "overflow_policy"] j with
    | [capacity, overflowPolicy] =>
      return ⟨← required capacity, ← orDefault .dropNewest decode overflowPolicy⟩
    | _ => none

instance : Wire EngineConfig where
  encode c := .object [("instruments", encode c.instruments), ("delivery", encode c.delivery)]
  decode j := do
    match ← fieldsOf ["instruments", "delivery"] j with
    | [instruments, delivery] =>
      return ⟨← required instruments, ← orDefault default decode delivery⟩
    | _ => none

end Wire

/-- Reads a configuration document and checks what it says. -/
def EngineConfig.ofText (s : String) : Except ConfigError EngineConfig :=
  match (Wire.parse? s : Option EngineConfig) with
  | none => .error (.parse "not an engine configuration")
  | some config => config.validate.map fun _ => config

end Bourse
