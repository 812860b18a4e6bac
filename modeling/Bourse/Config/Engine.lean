import Bourse.Config.Instrument

/-!
# Configurations of an engine

Which instruments an engine lists and how the events of its sinks are queued.
`EngineConfig.validate` checks the instruments first and the `DeliveryConfig` after them.
-/

namespace Bourse

/-- What a full queue does with one event more. -/
inductive OverflowPolicy where
  /-- The event is dropped and counted. -/
  | dropNewest
  /-- The producer waits for room. -/
  | block
deriving DecidableEq

instance : Inhabited OverflowPolicy := ⟨.dropNewest⟩

instance : Named OverflowPolicy where
  values := [.dropNewest, .block]
  name
    | .dropNewest => "DropNewest"
    | .block => "Block"

/-- How events are queued for a consumer. -/
structure DeliveryConfig where
  capacity : Nat
  overflowPolicy : OverflowPolicy
deriving DecidableEq

instance : Inhabited DeliveryConfig := ⟨⟨65536, .dropNewest⟩⟩

namespace DeliveryConfig

/-- Nothing is ever dropped; the producer waits for a slow consumer. -/
def lossless (capacity : Nat) : DeliveryConfig := ⟨capacity, .block⟩

/-- The queue has room for something. -/
def validate (d : DeliveryConfig) : Except ConfigError Unit :=
  if d.capacity = 0 then .error .zeroCapacity else .ok ()

end DeliveryConfig

/-- The instruments of an engine and how its events are queued. -/
structure EngineConfig where
  instruments : List InstrumentConfig
  delivery : DeliveryConfig
deriving DecidableEq

namespace EngineConfig

/-- The instruments are valid and no symbol occurs twice; `seen` are the symbols before. -/
def validateInstruments (seen : List String) : List InstrumentConfig → Except ConfigError Unit
  | [] => .ok ()
  | i :: rest =>
    match i.validate with
    | .error e => .error e
    | .ok () =>
      if i.symbol ∈ seen then .error (.duplicateSymbol i.symbol)
      else validateInstruments (i.symbol :: seen) rest

/-- The instruments and then the delivery are usable; if not, the first thing that is
wrong. -/
def validate (c : EngineConfig) : Except ConfigError Unit :=
  match validateInstruments [] c.instruments with
  | .error e => .error e
  | .ok () => c.delivery.validate

end EngineConfig

end Bourse
