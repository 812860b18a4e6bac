import Bourse.Delivery.Sink

/-!
# Building an engine

Three ways to an engine with instruments: to list them one by one (`addInstruments`), to
`build` it after a check of the instruments, and to build it from a whole configuration
(`ofConfig`), with or without channels for its events. They come to the same verdict on
the same instruments.
-/

namespace Bourse

namespace Engine

/-- Lists instruments one by one, up to the first that is refused. -/
def addInstruments (e : Engine) : List InstrumentConfig → Reply ConfigError Unit
  | [] => ⟨e, .ok (), []⟩
  | config :: rest =>
    let r := e.addInstrument config
    match r.answer with
    | .error err => ⟨r.engine, .error err, r.output⟩
    | .ok () =>
      let later := r.engine.addInstruments rest
      { later with output := r.output ++ later.output }

/-- Builds an engine with a matching rule of one's choice. -/
def build (rule : MatchingRule) (instruments : List InstrumentConfig) : Reply ConfigError Unit :=
  match (⟨instruments, default⟩ : EngineConfig).validate with
  | .error err => ⟨.empty rule, .error err, []⟩
  | .ok () =>
    let r := (Engine.empty rule).addInstruments instruments
    match r.answer with
    | .error err => ⟨r.engine, .error err, r.output⟩
    | .ok () =>
      let notice : Output := .notice (.engineBuilt r.engine.slots.length rule.name)
      { r with output := r.output ++ [notice] }

/-- Builds an engine in price-time priority from a configuration. -/
def ofConfig (config : EngineConfig) : Reply ConfigError Unit :=
  match config.validate with
  | .error err => ⟨.empty .priceTime, .error err, []⟩
  | .ok () => (Engine.empty .priceTime).addInstruments config.instruments

end Engine

/-- The channels for the events of an engine, as its configuration asks. -/
def Sinks.ofConfig (config : EngineConfig) : Except StartError (Sinks × List Notice) := do
  config.validate.mapError .refused
  let updates ← Channel.start "order-updates" .update config.delivery
  let trades ← Channel.start "trades" .trade config.delivery
  return (⟨.channel updates, .channel trades⟩, [updates.startNotice, trades.startNotice])

end Bourse
