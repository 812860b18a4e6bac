/-!
# Unusable configurations

Why an engine cannot be set up as asked, or an instrument not be listed.
`ConfigError.message` puts it into words.
-/

namespace Bourse

/-- Why a configuration is refused. -/
inductive ConfigError where
  | emptySymbol
  | duplicateSymbol (symbol : String)
  | nonPositiveTickSize (symbol : String)
  | nonPositiveLotSize (symbol : String)
  | invalidQuantityBounds (symbol : String)
  | zeroCapacity
  /-- The document is no configuration. -/
  | parse (detail : String)
  /-- A delivery worker could not be started. -/
  | spawn (detail : String)
deriving DecidableEq

namespace ConfigError

/-- The kind of a configuration error, by name. -/
def name : ConfigError → String
  | .emptySymbol => "EmptySymbol"
  | .duplicateSymbol _ => "DuplicateSymbol"
  | .nonPositiveTickSize _ => "NonPositiveTickSize"
  | .nonPositiveLotSize _ => "NonPositiveLotSize"
  | .invalidQuantityBounds _ => "InvalidQuantityBounds"
  | .zeroCapacity => "ZeroCapacity"
  | .parse _ => "Parse"
  | .spawn _ => "Spawn"

/-- The words in which a configuration error is reported. -/
def message : ConfigError → String
  | .emptySymbol => "instrument symbol cannot be empty"
  | .duplicateSymbol symbol => "instrument " ++ symbol ++ " is already registered"
  | .nonPositiveTickSize symbol => "tick size for " ++ symbol ++ " must be positive"
  | .nonPositiveLotSize symbol => "lot size for " ++ symbol ++ " must be positive"
  | .invalidQuantityBounds symbol =>
    "quantity bounds for " ++ symbol ++ " must be positive and min <= max"
  | .zeroCapacity => "delivery queue capacity must be positive"
  | .parse detail => "could not parse configuration: " ++ detail
  | .spawn detail => "could not start delivery worker: " ++ detail

end ConfigError

end Bourse
