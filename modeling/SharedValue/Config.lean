/-!
# Configuration

The two settings of a table of variables: how many reference cells a reading follows, and how
many slots are set aside at first. The second is a hint that no answer depends on; it is carried
so that a configuration can be shown as it was given.
-/

namespace SharedValue

/-- The settings of a table of variables. -/
structure Config where
  /-- The number of cells that a reading follows before it gives up. -/
  maxReferenceDepth : Nat := 64
  /-- The number of slots set aside at first. -/
  symbolTableCapacity : Nat := 32
  deriving DecidableEq

/-- Why a configuration is refused. -/
inductive ConfigError
  /-- The document is malformed, or a setting is not an integer in range. -/
  | malformed
  /-- No reference could ever be followed. -/
  | zeroDepth
  deriving DecidableEq

/-- The message of a refusal that concerns a setting's value. -/
def ConfigError.message? : ConfigError → Option String
  | .malformed => none
  | .zeroDepth => some "invalid configuration: max_reference_depth must be at least 1"

namespace Config

/-- The settings in a compact interchange form. -/
def interchange (c : Config) : String :=
  "\x7b\"max_reference_depth\":" ++ toString c.maxReferenceDepth ++
    ",\"symbol_table_capacity\":" ++ toString c.symbolTableCapacity ++ "\x7d"

/-- The settings in diagnostics. -/
def diagnostic (c : Config) : String :=
  "Config \x7b max_reference_depth: " ++ toString c.maxReferenceDepth ++
    ", symbol_table_capacity: " ++ toString c.symbolTableCapacity ++ " \x7d"

/-- Refuses a configuration under which no reference could be followed. -/
def validate (c : Config) : Except ConfigError Unit :=
  if c.maxReferenceDepth = 0 then .error .zeroDepth else .ok ()

end Config

end SharedValue
