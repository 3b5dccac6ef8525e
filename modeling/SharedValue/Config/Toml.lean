import SharedValue.Config
import SharedValue.Toml.Document

/-!
# Configuration documents

A configuration is read from the top level of a TOML document. Each of the two settings must be
an integer that is not negative and keeps its default where it is absent; whatever else the
document says is of no concern. A malformed document is reported before a setting that makes no
sense.
-/

namespace SharedValue.Config

/-- A setting of a document, or its default. -/
def setting (entries : Toml.Entries) (name : String) (absent : Nat) : Except ConfigError Nat :=
  match Registry.get? entries name with
  | none => .ok absent
  | some (.value (some n)) => if 0 ≤ n then .ok n.toInt.toNat else .error .malformed
  | some _ => .error .malformed

/-- The configuration that a document describes. -/
def ofToml (text : String) : Except ConfigError Config :=
  match Toml.read text with
  | none => .error .malformed
  | some entries => do
    let depth ← setting entries "max_reference_depth" ({} : Config).maxReferenceDepth
    let capacity ← setting entries "symbol_table_capacity" ({} : Config).symbolTableCapacity
    let config : Config := ⟨depth, capacity⟩
    config.validate
    return config

end SharedValue.Config
