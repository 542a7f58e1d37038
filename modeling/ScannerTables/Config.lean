/-!
# Configuration

The settings that hold for a whole scanner.
-/

namespace ScannerTables

/-- Settings for all token productions and lexical states. -/
structure Config where
  /-- Whether every production ignores case. -/
  ignoreCase : Bool := false
  /-- The name of the lexical state that a scanner starts in. -/
  defaultLexicalState : String := "DEFAULT"
  /-- Names for the ordinals that follow the registered tokens. -/
  extraTokenNames : List String := []
deriving DecidableEq

instance : Inhabited Config := ⟨{}⟩

end ScannerTables
