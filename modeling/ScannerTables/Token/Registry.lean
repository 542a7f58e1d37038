import ScannerTables.Claims
import ScannerTables.Token.Definition
/-!
# The registry of token definitions

A registry keeps every definition at the position given by its ordinal, and an index from labels to
ordinals. The index is what references are resolved by: a label belongs to the definition that
carried it first, and giving a definition another label frees its old one only if it owned it.
-/

namespace ScannerTables

/-- Token definitions by ordinal, with an index of their labels. -/
structure TokenRegistry where
  definitions : Array TokenDefinition
  labels : Claims

namespace TokenRegistry

/-- The registry that knows only the end of the input. -/
def new : TokenRegistry where
  definitions := #[{ label := some "EOF", pattern := .sequence [] }]
  labels := [("EOF", 0)]

instance : Inhabited TokenRegistry := ⟨new⟩

/-- The number of definitions. -/
def size (r : TokenRegistry) : Nat := r.definitions.size

/-- The definition of a token. -/
def get? (r : TokenRegistry) (ordinal : Nat) : Option TokenDefinition := r.definitions[ordinal]?

/-- The token that owns a label. -/
def byLabel? (r : TokenRegistry) (label : String) : Option Nat := r.labels.owner? label

/-- The pattern that a reference to a label stands for. -/
def resolve? (r : TokenRegistry) (label : String) : Option Pattern :=
  ((r.byLabel? label).bind r.get?).map (·.pattern)

/-- The registry with `d` under the next free ordinal. -/
def register (r : TokenRegistry) (d : TokenDefinition) : TokenRegistry where
  definitions := r.definitions.push { d with ordinal := r.size }
  labels := match d.label with
    | some label => r.labels.claim label r.size
    | none => r.labels

/-- Changes the definition of a token; an unregistered token is left alone. -/
def modify (r : TokenRegistry) (ordinal : Nat) (f : TokenDefinition → TokenDefinition) :
    TokenRegistry :=
  { r with definitions := r.definitions.modify ordinal f }

/-- Replaces the label of a token and keeps the index in step; an unregistered token is left
alone. -/
def relabel (r : TokenRegistry) (ordinal : Nat) (label : String) : TokenRegistry :=
  match r.get? ordinal with
  | none => r
  | some d =>
    let freed := match d.label with
      | some old => r.labels.release old ordinal
      | none => r.labels
    { r.modify ordinal fun d => { d with label := some label } with
      labels := freed.claim label ordinal }

end TokenRegistry
end ScannerTables
