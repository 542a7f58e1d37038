import ScannerTables.Lexer.Basic
import ScannerTables.Unicode.Identifier
/-!
# Labels for every token

Code that uses the tables refers to tokens by label, so every token needs a label that is an
identifier. A literal takes its upper-cased image if that is an identifier nobody uses; any other
token is named after its ordinal. Labels that are identifiers already stay.
-/

namespace ScannerTables

open Unicode

variable (u : IdentifierClasses)

/-- The label of a token that has no identifier for one, given the labels in use. -/
def TokenDefinition.generatedLabel (d : TokenDefinition) (used : List String) : String :=
  match (d.image?.map upperText).filter fun label => u.isIdentifier label && label ∉ used with
  | some label => label
  | none => s!"_TOKEN_{d.ordinal}"

namespace TokenRegistry

/-- The tokens without an identifier for a label, with the labels that they are to take; each label
is in use for the tokens that follow. -/
def newLabels : List TokenDefinition → List String → List (Nat × String)
  | [], _ => []
  | d :: ds, used =>
    if d.label.any u.isIdentifier then newLabels ds used
    else
      let label := d.generatedLabel u used
      (d.ordinal, label) :: newLabels ds (label :: used)

/-- The registry with an identifier for the label of every token. -/
def ensureLabels (r : TokenRegistry) : TokenRegistry :=
  let ds := r.definitions.toList
  let used := (ds.filterMap (·.label)).filter u.isIdentifier
  (newLabels u ds used).foldl (fun r (token, label) => r.relabel token label) r

end TokenRegistry

/-- The lexer with an identifier for the label of every token. -/
def Lexer.ensureLabels (lx : Lexer) : Lexer :=
  { lx with registry := lx.registry.ensureLabels u }

end ScannerTables
