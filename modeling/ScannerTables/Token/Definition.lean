import ScannerTables.Pattern
/-!
# Token definitions

A token definition is a pattern with what belongs to the token as a whole. Tokens are known by their
ordinals, which a registry hands out; ordinal 0 is the end of the input.
-/

namespace ScannerTables

/-- A pattern with the properties of its token. -/
structure TokenDefinition where
  /-- The name by which other patterns refer to this one and by which the token is shown. -/
  label : Option String := none
  pattern : Pattern
  /-- The number of the token; a registry assigns it. -/
  ordinal : Nat := 0
  /-- A private definition serves references only and is never a token of its own. -/
  isPrivate : Bool := false
  /-- Whether case is ignored; inherited from the production when missing. -/
  ignoreCase : Option Bool := none
  /-- An overridden definition is never built. -/
  overridden : Bool := false
  /-- The lexical state that follows the token, where all lexical states agree on it. -/
  newLexicalState : Option String := none
deriving DecidableEq

namespace TokenDefinition

/-- The definition of a literal token. -/
def ofLiteral (text : String) : TokenDefinition := { pattern := .literal text }

/-- Whether case is ignored, given what the production says. -/
def ignoreCaseOr (d : TokenDefinition) (inherited : Bool) : Bool := d.ignoreCase.getD inherited

/-- The text of a definition whose pattern is a plain literal. -/
def image? (d : TokenDefinition) : Option String := d.pattern.literalText?

/-- A buildable definition is one that may become a token: neither private nor overridden. -/
def isBuildable (d : TokenDefinition) : Bool := !d.isPrivate && !d.overridden

end TokenDefinition
end ScannerTables
