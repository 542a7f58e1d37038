import ScannerTables.Config
import ScannerTables.Json.Value
import ScannerTables.Table.Basic
/-!
# Serialization

Tables and definitions are exchanged as JSON texts. What writes and reads them is not part of this
library: it is derived from the declarations of the types, on top of a library for texts. A
`Serialization` is all of it that the texts depend on.
-/

namespace ScannerTables

/-- A way to write values as JSON and to read them back. A reader is given a budget, the number of
levels that may still be opened. -/
structure Codec (α : Type) where
  toJson : α → Json
  ofJson? : Nat → Json → Option α

/-- Writers and a reader of texts, codecs for the kinds of fields, and the codecs that are derived
for the types. -/
structure Serialization where
  /-- The text of a value on one line. -/
  compact : Json → String
  /-- The text of a value with one element a line. -/
  pretty : Json → String
  /-- The value that a text holds. -/
  read? : String → Option Json
  /-- The number of levels that a text may open. -/
  nestingLimit : Nat
  bool : Codec Bool
  /-- Naturals below a limit. -/
  nat : Nat → Codec Nat
  string : Codec String
  option : {α : Type} → Codec α → Codec (Option α)
  list : {α : Type} → Codec α → Codec (List α)
  interval : Codec Interval
  characterClass : Codec CharacterClass
  pattern : Codec Pattern
  /-- What the variant of a counted repetition holds: its body and its bounds. -/
  repetition : Codec (Pattern × Nat × Option Nat)
  definition : Codec TokenDefinition
  kind : Codec TokenKind
  spec : Codec TokenSpec
  production : Codec TokenProduction
  config : Codec Config
  member : Codec MemberRecord
  composite : Codec CompositeRecord
  stateTable : Codec StateTable
  table : Codec LexerTable

namespace Serialization

variable {α : Type} (s : Serialization) (c : Codec α)

/-- The text of a value, on one line. -/
def encode (a : α) : String := s.compact (c.toJson a)

/-- The text of a value, with one element a line. -/
def encodePretty (a : α) : String := s.pretty (c.toJson a)

/-- The value that a text holds. -/
def decode? (text : String) : Option α := (s.read? text).bind (c.ofJson? s.nestingLimit)

end Serialization
end ScannerTables
