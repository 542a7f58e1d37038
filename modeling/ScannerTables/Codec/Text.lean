import ScannerTables.Codec.Serialization
import ScannerTables.Codec.Table
import ScannerTables.Json.Printer
import ScannerTables.Json.Reader
/-!
# A serialization

The serialization that keeps to the formats of `Codec.Definition` and `Codec.Table`. It writes a
value on one line or with one element a line, and reads either, and any other layout.
-/

namespace ScannerTables

open Json

namespace Serialization

/-- The serialization of this library. -/
def standard : Serialization where
  compact := Json.compact
  pretty := Json.pretty
  read? := Json.read?
  nestingLimit := Json.nestingLimit
  bool := ⟨.bool, fun _ => bool?⟩
  nat limit := ⟨.nat, fun _ => nat? limit⟩
  string := ⟨.string, fun _ => string?⟩
  option c := ⟨ofOption c.toJson, fun budget => option? (c.ofJson? budget)⟩
  list c := ⟨ofList c.toJson, list? c.ofJson?⟩
  interval := ⟨Interval.toJson, Interval.ofJson?⟩
  characterClass := ⟨CharacterClass.toJson, CharacterClass.ofJson?⟩
  pattern := ⟨Pattern.toJson, Pattern.ofJson?⟩
  repetition := ⟨Pattern.repetitionToJson, Pattern.repetition?⟩
  definition := ⟨TokenDefinition.toJson, TokenDefinition.ofJson?⟩
  kind := ⟨TokenKind.toJson, TokenKind.ofJson?⟩
  spec := ⟨TokenSpec.toJson, TokenSpec.ofJson?⟩
  production := ⟨TokenProduction.toJson, TokenProduction.ofJson?⟩
  config := ⟨Config.toJson, Config.ofJson?⟩
  member := ⟨MemberRecord.toJson, MemberRecord.ofJson?⟩
  composite := ⟨CompositeRecord.toJson, CompositeRecord.ofJson?⟩
  stateTable := ⟨StateTable.toJson, StateTable.ofJson?⟩
  table := ⟨LexerTable.toJson, LexerTable.ofJson?⟩

end Serialization
end ScannerTables
