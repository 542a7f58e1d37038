import ScannerTables.Codec.Definition
import ScannerTables.Table.Basic
/-!
# Tables in JSON

How the output tables are written as JSON and read back, in the same way as definitions.
-/

namespace ScannerTables

open Json

namespace MemberRecord

/-- The names of the fields, in order. -/
def fieldNames : List String :=
  ["moves_array_name", "ascii_ranges", "non_ascii_ranges", "next_state_index", "next_final",
    "token"]

def toJson (m : MemberRecord) : Json :=
  record fieldNames [ofOption string m.movesArrayName, ofList Interval.toJson m.asciiRanges,
    ofList Interval.toJson m.nonAsciiRanges, ofOption nat m.nextStateIndex, bool m.nextFinal,
    ofOption nat m.token]

def ofJson? : Nat → Json → Option MemberRecord
  | budget + 1, v => do
    let [movesArrayName, asciiRanges, nonAsciiRanges, nextStateIndex, nextFinal, token] ←
      fields? fieldNames v | none
    return {
      movesArrayName := ← optional string? movesArrayName
      asciiRanges := ← required (list? Interval.ofJson? budget) asciiRanges
      nonAsciiRanges := ← required (list? Interval.ofJson? budget) nonAsciiRanges
      nextStateIndex := ← optional (nat? limit64) nextStateIndex
      nextFinal := ← required bool? nextFinal
      token := ← optional (nat? limit32) token }
  | 0, _ => none

end MemberRecord

namespace CompositeRecord

/-- The names of the fields, in order. -/
def fieldNames : List String := ["index", "method_name", "token", "has_final_member", "members"]

def toJson (c : CompositeRecord) : Json :=
  record fieldNames [nat c.index, string c.methodName, ofOption nat c.token, bool c.hasFinalMember,
    ofList MemberRecord.toJson c.members]

def ofJson? : Nat → Json → Option CompositeRecord
  | budget + 1, v => do
    let [index, methodName, token, hasFinalMember, members] ← fields? fieldNames v | none
    return {
      index := ← required (nat? limit64) index
      methodName := ← required string? methodName
      token := ← optional (nat? limit32) token
      hasFinalMember := ← required bool? hasFinalMember
      members := ← required (list? MemberRecord.ofJson? budget) members }
  | 0, _ => none

end CompositeRecord

namespace StateTable

/-- The names of the fields, in order. -/
def fieldNames : List String := ["name", "composites", "moves_arrays"]

def toJson (t : StateTable) : Json :=
  record fieldNames [string t.name, ofList CompositeRecord.toJson t.composites,
    ofList string t.movesArrays]

def ofJson? : Nat → Json → Option StateTable
  | budget + 1, v => do
    let [name, composites, movesArrays] ← fields? fieldNames v | none
    return {
      name := ← required string? name
      composites := ← required (list? CompositeRecord.ofJson? budget) composites
      movesArrays := ← required (list? (fun _ => string?) budget) movesArrays }
  | 0, _ => none

end StateTable

namespace LexerTable

/-- The names of the fields, in order. -/
def fieldNames : List String := ["lexical_states", "token_names"]

def toJson (t : LexerTable) : Json :=
  record fieldNames [ofList StateTable.toJson t.lexicalStates,
    ofList (ofOption string) t.tokenNames]

def ofJson? : Nat → Json → Option LexerTable
  | budget + 1, v => do
    let [lexicalStates, tokenNames] ← fields? fieldNames v | none
    return {
      lexicalStates := ← required (list? StateTable.ofJson? budget) lexicalStates
      tokenNames := ← required (list? (fun _ => option? string?) budget) tokenNames }
  | 0, _ => none

end LexerTable

end ScannerTables
