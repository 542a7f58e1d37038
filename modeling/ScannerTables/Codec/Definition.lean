import ScannerTables.Codec.Fields
import ScannerTables.Config
import ScannerTables.Token.Definition
import ScannerTables.Token.Production
/-!
# Definitions in JSON

How ranges, patterns, token definitions, productions and the configuration are written as JSON and
read back. `toJson` writes a value and `ofJson?` reads one within a budget of levels to open.
-/

namespace ScannerTables

open Json

/-! ### Ranges and classes -/

namespace Interval

/-- The names of the fields, in order. -/
def fieldNames : List String := ["lo", "hi"]

def toJson (i : Interval) : Json := record fieldNames [nat i.lo, nat i.hi]

def ofJson? : Nat → Json → Option Interval
  | _ + 1, v => do
    let [lo, hi] ← fields? fieldNames v | none
    return { lo := ← required (nat? limit32) lo, hi := ← required (nat? limit32) hi }
  | 0, _ => none

end Interval

namespace CharacterClass

/-- The names of the fields, in order. -/
def fieldNames : List String := ["ranges", "negated"]

def toJson (k : CharacterClass) : Json :=
  record fieldNames [ofList Interval.toJson k.ranges, bool k.negated]

def ofJson? : Nat → Json → Option CharacterClass
  | budget + 1, v => do
    let [ranges, negated] ← fields? fieldNames v | none
    return {
      ranges := ← required (list? Interval.ofJson? budget) ranges
      negated := ← required bool? negated }
  | 0, _ => none

end CharacterClass

/-! ### Patterns -/

namespace Pattern

/-- The names of the fields of a repetition, in order. -/
def repetitionNames : List String := ["inner", "min", "max"]

mutual

def toJson : Pattern → Json
  | charClass k => object [("CharClass", k.toJson)]
  | literal text => object [("Literal", string text)]
  | sequence ps => object [("Sequence", array (toJsonAll ps))]
  | choice ps => object [("Choice", array (toJsonAll ps))]
  | zeroOrMore p => object [("ZeroOrMore", toJson p)]
  | oneOrMore p => object [("OneOrMore", toJson p)]
  | zeroOrOne p => object [("ZeroOrOne", toJson p)]
  | repetition p min max =>
    object [("Repetition", record repetitionNames [toJson p, nat min, ofOption nat max])]
  | reference label => object [("Ref", string label)]

def toJsonAll : List Pattern → List Json
  | [] => []
  | p :: ps => toJson p :: toJsonAll ps

end

/-- Reads a pattern. A level is opened for the variant, and another one for the list or the record
that some variants hold. -/
def ofJson? : Nat → Json → Option Pattern
  | 0, _ => none
  | budget + 1, v => do
    let (name, v) ← variant? v
    match name with
    | "CharClass" => return charClass (← CharacterClass.ofJson? budget v)
    | "Literal" => return literal (← string? v)
    | "Sequence" => return sequence (← patterns? budget v)
    | "Choice" => return choice (← patterns? budget v)
    | "ZeroOrMore" => return zeroOrMore (← ofJson? budget v)
    | "OneOrMore" => return oneOrMore (← ofJson? budget v)
    | "ZeroOrOne" => return zeroOrOne (← ofJson? budget v)
    | "Repetition" =>
      match budget with
      | 0 => none
      | budget + 1 =>
        let [inner, min, max] ← fields? repetitionNames v | none
        return repetition (← required (ofJson? budget) inner) (← required (nat? limit32) min)
          (← optional (nat? limit32) max)
    | "Ref" => return reference (← string? v)
    | _ => none
where
  patterns? : Nat → Json → Option (List Pattern)
    | budget + 1, array vs => vs.mapM (ofJson? budget)
    | _, _ => none

/-- The record of a repetition: its body and its bounds. -/
def repetitionToJson (r : Pattern × Nat × Option Nat) : Json :=
  record repetitionNames [r.1.toJson, nat r.2.1, ofOption nat r.2.2]

/-- Reads the record of a repetition. -/
def repetition? : Nat → Json → Option (Pattern × Nat × Option Nat)
  | budget + 1, v => do
    let [inner, min, max] ← fields? repetitionNames v | none
    return (← required (ofJson? budget) inner, ← required (nat? limit32) min,
      ← optional (nat? limit32) max)
  | 0, _ => none

end Pattern

/-! ### Definitions and productions -/

namespace TokenDefinition

/-- The names of the fields, in order. -/
def fieldNames : List String :=
  ["label", "pattern", "ordinal", "private", "ignore_case", "overridden", "new_lexical_state"]

def toJson (d : TokenDefinition) : Json :=
  record fieldNames [ofOption string d.label, d.pattern.toJson, nat d.ordinal, bool d.isPrivate,
    ofOption bool d.ignoreCase, bool d.overridden, ofOption string d.newLexicalState]

def ofJson? : Nat → Json → Option TokenDefinition
  | budget + 1, v => do
    let [label, pattern, ordinal, isPrivate, ignoreCase, overridden, newLexicalState] ←
      fields? fieldNames v | none
    return {
      label := ← optional string? label
      pattern := ← required (Pattern.ofJson? budget) pattern
      ordinal := ← required (nat? limit32) ordinal
      isPrivate := ← required bool? isPrivate
      ignoreCase := ← optional bool? ignoreCase
      overridden := ← required bool? overridden
      newLexicalState := ← optional string? newLexicalState }
  | 0, _ => none

end TokenDefinition

namespace TokenKind

def toJson (k : TokenKind) : Json := string k.name

/-- Reads a kind: its name, or an object that has the name for its only member and `null` for its
value. -/
def ofJson? : Nat → Json → Option TokenKind
  | _, string name => ofName? name
  | _ + 1, object [(name, null)] => ofName? name
  | _, _ => none

end TokenKind

namespace TokenSpec

/-- The names of the fields, in order. -/
def fieldNames : List String := ["regexp", "next_lexical_state"]

def toJson (s : TokenSpec) : Json := record fieldNames [nat s.token, ofOption string s.next]

def ofJson? : Nat → Json → Option TokenSpec
  | _ + 1, v => do
    let [token, next] ← fields? fieldNames v | none
    return { token := ← required (nat? limit32) token, next := ← optional string? next }
  | 0, _ => none

end TokenSpec

namespace TokenProduction

/-- The names of the fields, in order. -/
def fieldNames : List String := ["kind", "lexical_states", "ignore_case", "specs"]

def toJson (p : TokenProduction) : Json :=
  record fieldNames [p.kind.toJson, ofList string p.lexicalStates, bool p.ignoreCase,
    ofList TokenSpec.toJson p.specs]

def ofJson? : Nat → Json → Option TokenProduction
  | budget + 1, v => do
    let [kind, lexicalStates, ignoreCase, specs] ← fields? fieldNames v | none
    return {
      kind := ← required (TokenKind.ofJson? budget) kind
      lexicalStates := ← required (list? (fun _ => string?) budget) lexicalStates
      ignoreCase := ← required bool? ignoreCase
      specs := ← required (list? TokenSpec.ofJson? budget) specs }
  | 0, _ => none

end TokenProduction

/-! ### Configuration -/

namespace Config

/-- The names of the fields, in order. -/
def fieldNames : List String := ["ignore_case", "default_lexical_state", "extra_token_names"]

def toJson (c : Config) : Json :=
  record fieldNames [bool c.ignoreCase, string c.defaultLexicalState,
    ofList string c.extraTokenNames]

def ofJson? : Nat → Json → Option Config
  | budget + 1, v => do
    let [ignoreCase, defaultLexicalState, extraTokenNames] ← fields? fieldNames v | none
    return {
      ignoreCase := ← required bool? ignoreCase
      defaultLexicalState := ← required string? defaultLexicalState
      extraTokenNames := ← required (list? (fun _ => string?) budget) extraTokenNames }
  | 0, _ => none

end Config
end ScannerTables
