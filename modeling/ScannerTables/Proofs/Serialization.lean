import ScannerTables.Codec.Serialization
import ScannerTables.Proofs.JsonGrammar
/-!
# Laws of a serialization

What tables and definitions rely on when they are exchanged as texts (`Serialization.Lawful`). Texts
are JSON: what is written stands for the value, and of a text that stands for a value that value is
read. Records are objects with their fields in order of declaration, a variant is an object with the
name of the variant for its only member, and numbers, truth values and texts are what they are in
JSON. A reader opens one level for each list, record and variant.

None of it speaks of values that hold others: `Codec.Holds` says that a value is read back, and it
is shown of lists, records and variants from what they hold.
-/

namespace ScannerTables

open Json

/-! ### Levels -/

namespace Json

mutual

/-- The number of levels that a value opens, one within the other. -/
def depth : Json → Nat
  | array vs => elementsDepth vs + 1
  | object ms => membersDepth ms + 1
  | null | bool _ | nat _ | string _ | other => 0

/-- The largest number of levels that an element opens. -/
def elementsDepth : List Json → Nat
  | [] => 0
  | v :: vs => max v.depth (elementsDepth vs)

/-- The largest number of levels that the value of a member opens. -/
def membersDepth : List (String × Json) → Nat
  | [] => 0
  | (_, v) :: ms => max v.depth (membersDepth ms)

end

variable {n : Nat}

theorem elementsDepth_le_iff {vs : List Json} : elementsDepth vs ≤ n ↔ ∀ v ∈ vs, v.depth ≤ n := by
  induction vs with
  | nil => exact iff_of_true (Nat.zero_le n) nofun
  | cons v vs ih => rw [elementsDepth, Nat.max_le, ih, List.forall_mem_cons]

theorem membersDepth_le_iff {ms : List (String × Json)} :
    membersDepth ms ≤ n ↔ ∀ m ∈ ms, m.2.depth ≤ n := by
  induction ms with
  | nil => exact iff_of_true (Nat.zero_le n) nofun
  | cons m ms ih => rw [membersDepth, Nat.max_le, ih, List.forall_mem_cons]

end Json

/-! ### Laws of codecs -/

variable {α β : Type}

/-- A field of a record: its name, how its value is written, and which values are read as it. -/
structure Field (α : Type) where
  name : String
  toJson : α → Json
  Reads : Nat → Json → α → Prop

namespace Codec

/-- The field of a record that holds what `get` finds. -/
def field (d : Codec β) (name : String) (get : α → β) : Field α where
  name := name
  toJson a := d.toJson (get a)
  Reads budget v a := d.ofJson? budget v = some (get a)

/-- Values are written as `write` says, and read without opening a level if they fit. -/
structure IsPrimitive (c : Codec α) (write : α → Json) (Fits : α → Prop) : Prop where
  toJson_eq : ∀ a, c.toJson a = write a
  ofJson?_eq : ∀ budget a, Fits a → c.ofJson? budget (write a) = some a

/-- Nothing is `null`, and what is there is written and read by `d`. -/
structure IsOption (c : Codec (Option α)) (d : Codec α) : Prop where
  toJson_none : c.toJson none = null
  toJson_some : ∀ a, c.toJson (some a) = d.toJson a
  ofJson?_null : ∀ budget, c.ofJson? budget null = some none
  ofJson?_of_ne : ∀ budget v, v ≠ null → c.ofJson? budget v = (d.ofJson? budget v).map some

/-- Lists are arrays, whose elements are written and read by `d`. -/
structure IsList (c : Codec (List α)) (d : Codec α) : Prop where
  toJson_eq : ∀ l, c.toJson l = array (l.map d.toJson)
  ofJson?_eq : ∀ budget vs, c.ofJson? (budget + 1) (array vs) = vs.mapM (d.ofJson? budget)

/-- Records are objects with the given fields, in this order. -/
structure IsRecord (c : Codec α) (fields : List (Field α)) : Prop where
  toJson_eq : ∀ a, c.toJson a = object (fields.map fun f => (f.name, f.toJson a))
  /-- An object is read as the record whose fields its members are read as. -/
  ofJson?_eq : ∀ budget a (value : Field α → Json), (∀ f ∈ fields, f.Reads budget (value f) a) →
    c.ofJson? (budget + 1) (object (fields.map fun f => (f.name, value f))) = some a

/-- A variant is an object with the name of the variant for its only member, whose value is written
and read by `d`. -/
structure HasVariant (c : Codec α) (name : String) (d : Codec β) (make : β → α) : Prop where
  toJson_eq : ∀ b, c.toJson (make b) = object [(name, d.toJson b)]
  ofJson?_eq : ∀ budget v b, d.ofJson? budget v = some b →
    c.ofJson? (budget + 1) (object [(name, v)]) = some (make b)

end Codec

/-! ### Declarations of the types -/

namespace Serialization

variable (s : Serialization)

def intervalFields : List (Field Interval) :=
  [(s.nat limit32).field "lo" (·.lo), (s.nat limit32).field "hi" (·.hi)]

def characterClassFields : List (Field CharacterClass) :=
  [(s.list s.interval).field "ranges" (·.ranges), s.bool.field "negated" (·.negated)]

def repetitionFields : List (Field (Pattern × Nat × Option Nat)) :=
  [s.pattern.field "inner" (·.1), (s.nat limit32).field "min" (·.2.1),
    (s.option (s.nat limit32)).field "max" (·.2.2)]

def definitionFields : List (Field TokenDefinition) :=
  [(s.option s.string).field "label" (·.label), s.pattern.field "pattern" (·.pattern),
    (s.nat limit32).field "ordinal" (·.ordinal), s.bool.field "private" (·.isPrivate),
    (s.option s.bool).field "ignore_case" (·.ignoreCase),
    s.bool.field "overridden" (·.overridden),
    (s.option s.string).field "new_lexical_state" (·.newLexicalState)]

def specFields : List (Field TokenSpec) :=
  [(s.nat limit32).field "regexp" (·.token),
    (s.option s.string).field "next_lexical_state" (·.next)]

def productionFields : List (Field TokenProduction) :=
  [s.kind.field "kind" (·.kind), (s.list s.string).field "lexical_states" (·.lexicalStates),
    s.bool.field "ignore_case" (·.ignoreCase), (s.list s.spec).field "specs" (·.specs)]

def configFields : List (Field Config) :=
  [s.bool.field "ignore_case" (·.ignoreCase),
    s.string.field "default_lexical_state" (·.defaultLexicalState),
    (s.list s.string).field "extra_token_names" (·.extraTokenNames)]

def memberFields : List (Field MemberRecord) :=
  [(s.option s.string).field "moves_array_name" (·.movesArrayName),
    (s.list s.interval).field "ascii_ranges" (·.asciiRanges),
    (s.list s.interval).field "non_ascii_ranges" (·.nonAsciiRanges),
    (s.option (s.nat limit64)).field "next_state_index" (·.nextStateIndex),
    s.bool.field "next_final" (·.nextFinal), (s.option (s.nat limit32)).field "token" (·.token)]

def compositeFields : List (Field CompositeRecord) :=
  [(s.nat limit64).field "index" (·.index), s.string.field "method_name" (·.methodName),
    (s.option (s.nat limit32)).field "token" (·.token),
    s.bool.field "has_final_member" (·.hasFinalMember),
    (s.list s.member).field "members" (·.members)]

def stateTableFields : List (Field StateTable) :=
  [s.string.field "name" (·.name), (s.list s.composite).field "composites" (·.composites),
    (s.list s.string).field "moves_arrays" (·.movesArrays)]

def tableFields : List (Field LexerTable) :=
  [(s.list s.stateTable).field "lexical_states" (·.lexicalStates),
    (s.list (s.option s.string)).field "token_names" (·.tokenNames)]

/-- The texts are JSON and the codecs keep to the declarations of the types. -/
structure Lawful : Prop where
  standsFor_compact : ∀ v, Plain v → StandsFor (s.compact v) v
  standsFor_pretty : ∀ v, Plain v → StandsFor (s.pretty v) v
  read?_eq : ∀ text v, StandsFor text v → s.read? text = some v
  nestingLimit : s.nestingLimit = 127
  bool : s.bool.IsPrimitive Json.bool fun _ => True
  nat : ∀ limit ≤ limit64, (s.nat limit).IsPrimitive Json.nat (· < limit)
  string : s.string.IsPrimitive Json.string fun _ => True
  option : ∀ {α : Type} (c : Codec α), (s.option c).IsOption c
  list : ∀ {α : Type} (c : Codec α), (s.list c).IsList c
  interval : s.interval.IsRecord s.intervalFields
  characterClass : s.characterClass.IsRecord s.characterClassFields
  charClass : s.pattern.HasVariant "CharClass" s.characterClass .charClass
  literal : s.pattern.HasVariant "Literal" s.string .literal
  sequence : s.pattern.HasVariant "Sequence" (s.list s.pattern) .sequence
  choice : s.pattern.HasVariant "Choice" (s.list s.pattern) .choice
  zeroOrMore : s.pattern.HasVariant "ZeroOrMore" s.pattern .zeroOrMore
  oneOrMore : s.pattern.HasVariant "OneOrMore" s.pattern .oneOrMore
  zeroOrOne : s.pattern.HasVariant "ZeroOrOne" s.pattern .zeroOrOne
  repetition : s.pattern.HasVariant "Repetition" s.repetition fun r => .repetition r.1 r.2.1 r.2.2
  repetition_fields : s.repetition.IsRecord s.repetitionFields
  reference : s.pattern.HasVariant "Ref" s.string .reference
  definition : s.definition.IsRecord s.definitionFields
  kind : s.kind.IsPrimitive (fun k => Json.string k.name) fun _ => True
  spec : s.spec.IsRecord s.specFields
  production : s.production.IsRecord s.productionFields
  config : s.config.IsRecord s.configFields
  member : s.member.IsRecord s.memberFields
  composite : s.composite.IsRecord s.compositeFields
  stateTable : s.stateTable.IsRecord s.stateTableFields
  table : s.table.IsRecord s.tableFields

end Serialization

/-! ### What is read back -/

/-- The value of a field is written as a plain value and read back from it. -/
structure Field.Holds (f : Field α) (a : α) : Prop where
  plain : Plain (f.toJson a)
  reads_toJson : ∀ budget, (f.toJson a).depth ≤ budget → f.Reads budget (f.toJson a) a

namespace Codec

variable {c : Codec α} {d : Codec β} {a : α} {write : α → Json} {Fits : α → Prop}
variable {fields : List (Field α)} {n : Nat}

/-- A value is written as a plain value, from which it is read back with a level for every one that
is opened in it. -/
structure Holds (c : Codec α) (a : α) : Prop where
  plain : Plain (c.toJson a)
  ofJson?_toJson : ∀ budget, (c.toJson a).depth ≤ budget → c.ofJson? budget (c.toJson a) = some a

namespace IsPrimitive

theorem holds (h : c.IsPrimitive write Fits) (hplain : Plain (write a)) (ha : Fits a) :
    c.Holds a where
  plain := (h.toJson_eq a).symm ▸ hplain
  ofJson?_toJson budget _ := by rw [h.toJson_eq, h.ofJson?_eq budget a ha]

end IsPrimitive

namespace IsOption

variable {c : Codec (Option α)} {d : Codec α} {o : Option α}

theorem holds (h : c.IsOption d) (hne : ∀ a ∈ o, d.toJson a ≠ null) (ho : ∀ a ∈ o, d.Holds a) :
    c.Holds o := by
  cases o with
  | none =>
      refine ⟨h.toJson_none.symm ▸ .null, fun budget _ => ?_⟩
      rw [h.toJson_none, h.ofJson?_null]
  | some a =>
      have ha := ho a rfl
      refine ⟨(h.toJson_some a).symm ▸ ha.plain, fun budget hbudget => ?_⟩
      rw [h.toJson_some] at hbudget ⊢
      rw [h.ofJson?_of_ne _ _ (hne a rfl), ha.ofJson?_toJson budget hbudget, Option.map_some]

theorem depth_le (h : c.IsOption d) (hd : ∀ a ∈ o, (d.toJson a).depth ≤ n) :
    (c.toJson o).depth ≤ n := by
  cases o with
  | none =>
      rw [h.toJson_none]
      exact Nat.zero_le n
  | some a =>
      rw [h.toJson_some]
      exact hd a rfl

end IsOption

namespace IsList

variable {c : Codec (List α)} {d : Codec α} {l : List α}

theorem depth_le_iff (h : c.IsList d) :
    (c.toJson l).depth ≤ n + 1 ↔ ∀ a ∈ l, (d.toJson a).depth ≤ n := by
  rw [h.toJson_eq, depth, Nat.add_le_add_iff_right, elementsDepth_le_iff, List.forall_mem_map]

theorem holds (h : c.IsList d) (hl : ∀ a ∈ l, d.Holds a) : c.Holds l where
  plain := by
    rw [h.toJson_eq]
    exact .array (List.forall_mem_map.mpr fun a ha => (hl a ha).plain)
  ofJson?_toJson budget hbudget := by
    cases budget with
    | zero =>
        rw [h.toJson_eq] at hbudget
        exact absurd hbudget (Nat.not_succ_le_zero _)
    | succ budget =>
        rw [h.depth_le_iff] at hbudget
        rw [h.toJson_eq, h.ofJson?_eq]
        induction l with
        | nil => rfl
        | cons a l ih =>
            rw [List.forall_mem_cons] at hl hbudget
            rw [List.map_cons, List.mapM_cons, hl.1.ofJson?_toJson budget hbudget.1,
              ih hl.2 hbudget.2]
            rfl

end IsList

theorem Holds.field {get : α → β} {name : String} (h : d.Holds (get a)) :
    (d.field name get).Holds a :=
  ⟨h.plain, h.ofJson?_toJson⟩

namespace IsRecord

theorem depth_le_iff (h : c.IsRecord fields) :
    (c.toJson a).depth ≤ n + 1 ↔ ∀ f ∈ fields, (f.toJson a).depth ≤ n := by
  rw [h.toJson_eq, depth, Nat.add_le_add_iff_right, membersDepth_le_iff, List.forall_mem_map]

theorem holds (h : c.IsRecord fields) (hfields : ∀ f ∈ fields, f.Holds a) : c.Holds a where
  plain := by
    rw [h.toJson_eq]
    exact .object (List.forall_mem_map.mpr fun f hf => (hfields f hf).plain)
  ofJson?_toJson budget hbudget := by
    cases budget with
    | zero =>
        rw [h.toJson_eq] at hbudget
        exact absurd hbudget (Nat.not_succ_le_zero _)
    | succ budget =>
        rw [h.depth_le_iff] at hbudget
        rw [h.toJson_eq, h.ofJson?_eq budget a (·.toJson a)]
        exact fun f hf => (hfields f hf).reads_toJson budget (hbudget f hf)

end IsRecord

theorem HasVariant.holds {name : String} {make : β → α} {b : β} (h : c.HasVariant name d make)
    (hb : d.Holds b) : c.Holds (make b) where
  plain := by
    rw [h.toJson_eq]
    exact .object (List.forall_mem_singleton.mpr hb.plain)
  ofJson?_toJson budget hbudget := by
    rw [h.toJson_eq] at hbudget ⊢
    cases budget with
    | zero => exact absurd hbudget (Nat.not_succ_le_zero _)
    | succ budget =>
        rw [depth, Nat.add_le_add_iff_right, membersDepth_le_iff, List.forall_mem_singleton]
          at hbudget
        exact h.ofJson?_eq budget _ b (hb.ofJson?_toJson budget hbudget)

end Codec
end ScannerTables
