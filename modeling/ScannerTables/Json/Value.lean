/-!
# JSON values

The values that tables and definitions are written as: names, truth values, natural numbers, lists
and records. Text may hold more than that, such as fractions; all of it is one value `other`, which
no field accepts but which may stand where a value is not looked at.
-/

namespace ScannerTables

/-- A JSON value, as far as tables need to tell them apart. -/
inductive Json where
  | null
  | bool (value : Bool)
  | nat (value : Nat)
  | string (text : String)
  | array (elements : List Json)
  /-- The members in the order of the text; a name may occur more than once. -/
  | object (members : List (String × Json))
  /-- A number that is no natural, a text with an unpaired surrogate, or an object with such a text
  for a name. -/
  | other

namespace Json

/-- One past the largest natural that fits in 32 bits, as most fields demand. -/
def limit32 : Nat := 0x100000000

/-- One past the largest natural that fits in 64 bits, as all that are written do. -/
def limit64 : Nat := 0x10000000000000000

instance : Inhabited Json := ⟨null⟩

/-- `null` for what is missing. -/
def ofOption {α : Type} (f : α → Json) : Option α → Json
  | none => null
  | some a => f a

/-- A list of values. -/
def ofList {α : Type} (f : α → Json) (l : List α) : Json := array (l.map f)

end Json
end ScannerTables
