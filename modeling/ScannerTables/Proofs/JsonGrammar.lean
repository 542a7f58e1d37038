import Mathlib.Data.List.Forall2
import ScannerTables.Json.Reader
/-!
# The JSON grammar

Which texts stand for a value. Blanks may stand around every part, a natural is written in decimal
without leading zeros, and between quotes a character stands for itself or is spelled by one of its
escapes. A writer is right if it writes a text that stands for the value, and a reader if it finds
the value in every text that stands for it.

Values with `other` in them are read from texts that nothing is written as; `Plain` are all the
rest.
-/

namespace ScannerTables.Json

/-! ### Texts in quotes -/

/-- Four hexadecimal digits and the code that they stand for. -/
inductive HexCode : List Char → Nat → Prop
  | digits {c₁ c₂ c₃ c₄ : Char} {n₁ n₂ n₃ n₄ : Nat} (h₁ : hexDigit? c₁ = some n₁)
      (h₂ : hexDigit? c₂ = some n₂) (h₃ : hexDigit? c₃ = some n₃) (h₄ : hexDigit? c₄ = some n₄) :
      HexCode [c₁, c₂, c₃, c₄] ((n₁ * 16 + n₂) * 256 + (n₃ * 16 + n₄))

/-- The ways to spell a character in quotes: as it is, by a letter, by its code, or by the codes of
a surrogate pair. -/
inductive Spells (c : Char) : List Char → Prop
  | self (hcontrol : 32 ≤ c.toNat) (hquote : c ≠ '"') (hslash : c ≠ '\\') : Spells c [c]
  | letter {d : Char} (h : unescape? d = some c) : Spells c ['\\', d]
  | code {ds : List Char} (h : HexCode ds c.toNat) : Spells c ('\\' :: 'u' :: ds)
  | pair {ds ds' : List Char} {high low : Nat} (hhigh : isHighSurrogate high = true)
      (hlow : isLowSurrogate low = true)
      (hc : c.toNat = 0x10000 + (high - 0xD800) * 0x400 + (low - 0xDC00)) (h : HexCode ds high)
      (h' : HexCode ds' low) : Spells c ('\\' :: 'u' :: (ds ++ '\\' :: 'u' :: ds'))

/-- A text in quotes. -/
inductive Quotes (text : String) : List Char → Prop
  | spelled {parts : List (List Char)} (h : List.Forall₂ Spells text.toList parts) :
      Quotes text ('"' :: (parts.flatten ++ ['"']))

/-! ### Values -/

/-- Nothing but blanks. -/
def Blanks (cs : List Char) : Prop := ∀ c ∈ cs, isBlank c = true

/-- A part with what stands before and after it. -/
structure Item where
  before : List Char
  text : List Char
  after : List Char

/-- An item as it is written. -/
def Item.chars (i : Item) : List Char := i.before ++ (i.text ++ i.after)

/-- Only blanks stand around the part. -/
structure Item.Padded (i : Item) : Prop where
  before : Blanks i.before
  after : Blanks i.after

/-- An element of a list, with its value. -/
structure Element where
  item : Item
  value : Json

/-- A member of an object, with its name and its value. -/
structure Member where
  nameItem : Item
  valueItem : Item
  name : String
  value : Json

/-- A member as it is written. -/
def Member.chars (m : Member) : List Char := m.nameItem.chars ++ ':' :: m.valueItem.chars

/-- Parts with commas between them. -/
def commas : List (List Char) → List Char
  | [] => []
  | [part] => part
  | part :: parts => part ++ ',' :: commas parts

/-- The texts that stand for a value, without blanks around them. -/
inductive Denotes : List Char → Json → Prop
  | null : Denotes ['n', 'u', 'l', 'l'] null
  | boolTrue : Denotes ['t', 'r', 'u', 'e'] (bool true)
  | boolFalse : Denotes ['f', 'a', 'l', 's', 'e'] (bool false)
  | nat {n : Nat} (h : n < limit64) : Denotes (Nat.toDigits 10 n) (nat n)
  | string {cs : List Char} {text : String} (h : Quotes text cs) : Denotes cs (string text)
  | emptyArray {blanks : List Char} (h : Blanks blanks) :
      Denotes ('[' :: (blanks ++ [']'])) (array [])
  | array {elements : List Element} (hne : elements ≠ [])
      (hpadded : ∀ e ∈ elements, e.item.Padded) (h : ∀ e ∈ elements, Denotes e.item.text e.value) :
      Denotes ('[' :: (commas (elements.map (·.item.chars)) ++ [']']))
        (array (elements.map (·.value)))
  | emptyObject {blanks : List Char} (h : Blanks blanks) :
      Denotes ('{' :: (blanks ++ ['}'])) (object [])
  | object {members : List Member} (hne : members ≠ [])
      (hpadded : ∀ m ∈ members, m.nameItem.Padded ∧ m.valueItem.Padded)
      (hname : ∀ m ∈ members, Quotes m.name m.nameItem.text)
      (h : ∀ m ∈ members, Denotes m.valueItem.text m.value) :
      Denotes ('{' :: (commas (members.map (·.chars)) ++ ['}']))
        (object (members.map fun m => (m.name, m.value)))

/-- A text stands for a value, with nothing but blanks around it. -/
def StandsFor (text : String) (v : Json) : Prop :=
  ∃ i : Item, i.Padded ∧ text.toList = i.chars ∧ Denotes i.text v

/-- A value without `other` in it, and with numbers that fit in 64 bits. -/
inductive Plain : Json → Prop
  | null : Plain null
  | bool (b : Bool) : Plain (bool b)
  | nat {n : Nat} (h : n < limit64) : Plain (nat n)
  | string (text : String) : Plain (string text)
  | array {vs : List Json} (h : ∀ v ∈ vs, Plain v) : Plain (array vs)
  | object {ms : List (String × Json)} (h : ∀ m ∈ ms, Plain m.2) : Plain (object ms)

end ScannerTables.Json
