import ScannerTables.Json.Value
/-!
# Writing JSON

A value is written either on one line without blanks or with one element a line, indented by two
blanks a level. In texts only quotes, backslashes and control characters are escaped.
-/

namespace ScannerTables.Json

/-! ### Numbers and texts -/

/-- The decimal digits of a natural. -/
def digits (n : Nat) : List Char :=
  if n < 10 then [Nat.digitChar n] else digits (n / 10) ++ [Nat.digitChar (n % 10)]
termination_by n

/-- How a character is written inside quotes. -/
def escape (c : Char) : List Char :=
  if c = '"' then ['\\', '"']
  else if c = '\\' then ['\\', '\\']
  else if c = '\x08' then ['\\', 'b']
  else if c = '\t' then ['\\', 't']
  else if c = '\n' then ['\\', 'n']
  else if c = '\x0c' then ['\\', 'f']
  else if c = '\r' then ['\\', 'r']
  else if c.toNat < 32 then
    ['\\', 'u', '0', '0', Nat.digitChar (c.toNat / 16), Nat.digitChar (c.toNat % 16)]
  else [c]

/-- A text in quotes. -/
def quote (text : String) : List Char := '"' :: (text.toList.flatMap escape ++ ['"'])

/-! ### Values -/

/-- The break before an element: none on a single line, else a new line with the indentation of the
level. -/
def lineBreak : Option Nat → List Char
  | none => []
  | some level => '\n' :: List.replicate (2 * level) ' '

/-- What stands between the name and the value of a member. -/
def colon : Option Nat → List Char
  | none => [':']
  | some _ => [':', ' ']

/-- Parts at a level, each on a line of its own if there are lines, with commas between them. -/
def separate (level : Option Nat) : List (List Char) → List Char
  | [] => []
  | [part] => lineBreak level ++ part
  | part :: parts => lineBreak level ++ (part ++ ',' :: separate level parts)

/-- Parts between brackets, of which the closing one stands at the level of the whole. -/
def enclose (opening closing : Char) (level : Option Nat) (parts : List (List Char)) :
    List Char :=
  if parts.isEmpty then [opening, closing]
  else opening :: (separate (level.map (· + 1)) parts ++ (lineBreak level ++ [closing]))

mutual

/-- A value at a level of indentation, or on a single line if there is none. -/
def write (level : Option Nat) : Json → List Char
  | null => ['n', 'u', 'l', 'l']
  | bool true => ['t', 'r', 'u', 'e']
  | bool false => ['f', 'a', 'l', 's', 'e']
  | nat n => digits n
  | string text => quote text
  | array vs => enclose '[' ']' level (writeElements (level.map (· + 1)) vs)
  | object ms => enclose '{' '}' level (writeMembers (level.map (· + 1)) ms)
  | other => ['n', 'u', 'l', 'l']

/-- Every element of a list. -/
def writeElements (level : Option Nat) : List Json → List (List Char)
  | [] => []
  | v :: vs => write level v :: writeElements level vs

/-- Every member of an object. -/
def writeMembers (level : Option Nat) : List (String × Json) → List (List Char)
  | [] => []
  | (name, v) :: ms =>
    (quote name ++ (colon level ++ write level v)) :: writeMembers level ms

end

/-- The text of a value on one line. -/
def compact (v : Json) : String := String.ofList (write none v)

/-- The text of a value with one element a line. -/
def pretty (v : Json) : String := String.ofList (write (some 0) v)

end ScannerTables.Json
