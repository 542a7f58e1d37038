import ScannerTables.Json.Value
/-!
# Reading JSON

The reader accepts the JSON grammar and nothing else: no leading zeros, no trailing commas, no bare
control characters in texts. A text is read as code values first, in which an escape may be half of
a surrogate pair; the halves are joined afterwards.
-/

namespace ScannerTables.Json

/-- The blanks that may stand between any two parts of a text. -/
def isBlank (c : Char) : Bool := c = ' ' || c = '\n' || c = '\t' || c = '\r'

/-- The text without the blanks at its start. -/
def skipBlanks (text : List Char) : List Char := text.dropWhile isBlank

/-! ### Numbers -/

/-- The natural that decimal digits stand for. -/
def natOfDigits (ds : List Char) : Nat := ds.foldl (fun n c => 10 * n + (c.toNat - '0'.toNat)) 0

/-- The digits at the start of a text, at least one, and the rest. -/
def readDigits? (text : List Char) : Option (List Char × List Char) :=
  if text.head?.any Char.isDigit then
    some (text.takeWhile Char.isDigit, text.dropWhile Char.isDigit)
  else none

/-- The integer part of a number: digits of which the first is `0` only if it is alone. -/
def readInteger? : List Char → Option (List Char × List Char)
  | '0' :: rest => some (['0'], rest)
  | text => readDigits? text

/-- The rest after the fraction of a number, if it has one; the flag tells. -/
def skipFraction? : List Char → Option (Bool × List Char)
  | '.' :: rest => (readDigits? rest).map fun (_, rest) => (true, rest)
  | text => some (false, text)

/-- The rest after the exponent of a number, if it has one; the flag tells. -/
def skipExponent? : List Char → Option (Bool × List Char)
  | 'e' :: rest | 'E' :: rest =>
    let unsigned := match rest with
      | '+' :: rest | '-' :: rest => rest
      | rest => rest
    (readDigits? unsigned).map fun (_, rest) => (true, rest)
  | text => some (false, text)

/-- A number and the rest after it. Only digits alone are a natural. -/
def readNumber? (text : List Char) : Option (Json × List Char) := do
  let (signed, unsigned) := match text with
    | '-' :: rest => (true, rest)
    | text => (false, text)
  let (ds, rest) ← readInteger? unsigned
  let (fraction, rest) ← skipFraction? rest
  let (exponent, rest) ← skipExponent? rest
  return (if signed || fraction || exponent then other else nat (natOfDigits ds), rest)

/-! ### Texts -/

/-- The value of a hexadecimal digit. -/
def hexDigit? (c : Char) : Option Nat :=
  if '0' ≤ c ∧ c ≤ '9' then some (c.toNat - '0'.toNat)
  else if 'a' ≤ c ∧ c ≤ 'f' then some (c.toNat - 'a'.toNat + 10)
  else if 'A' ≤ c ∧ c ≤ 'F' then some (c.toNat - 'A'.toNat + 10)
  else none

/-- The character that a backslash and `c` stand for. -/
def unescape? (c : Char) : Option Char :=
  match c with
  | '"' => some '"'
  | '\\' => some '\\'
  | '/' => some '/'
  | 'b' => some '\x08'
  | 'f' => some '\x0c'
  | 'n' => some '\n'
  | 'r' => some '\r'
  | 't' => some '\t'
  | _ => none

/-- The code values of a text up to its closing quote, and the rest after the quote. -/
def readCodes? : List Char → Option (List Nat × List Char)
  | [] => none
  | '"' :: rest => some ([], rest)
  | '\\' :: 'u' :: c₁ :: c₂ :: c₃ :: c₄ :: rest => do
    let code := ((← hexDigit? c₁) * 16 + (← hexDigit? c₂)) * 256 +
      ((← hexDigit? c₃) * 16 + (← hexDigit? c₄))
    let (codes, rest) ← readCodes? rest
    return (code :: codes, rest)
  | '\\' :: c :: rest => do
    let c ← unescape? c
    let (codes, rest) ← readCodes? rest
    return (c.toNat :: codes, rest)
  | c :: rest =>
    if c.toNat < 32 || c = '\\' then none
    else (readCodes? rest).map fun (codes, rest) => (c.toNat :: codes, rest)

/-- True for the first half of a surrogate pair. -/
def isHighSurrogate (code : Nat) : Bool := 0xD800 ≤ code && code < 0xDC00

/-- True for the second half of a surrogate pair. -/
def isLowSurrogate (code : Nat) : Bool := 0xDC00 ≤ code && code < 0xE000

/-- The characters that code values stand for, unless a surrogate lacks its partner. -/
def joinSurrogates? : List Nat → Option (List Char)
  | [] => some []
  | [code] =>
    if isHighSurrogate code || isLowSurrogate code then none else some [Char.ofNat code]
  | code :: code' :: codes =>
    if isHighSurrogate code then
      if isLowSurrogate code' then
        (joinSurrogates? codes).map
          (Char.ofNat (0x10000 + (code - 0xD800) * 0x400 + (code' - 0xDC00)) :: ·)
      else none
    else if isLowSurrogate code then none
    else (joinSurrogates? (code' :: codes)).map (Char.ofNat code :: ·)

/-- The text after an opening quote, unless a surrogate in it lacks its partner, and the rest. -/
def readText? (text : List Char) : Option (Option String × List Char) :=
  (readCodes? text).map fun (codes, rest) => ((joinSurrogates? codes).map String.ofList, rest)

/-! ### Values -/

/-- An object, if all its names are texts. -/
def ofMembers (members : List (Option String × Json)) : Json :=
  match members.mapM fun (name, v) => name.map (·, v) with
  | some members => object members
  | none => other

mutual

/-- A value and the rest after it. The depth of what is read stays below `fuel`. -/
def readValue? : Nat → List Char → Option (Json × List Char)
  | 0, _ => none
  | fuel + 1, text =>
    match skipBlanks text with
    | 'n' :: 'u' :: 'l' :: 'l' :: rest => some (null, rest)
    | 't' :: 'r' :: 'u' :: 'e' :: rest => some (bool true, rest)
    | 'f' :: 'a' :: 'l' :: 's' :: 'e' :: rest => some (bool false, rest)
    | '"' :: rest => (readText? rest).map fun (text, rest) => ((text.map string).getD other, rest)
    | '[' :: rest =>
      match skipBlanks rest with
      | ']' :: rest => some (array [], rest)
      | rest => (readElements? fuel rest).map fun (vs, rest) => (array vs, rest)
    | '{' :: rest =>
      match skipBlanks rest with
      | '}' :: rest => some (object [], rest)
      | rest => (readMembers? fuel rest).map fun (ms, rest) => (ofMembers ms, rest)
    | rest => readNumber? rest

/-- The elements of a list up to its closing bracket, at least one, and the rest. -/
def readElements? : Nat → List Char → Option (List Json × List Char)
  | 0, _ => none
  | fuel + 1, text => do
    let (v, rest) ← readValue? fuel text
    match skipBlanks rest with
    | ',' :: rest =>
      let (vs, rest) ← readElements? fuel rest
      return (v :: vs, rest)
    | ']' :: rest => return ([v], rest)
    | _ => none

/-- The members of an object up to its closing brace, at least one, and the rest. -/
def readMembers? : Nat → List Char → Option (List (Option String × Json) × List Char)
  | 0, _ => none
  | fuel + 1, text => do
    let '"' :: rest := skipBlanks text | none
    let (name, rest) ← readText? rest
    let ':' :: rest := skipBlanks rest | none
    let (v, rest) ← readValue? fuel rest
    match skipBlanks rest with
    | ',' :: rest =>
      let (ms, rest) ← readMembers? fuel rest
      return ((name, v) :: ms, rest)
    | '}' :: rest => return ([(name, v)], rest)
    | _ => none

end

/-- The value that a text holds, with nothing but blanks around it. -/
def read? (text : String) : Option Json :=
  match readValue? (text.toList.length + 1) text.toList with
  | some (v, rest) => if (skipBlanks rest).isEmpty then some v else none
  | none => none

end ScannerTables.Json
