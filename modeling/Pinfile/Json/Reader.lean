import Pinfile.Json.Basic

/-!
# Reading JSON

`Json.parse?` reads the grammar of JSON texts: blanks are the space, the tab, the line feed and the
carriage return, an escape `\u` in the surrogate range has to be followed by its other half, and no
control character stands in a string. Arrays and objects are read by one loop, `separated`, which
takes the reader of its items as an argument; that reader works one level further down.
-/

namespace Pinfile.Json

/-- The text without leading blanks. -/
def skipBlanks (cs : List Char) : List Char :=
  cs.dropWhile fun c => c == ' ' || c == '\t' || c == '\n' || c == '\r'

/-! ## Strings -/

/-- The number of four hexadecimal digits, and what follows them. -/
def unit? : List Char → Option (Nat × List Char)
  | a :: b :: c :: d :: rest => do
    let a ← Text.Hex.value? a
    let b ← Text.Hex.value? b
    let c ← Text.Hex.value? c
    let d ← Text.Hex.value? d
    return (((a * 16 + b) * 16 + c) * 16 + d, rest)
  | _ => none

/-- The character of an escape by number, and what follows it. Two surrogate halves make one
character, and a half alone makes none. -/
def escapedUnit? (cs : List Char) : Option (Char × List Char) := do
  let (high, rest) ← unit? cs
  if 0xD800 ≤ high ∧ high < 0xDC00 then
    match rest with
    | '\\' :: 'u' :: rest =>
      let (low, rest) ← unit? rest
      if 0xDC00 ≤ low ∧ low < 0xE000 then
        return (Char.ofNat (0x10000 + (high - 0xD800) * 0x400 + (low - 0xDC00)), rest)
      else none
    | _ => none
  else if 0xDC00 ≤ high ∧ high < 0xE000 then none
  else return (Char.ofNat high, rest)

/-- The character that an escape stands for, given what follows its backslash. -/
def escaped? : List Char → Option (Char × List Char)
  | [] => none
  | c :: rest =>
    if c = 'u' then escapedUnit? rest
    else if c = '"' ∨ c = '\\' ∨ c = '/' then some (c, rest)
    else if c = 'b' then some (Char.ofNat 0x08, rest)
    else if c = 't' then some (Char.ofNat 0x09, rest)
    else if c = 'n' then some (Char.ofNat 0x0A, rest)
    else if c = 'f' then some (Char.ofNat 0x0C, rest)
    else if c = 'r' then some (Char.ofNat 0x0D, rest)
    else none

/-- The text up to the closing quotation mark, and what follows that. -/
def stringBody? (cs : List Char) : Option (List Char × List Char) :=
  match cs with
  | [] => none
  | c :: rest =>
    if c = '"' then some ([], rest)
    else if c = '\\' then
      match escaped? rest with
      | none => none
      | some (d, after) =>
        if after.length < (c :: rest).length then
          (stringBody? after).map fun (body, rest) => (d :: body, rest)
        else none
    else if c.toNat < 0x20 then none
    else (stringBody? rest).map fun (body, rest) => (c :: body, rest)
termination_by cs.length
decreasing_by all_goals (simp only [List.length_cons] at *; omega)

/-- A string, and what follows it. -/
def string? (cs : List Char) : Option (String × List Char) :=
  match cs with
  | '"' :: rest => (stringBody? rest).map fun (body, rest) => (String.ofList body, rest)
  | _ => none

/-! ## Numbers -/

/-- The characters that occur in number literals. -/
def isNumberChar (c : Char) : Bool :=
  c.isDigit || c == '-' || c == '+' || c == '.' || c == 'e' || c == 'E'

/-- Whether the text is nothing or an exponent. -/
def isExponent : List Char → Bool
  | [] => true
  | c :: cs =>
    let digits := match cs with
      | '+' :: rest => rest
      | '-' :: rest => rest
      | rest => rest
    (c == 'e' || c == 'E') && !digits.isEmpty && digits.all Char.isDigit

/-- Whether the text is nothing, or a fraction, an exponent or both. -/
def isFraction : List Char → Bool
  | '.' :: cs =>
    !(cs.takeWhile Char.isDigit).isEmpty && isExponent (cs.dropWhile Char.isDigit)
  | cs => isExponent cs

/-- Whether the text is a number literal without its sign. -/
def isUnsigned : List Char → Bool
  | '0' :: cs => isFraction cs
  | cs => !(cs.takeWhile Char.isDigit).isEmpty && isFraction (cs.dropWhile Char.isDigit)

/-- Whether the text is a number literal. -/
def isNumber : List Char → Bool
  | '-' :: cs => isUnsigned cs
  | cs => isUnsigned cs

/-! ## Values -/

/-- Reads items up to the closing bracket, with commas between them. There is at least one. -/
def separated {α : Type} (close : Char) (item : List Char → Option (α × List Char))
    (cs : List Char) : Option (List α × List Char) :=
  match item cs with
  | none => none
  | some (a, rest) =>
    match skipBlanks rest with
    | [] => none
    | c :: rest =>
      if c = close then some ([a], rest)
      else if c = ',' ∧ rest.length < cs.length then
        (separated close item rest).map fun (as, rest) => (a :: as, rest)
      else none
termination_by cs.length

/-- Reads the items up to the closing bracket; there may be none. -/
def bracketed {α : Type} (close : Char) (item : List Char → Option (α × List Char))
    (cs : List Char) : Option (List α × List Char) :=
  match skipBlanks cs with
  | [] => none
  | c :: rest => if c = close then some ([], rest) else separated close item cs

/-- Reads a member of an object, given the reader of its value. -/
def namedMember (value : List Char → Option (Json × List Char)) (cs : List Char) :
    Option ((String × Json) × List Char) := do
  let (name, rest) ← string? (skipBlanks cs)
  match skipBlanks rest with
  | ':' :: rest =>
    let (v, rest) ← value rest
    return ((name, v), rest)
  | _ => none

/-- Reads a word or a number. -/
def scalar? (cs : List Char) : Option (Json × List Char) :=
  match "null".toList.isPrefixOf? cs, "true".toList.isPrefixOf? cs,
    "false".toList.isPrefixOf? cs with
  | some rest, _, _ => some (.null, rest)
  | _, some rest, _ => some (.bool true, rest)
  | _, _, some rest => some (.bool false, rest)
  | none, none, none =>
    let literal := cs.takeWhile isNumberChar
    if isNumber literal then
      some (.number (String.ofList literal), cs.dropWhile isNumberChar)
    else none

/-- Reads a value in which brackets are nested at most the given number of levels deep. -/
def value? : Nat → List Char → Option (Json × List Char)
  | 0, _ => none
  | room + 1, cs =>
    match skipBlanks cs with
    | '[' :: rest => (bracketed ']' (value? room) rest).map fun (items, rest) =>
        (.array items, rest)
    | '\x7b' :: rest => (bracketed '\x7d' (namedMember (value? room)) rest).map
        fun (members, rest) => (.object members, rest)
    | '"' :: rest => (string? ('"' :: rest)).map fun (text, rest) => (.string text, rest)
    | rest => scalar? rest

/-- Reads a whole text as one value. A text cannot nest deeper than it is long. -/
def parse? (text : String) : Option Json :=
  match value? (text.toList.length + 1) text.toList with
  | some (v, rest) => if (skipBlanks rest).isEmpty then some v else none
  | none => none

end Pinfile.Json
