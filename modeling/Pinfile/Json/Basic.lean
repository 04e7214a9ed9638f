import Pinfile.Text.Digits

/-!
# JSON values and their text

A number is kept as its literal, so nothing of it is lost, and the members of an object are kept in
order. There are two layouts: `compact` writes no blanks, and `pretty` puts every item and member
on a line of its own, two spaces deeper than the bracket that holds it. In both, only the quotation
mark, the backslash and the characters below U+0020 are escaped.
-/

namespace Pinfile

/-- A JSON value. -/
inductive Json where
  | null
  | bool (b : Bool)
  | number (literal : String)
  | string (text : String)
  | array (items : List Json)
  | object (members : List (String × Json))
deriving Repr, Inhabited

namespace Json

/-- The number of a count. -/
def ofNat (n : Nat) : Json := .number n.repr

/-- The value of a member. When a name stands twice, its last value counts. -/
def member? (members : List (String × Json)) (name : String) : Option Json :=
  (members.reverse.find? fun m => m.1 == name).map Prod.snd

/-! ## Strings -/

/-- A character as it stands inside quotation marks. -/
def escape (c : Char) : List Char :=
  if c = '"' then ['\\', '"']
  else if c = '\\' then ['\\', '\\']
  else if c.toNat = 0x08 then ['\\', 'b']
  else if c.toNat = 0x09 then ['\\', 't']
  else if c.toNat = 0x0A then ['\\', 'n']
  else if c.toNat = 0x0C then ['\\', 'f']
  else if c.toNat = 0x0D then ['\\', 'r']
  else if c.toNat < 0x20 then
    ['\\', 'u', '0', '0', Text.Hex.lower (c.toNat / 16), Text.Hex.lower (c.toNat % 16)]
  else [c]

/-- A text in quotation marks. -/
def quote (s : String) : List Char := '"' :: (s.toList.flatMap escape ++ ['"'])

/-! ## Compact layout -/

mutual

/-- The text of a value without blanks. -/
def compactChars : Json → List Char
  | .null => "null".toList
  | .bool true => "true".toList
  | .bool false => "false".toList
  | .number literal => literal.toList
  | .string text => quote text
  | .array items => '[' :: (compactItems items ++ [']'])
  | .object members => '\x7b' :: (compactMembers members ++ ['\x7d'])

/-- The items of an array, with commas between them. -/
def compactItems : List Json → List Char
  | [] => []
  | [item] => compactChars item
  | item :: rest => compactChars item ++ ',' :: compactItems rest

/-- The members of an object, with commas between them. -/
def compactMembers : List (String × Json) → List Char
  | [] => []
  | [(name, value)] => quote name ++ ':' :: compactChars value
  | (name, value) :: rest => quote name ++ ':' :: (compactChars value ++ ',' :: compactMembers rest)

end

/-- The text of a value without blanks. -/
def compact (value : Json) : String := String.ofList value.compactChars

/-! ## Pretty layout -/

/-- A line feed and the given number of spaces. -/
def newLine (indent : Nat) : List Char := '\n' :: List.replicate indent ' '

mutual

/-- The text of a value that stands at the given indentation. -/
def prettyChars (indent : Nat) : Json → List Char
  | .null => "null".toList
  | .bool true => "true".toList
  | .bool false => "false".toList
  | .number literal => literal.toList
  | .string text => quote text
  | .array [] => ['[', ']']
  | .array (item :: rest) =>
    '[' :: (prettyItems (indent + 2) (item :: rest) ++ newLine indent ++ [']'])
  | .object [] => ['\x7b', '\x7d']
  | .object (m :: rest) =>
    '\x7b' :: (prettyMembers (indent + 2) (m :: rest) ++ newLine indent ++ ['\x7d'])

/-- The items of an array, each on its line. -/
def prettyItems (indent : Nat) : List Json → List Char
  | [] => []
  | [item] => newLine indent ++ prettyChars indent item
  | item :: rest => newLine indent ++ prettyChars indent item ++ ',' :: prettyItems indent rest

/-- The members of an object, each on its line. -/
def prettyMembers (indent : Nat) : List (String × Json) → List Char
  | [] => []
  | [(name, value)] => newLine indent ++ quote name ++ ':' :: ' ' :: prettyChars indent value
  | (name, value) :: rest =>
    newLine indent ++ quote name ++ ':' :: ' ' :: prettyChars indent value ++
      ',' :: prettyMembers indent rest

end

/-- The text of a value with an item or member on each line. -/
def pretty (value : Json) : String := String.ofList (value.prettyChars 0)

example : (Json.array [.ofNat 1, .null]).compact = "[1,null]" := by decide +kernel
example : (Json.array [.string "a\n"]).pretty = "[\n  \"a\\n\"\n]" := by decide +kernel

end Json
end Pinfile
