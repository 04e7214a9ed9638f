import Pinfile.Text.Blank
import Pinfile.Toml.Quoted
import Pinfile.Toml.Scalar

/-!
# Reading TOML documents

A document is a list of lines: pairs, headers and lines with nothing but a comment. Reading first
takes the document apart into its *sections*, each a header with the pairs under it, and then builds
the root table from them. Whatever breaks a rule makes the whole document unreadable; where it is
broken is not told.

Arrays and inline tables may be nested at most `maxDepth` deep, and a key has at most that many
parts.
-/

namespace Pinfile.Toml

/-- The greatest number of arrays and inline tables inside each other, and of parts of a key. -/
def maxDepth : Nat := 79

/-! ## Blanks and comments -/

/-- The blanks inside a line. -/
def isGap (c : Char) : Bool := c == ' ' || c == '\t'

/-- The text without the blanks at its beginning. -/
def skipGap (cs : List Char) : List Char := cs.dropWhile isGap

/-- The text after a comment, if it begins with one. A comment holds no control characters. -/
def skipComment (cs : List Char) : List Char :=
  match cs with
  | '#' :: rest => rest.dropWhile Quoted.isPlain
  | _ => cs

/-- What follows the rest of a line that holds nothing more than a comment. -/
def endLine? (cs : List Char) : Option (List Char) :=
  let rest := skipComment (skipGap cs)
  if rest.isEmpty then some [] else Quoted.afterLineEnd? rest

theorem length_skipGap_le (cs : List Char) : (skipGap cs).length ≤ cs.length :=
  (List.dropWhile_sublist isGap).length_le

theorem length_skipComment_le (cs : List Char) : (skipComment cs).length ≤ cs.length := by
  unfold skipComment
  split
  · exact Nat.le_trans (List.dropWhile_sublist Quoted.isPlain).length_le (Nat.le_succ _)
  · exact Nat.le_refl _

/-- The text without the blanks, line ends and comments at its beginning, as they may stand between
the items of an array. -/
def skipLines (cs : List Char) : List Char :=
  match h : Quoted.afterLineEnd? (skipComment (skipGap cs)) with
  | some rest =>
    have := Quoted.length_afterLineEnd?_lt h
    have := length_skipComment_le (skipGap cs)
    have := length_skipGap_le cs
    skipLines rest
  | none => skipComment (skipGap cs)
termination_by cs.length
decreasing_by omega

/-! ## Keys -/

/-- The characters of a key without quotes. -/
def isBareChar (c : Char) : Bool := c.isAlphanum || c == '-' || c == '_'

/-- Reads one part of a key. -/
def readKeyPart (cs : List Char) : Option (String × List Char) :=
  match Quoted.readShort cs with
  | some (text, rest) => some (String.ofList text, rest)
  | none =>
    if (cs.takeWhile isBareChar).isEmpty then none
    else some (String.ofList (cs.takeWhile isBareChar), cs.dropWhile isBareChar)

/-- Reads a key: parts with dots between them, with blanks around each part. `room` bounds the
number of the parts. -/
def readKey (room : Nat) (cs : List Char) : Option (List String × List Char) :=
  match room with
  | 0 => none
  | room + 1 =>
    match readKeyPart (skipGap cs) with
    | none => none
    | some (part, rest) =>
      match skipGap rest with
      | '.' :: more => (readKey room more).map fun (parts, rest) => (part :: parts, rest)
      | rest => some ([part], rest)

/-! ## Values -/

/-- A reader of the values inside a container. -/
abbrev ValueReader := List Char → Option (Value × List Char)

/-- Reads a key, an equals sign and a value. -/
def readPair (read : ValueReader) (cs : List Char) :
    Option ((List String × Value) × List Char) :=
  match readKey maxDepth cs with
  | some (key, '=' :: rest) => (read (skipGap rest)).map fun (v, rest) => ((key, v), rest)
  | _ => none

/-- Reads the items of an array and its closing bracket. Blanks, line ends and comments may stand
around the items, and a comma after the last one. -/
def readItems (read : ValueReader) (cs : List Char) : Option (List Value × List Char) :=
  match skipLines cs with
  | ']' :: rest => some ([], rest)
  | here =>
    match read here with
    | none => none
    | some (v, rest) =>
      match skipLines rest with
      | ']' :: rest => some ([v], rest)
      | ',' :: rest =>
        if rest.length < cs.length then
          (readItems read rest).map fun (items, rest) => (v :: items, rest)
        else none
      | _ => none
termination_by cs.length

/-- Reads the pairs of an inline table and its closing brace. At least one pair comes first. -/
def readInlinePairs (read : ValueReader) (cs : List Char) :
    Option (List (List String × Value) × List Char) :=
  match readPair read cs with
  | none => none
  | some (pair, rest) =>
    match skipGap rest with
    | '\x7d' :: rest => some ([pair], rest)
    | ',' :: rest =>
      if rest.length < cs.length then
        (readInlinePairs read rest).map fun (pairs, rest) => (pair :: pairs, rest)
      else none
    | _ => none
termination_by cs.length

/-- Reads an inline table after its opening brace. -/
def readInlineTable (read : ValueReader) (cs : List Char) : Option (Value × List Char) :=
  match skipGap cs with
  | '\x7d' :: rest => some (.table .inline [], rest)
  | here =>
    (readInlinePairs read here).bind fun (pairs, rest) =>
      (Entries.addPairs [] pairs).map fun entries => (.table .inline entries, rest)

/-- Reads a value. `room` bounds the number of containers inside each other. -/
def readValue (room : Nat) (cs : List Char) : Option (Value × List Char) :=
  match cs with
  | '[' :: rest =>
    match room with
    | 0 => none
    | room + 1 =>
      (readItems (readValue room) rest).map fun (items, rest) => (.array .bracket items, rest)
  | '\x7b' :: rest =>
    match room with
    | 0 => none
    | room + 1 => readInlineTable (readValue room) rest
  | c :: _ =>
    if c = '"' ∨ c = '\'' then
      (Quoted.read cs).map fun (text, rest) => (.string (String.ofList text), rest)
    else readScalar cs
  | [] => none

/-! ## Lines and sections -/

/-- What a section begins with. -/
inductive Header where
  | table (key : List String)
  | element (key : List String)
deriving DecidableEq, Repr

/-- One line of a document. -/
inductive Statement where
  | blank
  | pair (key : List String) (v : Value)
  | header (h : Header)
deriving Repr

/-- Reads what a line says, without the end of the line. -/
def readStatement (cs : List Char) : Option (Statement × List Char) :=
  match skipGap cs with
  | [] => some (.blank, [])
  | '#' :: rest => some (.blank, '#' :: rest)
  | '\n' :: rest => some (.blank, '\n' :: rest)
  | '\r' :: rest => some (.blank, '\r' :: rest)
  | '[' :: '[' :: rest =>
    match readKey maxDepth rest with
    | some (key, ']' :: ']' :: rest) => some (.header (.element key), rest)
    | _ => none
  | '[' :: rest =>
    match readKey maxDepth rest with
    | some (key, ']' :: rest) => some (.header (.table key), rest)
    | _ => none
  | here => (readPair (readValue maxDepth) here).map fun ((key, v), rest) => (.pair key v, rest)

/-- Reads a line with its end. -/
def readLine (cs : List Char) : Option (Statement × List Char) :=
  (readStatement cs).bind fun (s, rest) => (endLine? rest).map fun rest => (s, rest)

/-- Reads all lines. -/
def readLines (cs : List Char) : Option (List Statement) :=
  if cs.isEmpty then some []
  else
    match readLine cs with
    | none => none
    | some (s, rest) =>
      if rest.length < cs.length then (readLines rest).map fun more => s :: more else none
termination_by cs.length

/-- The pairs before the first header, and the sections after them. -/
def sections : List Statement →
    List (List String × Value) × List (Header × List (List String × Value))
  | [] => ([], [])
  | .blank :: rest => sections rest
  | .pair key v :: rest =>
    let (pairs, more) := sections rest
    ((key, v) :: pairs, more)
  | .header h :: rest =>
    let (pairs, more) := sections rest
    ([], (h, pairs) :: more)

/-! ## The root table -/

/-- Adds a section to the root table. -/
def addSection (root : Entries) (h : Header) (pairs : List (List String × Value)) :
    Option Entries :=
  match h with
  | .table key =>
    key.getLast?.bind fun last => Entries.atPath (Entries.addTable last pairs) key.dropLast root
  | .element key =>
    key.getLast?.bind fun last => Entries.atPath (Entries.addElement last pairs) key.dropLast root

/-- Adds sections to the root table. -/
def addSections (root : Entries) : List (Header × List (List String × Value)) → Option Entries
  | [] => some root
  | (h, pairs) :: rest => (addSection root h pairs).bind fun root => addSections root rest

/-- The root table of the lines of a document. -/
def assemble (statements : List Statement) : Option Entries :=
  let (pairs, more) := sections statements
  (Entries.addPairs [] pairs).bind fun root => addSections root more

/-- Reads a document: its root table, or `none` when it breaks a rule. A byte order mark may stand
before it. -/
def read? (text : String) : Option Entries :=
  (readLines (Text.dropMark text.toList)).bind assemble

example : (read? "a.b.c = 1\na.b.d = 2\n[x]\n[[x.y]]\n").isSome := by decide +kernel
example : (read? "a = 1\na = 2\n").isNone := by decide +kernel
example : (read? "[a]\n[a]\n").isNone := by decide +kernel
example : (read? "[a.b]\n[a] # c\n  k = [1, # c\n 2,]").isSome := by decide +kernel
example : (read? "[a] b = 1").isNone := by decide +kernel

end Pinfile.Toml
