import Pinfile.Manifest.Basic

/-!
# Entry lines

The line of an entry is cut at its first `#` into a body and a comment. A body that begins with
`-e` or `--editable` is a marker, `path[extra,extra]`; every other body has to be a pin,
`name==version`. A pin is an override when its comment is the word `override` in any letter case.

`parseEntry` says which entry a line holds, or gives the first fault found in it. The comment is
looked at for pins alone, and never makes a line faulty.
-/

namespace Pinfile

open Text

/-- Why a line holds no entry. -/
inductive EntryFault where
  /-- A marker without a path. -/
  | missingTarget
  /-- An opening bracket that the target does not end by closing. -/
  | unclosedExtras (target : String)
  /-- A marker whose path is empty or holds a blank. -/
  | invalidPath (target : String)
  /-- A feature that is no valid name. -/
  | invalidExtra (extra : String)
  /-- A comparison other than `==`. -/
  | notExact (body : String)
  /-- No comparison at all. -/
  | notPinned (body : String)
  /-- A pinned name that is no valid package name. -/
  | invalidName (name : String)
  /-- Nothing after the `==`. -/
  | missingVersion (name : String)
  /-- A version with a character that no version can hold. -/
  | unsupportedVersion (version name : String)
deriving DecidableEq, Repr

/-- The wording of an entry fault. -/
def EntryFault.message : EntryFault → String
  | .missingTarget => "editable marker has no target"
  | .unclosedExtras target => "unclosed extras in '" ++ target ++ "'"
  | .invalidPath target => "invalid editable path in '" ++ target ++ "'"
  | .invalidExtra extra => "invalid extra '" ++ extra ++ "'"
  | .notExact body => "'" ++ body ++ "' is not an exact `==` pin"
  | .notPinned body => "expected `name==version`, found '" ++ body ++ "'"
  | .invalidName name => "invalid package name '" ++ name ++ "'"
  | .missingVersion name => "missing version for '" ++ name ++ "'"
  | .unsupportedVersion version name =>
    "unsupported version '" ++ version ++ "' for '" ++ name ++ "'"

namespace EntryLine

/-! ## Body and comment -/

/-- Cuts a line at its first `#`: the trimmed body, and the trimmed comment if there is one. -/
def cutComment (content : List Char) : List Char × Option (List Char) :=
  match cutAt? ['#'] content with
  | some (body, comment) => (trim body, some (trim comment))
  | none => (content, none)

/-- Whether a comment marks its pin as an override. -/
def marksOverride (comment : Option (List Char)) : Bool :=
  match comment with
  | some cs => sameIgnoringAsciiCase (String.ofList cs) "override"
  | none => false

/-! ## Markers -/

/-- Whether the text is empty or begins with a blank. -/
def startsBlank : List Char → Bool
  | [] => true
  | c :: _ => isBlank c

/-- The two spellings of the option that begins a marker. -/
def longOption : List Char := "--editable".toList

/-- The short spelling of the option that begins a marker. -/
def shortOption : List Char := "-e".toList

/-- What a marker asks for, or `none` when the body is no marker. The long option may be joined to
its target by an equals sign. -/
def target? (body : List Char) : Option (List Char) :=
  match afterPrefix? longOption body with
  | some ('=' :: rest) => some (trim rest)
  | some rest => if startsBlank rest then some (trim rest) else none
  | none =>
    match afterPrefix? shortOption body with
    | some rest => if startsBlank rest then some (trim rest) else none
    | none => none

/-- The features of a bracketed list: its items, trimmed, without the blank ones. -/
def splitExtras (inner : List Char) : List (List Char) :=
  ((inner.splitOn ',').map trim).filter fun item => !item.isEmpty

/-- Splits a target into its path and its features. -/
def splitTarget (target : List Char) : Except EntryFault (List Char × List (List Char)) :=
  match cutAt? ['['] target with
  | none => .ok (target, [])
  | some (path, rest) =>
    match beforeSuffix? [']'] rest with
    | none => .error (.unclosedExtras (String.ofList target))
    | some inner => .ok (trim path, splitExtras inner)

/-- Reads what a marker asks for. -/
def parseMarker (line : Nat) (target : List Char) : Except EntryFault Marker := do
  if target.isEmpty then throw .missingTarget
  let (path, extras) ← splitTarget target
  if path.isEmpty || path.any isBlank then throw (.invalidPath (String.ofList target))
  let names := extras.map String.ofList
  match names.find? fun extra => !PackageName.isValid extra with
  | some bad => throw (.invalidExtra bad)
  | none => return ⟨String.ofList path, names, line⟩

/-! ## Pins -/

/-- The characters of the comparisons that fix no version. -/
def isComparison (c : Char) : Bool := c == '<' || c == '>' || c == '~' || c == '!' || c == '='

/-- The characters that a version may hold before it is checked to be exact. -/
def isVersionChar (c : Char) : Bool :=
  c.isAlphanum || c == '.' || c == '+' || c == '!' || c == '-' || c == '_' || c == '*'

/-- Reads a pin. -/
def parsePin (line : Nat) (isOverride : Bool) (body : List Char) : Except EntryFault Pin :=
  match cutAt? ['=', '='] body with
  | none =>
    if body.any isComparison then .error (.notExact (String.ofList body))
    else .error (.notPinned (String.ofList body))
  | some (before, after) =>
    let name := String.ofList (trim before)
    let version := trim after
    if !PackageName.isValid name then .error (.invalidName name)
    else if version.isEmpty then .error (.missingVersion name)
    else if !version.all isVersionChar then
      .error (.unsupportedVersion (String.ofList version) name)
    else .ok ⟨⟨name⟩, String.ofList version, isOverride, line⟩

/-! ## Entries -/

/-- Reads the entry on a trimmed line. -/
def parseEntry (line : Nat) (content : List Char) : Except EntryFault Entry :=
  let (body, comment) := cutComment content
  match target? body with
  | some target => (parseMarker line target).map Entry.editable
  | none => (parsePin line (marksOverride comment) body).map Entry.pin

example : (parseEntry 3 "-e .[full, docs]".toList).toOption =
    some (.editable ⟨".", ["full", "docs"], 3⟩) := by decide +kernel
example : (parseEntry 1 "pytest == 8.3.4 # Override".toList).toOption =
    some (.pin ⟨⟨"pytest"⟩, "8.3.4", true, 1⟩) := by decide +kernel
example : (parseEntry 1 "pytest>=8".toList).toOption = none := by decide +kernel
example : (parseEntry 1 "--editable=".toList).toOption = none := by decide +kernel

end EntryLine
end Pinfile
