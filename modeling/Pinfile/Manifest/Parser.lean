import Pinfile.Manifest.EntryLine

/-!
# Reading a manifest

Blank lines divide the text into sections. The first line of a section has to be a header, `# name`
with any number of `#`; the section's other lines are entries, or comments, which begin with `#`.
A header that names an earlier group continues it. Reading goes from line to line with a *cursor*:
the groups so far and the group that the current section belongs to. The first faulty line ends it,
so what comes after that line has no say in the error.

Only the form of the lines is checked here; whether the pins are in order is for validation.
-/

namespace Pinfile

open Text

/-- A stretch of a text, in bytes. -/
structure Span where
  offset : Nat
  length : Nat
deriving DecidableEq, Repr

/-- What is wrong with a line. -/
inductive LineFault where
  /-- A section that begins with an entry. -/
  | missingHeader
  /-- A header without a name. -/
  | emptyHeader
  /-- A line that is neither a comment nor an entry. -/
  | invalidEntry (reason : EntryFault)
deriving DecidableEq, Repr

/-- The first fault of a manifest's text, with its line and the stretch that the trimmed line takes
up in the text after a leading byte order mark. -/
structure SyntaxError where
  fault : LineFault
  line : Nat
  span : Span
deriving DecidableEq, Repr

/-- The wording of a syntax error. -/
def SyntaxError.message (e : SyntaxError) : String :=
  "line " ++ e.line.repr ++ ": " ++
    match e.fault with
    | .missingHeader => "section does not start with a group header"
    | .emptyHeader => "group header has no name"
    | .invalidEntry reason => reason.message

namespace Manifest

/-! ## One line -/

/-- Where reading stands between two lines: the groups so far, and the position of the group that
the current section adds to, if a section is open. -/
structure Cursor where
  groups : List Group := []
  current : Option Nat := none
deriving DecidableEq, Repr

/-- The name in a header: what follows its leading `#`s, trimmed. `none` when the line is no
header. -/
def headerName? (content : List Char) : Option (List Char) :=
  match content with
  | '#' :: rest => some (trim (rest.dropWhile (· == '#')))
  | _ => none

/-- Opens the section of the named group, which is a new one when no group goes by the name. -/
def Cursor.openGroup (s : Cursor) (name : String) : Cursor :=
  match s.groups.findIdx? (·.isNamed name) with
  | some i => { s with current := some i }
  | none => ⟨s.groups ++ [{ name }], some s.groups.length⟩

/-- Adds an entry to the group at the given position. -/
def Cursor.push (s : Cursor) (i : Nat) (e : Entry) : Cursor :=
  { s with groups := s.groups.modify i (·.push e) }

/-- The fault of a line as an error. -/
def faultAt (line : Line) (fault : LineFault) : SyntaxError :=
  ⟨fault, line.number, ⟨line.offset, byteSize line.content⟩⟩

/-- The first line of a section. -/
def Cursor.header (s : Cursor) (line : Line) : Except SyntaxError Cursor :=
  match headerName? line.content with
  | none => .error (faultAt line .missingHeader)
  | some [] => .error (faultAt line .emptyHeader)
  | some name => .ok (s.openGroup (String.ofList name))

/-- A line of the section of group `i` after its first. -/
def Cursor.body (s : Cursor) (i : Nat) (line : Line) : Except SyntaxError Cursor :=
  if line.content.head? = some '#' then .ok s
  else
    match EntryLine.parseEntry line.number line.content with
    | .ok e => .ok (s.push i e)
    | .error reason => .error (faultAt line (.invalidEntry reason))

/-- Reads one line. -/
def Cursor.step (s : Cursor) (line : Line) : Except SyntaxError Cursor :=
  if line.content.isEmpty then .ok { s with current := none }
  else
    match s.current with
    | none => s.header line
    | some i => s.body i line

/-! ## The whole text -/

/-- Reads lines from the given cursor on. -/
def readLines (s : Cursor) (ls : List Line) : Except SyntaxError Cursor := ls.foldlM Cursor.step s

/-- Reads a text, given as characters, that has no byte order mark before it. -/
def parseChars (cs : List Char) : Except SyntaxError Manifest :=
  (readLines {} (lines cs)).map fun s => ofGroups s.groups

/-- Reads the text of a manifest. -/
def parse (text : String) : Except SyntaxError Manifest := parseChars (dropMark text.toList)

/-- Reading the lines of one text after those of another is reading all of them. -/
theorem readLines_append (s : Cursor) (ls rest : List Line) :
    readLines s (ls ++ rest) = (readLines s ls).bind fun s' => readLines s' rest := by
  simp [readLines, List.foldlM_append, bind]

example : (parse "# A\nx==1.0.0\n\n# a\ny==2").toOption.map pinCount = some 2 := by
  decide +kernel
example : (parse "x==1").toOption = none := by decide +kernel

end Manifest
end Pinfile
