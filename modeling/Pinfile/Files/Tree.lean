import Pinfile.Files.Path

/-!
# Trees of files

A file tree says for every place, given by the names that lead to it from the root, whether a file
or a directory is there. The root is a directory. Paths are followed from the root, name by name:
each text of a path but the last has to lead to a directory, `..` leads to the parent, and the empty
text and `.` stay. There are no links, so a place has one way to it.

Some paths lead nowhere in any tree: the empty one, one that holds a NUL character, and one that is
too long (`Path.fault?`). With any other path an operation fails for the first of these causes that
it meets: nothing is at a place on the way, something on the way is no directory, a name is too long,
a directory stands where a file is wanted, something stands where a new directory is wanted.
-/

namespace Pinfile

/-- What stands at a place. -/
inductive Node where
  | file (content : ByteArray)
  | directory

/-- Why an operation on files fails. -/
inductive FileError where
  | notFound
  | exists
  | notDirectory
  | isDirectory
  /-- A name or a whole path has too many bytes. -/
  | nameTooLong
  /-- A path holds a NUL character. -/
  | nulCharacter
  /-- The content of a file is no text. -/
  | notText
  /-- A failure of the machine that has nothing to do with the tree. -/
  | other (code : Nat) (details : String)
deriving DecidableEq, Repr

/-- The wording of a file error. -/
def FileError.message : FileError → String
  | notFound => "No such file or directory (os error 2)"
  | .exists => "File exists (os error 17)"
  | notDirectory => "Not a directory (os error 20)"
  | isDirectory => "Is a directory (os error 21)"
  | nameTooLong => "File name too long (os error 36)"
  | nulCharacter => "file name contained an unexpected NUL byte"
  | notText => "stream did not contain valid UTF-8"
  | other code details => details ++ " (os error " ++ code.repr ++ ")"

/-! ## Limits -/

/-- The most bytes that a name may have. -/
def maxNameSize : Nat := 255

/-- The most bytes that the text of a path may have. -/
def maxPathSize : Nat := 4095

/-- Why a path leads nowhere, whatever the tree. -/
def Path.fault? (p : Path) : Option FileError :=
  if p.text.toList.contains '\x00' then some .nulCharacter
  else if p.text.isEmpty then some .notFound
  else if maxPathSize < p.text.utf8ByteSize then some .nameTooLong
  else none

/-- What stands where. The root is a directory, whatever is recorded for it. -/
structure FileTree where
  recorded : List String → Option Node

namespace FileTree

/-- The tree of the root alone. -/
def empty : FileTree := ⟨fun _ => none⟩

/-- What stands at a place. -/
def node? (t : FileTree) (place : List String) : Option Node :=
  if place.isEmpty then some .directory else t.recorded place

/-- The tree with something put at a place. -/
def put (t : FileTree) (place : List String) (n : Node) : FileTree :=
  ⟨fun q => if q = place then some n else t.recorded q⟩

/-- The tree without a place and everything below it. -/
def prune (t : FileTree) (place : List String) : FileTree :=
  ⟨fun q => if place.isPrefixOf q then none else t.recorded q⟩

/-- What stands at a place after something was put somewhere. -/
theorem node?_put (t : FileTree) (place q : List String) (n : Node) (h : place ≠ []) :
    (t.put place n).node? q = if q = place then some n else t.node? q := by
  unfold node? put
  by_cases hq : q = []
  · subst hq
    simp [Ne.symm h]
  · simp [hq]

/-! ## Following paths -/

/-- Succeeds when a directory stands at the place. -/
def checkDirectory (t : FileTree) (place : List String) : Except FileError Unit :=
  match t.node? place with
  | none => .error .notFound
  | some (.file _) => .error .notDirectory
  | some .directory => .ok ()

/-- The place that a text of a path leads to from the place of a directory. -/
def placeOf (place : List String) (s : String) : Except FileError (List String) :=
  if s = "" ∨ s = "." then .ok place
  else if s = ".." then .ok place.dropLast
  else if maxNameSize < s.utf8ByteSize then .error .nameTooLong
  else .ok (place ++ [s])

/-- Goes from a place, which has to be a directory, to where a text of a path leads. -/
def enter (t : FileTree) (place : List String) (s : String) : Except FileError (List String) := do
  t.checkDirectory place
  placeOf place s

/-- The place that texts lead to from another place. Nothing needs to be there. -/
def follow (t : FileTree) (place : List String) (segments : List String) :
    Except FileError (List String) := segments.foldlM t.enter place

/-- What stands at a path, with its place, or why nothing does. -/
def find (t : FileTree) (p : Path) : Except FileError (List String × Node) :=
  match p.fault? with
  | some e => .error e
  | none => do
    let place ← t.follow [] p.segments
    match t.node? place with
    | some n => return (place, n)
    | none => throw .notFound

/-- Whether a path leads to something, and to what kind. -/
inductive Kind where
  | file
  | directory
deriving DecidableEq, Repr

/-- The kind of what stands at a path, if anything does. -/
def kind? (t : FileTree) (p : Path) : Option Kind :=
  match t.find p with
  | .ok (_, .file _) => some .file
  | .ok (_, .directory) => some .directory
  | .error _ => none

/-- A file stands at the path. -/
def isFile (t : FileTree) (p : Path) : Bool := t.kind? p == some .file

/-! ## Reading -/

/-- The text of the file at a path. -/
def read (t : FileTree) (p : Path) : Except FileError String := do
  match ← t.find p with
  | (_, .directory) => throw .isDirectory
  | (_, .file content) =>
    match String.fromUTF8? content with
    | some text => return text
    | none => throw .notText

/-! ## Writing -/

/-- Splits off the last text of a path with the slashes after it: the texts before it, the last text
and whether slashes follow; `none` when there is no text but slashes. -/
def splitLast (segments : List String) : Option (List String × String × Bool) :=
  match segments.reverse.dropWhile fun s => s == "" with
  | [] => none
  | s :: rest => some (rest.reverse, s, segments.getLast? == some "")

/-- The text is no name: it leads to a directory that is there already. -/
def isDots (s : String) : Bool := s == "." || s == ".."

/-- Writes a text to the file at a path, which is made when it is missing. Its directory has to
exist. -/
def write (t : FileTree) (p : Path) (text : String) : Except FileError FileTree :=
  match p.fault?, splitLast p.segments with
  | some e, _ => .error e
  | none, none => .error .isDirectory
  | none, some (way, name, slash) => do
    let folder ← t.follow [] way
    t.checkDirectory folder
    if slash || isDots name then throw .isDirectory
    let place ← placeOf folder name
    match t.node? place with
    | some .directory => throw .isDirectory
    | _ => return t.put place (.file text.toUTF8)

/-- Makes a directory in a directory that exists. -/
def makeDir (t : FileTree) (p : Path) : Except FileError FileTree :=
  match p.fault?, splitLast p.segments with
  | some e, _ => .error e
  | none, none => .error .exists
  | none, some (way, name, _) => do
    let folder ← t.follow [] way
    t.checkDirectory folder
    if isDots name then throw .exists
    let place ← placeOf folder name
    match t.node? place with
    | some _ => throw .exists
    | none => return t.put place .directory

/-! ## Small laws -/

/-- Following texts and then more texts is following all of them. -/
theorem follow_append (t : FileTree) (place : List String) (ss rest : List String) :
    t.follow place (ss ++ rest) = (t.follow place ss).bind fun q => t.follow q rest := by
  simp [follow, List.foldlM_append, bind]

/-- A file that can be read is a file. -/
theorem isFile_of_read {t : FileTree} {p : Path} {s : String} (h : t.read p = .ok s) :
    t.isFile p = true := by
  unfold read at h
  unfold isFile kind?
  cases hf : t.find p with
  | error e => simp [hf, bind, Except.bind] at h
  | ok found =>
    obtain ⟨place, n⟩ := found
    cases n with
    | directory => simp [hf, bind, Except.bind, throw, throwThe, MonadExceptOf.throw] at h
    | file content => simp

example : (Path.ofText "a\x00").fault? = some .nulCharacter := by decide +kernel
example : (Path.ofText "/a").fault? = none ∧ (Path.ofText "").fault? = some .notFound := by
  decide +kernel

end FileTree
end Pinfile
