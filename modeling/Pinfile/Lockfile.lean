import Pinfile.Digest.Sha256
import Pinfile.Environment
import Pinfile.Toml.Reader
import Pinfile.Toml.Value

/-!
# Lockfiles

A lockfile records a resolved environment together with the name of the manifest it came from and
the checksum of that manifest's text. It is written as a TOML document: first the plain fields, then
the groups as an array of tables, each with its packages as an array of tables inside it. An empty
array is written in brackets.
-/

namespace Pinfile

/-- A recorded environment. -/
structure Lockfile where
  /-- The file name of the manifest. -/
  source : String
  /-- The checksum of the manifest's text. -/
  checksum : String
  /-- What is installed in editable form. -/
  editable : Option String := none
  groups : List PackageGroup := []
deriving DecidableEq, Repr

namespace Lockfile

/-- The record of what a manifest of the given name and text asks for. -/
def record (source text : String) (editable : Option String) (groups : List PackageGroup) :
    Lockfile :=
  ⟨source, Digest.checksum text, editable, groups⟩

/-- The lockfile was recorded from a text with the same checksum. -/
def isFresh (lock : Lockfile) (text : String) : Bool := lock.checksum == Digest.checksum text

/-! ## Writing -/

/-- The line of a field. -/
def fieldLine (name value : String) : List Char :=
  name.toList ++ " = ".toList ++ Toml.Quoted.write value.toList ++ ['\n']

/-- The line of a field that is an empty array. -/
def emptyLine (name : String) : List Char := name.toList ++ " = []\n".toList

/-- The lines of a package. -/
def packageLines (p : Package) : List Char :=
  "\n[[group.package]]\n".toList ++ fieldLine "name" p.name ++ fieldLine "version" p.version

/-- The lines of a group. -/
def groupLines (g : PackageGroup) : List Char :=
  "\n[[group]]\n".toList ++ fieldLine "name" g.name ++
    (if g.packages.isEmpty then emptyLine "package" else g.packages.flatMap packageLines)

/-- The lines of a lockfile. -/
def toChars (lock : Lockfile) : List Char :=
  fieldLine "source" lock.source ++ fieldLine "checksum" lock.checksum ++
    lock.editable.elim [] (fieldLine "editable") ++
    (if lock.groups.isEmpty then emptyLine "group" else lock.groups.flatMap groupLines)

/-- The text of a lockfile. -/
def toToml (lock : Lockfile) : String := String.ofList lock.toChars

/-! ## Reading -/

/-- Reads a package. -/
def readPackage (v : Toml.Value) : Option Package := do
  match ← v.fields? ["name", "version"] with
  | [some name, some version] => return ⟨← name.asString?, ← version.asString?⟩
  | _ => none

/-- Reads a group. Its packages may be absent. -/
def readGroup (v : Toml.Value) : Option PackageGroup := do
  match ← v.fields? ["name", "package"] with
  | [some name, packages] =>
    let name ← name.asString?
    let packages ← Toml.Value.optional (Toml.Value.asList? readPackage) [] packages
    return ⟨name, packages⟩
  | _ => none

/-- Reads the root table of a lockfile. The editable install and the groups may be absent. -/
def ofEntries? (root : Toml.Entries) : Option Lockfile := do
  let source ← (← root.value? "source").asString?
  let checksum ← (← root.value? "checksum").asString?
  let editable ← Toml.Value.optional (fun v => v.asString?.map some) none (root.value? "editable")
  let groups ← Toml.Value.optional (Toml.Value.asList? readGroup) [] (root.value? "group")
  return ⟨source, checksum, editable, groups⟩

/-- Reads the text of a lockfile. -/
def ofToml? (text : String) : Option Lockfile := (Toml.read? text).bind ofEntries?

/-- A lockfile is fresh for the text it was recorded from. -/
@[simp] theorem isFresh_record (source text : String) (editable : Option String)
    (groups : List PackageGroup) : (record source text editable groups).isFresh text = true := by
  simp [record, isFresh]

example : ofToml? (toToml ⟨"r", "c", some ".[x]", [⟨"A", [⟨"a", "1"⟩]⟩, ⟨"B", []⟩]⟩) =
    some ⟨"r", "c", some ".[x]", [⟨"A", [⟨"a", "1"⟩]⟩, ⟨"B", []⟩]⟩ := by decide +kernel

end Lockfile

/-- The record of an environment. -/
def Environment.toLockfile (env : Environment) (source text : String) : Lockfile :=
  .record source text (env.editable.map EditableInstall.target) env.groups

end Pinfile
