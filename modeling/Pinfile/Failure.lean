import Pinfile.Environment
import Pinfile.Files.Tree
import Pinfile.Manifest.Parser

/-!
# Failures of operations

Why an operation ends without doing its work. A manifest that cannot be read as one, and one that is
not valid, have reports of their own; the other causes lie in the files around them and in the names
that were asked for.
-/

namespace Pinfile

/-- What the user may be told about a syntax error besides its wording. -/
def LineFault.code : LineFault → String
  | .missingHeader => "pinset::parse::missing_header"
  | .emptyHeader => "pinset::parse::empty_header"
  | .invalidEntry _ => "pinset::parse::invalid_line"

/-- What to do about a faulty line, where there is something to say. -/
def LineFault.help? : LineFault → Option String
  | .missingHeader => some "Begin each blank-line separated section with a `# Group name` comment"
  | .emptyHeader => none
  | .invalidEntry _ => some "Entries must be `name==version` or `-e <path>[extras]`"

/-- What stands beside the marked stretch of a faulty text. -/
def LineFault.label : LineFault → String
  | .missingHeader => "expected `# <group>` before this line"
  | .emptyHeader => "empty header"
  | .invalidEntry _ => "not a pin or editable marker"

/-- Why an operation failed. -/
inductive Failure where
  /-- A result could not be written. -/
  | output (e : FileError)
  /-- A manifest could not be read. -/
  | unreadableManifest (path : Path) (e : FileError)
  /-- No directory above the given one holds a manifest of the name. -/
  | noManifest (name : String) (start : Path)
  /-- The text of a manifest is no manifest. -/
  | malformedManifest (path : Path) (e : SyntaxError)
  /-- A manifest is not valid, or manifests cannot be merged. -/
  | problems (report : Report)
  /-- No group goes by a name. -/
  | unknownGroup (e : UnknownGroup)
  /-- There is no lockfile. -/
  | noLockfile (name : String)
  /-- The lockfile could not be read. -/
  | unreadableLockfile (path : Path) (e : FileError)
  /-- The text of a lockfile is no lockfile. -/
  | malformedLockfile (path : Path)
  /-- The lockfile is not what would be recorded now. -/
  | staleLockfile (name source : String)
  /-- The configuration could not be read. -/
  | unreadableConfig (path : Path) (e : FileError)
  /-- The text of a configuration is no configuration. -/
  | malformedConfig (path : Path)
  /-- There is nothing to merge. -/
  | nothingToMerge
deriving DecidableEq, Repr

namespace Failure

/-- The wording of a file that could not be read. -/
def unread (path : Path) (e : FileError) : String :=
  "Failed to read " ++ path.text ++ ": " ++ e.message

/-- The wording of a file that could not be understood. -/
def notUnderstood (path : Path) : String := "Failed to parse " ++ path.text

/-- The wording of a failure. -/
def message : Failure → String
  | output e => "I/O error: " ++ e.message
  | unreadableManifest path e => "Manifest error: " ++ unread path e
  | noManifest name start =>
    "Manifest error: Could not find " ++ name ++ " in " ++ start.text ++
      " or any parent directory"
  | malformedManifest _ e => e.message
  | problems report => report.message
  | unknownGroup e => "Resolution failed: " ++ e.message
  | noLockfile name => "Lockfile error: " ++ name ++ " does not exist"
  | unreadableLockfile path e => "Lockfile error: " ++ unread path e
  | malformedLockfile path => "Lockfile error: " ++ notUnderstood path
  | staleLockfile name source =>
    "Lockfile error: " ++ name ++ " is out of date with " ++ source
  | unreadableConfig path e => "Config error: " ++ unread path e
  | malformedConfig path => "Config error: " ++ notUnderstood path
  | nothingToMerge => "merge needs at least one manifest"

/-- The code that names the kind of a failure, for the failures that have one. -/
def code? : Failure → Option String
  | malformedManifest _ e => some e.fault.code
  | problems _ => some Report.code
  | _ => none

/-- What to do about a failure, where there is something to say. -/
def help? : Failure → Option String
  | unreadableManifest .. | noManifest .. => some "Pass the manifest path with --manifest"
  | noLockfile .. | unreadableLockfile .. | malformedLockfile .. | staleLockfile .. =>
    some "Run `pinset lock` to regenerate it"
  | malformedManifest _ e => e.fault.help?
  | problems _ => some Report.help
  | _ => none

end Failure
end Pinfile
