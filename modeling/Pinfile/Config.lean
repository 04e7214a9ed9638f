import Pinfile.Toml.Reader
import Pinfile.Toml.Value
import Pinfile.Version

/-!
# The configuration

What a user can set once for all: the file name under which manifests are looked for, whether
versions with two numbers are accepted, and the file name of lockfiles. Every setting may be absent
and then has its default. A configuration is a TOML document with the keys `manifest`,
`validate.allow-short-versions` and `lock.file`.
-/

namespace Pinfile

/-- The settings of a user. -/
structure Config where
  /-- The file name of manifests. -/
  manifest : String := "requirements.txt"
  /-- Whether versions with two release numbers are accepted. -/
  allowShort : Bool := false
  /-- The file name of lockfiles. -/
  lockFile : String := "pinset.lock"
deriving DecidableEq, Repr, Inhabited

namespace Config

/-- How strict the reading of versions is. -/
def policy (c : Config) : VersionPolicy := ⟨c.allowShort⟩

/-- Reads a record with a single field, which may be absent. -/
def readOnly {α : Type} (field : String) (read : Toml.Value → Option α) (default : α)
    (v : Toml.Value) : Option α :=
  (v.fields? [field]).bind fun values => Toml.Value.optional read default (values.head?.join)

/-- Reads the root table of a configuration. -/
def ofEntries? (root : Toml.Entries) : Option Config := do
  let default : Config := {}
  let manifest ←
    Toml.Value.optional Toml.Value.asString? default.manifest (root.value? "manifest")
  let allowShort ←
    Toml.Value.optional
      (readOnly "allow-short-versions" Toml.Value.asBool? default.allowShort)
      default.allowShort (root.value? "validate")
  let lockFile ←
    Toml.Value.optional (readOnly "file" Toml.Value.asString? default.lockFile)
      default.lockFile (root.value? "lock")
  return { manifest, allowShort, lockFile }

/-- Reads the text of a configuration. -/
def ofToml? (text : String) : Option Config := (Toml.read? text).bind ofEntries?

example : ofToml? "" = some {} := by decide +kernel
example : ofToml? "validate = [true]\nlock = 1979-05-27\n" = some { allowShort := true } := by
  decide +kernel
example : ofToml? "[[lock]]\n" = none := by decide +kernel

end Config
end Pinfile
