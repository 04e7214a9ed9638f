import Pinfile.Config
import Pinfile.Failure
import Pinfile.Program

/-!
# Finding and reading manifests

Every command begins by reading the configuration and a manifest. A configuration that is broken
counts as absent. The manifest is the one the user names, taken from the working directory, or the
nearest file of the configured name in that directory and the directories above it.
-/

namespace Pinfile

/-- An operation: a program that may fail. -/
abbrev Operation := ExceptT Failure Program

/-- Where an operation runs: in which directory, and with the configuration of which file. -/
structure Setting where
  cwd : Path
  configFile : Path
deriving DecidableEq, Repr

namespace Operation

variable {α β : Type}

/-- Runs an operation: how it ends, and the world after it. -/
def outcome (op : Operation α) (w : World) : Except Failure α × World := Program.run op.run w

/-- Turns an outcome into the outcome of an operation. -/
def orFail {ε : Type} (f : ε → Failure) (r : Except ε α) : Operation α :=
  match r with
  | .ok a => pure a
  | .error e => throw (f e)

/-! ## The configuration -/

/-- The directory for the user's own files: `.pinset` in the home directory, which the first of two
variables names, and else the working directory stands for. -/
def userDirectory (home profile : Option String) : Path :=
  (Path.ofText ((home <|> profile).getD ".")).child ".pinset"

/-- The file of the configuration. -/
def configFileIn (directory : Path) : Path := directory.child "config.toml"

/-- Reads a configuration. Where there is no file, every setting has its default. -/
def readConfig (p : Path) : Operation Config := do
  if ← Program.isFile p then
    let text ← orFail (.unreadableConfig p) (← Program.readText p)
    match Config.ofToml? text with
    | some config => return config
    | none => throw (.malformedConfig p)
  else return {}

/-- Reads a configuration. A broken one counts as absent. -/
def readConfigOrDefault (p : Path) : Program Config := do
  match ← (readConfig p).run with
  | .ok config => return config
  | .error _ => return {}

/-! ## Finding a manifest -/

/-- The first of a directory and the directories above it in which the name leads to a file. -/
def findUpward (name : String) (start : Path) : Program (Option Path) := do
  if ← Program.isFile (start.child name) then return some start
  else
    match h : start.parent? with
    | none => return none
    | some parent =>
      have := Path.length_segments_of_parent? h
      findUpward name parent
termination_by start.segments.length

/-- The path of the manifest: the named one, or the nearest. -/
def locate (cwd : Path) (named : Option Path) (config : Config) : Operation Path :=
  match named with
  | some p => return cwd.join p
  | none => do
    match ← findUpward config.manifest cwd with
    | some directory => return directory.child config.manifest
    | none => throw (.noManifest config.manifest cwd)

/-! ## Reading a manifest -/

/-- A syntax error in a file, with the path of the file and the text in which the error's span is
shown. -/
structure ShownError where
  path : Path
  text : String
  error : SyntaxError
deriving DecidableEq, Repr

/-- The text of a file as its errors are shown in it: one byte order mark is passed over. -/
def shownText (text : String) : String := String.ofList (Text.dropMark text.toList)

/-- The manifest in the text of a file. One byte order mark more than in any other text is passed
over. -/
def parseShown (p : Path) (text : String) : Except ShownError Manifest :=
  (Manifest.parse (shownText text)).mapError fun e => ⟨p, shownText text, e⟩

/-- The manifest in the text of a file, with a syntax error as a failure. -/
def parseFile (p : Path) (text : String) : Except Failure Manifest :=
  (parseShown p text).mapError fun e => .malformedManifest e.path e.error

theorem parseFile_eq (p : Path) (text : String) :
    parseFile p text =
      (Manifest.parse (String.ofList (Text.dropMark text.toList))).mapError
        (Failure.malformedManifest p) := by
  unfold parseFile parseShown shownText
  cases Manifest.parse (String.ofList (Text.dropMark text.toList)) <;> rfl

/-- Reads a file with a manifest: its text, and what it says. -/
def readManifest (p : Path) : Operation (String × Manifest) := do
  let text ← orFail (.unreadableManifest p) (← Program.readText p)
  let m ← orFail id (parseFile p text)
  return (text, m)

/-- A manifest that was read, and the configuration it is checked under. -/
structure Source where
  config : Config
  path : Path
  text : String
  manifest : Manifest
deriving DecidableEq, Repr

namespace Source

/-- The name under which the manifest is recorded. -/
def name (s : Source) : String := s.path.fileName?.getD s.path.text

/-- The path of the lockfile, which lies beside the manifest. -/
def lockPath (s : Source) : Path :=
  (s.path.parent?.getD (Path.ofText ".")).child s.config.lockFile

end Source

/-- Reads the configuration and the manifest. -/
def loadSource (here : Setting) (named : Option Path) : Operation Source := do
  let config ← readConfigOrDefault here.configFile
  let path ← locate here.cwd named config
  let (text, manifest) ← readManifest path
  return { config, path, text, manifest }

/-! ## Running -/

@[simp] theorem outcome_pure (a : α) (w : World) : (pure a : Operation α).outcome w = (.ok a, w) := rfl

@[simp] theorem outcome_throw (e : Failure) (w : World) :
    (throw e : Operation α).outcome w = (.error e, w) := rfl

/-- An operation made of two runs the second only when the first succeeds. -/
theorem outcome_bind (op : Operation α) (f : α → Operation β) (w : World) :
    (op >>= f).outcome w =
      match op.outcome w with
      | (.ok a, w) => (f a).outcome w
      | (.error e, w) => (.error e, w) := by
  unfold outcome
  rw [ExceptT.run_bind, Program.run_bind]
  rcases Program.run op.run w with ⟨r, after⟩
  cases r <;> rfl

/-- A program is an operation that does not fail. -/
@[simp] theorem outcome_lift (p : Program α) (w : World) :
    (monadLift p : Operation α).outcome w = (.ok (p.run w).1, (p.run w).2) := by
  simp [outcome]

end Operation
end Pinfile
