import Pinfile.Arrivals
import Pinfile.Lockfile
import Pinfile.Manifest.Printer
import Pinfile.Merge
import Pinfile.Operation.Output

/-!
# The operations

`check` says whether a manifest is valid, `show` prints the environment it resolves to, and
`export` gives that environment as a flat list of requirements. None of them changes a file, except
that an export may be written to one.

`lock` records the environment of a manifest in the lockfile beside it. `checkLock` writes nothing;
it succeeds when the lockfile holds what would be recorded now.

The layers of a merge are read from files, the lowest first. Each file is read on its own, and
`mergeArrived` takes the manifests in whatever order they arrive. The merged manifest has to be valid
under the user's configuration, and is printed or written to a file.
-/

namespace Pinfile.Operation

/-! ## Checking, showing and exporting -/

/-- A validation, with its report as the failure. -/
def validated (policy : VersionPolicy) (m : Manifest) : Operation Unit :=
  orFail .problems (m.validate policy)

/-- The environment of a manifest, with the report on it as the failure. -/
def resolved (s : Source) : Operation Environment :=
  orFail .problems (Environment.resolve s.config.policy s.manifest)

/-- The note on a group. -/
def groupNote (g : Group) : String := g.name ++ " (" ++ g.entries.length.repr ++ " entries)"

/-- Notes every group. -/
def noteGroups : List Group → Program Unit
  | [] => pure ()
  | g :: rest => do
    note "Group" (groupNote g)
    noteGroups rest

/-- The note on a valid manifest. -/
def checkedNote (s : Source) : String :=
  s.name ++ " (" ++ s.manifest.groups.length.repr ++ " groups, " ++ s.manifest.pinCount.repr ++
    " pins)"

/-- Checks a manifest. On request the groups are noted first. -/
def check (here : Setting) (named : Option Path) (verbose : Bool) : Operation Unit := do
  let s ← loadSource here named
  if verbose then noteGroups s.manifest.groups
  validated s.config.policy s.manifest
  note "Checked" (checkedNote s)

/-- The text of an environment: as JSON with a line end, or as a tree. -/
def environmentText (env : Environment) (json : Bool) : String :=
  if json then env.toJson.pretty ++ "\n" else env.tree

/-- Shows the environment of a manifest, all of it or the named groups. -/
def showEnvironment (here : Setting) (named : Option Path) (groups : List String) (json : Bool) :
    Operation Unit := do
  let s ← loadSource here named
  let env ← resolved s
  let env ← orFail .unknownGroup (env.filterGroups groups)
  Program.printText (environmentText env json)

/-- Exports the environment of a manifest, all of it or the named groups. -/
def exportRequirements (here : Setting) (named : Option Path) (groups : List String)
    (output : Option Path) : Operation Unit := do
  let s ← loadSource here named
  let env ← resolved s
  let text ← orFail .unknownGroup (env.requirements groups)
  deliver (output.map here.cwd.join) text fun p => note "Exported" p.text

/-! ## Locking -/

/-- What locking records for a manifest that resolves. -/
def lockOf (s : Source) (env : Environment) : Lockfile := env.toLockfile s.name s.text

/-- Reads a lockfile. -/
def readLockfile (p : Path) : Operation Lockfile := do
  let text ← orFail (.unreadableLockfile p) (← Program.readText p)
  match Lockfile.ofToml? text with
  | some lock => return lock
  | none => throw (.malformedLockfile p)

/-- Writes a lockfile. -/
def writeLockfile (p : Path) (lock : Lockfile) : Operation Unit := saveText p lock.toToml

/-- The note on a written lockfile. -/
def lockedNote (env : Environment) : String :=
  env.packageCount.repr ++ " packages in " ++ env.groups.length.repr ++ " groups"

/-- Writes the lockfile of a manifest. -/
def lock (here : Setting) (named : Option Path) : Operation Unit := do
  let s ← loadSource here named
  let env ← resolved s
  writeLockfile s.lockPath (lockOf s env)
  note "Locked" (lockedNote env)

/-- Checks that the lockfile at a path holds what would be recorded now. -/
def verifyLockfile (s : Source) (expected : Lockfile) : Operation Unit := do
  let name := s.lockPath.fileName?.getD ""
  if !(← Program.isFile s.lockPath) then throw (.noLockfile name)
  let existing ← readLockfile s.lockPath
  if existing.isFresh s.text && existing == expected then note "Fresh" name
  else
    note "Stale" name
    throw (.staleLockfile name s.name)

/-- Checks the lockfile of a manifest. -/
def checkLock (here : Setting) (named : Option Path) : Operation Unit := do
  let s ← loadSource here named
  let env ← resolved s
  verifyLockfile s (lockOf s env)

/-! ## Merging -/

/-- Reads the manifests in files, each on its own. -/
def readEach : List Path → Program (List (Except Failure Manifest))
  | [] => pure []
  | p :: rest => do
    let r ← (readManifest p).run
    let more ← readEach rest
    return r.map Prod.snd :: more

/-- Reads the manifests in files, in the order of the files. -/
def readManifests (paths : List Path) : Operation (List Manifest) := do
  let results ← readEach paths
  orFail id (Arrival.gather results.length (Arrival.inOrder results))

/-- The note on a written merge. -/
def mergedNote (count : Nat) (p : Path) : String :=
  count.repr ++ " manifests into " ++ p.text

/-- Merges the manifests of so many files, as they arrive. -/
def mergeArrived (here : Setting) (output : Option Path) (count : Nat)
    (arrivals : List (Arrival Failure Manifest)) : Operation Unit := do
  let layers ← orFail id (Arrival.gather count arrivals)
  let merged ← orFail .problems (Manifest.merge layers)
  let config ← readConfigOrDefault here.configFile
  validated config.policy merged
  deliver (output.map here.cwd.join) merged.render fun p => note "Merged" (mergedNote layers.length p)

/-- Merges the manifests in files. -/
def mergeFiles (here : Setting) (inputs : List Path) (output : Option Path) : Operation Unit := do
  if inputs.isEmpty then throw .nothingToMerge
  let results ← readEach (inputs.map here.cwd.join)
  mergeArrived here output results.length (Arrival.inOrder results)

end Pinfile.Operation
