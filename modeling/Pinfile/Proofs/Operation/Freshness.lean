import Pinfile.Operation.Commands
import Pinfile.Proofs.Lockfile
import Pinfile.Proofs.Operation.Saving
import Pinfile.Proofs.Operation.Steps

/-!
# Fresh locks

A lock records what its manifest resolves to, and a later check of the lock compares the record with
what the manifest resolves to then. What both depend on is the configuration, the manifest and the
lockfile, so these three are the invariant of a run (`Locked`). A step that spares them keeps it, and
so does the same lock again, which can only record the same (`Locked.after_step`). So a lock is fresh
for as long as nobody else writes what it depends on (`checkLock_of_lock`).

The path of the configuration has to be anchored for this. Otherwise a step may make a directory that
the path goes through and up again, and so bring in a configuration that no step has written
(`stale_of_new_directory`). The manifest and the lockfile are there, so their paths are anchored.
-/

namespace Pinfile.Operation

variable {here : Setting} {named : Option Path} {w : World} {s : Source} {env : Environment}
  {steps : List Step} {step : Step}

/-! ## The operations, step by step -/

/-- A manifest that resolves is locked by saving what it resolves to. -/
theorem outcome_lock (hs : w.tree.source here named = .ok s)
    (henv : Environment.resolve s.config.policy s.manifest = .ok env) :
    (lock here named).outcome w =
      (do
        saveText s.lockPath (lockOf s env).toToml
        note "Locked" (lockedNote env) : Operation Unit).outcome w := by
  unfold lock resolved writeLockfile
  rw [outcome_bind, outcome_loadSource, hs]
  dsimp only
  rw [henv, outcome_bind, outcome_orFail]
  rfl

/-- A lock succeeds only for a manifest that resolves. -/
theorem exists_resolve_of_lock (hs : w.tree.source here named = .ok s)
    (h : ((lock here named).outcome w).1 = .ok ()) :
    ∃ env, Environment.resolve s.config.policy s.manifest = .ok env := by
  unfold lock resolved at h
  rw [outcome_bind, outcome_loadSource, hs] at h
  dsimp only at h
  rw [outcome_bind, outcome_orFail] at h
  cases henv : Environment.resolve s.config.policy s.manifest with
  | error e =>
    rw [henv] at h
    cases h
  | ok env => exact ⟨env, rfl⟩

/-- Locking leaves the record in the lockfile when it succeeds, and also when it fails, if the
record was there. -/
theorem read_of_lock (hs : w.tree.source here named = .ok s)
    (henv : Environment.resolve s.config.policy s.manifest = .ok env)
    (h : ((lock here named).outcome w).1 = .ok () ∨
      w.tree.read s.lockPath = .ok (lockOf s env).toToml) :
    ((lock here named).outcome w).2.tree.read s.lockPath = .ok (lockOf s env).toToml := by
  rw [outcome_lock hs henv] at h ⊢
  obtain ⟨w₁, hchanges, ⟨e, hfailed⟩ | ⟨tree, hwrite, hsaved⟩⟩ :=
    outcome_saveText s.lockPath (lockOf s env).toToml w
  · rw [outcome_bind, hfailed] at h ⊢
    rcases h with h | hread
    · cases h
    · exact hchanges.grows.read hread
  · rw [outcome_bind, hsaved]
    exact FileTree.read_of_write hwrite

/-- A lockfile that holds the record is fresh. -/
theorem outcome_checkLock (hs : w.tree.source here named = .ok s)
    (henv : Environment.resolve s.config.policy s.manifest = .ok env)
    (hread : w.tree.read s.lockPath = .ok (lockOf s env).toToml) :
    ((checkLock here named).outcome w).1 = .ok () := by
  have hfile := FileTree.isFile_of_read hread
  have htoml := Lockfile.ofToml?_toToml (lockOf s env)
  have hfresh : (lockOf s env).isFresh s.text = true := Lockfile.isFresh_record _ _ _ _
  unfold checkLock resolved verifyLockfile readLockfile
  rw [outcome_bind, outcome_loadSource, hs]
  simp [outcome_bind, henv, hfile, hread, htoml, hfresh, Except.mapError]

/-! ## What a lock depends on -/

/-- The step that locks. -/
def Step.lock (cwd : Path) (named : Option Path) : Step := { cwd, named, command := .lock false }

/-- The step locks in that directory, for that manifest. -/
def Step.Locks (step : Step) (cwd : Path) (named : Option Path) : Prop :=
  step.cwd = cwd ∧ step.named = named ∧ step.command = .lock false
deriving Decidable

/-- The step does not write the manifest or the configuration, and if it writes the lockfile, it is
the same lock again. -/
structure Step.Spares (step : Step) (here : Setting) (named : Option Path) (s : Source)
    (w : World) : Prop where
  manifest : ¬ (step.operation here.configFile).Writes w s.path
  config : ¬ (step.operation here.configFile).Writes w here.configFile
  lockfile : step.Locks here.cwd named ∨ ¬ (step.operation here.configFile).Writes w s.lockPath

instance : Decidable (step.Spares here named s w) :=
  decidable_of_iff
    (¬ (step.operation here.configFile).Writes w s.path ∧
      ¬ (step.operation here.configFile).Writes w here.configFile ∧
      (step.Locks here.cwd named ∨ ¬ (step.operation here.configFile).Writes w s.lockPath))
    ⟨fun ⟨manifest, config, lockfile⟩ => ⟨manifest, config, lockfile⟩,
      fun h => ⟨h.manifest, h.config, h.lockfile⟩⟩

/-- Every step of a run spares what the lock of a manifest depends on. -/
def Spared (here : Setting) (named : Option Path) (s : Source) : List Step → World → Prop
  | [], _ => True
  | step :: rest, w =>
    step.Spares here named s w ∧
      Spared here named s rest ((step.operation here.configFile).outcome w).2

instance Spared.decidable (here : Setting) (named : Option Path) (s : Source) :
    ∀ steps w, Decidable (Spared here named s steps w)
  | [], _ => inferInstanceAs (Decidable True)
  | _ :: rest, _ =>
    have := decidable here named s rest
    inferInstanceAs (Decidable (_ ∧ _))

theorem Step.Locks.operation_eq (h : step.Locks here.cwd named) :
    step.operation here.configFile = Operation.lock here named := by
  obtain ⟨hcwd, hnamed, hcommand⟩ := h
  rw [Step.operation, hcwd, hnamed, hcommand]
  rfl

/-- The configuration and the manifest are as they were loaded, in a tree where they stay so unless
they are written. -/
structure Loaded (here : Setting) (s : Source) (t : FileTree) : Prop where
  rooted : t.Rooted
  anchored : t.Anchored here.configFile
  config : t.configAt here.configFile = s.config
  manifest : t.manifestAt s.path = .ok (s.text, s.manifest)

/-- The files are as the lock of a manifest has left them. -/
structure Locked (here : Setting) (s : Source) (env : Environment) (t : FileTree) : Prop extends
    Loaded here s t where
  lockfile : t.read s.lockPath = .ok (lockOf s env).toToml

/-! ## From step to step -/

/-- A step that spares the configuration and the manifest leaves both as they are. -/
theorem Loaded.after_step (h : Loaded here s w.tree) (hspares : step.Spares here named s w) :
    Loaded here s ((step.operation here.configFile).outcome w).2.tree := by
  have hgrows := outcome_grows (step.operation here.configFile) w
  have hconfig := sameFile_of_not_writes h.rooted h.anchored hspares.config
  -- the manifest is there, so nothing has to be said of its path
  have hthere := FileTree.anchored_of_isFile (isFile_of_manifestAt h.manifest)
  have hmanifest := sameFile_of_not_writes h.rooted hthere hspares.manifest
  exact {
    rooted := hgrows.rooted h.rooted
    anchored := hgrows.anchored h.anchored
    config := hconfig.configAt_eq.trans h.config
    manifest := hmanifest.manifestAt_eq_ok_iff.mpr h.manifest }

/-- One more step, before which the manifest is found as it was, leaves the files as the lock has
left them. -/
theorem Locked.after_step (h : Locked here s env w.tree)
    (henv : Environment.resolve s.config.policy s.manifest = .ok env)
    (hfound : w.tree.manifestPath here.cwd named s.config = .ok s.path)
    (hspares : step.Spares here named s w) :
    Locked here s env ((step.operation here.configFile).outcome w).2.tree := by
  have hloaded := h.toLoaded.after_step hspares
  refine ⟨hloaded, ?_⟩
  rcases hspares.lockfile with hlocks | hlockfile
  · rw [hlocks.operation_eq]
    have hs := source_eq_ok_iff.mpr ⟨h.config, hfound, h.manifest⟩
    exact read_of_lock hs henv (Or.inr h.lockfile)
  · have hthere := FileTree.anchored_of_isFile (FileTree.isFile_of_read h.lockfile)
    exact (sameFile_of_not_writes h.rooted hthere hlockfile).read_eq_ok_iff.mpr h.lockfile

/-- So do any number of steps, if the manifest is found as it was in the end. -/
theorem Locked.after_steps (h : Locked here s env w.tree)
    (henv : Environment.resolve s.config.policy s.manifest = .ok env)
    (hspared : Spared here named s steps w)
    (hfound : (runSteps here.configFile steps w).tree.manifestPath here.cwd named s.config =
      .ok s.path) :
    Locked here s env (runSteps here.configFile steps w).tree := by
  induction steps generalizing w with
  | nil => exact h
  | cons step rest ih =>
    obtain ⟨hspares, hrest⟩ := hspared
    -- what is found in the end was found before the step already
    obtain ⟨written, hgrows⟩ := runSteps_grows here.configFile (step :: rest) w
    have hnow := FileTree.manifestPath_of_grows hgrows hfound (isFile_of_manifestAt h.manifest)
    exact ih (h.after_step henv hnow hspares) hrest hfound

/-- A lock is fresh after any steps, successful or not, that write neither the manifest nor the
configuration, nor the lockfile except by the same lock again, as long as the manifest is found
where it was. The lock itself is the first of these steps. The tree has to be rooted, and the path of
the configuration may lead up only within what is there at the time of the lock. -/
theorem checkLock_of_lock {after : World} (hrooted : w.tree.Rooted)
    (hanchored : w.tree.Anchored here.configFile)
    (hsource : ((loadSource here named).outcome w).1 = .ok s)
    (hlock : ((lock here named).outcome w).1 = .ok ())
    (hafter : runSteps here.configFile (.lock here.cwd named :: steps) w = after)
    (hspared : Spared here named s (.lock here.cwd named :: steps) w)
    (hfound : ((locate here.cwd named s.config).outcome after).1 = .ok s.path) :
    ((checkLock here named).outcome after).1 = .ok () := by
  subst hafter
  rw [outcome_loadSource] at hsource
  rw [outcome_locate] at hfound
  obtain ⟨hspares, hrest⟩ := hspared
  obtain ⟨env, henv⟩ := exists_resolve_of_lock hsource hlock
  obtain ⟨hconfig, -, hmanifest⟩ := source_eq_ok_iff.mp hsource
  have hloaded : Loaded here s w.tree := ⟨hrooted, hanchored, hconfig, hmanifest⟩
  have hlocked : Locked here s env ((lock here named).outcome w).2.tree :=
    ⟨hloaded.after_step hspares, read_of_lock hsource henv (Or.inl hlock)⟩
  have hend := hlocked.after_steps henv hrest hfound
  have hs := source_eq_ok_iff.mpr ⟨hend.config, hfound, hend.manifest⟩
  exact outcome_checkLock hs henv hend.lockfile

/-- A manifest in a directory of its own, under a configuration that names its lockfile. -/
def project : World where
  tree := ((((FileTree.empty.put ["home"] .directory).put ["home", "config.toml"]
    (.file "[lock]\nfile = \"web.lock\"\n".toUTF8)).put ["work"] .directory).put
      ["work", "requirements.txt"] (.file "# Web\nflask==3.0.0\n-e .\n".toUTF8)).put
        ["work", "src"] .directory

/-- What is found for that manifest. -/
def projectSource : Source where
  config := { lockFile := "web.lock" }
  path := .ofText "/work/requirements.txt"
  text := "# Web\nflask==3.0.0\n-e .\n"
  manifest := ⟨[⟨"Web", 0, [.pin ⟨⟨"flask"⟩, "3.0.0", false, 2⟩, .editable ⟨".", [], 3⟩]⟩]⟩

/-- What is done after a lock of that manifest: an export into a new directory, the same lock again,
and a merge that fails. -/
def projectSteps : List Step :=
  [ { cwd := .ofText "/work", named := none
      command := .exportRequirements ["web"] (some "flat/all.txt") },
    .lock (.ofText "/work/src") none,
    { cwd := .ofText "/work", named := none, command := .merge ["none.txt"] (some "out.txt") } ]

theorem rooted_project : project.tree.Rooted := by
  unfold project
  repeat apply FileTree.Rooted.put
  · exact FileTree.rooted_empty
  -- every place is new and has its directory before it
  all_goals simp [FileTree.node?, FileTree.put, FileTree.empty]

theorem checkLock_project : let here : Setting := ⟨.ofText "/work/src", .ofText "/home/config.toml"⟩
    ∃ after, project.tree.Rooted ∧ project.tree.Anchored here.configFile ∧
      runSteps here.configFile (.lock here.cwd none :: projectSteps) project = after ∧
      Spared here none projectSource (.lock here.cwd none :: projectSteps) project ∧
      ((checkLock here none).outcome after).1 = .ok () := by
  intro here
  have hanchored : project.tree.Anchored here.configFile :=
    FileTree.anchored_of_plain _ (by decide +kernel)
  have hsource : ((loadSource here none).outcome project).1 = .ok projectSource := by
    decide +kernel
  have hlock : ((lock here none).outcome project).1 = .ok () := by decide +kernel
  have hspared : Spared here none projectSource (.lock here.cwd none :: projectSteps) project := by
    decide +kernel
  have hfound : ((locate here.cwd none projectSource.config).outcome
      (runSteps here.configFile (.lock here.cwd none :: projectSteps) project)).1 =
        .ok projectSource.path := by
    decide +kernel
  exact ⟨_, rooted_project, hanchored, rfl, hspared,
    checkLock_of_lock rooted_project hanchored hsource hlock rfl hspared hfound⟩

/-- The same manifest, and a configuration in the directory of a user that names another lockfile. -/
def userProject : World where
  tree := (project.tree.put ["home", ".pinset"] .directory).put ["home", ".pinset", "config.toml"]
    (.file "[lock]\nfile = \"web.lock\"\n".toUTF8)

/-- Manifests in two directories, and a configuration whose name for a manifest goes through `new`
and up again. The first directory has a directory `new`, and in the second one the lock makes it. -/
def nestedProject : World where
  tree := (((((((FileTree.empty.put ["home"] .directory).put ["home", ".pinset"] .directory).put
    ["home", ".pinset", "config.toml"]
      (.file "manifest = \"new/../web.txt\"\n[lock]\nfile = \"api/new/web.lock\"\n".toUTF8)).put
    ["work"] .directory).put ["work", "new"] .directory).put
    ["work", "web.txt"] (.file "# Web\nflask==3.0.0\n".toUTF8)).put ["work", "api"] .directory).put
    ["work", "api", "web.txt"] (.file "# Web\nflask==3.0.0\n".toUTF8)

/-- It is not enough that no step writes one of the three files. With `/home/new/..` for a home
directory, an export that makes `/home/new` lets the path of the configuration lead to a file, and
the lockfile that it names is missing. Nor is it enough for the lock itself: the directory that it
makes can let a nearer manifest be found. -/
theorem stale_of_new_directory :
    (let here : Setting :=
      ⟨.ofText "/work/src", configFileIn (userDirectory (some "/home/new/..") none)⟩
    let s : Source := { projectSource with config := {} }
    let steps : List Step :=
      [ .lock here.cwd none,
        { cwd := here.cwd, named := none
          command := .exportRequirements ["web"] (some "/home/new/all.txt") } ]
    let after := runSteps here.configFile steps userProject
    ((loadSource here none).outcome userProject).1 = .ok s ∧
      ((lock here none).outcome userProject).1 = .ok () ∧
      Spared here none s steps userProject ∧
      ((locate here.cwd none s.config).outcome after).1 = .ok s.path ∧
      ((checkLock here none).outcome after).1 = .error (.noLockfile "web.lock")) ∧
    (let here : Setting :=
      ⟨.ofText "/work/api", configFileIn (userDirectory (some "/home") none)⟩
    let s : Source :=
      { config := { manifest := "new/../web.txt", lockFile := "api/new/web.lock" }
        path := .ofText "/work/new/../web.txt"
        text := "# Web\nflask==3.0.0\n"
        manifest := ⟨[⟨"Web", 0, [.pin ⟨⟨"flask"⟩, "3.0.0", false, 2⟩]⟩]⟩ }
    let after := runSteps here.configFile [.lock here.cwd none] nestedProject
    ((loadSource here none).outcome nestedProject).1 = .ok s ∧
      ((lock here none).outcome nestedProject).1 = .ok () ∧
      Spared here none s [.lock here.cwd none] nestedProject ∧
      ((checkLock here none).outcome after).1 = .error (.noLockfile "web.lock")) := by
  constructor
  · decide +kernel
  · decide +kernel

end Pinfile.Operation
