import Pinfile.Operation.Source
import Pinfile.Proofs.Files.Upward
import Pinfile.Proofs.Results

/-!
# What operations read

What the operations read is a function of the tree, and reading leaves the world as it is: for the
configuration (`run_readConfigOrDefault`), the way to a manifest (`outcome_locate`), a manifest
(`outcome_readManifest`) and all of these together (`outcome_loadSource`).
-/

namespace Pinfile

namespace FileTree

/-- The configuration in a file, or the default one where none can be read. -/
def configAt (t : FileTree) (p : Path) : Config :=
  if t.isFile p then
    match t.read p with
    | .ok text => (Config.ofToml? text).getD {}
    | .error _ => {}
  else {}

/-- The first of a directory and the directories above it in which the name leads to a file. -/
def nearest? (t : FileTree) (name : String) (start : Path) : Option Path :=
  start.upward.find? fun directory => t.isFile (directory.child name)

/-- The path of the manifest, the named one or the nearest. -/
def manifestPath (t : FileTree) (cwd : Path) (named : Option Path) (config : Config) :
    Except Failure Path :=
  match named with
  | some p => .ok (cwd.join p)
  | none =>
    match t.nearest? config.manifest cwd with
    | some directory => .ok (directory.child config.manifest)
    | none => .error (.noManifest config.manifest cwd)

/-- The text of a file and the manifest in it. -/
def manifestAt (t : FileTree) (p : Path) : Except Failure (String × Manifest) :=
  match t.read p with
  | .ok text => (Operation.parseFile p text).map fun m => (text, m)
  | .error e => .error (.unreadableManifest p e)

/-- The manifest that an operation works on. -/
def source (t : FileTree) (here : Setting) (named : Option Path) :
    Except Failure Operation.Source := do
  let config := t.configAt here.configFile
  let path ← t.manifestPath here.cwd named config
  let (text, manifest) ← t.manifestAt path
  return { config, path, text, manifest }

end FileTree

namespace Operation

variable {α β : Type}

@[simp] theorem outcome_orFail {ε : Type} (f : ε → Failure) (r : Except ε α) (w : World) :
    (orFail f r).outcome w = (r.mapError f, w) := by
  cases r <;> rfl

/-- Two operations in a row succeed where both do. -/
theorem outcome_bind_eq_ok_iff {op : Operation α} {f : α → Operation β} {w w' : World} {b : β} :
    (op >>= f).outcome w = (.ok b, w') ↔
      ∃ a w₁, op.outcome w = (.ok a, w₁) ∧ (f a).outcome w₁ = (.ok b, w') := by
  rw [outcome_bind]
  rcases op.outcome w with ⟨_ | a, w₁⟩
  · simp
  · constructor
    · exact fun h => ⟨a, w₁, rfl, h⟩
    · rintro ⟨_, _, heq, h⟩
      cases heq
      exact h

theorem outcome_orFail_bind_eq_ok_iff {ε : Type} {g : ε → Failure} {r : Except ε α}
    {f : α → Operation β} {w w' : World} {b : β} :
    (orFail g r >>= f).outcome w = (.ok b, w') ↔ ∃ a, r = .ok a ∧ (f a).outcome w = (.ok b, w') := by
  rw [outcome_bind, outcome_orFail]
  cases r <;> simp [Except.mapError]

theorem outcome_lift_bind (q : Program α) (f : α → Operation β) (w : World) :
    ((monadLift q : Operation α) >>= f).outcome w = (f (q.run w).1).outcome (q.run w).2 := by
  rw [outcome_bind, outcome_lift]

/-- Reading a configuration ends with one exactly where there is no file or a file that is one. -/
theorem outcome_readConfig (p : Path) (w : World) :
    ∃ r, (readConfig p).outcome w = (r, w) ∧ r.toOption.getD {} = w.tree.configAt p := by
  unfold readConfig FileTree.configAt
  simp only [outcome_bind, outcome_lift, Program.run_isFile]
  cases w.tree.isFile p with
  | false => exact ⟨_, rfl, rfl⟩
  | true =>
    simp only [if_true, outcome_bind, outcome_lift, Program.run_readText, outcome_orFail]
    cases w.tree.read p with
    | error e => exact ⟨_, rfl, rfl⟩
    | ok text =>
      dsimp only [Except.mapError]
      cases Config.ofToml? text <;> exact ⟨_, rfl, rfl⟩

theorem run_readConfigOrDefault (p : Path) (w : World) :
    (readConfigOrDefault p).run w = (w.tree.configAt p, w) := by
  obtain ⟨r, houtcome, hconfig⟩ := outcome_readConfig p w
  have hrun : Program.run (readConfig p).run w = (r, w) := houtcome
  rw [readConfigOrDefault, Program.run_bind, hrun, ← hconfig]
  cases r <;> rfl

/-- A search that asks each time what stands somewhere is a search in the tree. -/
theorem run_findM?_isFile (f : α → Path) (xs : List α) (w : World) :
    (xs.findM? fun a => Program.isFile (f a)).run w = (xs.find? fun a => w.tree.isFile (f a), w) := by
  induction xs with
  | nil => rfl
  | cons a rest ih =>
    rw [List.findM?, List.find?_cons, Program.run_bind, Program.run_isFile]
    cases w.tree.isFile (f a) with
    | true => rfl
    | false => exact ih

/-- Looking upward is a search in the list of the paths upward, whatever the answers are. -/
theorem findUpward_eq_findM? (name : String) (start : Path) :
    findUpward name start = start.upward.findM? fun d => Program.isFile (d.child name) := by
  -- from directory to directory, the way both go up
  induction start using Path.upward.induct with
  | _ start ih =>
    rw [findUpward]
    split
    · next hparent =>
      rw [Path.upward_of_none hparent, List.findM?]
      apply bind_congr
      intro found
      cases found <;> rfl
    · next parent hparent =>
      rw [Path.upward_of_some hparent, List.findM?, ih parent hparent]
      apply bind_congr
      intro found
      cases found <;> rfl

theorem run_findUpward (name : String) (start : Path) (w : World) :
    (findUpward name start).run w = (w.tree.nearest? name start, w) := by
  rw [findUpward_eq_findM?, run_findM?_isFile]
  rfl

theorem outcome_locate (cwd : Path) (named : Option Path) (config : Config) (w : World) :
    (locate cwd named config).outcome w = (w.tree.manifestPath cwd named config, w) := by
  unfold locate FileTree.manifestPath
  cases named with
  | some p => rfl
  | none =>
    simp only [outcome_bind, outcome_lift, run_findUpward]
    cases w.tree.nearest? config.manifest cwd <;> rfl

theorem outcome_readManifest (p : Path) (w : World) :
    (readManifest p).outcome w = (w.tree.manifestAt p, w) := by
  unfold readManifest FileTree.manifestAt
  simp only [outcome_bind, outcome_lift, Program.run_readText, outcome_orFail]
  cases w.tree.read p with
  | error e => rfl
  | ok text =>
    dsimp only [Except.mapError]
    cases parseFile p text <;> rfl

/-- What a file says is what its text says without the byte order mark. -/
theorem manifestAt_eq_ok_iff {t : FileTree} {p : Path} {text : String} {m : Manifest} :
    t.manifestAt p = .ok (text, m) ↔
      t.read p = .ok text ∧ Manifest.parse (String.ofList (Text.dropMark text.toList)) = .ok m := by
  unfold FileTree.manifestAt
  cases t.read p with
  | error e => simp
  | ok s =>
    dsimp only
    rw [parseFile_eq]
    constructor
    · intro h
      obtain ⟨m', hm', heq⟩ := map_eq_ok_iff.mp h
      obtain ⟨rfl, rfl⟩ := Prod.mk.inj heq
      exact ⟨rfl, mapError_eq_ok_iff.mp hm'⟩
    · rintro ⟨heq, hparse⟩
      obtain rfl := Except.ok.inj heq
      rw [hparse]
      rfl

/-- Where a manifest was read, there is a file. -/
theorem isFile_of_manifestAt {t : FileTree} {p : Path} {text : String} {m : Manifest}
    (h : t.manifestAt p = .ok (text, m)) : t.isFile p = true :=
  FileTree.isFile_of_read (manifestAt_eq_ok_iff.mp h).1

theorem outcome_loadSource (here : Setting) (named : Option Path) (w : World) :
    (loadSource here named).outcome w = (w.tree.source here named, w) := by
  unfold loadSource FileTree.source
  simp only [outcome_bind, outcome_lift, run_readConfigOrDefault, outcome_locate]
  cases w.tree.manifestPath here.cwd named (w.tree.configAt here.configFile) with
  | error e => rfl
  | ok path =>
    simp only [outcome_readManifest]
    dsimp only [bind, Except.bind]
    cases w.tree.manifestAt path <;> rfl

/-- What a manifest is found to be depends on the configuration, the path and the file. -/
theorem source_eq_ok_iff {t : FileTree} {here : Setting} {named : Option Path} {s : Source} :
    t.source here named = .ok s ↔
      t.configAt here.configFile = s.config ∧
        t.manifestPath here.cwd named s.config = .ok s.path ∧
        t.manifestAt s.path = .ok (s.text, s.manifest) := by
  unfold FileTree.source
  simp only [bind_eq_ok_iff]
  constructor
  · rintro ⟨path, hpath, ⟨text, manifest⟩, hmanifest, hs⟩
    obtain rfl := Except.ok.inj hs
    exact ⟨rfl, hpath, hmanifest⟩
  · rintro ⟨hconfig, hpath, hmanifest⟩
    rw [hconfig]
    exact ⟨s.path, hpath, (s.text, s.manifest), hmanifest, rfl⟩

end Operation
end Pinfile
