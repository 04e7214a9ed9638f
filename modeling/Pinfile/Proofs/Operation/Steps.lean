import Pinfile.CommandLine.Dispatch
import Pinfile.Proofs.Files.Growth
import Pinfile.Proofs.Operation.Search

/-!
# Uses of the program, one after another

A program changes the files only by the writes that succeed. `Program.written` collects their places
along a run, and the tree after the run is the tree before it, grown by writing there (`run_grows`).

The program is used many times on the same files: each time from some directory, with some command,
and it may succeed or fail (`Step`, `runSteps`). Between two uses the files are what the first one
left, so over any number of uses the tree only grows (`runSteps_grows`). A use that does not write
the file at a path (`Operation.Writes`) leaves an anchored path leading to the file that it led to
(`sameFile_of_not_writes`), and the nearest manifest that is found in the end was the nearest one at
every time since it is there (`manifestPath_of_grows`).
-/

namespace Pinfile

/-! ## What a run changes -/

/-- The place of what a path leads to, if it leads to anything. -/
def FileTree.placesAt (t : FileTree) (p : Path) : List (List String) :=
  match t.find p with
  | .ok (place, _) => [place]
  | .error _ => []

namespace Program

variable {α : Type}

/-- The places of the files that a program writes. -/
def written (p : Program α) (w : World) : List (List String) :=
  match p with
  | done _ => []
  | read path next => (next (w.tree.read path)).written w
  | kind path next => (next (w.tree.kind? path)).written w
  | makeDir path next =>
    let (r, w) := answer w (w.tree.makeDir path)
    (next r).written w
  | write path text next =>
    let (r, w) := answer w (w.tree.write path text)
    (if r.isOk then w.tree.placesAt path else []) ++ (next r).written w
  | print text next => next.written { w with printed := w.printed ++ text }
  | note text next => next.written { w with noted := w.noted ++ text }

/-- After a run the tree has grown by what was written. -/
theorem run_grows (p : Program α) (w : World) :
    FileTree.Grows (p.written w) w.tree (p.run w).2.tree := by
  induction p generalizing w with
  | done a => exact .refl w.tree
  | read path next ih => exact ih _ w
  | kind path next ih => exact ih _ w
  | makeDir path next ih =>
    unfold written run answer
    cases h : w.tree.makeDir path with
    | error e => exact ih _ w
    | ok tree =>
      obtain ⟨place, hplace, hparent, hnone, rfl, -⟩ := FileTree.exists_of_makeDir h
      exact (FileTree.Grows.put_directory hplace hparent hnone).trans (ih _ _)
  | write path text next ih =>
    unfold written run answer
    cases h : w.tree.write path text with
    | error e => exact ih _ w
    | ok tree =>
      obtain ⟨place, hplace, hparent, hnode, rfl, hfind⟩ := FileTree.exists_of_write h
      have hplaces : (w.tree.put place (.file text.toUTF8)).placesAt path = [place] := by
        rw [FileTree.placesAt, hfind]
      dsimp only
      rw [hplaces]
      exact (FileTree.Grows.put_file hplace hparent hnode text.toUTF8).trans (ih _ _)
  | print text next ih => exact ih _
  | note text next ih => exact ih _

end Program

/-! ## The same file at a path -/

namespace FileTree

variable {t t' : FileTree} {p : Path} {text : String} {m : Manifest}
  {written : List (List String)}

/-- The path leads to the same file in both trees, with the same content, or to no file in either. -/
def SameFile (t t' : FileTree) (p : Path) : Prop :=
  ∀ place c, t'.find p = .ok (place, .file c) ↔ t.find p = .ok (place, .file c)

namespace SameFile

theorem isFile_eq (h : SameFile t t' p) : t'.isFile p = t.isFile p := by
  rw [Bool.eq_iff_iff, isFile_iff, isFile_iff]
  exact exists_congr fun place => exists_congr fun c => h place c

theorem read_eq_ok_iff (h : SameFile t t' p) : t'.read p = .ok text ↔ t.read p = .ok text := by
  rw [FileTree.read_eq_ok_iff, FileTree.read_eq_ok_iff]
  exact exists_congr fun place => exists_congr fun c => and_congr_left' (h place c)

theorem configAt_eq (h : SameFile t t' p) : t'.configAt p = t.configAt p := by
  unfold configAt
  rw [h.isFile_eq]
  -- two files that cannot be read may differ in why
  cases hread : t.read p with
  | ok text => rw [h.read_eq_ok_iff.mpr hread]
  | error e =>
    cases hread' : t'.read p with
    | ok text =>
      rw [h.read_eq_ok_iff.mp hread'] at hread
      cases hread
    | error e' => rfl

theorem manifestAt_eq_ok_iff (h : SameFile t t' p) :
    t'.manifestAt p = .ok (text, m) ↔ t.manifestAt p = .ok (text, m) := by
  rw [Operation.manifestAt_eq_ok_iff, Operation.manifestAt_eq_ok_iff, h.read_eq_ok_iff]

end SameFile

/-- The manifest that is found in a grown tree is the one that was found before, if it was there. -/
theorem manifestPath_of_grows {cwd : Path} {named : Option Path} {config : Config}
    (h : Grows written t t') (hfound : t'.manifestPath cwd named config = .ok p)
    (hfile : t.isFile p = true) : t.manifestPath cwd named config = .ok p := by
  cases named with
  | some q => exact hfound
  | none =>
    obtain ⟨directory, n, hnearest, rfl⟩ := manifestPath_eq_ok_iff.mp hfound
    apply manifestPath_eq_ok_iff.mpr
    refine ⟨directory, n, ⟨hnearest.upward, hfile, fun m d hm hd => ?_⟩, rfl⟩
    -- a file that is nearer would still be there
    by_contra hthere
    have hlater := h.isFile (by simpa using hthere)
    rw [hnearest.nearer m d hm hd] at hlater
    cases hlater

end FileTree

/-! ## What an operation writes -/

namespace Operation

variable {α : Type} {op : Operation α} {w : World} {p : Path}

/-- The places of the files that an operation writes. -/
def written (op : Operation α) (w : World) : List (List String) := Program.written op.run w

theorem outcome_grows (op : Operation α) (w : World) :
    FileTree.Grows (op.written w) w.tree (op.outcome w).2.tree :=
  Program.run_grows op.run w

/-- The operation writes the file at a path: after it the path leads to a file that it has
written. -/
def Writes (op : Operation α) (w : World) (p : Path) : Prop :=
  ∃ place c, (op.outcome w).2.tree.find p = .ok (place, .file c) ∧ place ∈ op.written w

instance : Decidable (op.Writes w p) :=
  decidable_of_iff
    ((match (op.outcome w).2.tree.find p with
      | .ok (place, .file _) => decide (place ∈ op.written w)
      | _ => false) = true) <| by
    unfold Writes
    rcases (op.outcome w).2.tree.find p with e | ⟨place, c | _⟩ <;> simp

/-- What is not written stays as it is, where the path is anchored. -/
theorem sameFile_of_not_writes (hrooted : w.tree.Rooted) (hanchored : w.tree.Anchored p)
    (h : ¬ op.Writes w p) : FileTree.SameFile w.tree (op.outcome w).2.tree p := by
  have hgrows := outcome_grows op w
  have hnew : ∀ place c, (op.outcome w).2.tree.find p = .ok (place, .file c) →
      place ∉ op.written w := fun place c hfind hmem => h ⟨place, c, hfind, hmem⟩
  intro place c
  constructor
  · intro hfind
    exact hgrows.find_file_of_anchored hrooted hanchored (hnew place c hfind) hfind
  · intro hfind
    -- whatever is there afterwards, the path leads to the same place
    obtain ⟨c', hlater⟩ := hgrows.find_file hfind
    exact hgrows.find_file_kept (hnew place c' hlater) hfind

/-! ## Steps -/

/-- One use of the program: a command in a working directory, with what was said about it. -/
structure Step where
  cwd : Path
  named : Option Path
  verbose : Bool := false
  command : CommandLine.Command
deriving DecidableEq, Repr

/-- The operation of a step. -/
def Step.operation (configFile : Path) (step : Step) : Operation Unit :=
  step.command.perform ⟨step.cwd, configFile⟩ step.named step.verbose

/-- Uses the program step by step, whether or not the steps succeed. -/
def runSteps (configFile : Path) : List Step → World → World
  | [], w => w
  | step :: rest, w => runSteps configFile rest ((step.operation configFile).outcome w).2

/-- Over any number of steps the tree only grows. -/
theorem runSteps_grows (configFile : Path) (steps : List Step) (w : World) :
    ∃ written, FileTree.Grows written w.tree (runSteps configFile steps w).tree := by
  induction steps generalizing w with
  | nil => exact ⟨[], .refl w.tree⟩
  | cons step rest ih =>
    obtain ⟨written, hrest⟩ := ih ((step.operation configFile).outcome w).2
    exact ⟨_, (outcome_grows _ w).trans hrest⟩

end Operation
end Pinfile
