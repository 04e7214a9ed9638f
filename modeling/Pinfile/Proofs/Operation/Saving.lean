import Pinfile.Operation.Output
import Pinfile.Proofs.Files.Growth
import Pinfile.Proofs.Operation.Reading

/-!
# Saving a text

Saving makes the directories that lead to the file and then writes the file, or it fails and has
written nothing (`outcome_saveText`). The directories that may have been made are those that the path
goes through, from parent to parent (`Path.upward`). What was saved is what is read
(`read_of_saveText`).
-/

namespace Pinfile.Operation

open FileTree (Changes)

variable {p : Path} {text : String} {w w' : World}

/-! ## Directories -/

theorem run_settleDirectory (p : Path) (e : FileError) (w : World) :
    ((settleDirectory p e).run w).2 = w := by
  rw [settleDirectory, Program.run_bind, Program.isDirectory, Program.run_map]
  split <;> rfl

theorem changes_makeDirAt (p : Path) (w : World) :
    Changes [] [p] w.tree ((Program.makeDirAt p).run w).2.tree := by
  rw [Program.run_makeDirAt]
  cases h : w.tree.makeDir p with
  | error e => exact .refl w.tree
  | ok tree => exact .of_makeDir h

/-- Whatever directories are made, the path goes through them. -/
theorem changes_makeDirectories (p : Path) (w : World) :
    Changes [] p.upward w.tree ((makeDirectories p).run w).2.tree := by
  -- from a directory to the one above it, which is made first when it is missing
  induction p using makeDirectories.induct generalizing w with
  | case1 p hnowhere =>
    rw [makeDirectories, if_pos hnowhere]
    exact .refl w.tree
  | case2 p hnowhere ih =>
    have hself : ∀ w, Changes [] p.upward w.tree ((Program.makeDirAt p).run w).2.tree :=
      fun w => (changes_makeDirAt p w).mono (by simp [Path.mem_upward_self])
    rw [makeDirectories, if_neg hnowhere, Program.run_bind]
    split
    · exact hself w
    · split
      · exact hself w
      · next parent hparent =>
        have habove := (hself w).trans ((ih parent hparent _).mono (Path.upward_subset hparent))
        rw [Program.run_bind]
        split
        · exact habove
        · rw [Program.run_bind]
          split
          · exact habove.trans (hself _)
          · rw [run_settleDirectory]
            exact habove.trans (hself _)
    · rw [run_settleDirectory]
      exact hself w

theorem changes_prepareDirectory (p : Path) (w : World) :
    Changes [] p.upward.tail w.tree ((prepareDirectory p).run w).2.tree := by
  unfold prepareDirectory
  split
  · exact .refl w.tree
  · next parent hparent =>
    rw [Path.upward_of_some hparent, List.tail_cons, Program.run_bind]
    split
    · exact .refl w.tree
    · exact changes_makeDirectories parent w

/-! ## Files -/

/-- Saving either fails, with no more than directories made, or ends with the file written. -/
theorem outcome_saveText (p : Path) (text : String) (w : World) :
    ∃ w₁, Changes [] p.upward.tail w.tree w₁.tree ∧
      ((∃ e, (saveText p text).outcome w = (.error e, w₁)) ∨
        ∃ tree, w₁.tree.write p text = .ok tree ∧
          (saveText p text).outcome w = (.ok (), { w₁ with tree })) := by
  refine ⟨((prepareDirectory p).run w).2, changes_prepareDirectory p w, ?_⟩
  unfold saveText
  simp only [outcome_bind, outcome_lift, outcome_orFail]
  cases ((prepareDirectory p).run w).1 with
  | error e => exact Or.inl ⟨_, rfl⟩
  | ok u =>
    dsimp only [Except.mapError]
    rw [Program.run_writeAt]
    cases ((prepareDirectory p).run w).2.tree.write p text with
    | error e => exact Or.inl ⟨_, rfl⟩
    | ok tree => exact Or.inr ⟨tree, rfl, rfl⟩

/-- What was saved is what is read. -/
theorem read_of_saveText (h : (saveText p text).outcome w = (.ok (), w')) :
    w'.tree.read p = .ok text := by
  obtain ⟨w₁, -, ⟨e, hfailed⟩ | ⟨tree, hwrite, hsaved⟩⟩ := outcome_saveText p text w
  · rw [h] at hfailed
    cases hfailed
  · rw [h] at hsaved
    cases hsaved
    exact FileTree.read_of_write hwrite

end Pinfile.Operation
