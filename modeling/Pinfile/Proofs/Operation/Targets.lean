import Pinfile.Proofs.Operation.Merging
import Pinfile.Proofs.Operation.Recording

/-!
# What operations do to files

Looking at a manifest changes no file. The operations that save a text, `lock`, `exportRequirements` and
`mergeFiles`, have one target each, and saving is the last thing that they do which can fail: what goes
before it reads files only. So they change the target when they succeed, and no file when they fail
(`operations_touch_target`).

`LeavesFiles` passes through the parts of an operation (`LeavesFiles.bind`). `SavesOnly` passes over
parts that only read, up to the saving at the end (`SavesOnly.bind`).
-/

namespace Pinfile.Operation

open FileTree (Changes)

variable {α β : Type} {here : Setting} {named target : Option Path} {w : World} {text : String}

/-! ## Looking -/

/-- However the operation ends, the files are as they were. -/
def LeavesFiles (op : Operation α) : Prop := ∀ w, (op.outcome w).2.tree = w.tree

namespace LeavesFiles

theorem bind {op : Operation α} {f : α → Operation β} (h : op.LeavesFiles)
    (hf : ∀ a, (f a).LeavesFiles) : (op >>= f).LeavesFiles := by
  intro w
  have hop := h w
  rw [outcome_bind]
  rcases hcases : op.outcome w with ⟨_ | a, w₁⟩ <;> rw [hcases] at hop
  · exact hop
  · exact (hf a w₁).trans hop

theorem of_program {q : Program α} (h : ∀ w, (q.run w).2.tree = w.tree) :
    (monadLift q : Operation α).LeavesFiles := by
  intro w
  rw [outcome_lift]
  exact h w

theorem orFail {ε : Type} (g : ε → Failure) (r : Except ε α) : (orFail g r).LeavesFiles := by
  intro w
  rw [outcome_orFail]

theorem loadSource (here : Setting) (named : Option Path) :
    (loadSource here named).LeavesFiles := by
  intro w
  rw [outcome_loadSource]

theorem note (label message : String) :
    (monadLift (note label message) : Operation Unit).LeavesFiles := of_program fun _ => rfl

end LeavesFiles

theorem tree_noteGroups (gs : List Group) (w : World) : ((noteGroups gs).run w).2.tree = w.tree := by
  induction gs generalizing w with
  | nil => rfl
  | cons g gs ih =>
    rw [noteGroups, Program.run_bind, ih]
    rfl

theorem leavesFiles_check (here : Setting) (named : Option Path) (verbose : Bool) :
    (check here named verbose).LeavesFiles := by
  refine .bind (.loadSource here named) fun s => ?_
  have hlast := (LeavesFiles.orFail Failure.problems (s.manifest.validate s.config.policy)).bind
    fun _ => .note "Checked" (checkedNote s)
  cases verbose with
  | false => exact hlast
  | true => exact .bind (.of_program (tree_noteGroups s.manifest.groups)) fun _ => hlast

theorem leavesFiles_showEnvironment (here : Setting) (named : Option Path) (groups : List String)
    (json : Bool) : (showEnvironment here named groups json).LeavesFiles := by
  refine .bind (.loadSource here named) fun s => ?_
  refine .bind (.orFail _ _) fun env => ?_
  refine .bind (.orFail _ _) fun env => ?_
  exact .of_program fun _ => rfl

theorem leavesFiles_checkLock (here : Setting) (named : Option Path) :
    (checkLock here named).LeavesFiles := by
  intro w
  obtain ⟨after, htree, houtcome⟩ := exists_outcome_checkLock here named w
  rw [houtcome]
  exact htree

/-! ## Saving -/

/-- How an operation may end that saves its result at a target, if it has one. When it succeeds, the
target leads to a file with the result. When it fails, no file is written, and unless there was a
result to save, nothing is changed at all. Besides, directories may have been made that the way to the
target goes through. Without a target nothing is changed. -/
def SavesOnly (target : Option Path) (result : String → Prop) (w : World) :
    Except Failure Unit × World → Prop
  | (ending, after) =>
    match target, ending with
    | none, _ => after.tree = w.tree
    | some p, .ok () =>
      ∃ text place, result text ∧ after.tree.find p = .ok (place, .file text.toUTF8) ∧
        Changes [place] p.upward.tail w.tree after.tree
    | some p, .error _ =>
      after.tree = w.tree ∨ (∃ text, result text) ∧ Changes [] p.upward.tail w.tree after.tree

namespace SavesOnly

variable {result result' : String → Prop} {r : Except Failure Unit × World}

theorem imp (h : SavesOnly target result w r) (hresult : ∀ text, result text → result' text) :
    SavesOnly target result' w r := by
  obtain ⟨ending, after⟩ := r
  cases target with
  | none => exact h
  | some p =>
    cases ending with
    | ok =>
      obtain ⟨text, place, htext, hsaved⟩ := h
      exact ⟨text, place, hresult text htext, hsaved⟩
    | error e =>
      rcases h with hsame | ⟨⟨text, htext⟩, hchanges⟩
      · exact Or.inl hsame
      · exact Or.inr ⟨⟨text, hresult text htext⟩, hchanges⟩

theorem of_error (target : Option Path) (result : String → Prop) (e : Failure) (w : World) :
    SavesOnly target result w (.error e, w) := by
  cases target with
  | none => rfl
  | some p => exact Or.inl rfl

/-- What only reads may come before. -/
theorem bind {op : Operation α} {f : α → Operation Unit} (hop : (op.outcome w).2 = w)
    (h : ∀ a, op.outcome w = (.ok a, w) → SavesOnly target result w ((f a).outcome w)) :
    SavesOnly target result w ((op >>= f).outcome w) := by
  rw [outcome_bind]
  rcases hcases : op.outcome w with ⟨e | a, w₁⟩ <;> rw [hcases] at hop <;> subst hop
  · exact of_error target result e w₁
  · exact h a hcases

/-- So may the parts whose result was there already. -/
theorem orFail_bind {ε : Type} {g : ε → Failure} {r : Except ε α} {f : α → Operation Unit}
    (h : ∀ a, r = .ok a → SavesOnly target result w ((f a).outcome w)) :
    SavesOnly target result w ((orFail g r >>= f).outcome w) := by
  refine bind (by rw [outcome_orFail]) fun a ha => h a ?_
  rw [outcome_orFail] at ha
  exact mapError_eq_ok_iff.mp (Prod.mk.inj ha).1

end SavesOnly

theorem savesOnly_deliver (target : Option Path) (text : String) {done : Path → Program Unit}
    (hdone : ∀ p w, ((done p).run w).2.tree = w.tree) (w : World) :
    SavesOnly target (· = text) w ((deliver target text done).outcome w) := by
  cases target with
  | none => rfl
  | some p =>
    have hsteps : (deliver (some p) text done).outcome w =
        (saveText p text >>= fun _ => monadLift (done p)).outcome w := rfl
    rw [hsteps, outcome_bind]
    obtain ⟨w₁, hchanges, ⟨e, hfailed⟩ | ⟨tree, hwrite, hsaved⟩⟩ := outcome_saveText p text w
    · rw [hfailed]
      exact Or.inr ⟨⟨text, rfl⟩, hchanges⟩
    · rw [hsaved]
      dsimp only
      rw [outcome_lift]
      obtain ⟨place, hfind, hwritten⟩ := Changes.exists_of_write p.upward.tail hwrite
      refine ⟨text, place, rfl, ?_, ?_⟩
      · rw [hdone]
        exact hfind
      · rw [hdone]
        exact hchanges.trans hwritten

/-! ## Targets -/

/-- A manifest that does not resolve is not locked; one that does is saved at its lockfile. -/
theorem savesOnly_lock (here : Setting) (named : Option Path) (w : World) :
    (∃ e, (lock here named).outcome w = (.error e, w)) ∨
      ∃ s env, Resolves here named w s env ∧
        SavesOnly (some s.lockPath) (· = (lockOf s env).toToml) w ((lock here named).outcome w) := by
  have hload := outcome_loadSource here named w
  cases hs : w.tree.source here named with
  | error e =>
    rw [hs] at hload
    refine Or.inl ⟨e, ?_⟩
    rw [lock, outcome_bind, hload]
  | ok s =>
    rw [hs] at hload
    cases henv : Environment.resolve s.config.policy s.manifest with
    | error report =>
      refine Or.inl ⟨.problems report, ?_⟩
      rw [lock, outcome_bind, hload]
      dsimp only
      rw [resolved, henv, outcome_bind, outcome_orFail]
      rfl
    | ok env =>
      refine Or.inr ⟨s, env, ⟨congrArg Prod.fst hload, henv⟩, ?_⟩
      have hnote : ∀ (_ : Path) w, ((note "Locked" (lockedNote env)).run w).2.tree = w.tree :=
        fun _ _ => rfl
      rw [outcome_lock hs henv]
      exact savesOnly_deliver (some s.lockPath) (lockOf s env).toToml hnote w

theorem savesOnly_exportRequirements (here : Setting) (named : Option Path) (groups : List String)
    (output : Option Path) (w : World) :
    SavesOnly (output.map here.cwd.join)
      (fun text => ∃ s env, Resolves here named w s env ∧ env.requirements groups = .ok text) w
      ((exportRequirements here named groups output).outcome w) := by
  refine .bind (by rw [outcome_loadSource]) fun s hs => ?_
  refine .orFail_bind fun env henv => ?_
  refine .orFail_bind fun text htext => ?_
  refine (savesOnly_deliver _ text (fun _ _ => rfl) w).imp ?_
  rintro _ rfl
  exact ⟨s, env, ⟨congrArg Prod.fst hs, henv⟩, htext⟩

/-- In whatever order the manifests arrive. -/
theorem savesOnly_mergeArrived (here : Setting) (output : Option Path) (count : Nat)
    (arrivals : List (Arrival Failure Manifest)) (w : World) :
    SavesOnly (output.map here.cwd.join)
      (fun text => ∃ layers r, Arrival.gather count arrivals = .ok layers ∧
        Manifest.merge layers = .ok r ∧ text = r.render) w
      ((mergeArrived here output count arrivals).outcome w) := by
  refine .orFail_bind fun layers hlayers => ?_
  refine .orFail_bind fun r hr => ?_
  refine .bind (by rw [outcome_lift, run_readConfigOrDefault]) fun config _ => ?_
  refine .orFail_bind fun _ _ => ?_
  refine (savesOnly_deliver _ r.render (fun _ _ => rfl) w).imp ?_
  rintro _ rfl
  exact ⟨layers, r, hlayers, hr, rfl⟩

theorem savesOnly_mergeFiles (here : Setting) (inputs : List Path) (output : Option Path)
    (w : World) :
    SavesOnly (output.map here.cwd.join)
      (fun text => ∃ layers r, readings w.tree (inputs.map here.cwd.join) = layers.map .ok ∧
        Manifest.merge layers = .ok r ∧ text = r.render) w
      ((mergeFiles here inputs output).outcome w) := by
  by_cases hinputs : inputs = []
  · subst hinputs
    exact .of_error _ _ .nothingToMerge w
  · unfold mergeFiles
    rw [if_neg (by simpa using hinputs), outcome_lift_bind, run_readEach]
    refine (savesOnly_mergeArrived here output _ _ w).imp ?_
    rintro _ ⟨layers, r, hlayers, hr, rfl⟩
    exact ⟨layers, r, Arrival.gather_inOrder_eq_ok_iff.mp hlayers, hr, rfl⟩

/-- Operations touch no file but their target, and that only when they succeed. Checking and showing a
manifest and checking its lockfile change nothing, however they end. A lock ends with the record in
the lockfile, an export with the requirements in its output and a merge with the rendered merge in its
output, and with every other file as it was; or it fails, with all files as they were and no more than
directories made on the way to the target. Without an output an export and a merge change nothing. -/
theorem operations_touch_target (here : Setting) (named : Option Path) (w : World) :
    (∀ verbose, ((check here named verbose).outcome w).2.tree = w.tree) ∧
    (∀ groups json, ((showEnvironment here named groups json).outcome w).2.tree = w.tree) ∧
    ((checkLock here named).outcome w).2.tree = w.tree ∧
    ((∃ e, (lock here named).outcome w = (.error e, w)) ∨
      ∃ s env, Resolves here named w s env ∧
        SavesOnly (some s.lockPath) (· = (lockOf s env).toToml) w
          ((lock here named).outcome w)) ∧
    (∀ groups output, SavesOnly (output.map here.cwd.join)
      (fun text => ∃ s env, Resolves here named w s env ∧ env.requirements groups = .ok text) w
      ((exportRequirements here named groups output).outcome w)) ∧
    (∀ inputs output, SavesOnly (output.map here.cwd.join)
      (fun text => ∃ layers r, readings w.tree (inputs.map here.cwd.join) = layers.map .ok ∧
        Manifest.merge layers = .ok r ∧ text = r.render) w
      ((mergeFiles here inputs output).outcome w)) ∧
    ∀ output count arrivals, SavesOnly (output.map here.cwd.join)
      (fun text => ∃ layers r, Arrival.gather count arrivals = .ok layers ∧
        Manifest.merge layers = .ok r ∧ text = r.render) w
      ((mergeArrived here output count arrivals).outcome w) := by
  refine ⟨fun verbose => ?_, fun groups json => ?_, ?_, ?_, fun groups output => ?_,
    fun inputs output => ?_, fun output count arrivals => ?_⟩
  · exact leavesFiles_check here named verbose w
  · exact leavesFiles_showEnvironment here named groups json w
  · exact leavesFiles_checkLock here named w
  · exact savesOnly_lock here named w
  · exact savesOnly_exportRequirements here named groups output w
  · exact savesOnly_mergeFiles here inputs output w
  · exact savesOnly_mergeArrived here output count arrivals w

end Pinfile.Operation
