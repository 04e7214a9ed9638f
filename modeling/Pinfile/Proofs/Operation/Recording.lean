import Pinfile.Proofs.Lockfile
import Pinfile.Proofs.Operation.Freshness

/-!
# What a record certifies

A lockfile that is written is read as the record that it was written from (`readLockfile_of_written`).
A check only reads; it passes where the lockfile holds the record that would be written now, and
otherwise it fails for a cause that lies with the lockfile. Since a record keeps the groups, the target
and the name of the manifest as they are, a check that passes says that none of them has changed since
the lock (`checkLock_certifies`). The checksum can only make more checks fail, so nothing here
depends on which texts share one.
-/

namespace Pinfile

/-- The cause of the failure lies with the lockfile. -/
def Failure.IsAboutLockfile : Failure → Prop
  | noLockfile _ | unreadableLockfile _ _ | malformedLockfile _ | staleLockfile _ _ => True
  | _ => False

namespace FileTree

variable {t t' : FileTree} {p : Path} {lock : Lockfile}

/-- The lockfile in a file. -/
def lockfileAt (t : FileTree) (p : Path) : Except Failure Lockfile :=
  match t.read p with
  | .ok text =>
    match Lockfile.ofToml? text with
    | some lock => .ok lock
    | none => .error (.malformedLockfile p)
  | .error e => .error (.unreadableLockfile p e)

/-- A file with the text of a lockfile holds that lockfile. -/
theorem lockfileAt_of_read (h : t.read p = .ok lock.toToml) : t.lockfileAt p = .ok lock := by
  unfold lockfileAt
  rw [h]
  dsimp only
  rw [Lockfile.ofToml?_toToml]

theorem isAboutLockfile_of_lockfileAt {e : Failure} (h : t.lockfileAt p = .error e) :
    e.IsAboutLockfile := by
  unfold lockfileAt at h
  split at h
  · split at h
    · cases h
    · cases h
      trivial
  · cases h
    trivial

/-- How the lockfile of a manifest compares with what is expected. -/
def verdictAt (t : FileTree) (s : Operation.Source) (expected : Lockfile) : Except Failure Unit :=
  let name := s.lockPath.fileName?.getD ""
  if t.isFile s.lockPath then do
    let existing ← t.lockfileAt s.lockPath
    if existing.isFresh s.text && existing == expected then .ok ()
    else .error (.staleLockfile name s.name)
  else .error (.noLockfile name)

/-- The manifest is found and resolves, and its lockfile holds what would be recorded. -/
def lockVerdict (t : FileTree) (here : Setting) (named : Option Path) : Except Failure Unit := do
  let s ← t.source here named
  let env ← (Environment.resolve s.config.policy s.manifest).mapError .problems
  t.verdictAt s (Operation.lockOf s env)

/-- The comparison succeeds where the lockfile holds what is expected. -/
theorem verdictAt_eq_ok_iff {s : Operation.Source} {expected : Lockfile} :
    t.verdictAt s expected = .ok () ↔
      t.isFile s.lockPath = true ∧ t.lockfileAt s.lockPath = .ok expected ∧
        expected.isFresh s.text = true := by
  unfold verdictAt
  dsimp only
  cases t.isFile s.lockPath with
  | false => simp
  | true =>
    rw [if_pos rfl, bind_eq_ok_iff, and_iff_right rfl]
    constructor
    · rintro ⟨existing, hexisting, hsame⟩
      split at hsame
      · next hboth =>
        obtain ⟨hfresh, rfl⟩ : existing.isFresh s.text = true ∧ existing = expected := by
          simpa using hboth
        exact ⟨hexisting, hfresh⟩
      · cases hsame
    · rintro ⟨hexisting, hfresh⟩
      exact ⟨expected, hexisting, if_pos (by simp [hfresh])⟩

theorem isAboutLockfile_of_verdictAt {s : Operation.Source} {expected : Lockfile} {e : Failure}
    (h : t.verdictAt s expected = .error e) : e.IsAboutLockfile := by
  unfold verdictAt at h
  dsimp only at h
  split at h
  · cases hexisting : t.lockfileAt s.lockPath with
    | error e' =>
      rw [hexisting] at h
      obtain rfl := Except.error.inj h
      exact isAboutLockfile_of_lockfileAt hexisting
    | ok existing =>
      rw [hexisting] at h
      dsimp only [bind, Except.bind] at h
      split at h <;> cases h
      trivial
  · cases h
    trivial

/-- Whether a text can be written does not depend on the text. -/
theorem exists_write_of_write {text : String} (h : t.write p text = .ok t') (text' : String) :
    ∃ t'', t.write p text' = .ok t'' := by
  unfold write at h ⊢
  split at h
  · cases h
  · cases h
  · next way name slash hfault hsplit =>
    obtain ⟨folder, hfollow, hrest⟩ := bind_eq_ok_iff.mp h
    obtain ⟨u, hfolder, hput⟩ := bind_eq_ok_iff.mp hrest
    split at hput
    · cases hput
    next hname =>
    obtain ⟨place, hplace, hlast⟩ := bind_eq_ok_iff.mp hput
    split at hlast
    · cases hlast
    · next hnode =>
      simp only [bind_eq_ok_iff]
      refine ⟨t.put place (.file text'.toUTF8), folder, hfollow, u, hfolder, ?_⟩
      rw [if_neg hname]
      refine bind_eq_ok_iff.mpr ⟨place, hplace, ?_⟩
      split
      · next hdirectory => exact absurd hdirectory hnode
      · rfl

end FileTree

namespace Operation

variable {here : Setting} {named : Option Path} {w : World} {s s' : Source} {env : Environment}
  {p : Path}

/-! ## Lockfiles written and read -/

theorem outcome_readLockfile (p : Path) (w : World) :
    (readLockfile p).outcome w = (w.tree.lockfileAt p, w) := by
  unfold readLockfile FileTree.lockfileAt
  simp only [outcome_bind, outcome_lift, Program.run_readText, outcome_orFail]
  cases w.tree.read p with
  | error e => rfl
  | ok text =>
    dsimp only [Except.mapError]
    cases Lockfile.ofToml? text <;> rfl

/-- Whether a text can be saved does not depend on the text. -/
theorem exists_saveText_of_saveText {text : String} (h : ((saveText p text).outcome w).1 = .ok ())
    (text' : String) : ∃ after, (saveText p text').outcome w = (.ok (), after) := by
  unfold saveText at h ⊢
  simp only [outcome_bind, outcome_lift, outcome_orFail] at h ⊢
  cases hprepared : ((prepareDirectory p).run w).1 with
  | error e =>
    rw [hprepared] at h
    cases h
  | ok u =>
    rw [hprepared] at h
    dsimp only [Except.mapError] at h ⊢
    rw [Program.run_writeAt] at h ⊢
    cases hwrite : ((prepareDirectory p).run w).2.tree.write p text with
    | error e =>
      rw [hwrite] at h
      cases h
    | ok tree =>
      obtain ⟨tree', hwrite'⟩ := FileTree.exists_write_of_write hwrite text'
      rw [hwrite']
      exact ⟨_, rfl⟩

/-- Wherever any text can be saved, every lockfile can be written, and it is read as it was. -/
theorem readLockfile_of_written (lock : Lockfile)
    (h : ∃ text, ((saveText p text).outcome w).1 = .ok ()) :
    ∃ after, (writeLockfile p lock).outcome w = (.ok (), after) ∧
      (readLockfile p).outcome after = (.ok lock, after) := by
  obtain ⟨text, htext⟩ := h
  obtain ⟨after, hsaved⟩ := exists_saveText_of_saveText htext lock.toToml
  have hread : after.tree.read p = .ok lock.toToml := read_of_saveText hsaved
  refine ⟨after, hsaved, ?_⟩
  rw [outcome_readLockfile, FileTree.lockfileAt_of_read hread]

/-- A lockfile whose texts need every form of quoting. -/
def quotingLockfile : Lockfile where
  source := "re\"quire\x27ments\\.txt"
  checksum := "\n\x27\x27\x27\n\"\"\"\"\r\u0000"
  editable := some "\t.[\u00e9\u007f]\x27\x27"
  groups := [⟨"\x27\x27\n\"\"", [⟨"\r\n", ""⟩, ⟨"\uFEFF", "\"\"\""⟩]⟩, ⟨"", []⟩]

theorem readLockfile_quotingLockfile : let p := Path.ofText "/new/a.lock"
    ((saveText p "").outcome {}).1 = .ok () ∧
      ∃ after, (writeLockfile p quotingLockfile).outcome {} = (.ok (), after) ∧
        (readLockfile p).outcome after = (.ok quotingLockfile, after) := by
  intro p
  have hsaved : ((saveText p "").outcome {}).1 = .ok () := by decide +kernel
  exact ⟨hsaved, readLockfile_of_written quotingLockfile ⟨"", hsaved⟩⟩

/-! ## Checking -/

theorem exists_outcome_verifyLockfile (s : Source) (expected : Lockfile) (w : World) :
    ∃ after, after.tree = w.tree ∧
      (verifyLockfile s expected).outcome w = (w.tree.verdictAt s expected, after) := by
  unfold verifyLockfile FileTree.verdictAt
  rw [outcome_lift_bind, Program.run_isFile]
  cases w.tree.isFile s.lockPath with
  | false => exact ⟨w, rfl, rfl⟩
  | true =>
    rw [if_neg (by simp), if_pos rfl, outcome_bind, outcome_readLockfile]
    cases w.tree.lockfileAt s.lockPath with
    | error e => exact ⟨w, rfl, rfl⟩
    | ok existing =>
      dsimp only [bind, Except.bind]
      split
      · refine ⟨_, ?_, outcome_lift _ w⟩
        rfl
      · refine ⟨_, ?_, rfl⟩
        rfl

/-- A check ends with a verdict on the files as they are, and leaves them as they are. -/
theorem exists_outcome_checkLock (here : Setting) (named : Option Path) (w : World) :
    ∃ after, after.tree = w.tree ∧
      (checkLock here named).outcome w = (w.tree.lockVerdict here named, after) := by
  unfold checkLock resolved FileTree.lockVerdict
  rw [outcome_bind, outcome_loadSource]
  cases w.tree.source here named with
  | error e => exact ⟨w, rfl, rfl⟩
  | ok s =>
    dsimp only
    rw [outcome_bind, outcome_orFail]
    show ∃ after, _ ∧ _ =
      ((Environment.resolve s.config.policy s.manifest).mapError Failure.problems >>= fun env =>
        w.tree.verdictAt s (lockOf s env), after)
    cases Environment.resolve s.config.policy s.manifest with
    | error report => exact ⟨w, rfl, rfl⟩
    | ok env => exact exists_outcome_verifyLockfile s (lockOf s env) w

theorem fst_outcome_checkLock (here : Setting) (named : Option Path) (w : World) :
    ((checkLock here named).outcome w).1 = w.tree.lockVerdict here named := by
  obtain ⟨after, -, houtcome⟩ := exists_outcome_checkLock here named w
  rw [houtcome]

/-- In a world the manifest is found, read and resolved. -/
structure Resolves (here : Setting) (named : Option Path) (w : World) (s : Source)
    (env : Environment) : Prop where
  found : ((loadSource here named).outcome w).1 = .ok s
  resolved : Environment.resolve s.config.policy s.manifest = .ok env

/-- The verdict on a manifest that resolves is one on its record. -/
theorem Resolves.lockVerdict_eq (h : Resolves here named w s env) :
    w.tree.lockVerdict here named = w.tree.verdictAt s (lockOf s env) := by
  have hs : w.tree.source here named = .ok s := by rw [← h.found, outcome_loadSource]
  rw [FileTree.lockVerdict, hs]
  dsimp only [bind, Except.bind]
  rw [h.resolved]
  rfl

/-- Only a manifest that resolves passes a check. -/
theorem exists_resolves_of_checkLock (h : ((checkLock here named).outcome w).1 = .ok ()) :
    ∃ s env, Resolves here named w s env := by
  rw [fst_outcome_checkLock, FileTree.lockVerdict] at h
  obtain ⟨s, hs, hrest⟩ := bind_eq_ok_iff.mp h
  obtain ⟨env, henv, -⟩ := bind_eq_ok_iff.mp hrest
  exact ⟨s, env, by rw [outcome_loadSource, hs], mapError_eq_ok_iff.mp henv⟩

/-- A check passes exactly where the lockfile holds the record. -/
theorem Resolves.checkLock_eq_ok_iff (h : Resolves here named w s env) :
    ((checkLock here named).outcome w).1 = .ok () ↔
      w.tree.isFile s.lockPath = true ∧ w.tree.lockfileAt s.lockPath = .ok (lockOf s env) := by
  rw [fst_outcome_checkLock, h.lockVerdict_eq, FileTree.verdictAt_eq_ok_iff]
  refine and_congr_right fun _ => and_iff_left ?_
  exact Lockfile.isFresh_record _ _ _ _

/-- When the manifest resolves, a check fails only for a cause that lies with the lockfile. -/
theorem Resolves.isAboutLockfile (h : Resolves here named w s env) {e : Failure}
    (hfailed : ((checkLock here named).outcome w).1 = .error e) : e.IsAboutLockfile := by
  rw [fst_outcome_checkLock, h.lockVerdict_eq] at hfailed
  exact FileTree.isAboutLockfile_of_verdictAt hfailed

/-- What the record keeps of an environment. -/
structure SameRecord (s : Source) (env : Environment) (s' : Source) (env' : Environment) : Prop where
  groups : env'.groups = env.groups
  target : env'.editable.map EditableInstall.target = env.editable.map EditableInstall.target
  name : s'.name = s.name

theorem SameRecord.of_lockOf_eq {env' : Environment} (h : lockOf s' env' = lockOf s env) :
    SameRecord s env s' env' := by
  obtain ⟨hname, -, htarget, hgroups⟩ := Lockfile.mk.inj h
  exact ⟨hgroups, htarget, hname⟩

/-- A check changes no file. When the manifest resolves, it passes exactly where the lockfile is a
file that holds the record that would be written now, and fails otherwise for a cause that lies with
the lockfile. So when a lock has written the lockfile and a later check passes with the lockfile as it
was left, the manifest resolves to the same as it did then. -/
theorem checkLock_certifies (here : Setting) (named : Option Path) :
    (∀ w, ((checkLock here named).outcome w).2.tree = w.tree) ∧
      (∀ w s env, Resolves here named w s env →
        (((checkLock here named).outcome w).1 = .ok () ↔
          w.tree.isFile s.lockPath = true ∧
            ((readLockfile s.lockPath).outcome w).1 = .ok (env.toLockfile s.name s.text)) ∧
        ∀ e, ((checkLock here named).outcome w).1 = .error e → e.IsAboutLockfile) ∧
      ∀ here₁ named₁ w₁ s₁ w₂ s₂,
        ((loadSource here₁ named₁).outcome w₁).1 = .ok s₁ →
        ((lock here₁ named₁).outcome w₁).1 = .ok () →
        ((loadSource here named).outcome w₂).1 = .ok s₂ →
        ((checkLock here named).outcome w₂).1 = .ok () →
        w₂.tree.read s₂.lockPath = ((lock here₁ named₁).outcome w₁).2.tree.read s₁.lockPath →
        ∃ env₁ env₂, Resolves here₁ named₁ w₁ s₁ env₁ ∧ Resolves here named w₂ s₂ env₂ ∧
          SameRecord s₁ env₁ s₂ env₂ := by
  refine ⟨fun w => ?_, fun w s env h => ⟨?_, fun e => h.isAboutLockfile⟩, ?_⟩
  · obtain ⟨after, htree, houtcome⟩ := exists_outcome_checkLock here named w
    rw [houtcome, htree]
  · rw [outcome_readLockfile]
    exact h.checkLock_eq_ok_iff
  · intro here₁ named₁ w₁ s₁ w₂ s₂ hfound₁ hlock hfound₂ hcheck huntouched
    have hs₁ : w₁.tree.source here₁ named₁ = .ok s₁ := by rw [← hfound₁, outcome_loadSource]
    obtain ⟨env₁, henv₁⟩ := exists_resolve_of_lock hs₁ hlock
    rw [read_of_lock hs₁ henv₁ (Or.inl hlock)] at huntouched
    -- what the check reads is what the lock wrote, and it is the record of what resolves now
    have hold : w₂.tree.lockfileAt s₂.lockPath = .ok (lockOf s₁ env₁) :=
      FileTree.lockfileAt_of_read huntouched
    obtain ⟨s, env₂, hresolves⟩ := exists_resolves_of_checkLock hcheck
    obtain rfl : s = s₂ := Except.ok.inj (hresolves.found.symm.trans hfound₂)
    have hnow := (hresolves.checkLock_eq_ok_iff.mp hcheck).2
    have hsame : lockOf s env₂ = lockOf s₁ env₁ := Except.ok.inj (hnow.symm.trans hold)
    exact ⟨env₁, env₂, ⟨hfound₁, henv₁⟩, hresolves, .of_lockOf_eq hsame⟩

/-- The manifest of `project` as it is found once its lines end in another way. -/
def refoldedSource : Source := { projectSource with text := "# Web\r\nflask==3.0.0\r\n-e .\r\n" }

theorem checkLock_refolded :
    let here : Setting := ⟨.ofText "/work/src", .ofText "/home/config.toml"⟩
    let later : World :=
      { tree := ((lock here none).outcome project).2.tree.put ["work", "requirements.txt"]
          (.file refoldedSource.text.toUTF8) }
    ((checkLock here none).outcome later).2.tree = later.tree ∧
      (∀ e, ((checkLock here none).outcome project).1 = .error e → e.IsAboutLockfile) ∧
      ∃ env₁ env₂, Resolves here none project projectSource env₁ ∧
        Resolves here none later refoldedSource env₂ ∧
        SameRecord projectSource env₁ refoldedSource env₂ ∧
        later.tree.isFile refoldedSource.lockPath = true ∧
        ((readLockfile refoldedSource.lockPath).outcome later).1 =
          .ok (env₂.toLockfile refoldedSource.name refoldedSource.text) := by
  intro here later
  obtain ⟨hkept, hpasses, hsame⟩ := checkLock_certifies here none
  have hcheck : ((checkLock here none).outcome later).1 = .ok () := by decide +kernel
  obtain ⟨env₁, env₂, hthen, hnow, hrecord⟩ := hsame here none project projectSource later
    refoldedSource (by decide +kernel) (by decide +kernel) (by decide +kernel) hcheck
    (by decide +kernel)
  obtain ⟨hfile, hholds⟩ := (hpasses later refoldedSource env₂ hnow).1.mp hcheck
  have hfailed := (hpasses project projectSource env₁ hthen).2
  exact ⟨hkept later, hfailed, env₁, env₂, hthen, hnow, hrecord, hfile, hholds⟩

end Operation
end Pinfile
