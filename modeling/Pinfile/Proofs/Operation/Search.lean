import Pinfile.Proofs.Operation.Reading

/-!
# The search for a manifest

Unless it is named, the manifest is looked for in the working directory and then in the directories above
it, from parent to parent (`Path.upward`). The search asks one question in each of them and stops at the
first file. So it ends whatever the answers are, after one question for each part of the path and one more
at most, and where no answer is a file it needs all of these (`endsWithin_findUpward_iff`).

In a tree it finds the nearest file (`FileTree.NearestAt`, `nearest?_eq_some_iff`), or there is none on the
whole way up (`nearest?_eq_none_iff`). `locate_nearest` says so of the search and of the manifest that is
located. The way up is lexical: from `a/..` it goes to `a`. The name may be a path itself, and where that
begins at the root all directories have the same file.
-/

namespace Pinfile

/-! ## How many requests a program makes -/

namespace Program

variable {α β : Type}

/-- The program ends after at most so many requests, whatever the answers are. -/
def EndsWithin (p : Program α) (n : Nat) : Prop :=
  match p, n with
  | done _, _ => True
  | _, 0 => False
  | read _ next, n + 1 => ∀ r, (next r).EndsWithin n
  | kind _ next, n + 1 => ∀ k, (next k).EndsWithin n
  | makeDir _ next, n + 1 => ∀ r, (next r).EndsWithin n
  | write _ _ next, n + 1 => ∀ r, (next r).EndsWithin n
  | print _ next, n + 1 => next.EndsWithin n
  | note _ next, n + 1 => next.EndsWithin n

@[simp] theorem endsWithin_pure (a : α) (n : Nat) : (pure a : Program α).EndsWithin n := by
  cases n <;> trivial

/-- Asking whether a file stands at a path is one request. -/
theorem endsWithin_isFile_bind_iff {p : Path} {f : Bool → Program β} {n : Nat} :
    (isFile p >>= f).EndsWithin n ↔ 0 < n ∧ ∀ b, (f b).EndsWithin (n - 1) := by
  cases n with
  | zero =>
    show False ↔ _
    simp
  | succ n =>
    show (∀ k : Option FileTree.Kind, (f (k == some .file)).EndsWithin n) ↔
      0 < n + 1 ∧ ∀ b, (f b).EndsWithin n
    constructor
    · intro h
      refine ⟨by omega, fun b => ?_⟩
      cases b with
      | true => exact h (some .file)
      | false => exact h none
    · rintro ⟨-, h⟩ k
      exact h (k == some .file)

/-- A search has to be given one request for each place, since it may find nothing. -/
theorem endsWithin_findM?_isFile_iff {f : α → Path} {xs : List α} {n : Nat} :
    (xs.findM? fun a => isFile (f a)).EndsWithin n ↔ xs.length ≤ n := by
  induction xs generalizing n with
  | nil => simp [List.findM?]
  | cons a rest ih =>
    rw [List.findM?, endsWithin_isFile_bind_iff, List.length_cons]
    constructor
    · rintro ⟨hpos, h⟩
      have hrest : rest.length ≤ n - 1 := ih.mp (h false)
      omega
    · intro hn
      refine ⟨by omega, fun b => ?_⟩
      cases b with
      | true => exact endsWithin_pure _ _
      | false =>
        apply ih.mpr
        omega

end Program

/-! ## The nearest file -/

namespace FileTree

variable {t : FileTree} {name : String} {start d : Path} {n : Nat}

/-- The directory is so many steps upward, and the first one in which the name leads to a file. -/
structure NearestAt (t : FileTree) (name : String) (start d : Path) (n : Nat) : Prop where
  upward : start.upward[n]? = some d
  isFile : t.isFile (d.child name) = true
  nearer : ∀ m e, m < n → start.upward[m]? = some e → t.isFile (e.child name) = false

theorem nearest?_eq_some_iff :
    t.nearest? name start = some d ↔ ∃ n, t.NearestAt name start d n := by
  rw [nearest?, List.find?_eq_some_iff_getElem]
  constructor
  · rintro ⟨hfile, n, hn, rfl, hnearer⟩
    refine ⟨n, List.getElem?_eq_getElem hn, hfile, fun m e hm he => ?_⟩
    obtain ⟨-, rfl⟩ := List.getElem?_eq_some_iff.mp he
    simpa using hnearer m hm
  · rintro ⟨n, hupward, hfile, hnearer⟩
    obtain ⟨hn, hd⟩ := List.getElem?_eq_some_iff.mp hupward
    refine ⟨hfile, n, hn, hd, fun m hm => ?_⟩
    have hm' : start.upward[m]? = some start.upward[m] := List.getElem?_eq_getElem (by omega)
    simpa using hnearer m _ hm hm'

theorem nearest?_eq_none_iff :
    t.nearest? name start = none ↔ ∀ d ∈ start.upward, t.isFile (d.child name) = false := by
  simp [nearest?]

theorem isSome_nearest?_iff :
    (t.nearest? name start).isSome ↔ ∃ d ∈ start.upward, t.isFile (d.child name) = true := by
  simp [nearest?]

theorem manifestPath_eq_ok_iff {config : Config} {p : Path} :
    t.manifestPath start none config = .ok p ↔
      ∃ d n, t.NearestAt config.manifest start d n ∧ d.child config.manifest = p := by
  unfold manifestPath
  cases h : t.nearest? config.manifest start with
  | some d =>
    constructor
    · intro hp
      obtain ⟨n, hnearest⟩ := nearest?_eq_some_iff.mp h
      exact ⟨d, n, hnearest, Except.ok.inj hp⟩
    · rintro ⟨e, n, hnearest, rfl⟩
      rw [nearest?_eq_some_iff.mpr ⟨n, hnearest⟩] at h
      rw [Option.some.inj h]
  | none =>
    constructor
    · exact fun hp => by cases hp
    · rintro ⟨e, n, hnearest, -⟩
      rw [nearest?_eq_some_iff.mpr ⟨n, hnearest⟩] at h
      cases h

theorem manifestPath_eq_error_iff {config : Config} {e : Failure} :
    t.manifestPath start none config = .error e ↔
      e = .noManifest config.manifest start ∧
        ∀ d ∈ start.upward, t.isFile (d.child config.manifest) = false := by
  rw [← nearest?_eq_none_iff]
  unfold manifestPath
  cases t.nearest? config.manifest start <;> simp [eq_comm]

end FileTree

namespace Operation

/-- The search needs one question for each part of the path and one more. -/
theorem endsWithin_findUpward_iff {name : String} {start : Path} {n : Nat} :
    (findUpward name start).EndsWithin n ↔ start.parts.length < n := by
  rw [findUpward_eq_findM?, Program.endsWithin_findM?_isFile_iff, Path.length_upward]
  omega

/-- The search for a manifest ends and finds the nearest one.

The paths upward are the start and its parents, one after another: beginnings of the start, with fewer and
fewer of its parts, down to none. From these, in this order, the search asks whether the name leads to a file
and stops at the first yes, whatever stands where, and so it ends after one question for each of them at most.
In a tree it finds a directory exactly when the name leads to a file from one of them, and then the first
such directory. The manifest that is located is the file there, with none nearer to the start; without a file
on the whole way up there is a failure, which says what was looked for and from where. -/
theorem locate_nearest (start : Path) (name : String) (config : Config) (w : World) :
    (start.upward[0]? = some start ∧
      (∀ n, start.upward[n + 1]? = start.upward[n]?.bind Path.parent?) ∧
      (∀ d ∈ start.upward, d.absolute = start.absolute ∧ d.segments <+: start.segments) ∧
      start.upward.map Path.parts = start.parts.inits.reverse) ∧
    (findUpward name start = start.upward.findM? fun d => Program.isFile (d.child name)) ∧
    (∀ n, (findUpward name start).EndsWithin n ↔ start.parts.length < n) ∧
    (∃ found, (findUpward name start).run w = (found, w) ∧
      (found.isSome ↔ ∃ d ∈ start.upward, w.tree.isFile (d.child name) = true) ∧
      ∀ d, found = some d ↔ ∃ n, w.tree.NearestAt name start d n) ∧
    (∃ located, (locate start none config).outcome w = (located, w) ∧
      (∀ p, located = .ok p ↔
        ∃ d n, w.tree.NearestAt config.manifest start d n ∧ d.child config.manifest = p) ∧
      ∀ e, located = .error e ↔
        e = .noManifest config.manifest start ∧
          ∀ d ∈ start.upward, w.tree.isFile (d.child config.manifest) = false) ∧
    (Failure.noManifest config.manifest start).message =
      "Manifest error: Could not find " ++ config.manifest ++ " in " ++ start.text ++
        " or any parent directory" := by
  refine ⟨⟨?_, ?_, ?_, ?_⟩, ?_, ?_, ?_, ?_, rfl⟩
  · exact start.getElem?_upward_zero
  · exact start.getElem?_upward_succ
  · exact fun d hd => Path.of_mem_upward hd
  · exact start.map_parts_upward
  · exact findUpward_eq_findM? name start
  · exact fun n => endsWithin_findUpward_iff
  · exact ⟨_, run_findUpward name start w, FileTree.isSome_nearest?_iff,
      fun d => FileTree.nearest?_eq_some_iff⟩
  · exact ⟨_, outcome_locate start none config w, fun p => FileTree.manifestPath_eq_ok_iff,
      fun e => FileTree.manifestPath_eq_error_iff⟩

end Operation
end Pinfile
