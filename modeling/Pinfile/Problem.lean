import Pinfile.Version

/-!
# Problems of a manifest

A problem is one thing wrong with what a manifest says, as opposed to how it is written. All
problems of a manifest are reported together, in the order in which the checks find them, and a
report always holds at least one.
-/

namespace Pinfile

/-- One defect of a manifest. -/
inductive Problem where
  /-- A package that stands twice in a group. The package is spelled as its first pin spells it. -/
  | duplicateInGroup (group package first second : String)
  /-- A package that has different versions in two places. -/
  | crossGroupConflict (package firstGroup firstVersion secondGroup secondVersion : String)
  /-- A pin whose version does not name one release. -/
  | malformedVersion (group package version : String) (reason : VersionError)
  /-- More than one marker; the owning groups and the lines are in the order of the text. -/
  | multipleEditableMarkers (count : Nat) (groups : List String) (lines : List Nat)
deriving DecidableEq, Repr

namespace Problem

/-- The wording of a problem. -/
def message : Problem → String
  | duplicateInGroup group package first second =>
    "'" ++ package ++ "' is pinned twice in group '" ++ group ++ "' (" ++ first ++ " and " ++
      second ++ ")"
  | crossGroupConflict package firstGroup firstVersion secondGroup secondVersion =>
    "'" ++ package ++ "' is pinned to " ++ firstVersion ++ " in '" ++ firstGroup ++ "' but to " ++
      secondVersion ++ " in '" ++ secondGroup ++ "'"
  | malformedVersion group package version reason =>
    "'" ++ package ++ "==" ++ version ++ "' in group '" ++ group ++
      "' is not an exact version: " ++ reason.message
  | multipleEditableMarkers count groups _ =>
    count.repr ++ " editable-install markers found (groups: " ++
      String.intercalate ", " groups ++ "); at most one is allowed"

/-- The code that names the kind of a problem. -/
def code : Problem → String
  | duplicateInGroup .. => "pinset::duplicate_in_group"
  | crossGroupConflict .. => "pinset::cross_group_conflict"
  | malformedVersion .. => "pinset::malformed_version"
  | multipleEditableMarkers .. => "pinset::multiple_editable_markers"

/-- What to do about a problem, where there is something to say. -/
def help? : Problem → Option String
  | duplicateInGroup .. => some "Keep a single pin per package in each group"
  | crossGroupConflict .. =>
    some "Pin the same version everywhere, or mark the later pin `# override` when merging"
  | malformedVersion .. => none
  | multipleEditableMarkers .. => none

/-- The package that a problem is about. -/
def package? : Problem → Option String
  | duplicateInGroup _ package _ _ => some package
  | crossGroupConflict package _ _ _ _ => some package
  | malformedVersion _ package _ _ => some package
  | multipleEditableMarkers .. => none

end Problem

/-- All the problems found in a manifest, of which there is at least one. -/
structure Report where
  problems : List Problem
  ne_nil : problems ≠ []
deriving DecidableEq, Repr

namespace Report

/-- Success when there are no problems, and their report otherwise. -/
def ofProblems (problems : List Problem) : Except Report Unit :=
  if h : problems = [] then .ok () else .error ⟨problems, h⟩

/-- The wording of a report. -/
def message (r : Report) : String :=
  if r.problems.length = 1 then "1 problem found in manifest"
  else r.problems.length.repr ++ " problems found in manifest"

/-- The code of every report. -/
def code : String := "pinset::invalid_manifest"

/-- What to do about a report. -/
def help : String := "Fix the manifest by hand; pinset never picks a version for you"

@[simp] theorem ofProblems_eq_ok_iff {problems : List Problem} :
    ofProblems problems = .ok () ↔ problems = [] := by
  unfold ofProblems
  split <;> simp_all

@[simp] theorem ofProblems_eq_error_iff {problems : List Problem} {r : Report} :
    ofProblems problems = .error r ↔ r.problems = problems := by
  unfold ofProblems
  split
  · next h =>
    subst h
    exact iff_of_false (by simp) r.ne_nil
  · exact ⟨fun h => by cases h; rfl, fun h => by cases r; cases h; rfl⟩

end Report
end Pinfile
