import Pinfile.Manifest.Basic
import Pinfile.Problem
import Pinfile.Repeats

/-!
# Validation

A valid manifest pins no package twice in a group, gives a package one version in all groups, gives
exact versions only, and has at most one marker. Each of these four rules has its own pass over the
manifest, and the problems of the passes are reported one after the other. A pin that repeats a
package of its own group takes no part in the comparison between groups, so one slip is not
reported twice.
-/

namespace Pinfile.Manifest

/-! ## Repeated pins in a group -/

/-- The problem of a pin that repeats an earlier one of its group. -/
def duplicateProblem (g : Group) (first second : Pin) : Problem :=
  .duplicateInGroup g.name first.name.text first.version second.version

/-- The repeated pins of a group. -/
def duplicatesIn (g : Group) : List Problem :=
  (repeats Pin.key g.pins).map fun (first, second) => duplicateProblem g first second

/-- The repeated pins of all groups. -/
def duplicates (m : Manifest) : List Problem := m.groups.flatMap duplicatesIn

/-! ## Versions that differ between groups -/

/-- The pins that are the first of their package in their group, each with its group. -/
def groupFirsts (m : Manifest) : List (Group × Pin) :=
  m.groups.flatMap fun g => (firsts Pin.key g.pins).map fun p => (g, p)

/-- The key of a pin that stands with its group. -/
def ownedKey (owned : Group × Pin) : String := owned.2.key

/-- The problem of a pin whose version differs from the first one given to its package. -/
def conflictProblem? (first second : Group × Pin) : Option Problem :=
  if first.2.version = second.2.version then none
  else some (.crossGroupConflict first.2.name.text first.1.name first.2.version second.1.name
    second.2.version)

/-- The versions that differ from the first version given to their package. -/
def conflicts (m : Manifest) : List Problem :=
  (repeats ownedKey m.groupFirsts).filterMap fun (first, second) => conflictProblem? first second

/-! ## Versions that name no single release -/

/-- The problem of a pin whose version is not exact. -/
def versionProblem? (policy : VersionPolicy) (owned : Group × Pin) : Option Problem :=
  match ExactVersion.parse policy owned.2.version with
  | .ok _ => none
  | .error reason =>
    some (.malformedVersion owned.1.name owned.2.name.text owned.2.version reason)

/-- The versions that are not exact. -/
def malformedVersions (policy : VersionPolicy) (m : Manifest) : List Problem :=
  m.pins.filterMap (versionProblem? policy)

/-! ## Markers -/

/-- The problem of a manifest with several markers. -/
def markerProblems (m : Manifest) : List Problem :=
  if m.markers.length > 1 then
    [.multipleEditableMarkers m.markers.length (m.markers.map fun k => k.1.name)
      (m.markers.map fun k => k.2.line)]
  else []

/-! ## All rules -/

/-- Every problem of a manifest. -/
def problems (policy : VersionPolicy) (m : Manifest) : List Problem :=
  m.duplicates ++ m.conflicts ++ m.malformedVersions policy ++ m.markerProblems

/-- Succeeds on a valid manifest, and reports every problem of any other. -/
def validate (policy : VersionPolicy) (m : Manifest) : Except Report Unit :=
  Report.ofProblems (m.problems policy)

/-- A manifest is valid when it has no problem. -/
theorem validate_eq_ok_iff {policy : VersionPolicy} {m : Manifest} :
    m.validate policy = .ok () ↔ m.problems policy = [] := Report.ofProblems_eq_ok_iff

/-- A manifest has no problem when none of the passes finds one. -/
theorem problems_eq_nil_iff {policy : VersionPolicy} {m : Manifest} :
    m.problems policy = [] ↔
      m.duplicates = [] ∧ m.conflicts = [] ∧ m.malformedVersions policy = [] ∧
        m.markerProblems = [] := by
  simp [problems]

/-- The versions of two pins conflict exactly when they differ. -/
@[simp] theorem conflictProblem?_eq_none_iff {first second : Group × Pin} :
    conflictProblem? first second = none ↔ first.2.version = second.2.version := by
  simp [conflictProblem?]

/-- The markers are in order exactly when there is at most one. -/
theorem markerProblems_eq_nil_iff {m : Manifest} :
    m.markerProblems = [] ↔ m.markers.length ≤ 1 := by
  unfold markerProblems
  split <;> simp <;> omega

end Pinfile.Manifest
