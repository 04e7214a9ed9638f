import Pinfile.Environment
import Pinfile.Validate
import Pinfile.Proofs.Pointwise

/-!
# Other spellings

A `Respelling` says which spellings may stand for which: a package's name keeps its key, and a group's
name its lowercase form. It is a relation and not a function, so the same name may be spelled in
another way at every place. A manifest is a respelling of another one when it has the same groups with
the same entries in the same order, and names alone are spelled in other ways.

What is said of manifests is said of problems, packages and environments likewise: they agree in all
but the spelling of names, and the names are those that the respelling allows. So where a spelling of
the result comes from one of the input, it is respelled as that one is.

Each pass of the validation finds the same problems at the same positions in two manifests that are
respellings of each other: repeats are found by key, versions are compared as they are written, and
markers have no names. So both manifests are valid, or both have reports that are respellings of each
other (`Manifest.validate_respelled`).
-/

namespace Pinfile

/-- Which spellings of packages and of groups may stand for which. -/
structure Respelling where
  package : String → String → Prop
  group : String → String → Prop
  key_eq : ∀ {a b}, package a b → PackageName.normalize a = PackageName.normalize b
  lowercase_eq : ∀ {a b}, group a b → Text.lowercase a = Text.lowercase b

/-- Any spelling of a package or of a group may stand for any other. -/
def Respelling.any : Respelling where
  package a b := PackageName.normalize a = PackageName.normalize b
  group a b := Text.lowercase a = Text.lowercase b
  key_eq h := h
  lowercase_eq h := h

variable (r : Respelling)

/-! ## Manifests -/

/-- The pin `q` is the pin `p` with another spelling of its package. -/
structure Pin.Respelled (p q : Pin) : Prop where
  name : r.package p.name.text q.name.text
  version : p.version = q.version
  isOverride : p.isOverride = q.isOverride
  line : p.line = q.line

/-- Markers have no names to be spelled. -/
inductive Entry.Respelled : Entry → Entry → Prop
  | pin {p q : Pin} : p.Respelled r q → Respelled (.pin p) (.pin q)
  | editable (m : Marker) : Respelled (.editable m) (.editable m)

/-- The group `h` is the group `g` with other spellings of its name and of its packages. -/
structure Group.Respelled (g h : Group) : Prop where
  name : r.group g.name h.name
  ordinal : g.ordinal = h.ordinal
  entries : List.Forall₂ (Entry.Respelled r) g.entries h.entries

/-- The manifest `n` is the manifest `m` with other spellings of groups and packages. -/
def Manifest.Respelled (m n : Manifest) : Prop :=
  List.Forall₂ (Group.Respelled r) m.groups n.groups

/-! ## Problems -/

/-- The problems are one problem, up to the spelling of the groups and packages that it is about. -/
inductive Problem.Respelled : Problem → Problem → Prop
  | duplicateInGroup {g h p q : String} (first second : String) : r.group g h → r.package p q →
      Respelled (.duplicateInGroup g p first second) (.duplicateInGroup h q first second)
  | crossGroupConflict {p q g h g' h' : String} (first second : String) : r.package p q →
      r.group g h → r.group g' h' →
      Respelled (.crossGroupConflict p g first g' second) (.crossGroupConflict q h first h' second)
  | malformedVersion {g h p q : String} (version : String) (reason : VersionError) : r.group g h →
      r.package p q →
      Respelled (.malformedVersion g p version reason) (.malformedVersion h q version reason)
  | multipleEditableMarkers {gs hs : List String} (count : Nat) (lines : List Nat) :
      List.Forall₂ r.group gs hs →
      Respelled (.multipleEditableMarkers count gs lines) (.multipleEditableMarkers count hs lines)

/-- The reports have the same problems at the same positions. -/
def Report.Respelled (a b : Report) : Prop :=
  List.Forall₂ (Problem.Respelled r) a.problems b.problems

/-- Related problems give related verdicts. -/
theorem Report.ofProblems_respelled {ps qs : List Problem}
    (h : List.Forall₂ (Problem.Respelled r) ps qs) :
    Agree (Report.Respelled r) Eq (Report.ofProblems ps) (Report.ofProblems qs) := by
  unfold ofProblems
  cases h with
  | nil => exact .ok rfl
  | cons hpq hrest => exact .error (.cons hpq hrest)

variable {r}

/-! ## Keys -/

theorem Pin.Respelled.key {p q : Pin} (h : p.Respelled r q) : p.key = q.key := r.key_eq h.name

namespace Entry.Respelled

variable {e f : Entry}

theorem pin? (h : e.Respelled r f) : Option.Rel (Pin.Respelled r) e.pin? f.pin? := by
  cases h with
  | pin h => exact .some h
  | editable m => exact .none

theorem marker? (h : e.Respelled r f) : Option.Rel Eq e.marker? f.marker? := by
  cases h with
  | pin h => exact .none
  | editable m => exact .some rfl

end Entry.Respelled

namespace Group.Respelled

variable {g h : Group}

theorem key (hgh : g.Respelled r h) : g.key = h.key := r.lowercase_eq hgh.name

theorem pins (hgh : g.Respelled r h) : List.Forall₂ (Pin.Respelled r) g.pins h.pins :=
  List.rel_filterMap (fun _ _ he => Entry.Respelled.pin? he) hgh.entries

theorem markers (hgh : g.Respelled r h) : g.markers = h.markers := by
  rw [← List.forall₂_eq_eq_eq]
  exact List.rel_filterMap (fun _ _ he => Entry.Respelled.marker? he) hgh.entries

end Group.Respelled

namespace Manifest.Respelled

variable {m n : Manifest}

theorem pins (h : m.Respelled r n) :
    List.Forall₂ (fun a b => a.1.Respelled r b.1 ∧ a.2.Respelled r b.2) m.pins n.pins := by
  refine List.rel_flatMap h fun g g' hg => ?_
  exact List.rel_map (fun p q hp => ⟨hg, hp⟩) hg.pins

theorem markers (h : m.Respelled r n) :
    List.Forall₂ (fun a b => a.1.Respelled r b.1 ∧ a.2 = b.2) m.markers n.markers := by
  refine List.rel_flatMap h fun g g' hg => ?_
  rw [← hg.markers]
  exact List.rel_map (fun k k' hk => ⟨hg, hk⟩) (List.forall₂_same.mpr fun _ _ => rfl)

/-! ## Validation -/

variable {g h : Group}

theorem duplicatesIn (hgh : g.Respelled r h) :
    List.Forall₂ (Problem.Respelled r) (duplicatesIn g) (duplicatesIn h) := by
  have hrepeats := repeats_of_forall₂ hgh.pins fun p q hpq => hpq.key
  refine List.rel_map (fun a b hab => ?_) hrepeats
  change (duplicateProblem g a.1 a.2).Respelled r (duplicateProblem h b.1 b.2)
  rw [duplicateProblem, duplicateProblem, hab.1.version, hab.2.version]
  exact .duplicateInGroup _ _ hgh.name hab.1.name

theorem duplicates (h : m.Respelled r n) :
    List.Forall₂ (Problem.Respelled r) m.duplicates n.duplicates :=
  List.rel_flatMap h fun _ _ hg => duplicatesIn hg

theorem groupFirsts (h : m.Respelled r n) :
    List.Forall₂ (fun a b => a.1.Respelled r b.1 ∧ a.2.Respelled r b.2) m.groupFirsts
      n.groupFirsts := by
  refine List.rel_flatMap h fun g g' hg => ?_
  exact List.rel_map (fun p q hp => ⟨hg, hp⟩) (firsts_of_forall₂ hg.pins fun p q hpq => hpq.key)

theorem conflicts (h : m.Respelled r n) :
    List.Forall₂ (Problem.Respelled r) m.conflicts n.conflicts := by
  have hrepeats := repeats_of_forall₂ h.groupFirsts fun a b hab =>
    show ownedKey a = ownedKey b from hab.2.key
  refine List.rel_filterMap (fun x y hxy => ?_) hrepeats
  obtain ⟨⟨hgroup, hpin⟩, hgroup', hpin'⟩ := hxy
  change Option.Rel (Problem.Respelled r) (conflictProblem? x.1 x.2) (conflictProblem? y.1 y.2)
  rw [conflictProblem?, conflictProblem?, hpin.version, hpin'.version]
  split
  · exact .none
  · exact .some (.crossGroupConflict _ _ hpin.name hgroup.name hgroup'.name)

theorem malformedVersions (h : m.Respelled r n) (policy : VersionPolicy) :
    List.Forall₂ (Problem.Respelled r) (m.malformedVersions policy) (n.malformedVersions policy) := by
  refine List.rel_filterMap (fun a b hab => ?_) h.pins
  rw [versionProblem?, versionProblem?, hab.2.version]
  split
  · exact .none
  · exact .some (.malformedVersion _ _ hab.1.name hab.2.name)

theorem markerProblems (h : m.Respelled r n) :
    List.Forall₂ (Problem.Respelled r) m.markerProblems n.markerProblems := by
  have hgroups : List.Forall₂ r.group (m.markers.map fun k => k.1.name)
      (n.markers.map fun k => k.1.name) := List.rel_map (fun a b hab => hab.1.name) h.markers
  have hlines : m.markers.map (fun k => k.2.line) = n.markers.map fun k => k.2.line := by
    rw [← List.forall₂_eq_eq_eq]
    exact List.rel_map (fun a b hab => congrArg Marker.line hab.2) h.markers
  rw [Manifest.markerProblems, Manifest.markerProblems, h.markers.length_eq, hlines]
  split
  · exact .cons (.multipleEditableMarkers _ _ hgroups) .nil
  · exact .nil

theorem problems (h : m.Respelled r n) (policy : VersionPolicy) :
    List.Forall₂ (Problem.Respelled r) (m.problems policy) (n.problems policy) :=
  List.rel_append (List.rel_append (List.rel_append h.duplicates h.conflicts)
    (h.malformedVersions policy)) h.markerProblems

end Manifest.Respelled

/-- Manifests that are respellings of each other are both valid, or both have the same problems up to
spelling. -/
theorem Manifest.validate_respelled {m n : Manifest} (h : m.Respelled r n)
    (policy : VersionPolicy) :
    Agree (Report.Respelled r) Eq (m.validate policy) (n.validate policy) :=
  Report.ofProblems_respelled r (h.problems policy)

end Pinfile
