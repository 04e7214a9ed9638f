import Mathlib.Data.List.Basic
import Pinfile.Proofs.Validity

/-!
# What a report lists

The passes of validation walk over the pins and carry along what they have met. Here the report is said
by the places of the pins alone: every pin stands in a group, after other pins of that group
(`Standing`), and whether it is reported, and against which other pin, is a matter of which pins of its
package stand before it.

The main statement is that the report is this list and nothing else (`validate_eq_ofProblems`). Two
facts on the walks carry it. Every repeat is listed with the earliest element of its key in the whole
list (`repeats_eq_map`), and the earliest pin of a package among the firsts of the groups is the
earliest one of the manifest (`earliest_groupFirsts`), so the comparison between groups loses nothing
by leaving the repeats out.
-/

namespace Pinfile

/-! ## The earliest element of a key -/

section Earliest

variable {α : Type} {key : α → String}

/-- The first element of the list that has the key of `a`; this is `a` when there is none. -/
def earliest (key : α → String) (as : List α) (a : α) : α :=
  (as.find? fun b => key b == key a).getD a

/-- An element is repeated together with the earliest element that has its key. -/
theorem firstLike_eq_some_earliest {before after : List α} {a : α}
    (h : before.any (key · == key a) = true) :
    firstLike key before a = some (earliest key (before ++ a :: after) a) := by
  obtain ⟨b, hb⟩ : ∃ b, before.find? (fun b => key b == key a) = some b := by
    rw [← Option.isSome_iff_exists, List.find?_isSome]
    simpa using h
  rw [firstLike, earliest, List.find?_append, hb]
  rfl

/-- An element whose key is new is the earliest of its key. -/
theorem earliest_eq_self {before after : List α} {a : α}
    (h : ¬ before.any (key · == key a) = true) : earliest key (before ++ a :: after) a = a := by
  have hnone : before.find? (fun b => key b == key a) = none := by
    rw [List.find?_eq_none]
    simpa using h
  rw [earliest, List.find?_append, hnone, Option.none_or, List.find?_cons_of_pos (by simp)]
  rfl

/-- The repeats are the elements that are not the first of their key, each after the earliest element
of that key. -/
theorem repeats_eq_map (as : List α) :
    repeats key as =
      ((withEarlier as).filter fun pair => pair.1.any (key · == key pair.2)).map fun pair =>
        (earliest key as pair.2, pair.2) := by
  rw [repeats_eq, ← List.filterMap_eq_map, List.filterMap_filter]
  refine List.filterMap_congr fun pair hpair => ?_
  obtain ⟨before, a⟩ := pair
  obtain ⟨after, rfl⟩ := mem_withEarlier_iff.mp hpair
  split
  · next h =>
    rw [firstLike_eq_some_earliest h]
    rfl
  · next h =>
    have hnone : firstLike key before a = none := by
      rw [firstLike_eq_none_iff]
      simpa using h
    rw [hnone]
    rfl

end Earliest

namespace Manifest

/-! ## Pins in their places -/

/-- A pin in its place: its group, and the pins of the group that stand before it. -/
structure Standing where
  group : Group
  earlier : List Pin
  pin : Pin
deriving DecidableEq, Repr

namespace Standing

/-- No earlier pin of the group is for the same package. -/
def isFirst (s : Standing) : Bool := !s.earlier.any (·.key == s.pin.key)

/-- The pin with its group. -/
def owned (s : Standing) : Group × Pin := (s.group, s.pin)

/-- The first pin of the group for the same package. -/
def firstInGroup (s : Standing) : Pin := earliest Pin.key s.group.pins s.pin

/-- The first pin of a manifest for the same package, with its group. -/
def firstIn (m : Manifest) (s : Standing) : Group × Pin := earliest ownedKey m.pins s.owned

/-- What is reported of a pin that repeats its package in its group: the spelling and the version of
the first pin, and its own version. -/
def repetition (s : Standing) : Problem :=
  .duplicateInGroup s.group.name s.firstInGroup.name.text s.firstInGroup.version s.pin.version

/-- What is reported of a pin that disagrees with the first pin of its package in the manifest: the
spelling, the group and the version of that pin, and its own group and version. -/
def disagreement (m : Manifest) (s : Standing) : Problem :=
  .crossGroupConflict (s.firstIn m).2.name.text (s.firstIn m).1.name (s.firstIn m).2.version
    s.group.name s.pin.version

/-- What is reported of a pin whose version is not exact. -/
def inexactness? (policy : VersionPolicy) (s : Standing) : Option Problem :=
  match ExactVersion.parse policy s.pin.version with
  | .ok _ => none
  | .error reason => some (.malformedVersion s.group.name s.pin.name.text s.pin.version reason)

end Standing

/-- Every pin of a group in its place. -/
def standingIn (g : Group) : List Standing :=
  (withEarlier g.pins).map fun pair => ⟨g, pair.1, pair.2⟩

/-- Every pin of a manifest in its place, in the order of the text. -/
def standing (m : Manifest) : List Standing := m.groups.flatMap standingIn

theorem map_snd_withEarlier {α : Type} (as : List α) : (withEarlier as).map Prod.snd = as := by
  induction as using List.reverseRecOn with
  | nil => rfl
  | append_singleton as a ih => rw [withEarlier_append_singleton, List.map_append, ih]; rfl

/-- The places are those of the pins, in order. -/
theorem map_owned_standing (m : Manifest) : m.standing.map Standing.owned = m.pins := by
  rw [standing, pins, List.map_flatMap]
  congr 1
  funext g
  calc (standingIn g).map Standing.owned
      = ((withEarlier g.pins).map Prod.snd).map fun p => (g, p) := by
        rw [standingIn, List.map_map, List.map_map]
        rfl
    _ = g.pins.map fun p => (g, p) := by rw [map_snd_withEarlier]

/-- A pin is the first of its package in its group when it is a first by key. -/
theorem groupFirsts_eq (m : Manifest) :
    m.groupFirsts = (m.standing.filter Standing.isFirst).map Standing.owned := by
  rw [groupFirsts, standing, List.filter_flatMap, List.map_flatMap]
  congr 1
  funext g
  rw [firsts_eq, standingIn, List.filter_map, List.map_map, List.map_map]
  refine congrArg₂ List.map rfl (List.filter_congr fun pair _ => ?_)
  rw [Bool.eq_iff_iff, Option.isNone_iff_eq_none, firstLike_eq_none_iff]
  simp [Standing.isFirst]

/-- Leaving out the pins that repeat a package in their group does not change which pin of the package is
the earliest. -/
theorem earliest_groupFirsts (m : Manifest) (a : Group × Pin) :
    earliest ownedKey m.groupFirsts a = earliest ownedKey m.pins a := by
  rw [earliest, earliest, groupFirsts, pins, List.find?_flatMap, List.find?_flatMap]
  congr 2
  funext g
  rw [List.find?_map, List.find?_map]
  exact congrArg _ (find?_firsts g.pins (ownedKey a))

/-! ## The passes -/

theorem duplicates_eq (m : Manifest) :
    m.duplicates = (m.standing.filter fun s => !s.isFirst).map Standing.repetition := by
  rw [duplicates, standing, List.filter_flatMap, List.map_flatMap]
  congr 1
  funext g
  rw [duplicatesIn, repeats_eq_map, standingIn, List.filter_map, List.map_map, List.map_map]
  refine congrArg₂ List.map rfl (List.filter_congr fun pair _ => ?_)
  simp [Standing.isFirst]

/-- Comparing the firsts of the groups with the first of them is comparing them with the first pin of the
manifest. -/
theorem conflicts_eq_filterMap (m : Manifest) :
    m.conflicts = m.groupFirsts.filterMap fun a =>
      conflictProblem? (earliest ownedKey m.pins a) a := by
  have hsplit : m.conflicts = (withEarlier m.groupFirsts).filterMap fun pair =>
      conflictProblem? (earliest ownedKey m.pins pair.2) pair.2 := by
    rw [conflicts, repeats_eq_map, List.filterMap_map, List.filterMap_filter]
    refine List.filterMap_congr fun pair hpair => ?_
    obtain ⟨before, a⟩ := pair
    obtain ⟨after, hfirsts⟩ := mem_withEarlier_iff.mp hpair
    dsimp only [Function.comp_apply]
    rw [← earliest_groupFirsts]
    split
    · rfl
    · next hnew =>
      -- the earliest pin of its package is compared with itself
      have hself : earliest ownedKey m.groupFirsts a = a := by
        rw [hfirsts]
        exact earliest_eq_self hnew
      rw [hself]
      exact (conflictProblem?_eq_none_iff.mpr rfl).symm
  rw [hsplit]
  conv_rhs => rw [← map_snd_withEarlier m.groupFirsts, List.filterMap_map]
  rfl

theorem conflictProblem?_firstIn (m : Manifest) (s : Standing) :
    conflictProblem? (s.firstIn m) s.owned =
      if (s.firstIn m).2.version != s.pin.version then some (s.disagreement m) else none := by
  by_cases h : (s.firstIn m).2.version = s.pin.version
  · rw [conflictProblem?_eq_none_iff.mpr h, if_neg (by simp [h])]
  · rw [if_pos (by simp [h])]
    exact if_neg h

theorem conflicts_eq (m : Manifest) :
    m.conflicts = ((m.standing.filter Standing.isFirst).filter fun s =>
      (s.firstIn m).2.version != s.pin.version).map (Standing.disagreement m) := by
  rw [conflicts_eq_filterMap, groupFirsts_eq, List.filterMap_map, ← List.filterMap_eq_map,
    List.filterMap_filter (p := fun s : Standing => (s.firstIn m).2.version != s.pin.version)]
  exact List.filterMap_congr fun s _ => conflictProblem?_firstIn m s

theorem malformedVersions_eq (policy : VersionPolicy) (m : Manifest) :
    m.malformedVersions policy = m.standing.filterMap (Standing.inexactness? policy) := by
  rw [malformedVersions, ← map_owned_standing, List.filterMap_map]
  rfl

/-! ## The whole report -/

/-- A manifest is reported with one problem for every pin that is not the first of its package in its
group; then one for every pin that is, but has another version than the first pin of its package in the
manifest; then one for every pin whose version is not exact; and then one for all of its markers, if
there are several. The pins come in the order of the text each time, and nothing else is reported. -/
theorem validate_eq_ofProblems (policy : VersionPolicy) (m : Manifest) :
    m.validate policy = Report.ofProblems (
      (m.standing.filter fun s => !s.isFirst).map Standing.repetition ++
      ((m.standing.filter Standing.isFirst).filter fun s =>
        (s.firstIn m).2.version != s.pin.version).map (Standing.disagreement m) ++
      m.standing.filterMap (Standing.inexactness? policy) ++
      if 2 ≤ m.markers.length then
        [.multipleEditableMarkers m.markers.length (m.markers.map fun k => k.1.name)
          (m.markers.map fun k => k.2.line)]
      else []) := by
  rw [validate, problems, duplicates_eq, conflicts_eq, malformedVersions_eq]
  rfl

end Manifest
end Pinfile
