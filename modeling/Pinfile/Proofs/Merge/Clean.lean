import Pinfile.Proofs.Merge.Walk
import Pinfile.Proofs.Validity

/-!
# Clean layers

A layer is clean when its groups have different names, no group pins a package twice and a package
has one version. These are the layers that merging is specified for. In a clean layer the pins of a
name are those of its group (`DistinctGroups.pinsIn_key`), and the last version of a package is the
version of each of its pins (`Clean.lastVersion?_eq`).

The second half reads lists of layers: which layer decides the version of a package
(`lastVersion?_flatMap`), and which one has it first in a group (`find?_pinsIn_flatMap`).
-/

namespace Pinfile.Manifest

/-! ## Clean manifests -/

/-- A name stands for one group, a group holds a package once, and a package has one version. -/
structure Clean (m : Manifest) : Prop where
  distinctGroups : m.DistinctGroups
  pinsOnce : m.PinsOnce
  oneVersion : m.OneVersion

instance (m : Manifest) : Decidable m.Clean :=
  decidable_of_iff (m.DistinctGroups ∧ m.PinsOnce ∧ m.OneVersion)
    ⟨fun ⟨hd, ho, hv⟩ => ⟨hd, ho, hv⟩, fun h => ⟨h.distinctGroups, h.pinsOnce, h.oneVersion⟩⟩

/-- The pins of one name are those of the groups that have it. -/
theorem pinsIn_pins (m : Manifest) (group : String) :
    Merge.pinsIn group m.pins = (m.groups.filter (·.key == group)).flatMap Group.pins := by
  rw [pins]
  induction m.groups with
  | nil => rfl
  | cons g groups ih =>
    rw [List.flatMap_cons, Merge.pinsIn_append, ih, List.filter_cons]
    by_cases hg : g.key = group
    · simp [Merge.pinsIn, hg, List.filter_map, Function.comp_def]
    · simp [Merge.pinsIn, hg, List.filter_map, Function.comp_def]

/-- Where names are distinct, the pins of a name are those of its group. -/
theorem DistinctGroups.pinsIn_key {m : Manifest} (hd : m.DistinctGroups) {g : Group}
    (hg : g ∈ m.groups) : Merge.pinsIn g.key m.pins = g.pins := by
  rw [pinsIn_pins, filter_of_pairwise hd hg]
  exact List.flatMap_singleton Group.pins g

/-- In a clean manifest, no package stands twice under one name. -/
theorem Clean.pinsIn_pairwise {m : Manifest} (h : m.Clean) (group : String) :
    (Merge.pinsIn group m.pins).Pairwise fun p q => p.key ≠ q.key := by
  by_cases hgroup : ∃ g ∈ m.groups, g.key = group
  · obtain ⟨g, hg, rfl⟩ := hgroup
    rw [h.distinctGroups.pinsIn_key hg]
    exact h.pinsOnce g hg
  · have hnone : m.groups.filter (·.key == group) = [] := by
      rw [List.filter_eq_nil_iff]
      intro g hg hkey
      exact hgroup ⟨g, hg, by simpa using hkey⟩
    rw [pinsIn_pins, hnone]
    exact List.Pairwise.nil

/-- In a clean manifest, the last version of a package is the version of each of its pins. -/
theorem Clean.lastVersion?_eq {m : Manifest} (h : m.Clean) {pins : List (Group × Pin)}
    (hpins : ∀ a ∈ pins, a ∈ m.pins) {a : Group × Pin} (ha : a ∈ pins) :
    Merge.lastVersion? a.2.key pins = some a.2.version := by
  refine Merge.lastVersion?_eq_of_agree (fun b hb hkey => ?_) ⟨a, ha, rfl⟩
  exact h.oneVersion b (hpins b hb) a (hpins a ha) hkey

/-! ## Reading layer by layer -/

/-- Some group with a name of the given lowercase form pins the package. -/
def PinsIn (m : Manifest) (group key : String) : Prop := ∃ p ∈ Merge.pinsIn group m.pins, p.key = key

/-- The highest layer that pins the package, in whichever group. -/
def lastPinning? (ms : List Manifest) (key : String) : Option Manifest :=
  ms.reverse.find? fun m => m.pins.any (·.2.key == key)

/-- The lowest layer that pins the package in a group of the given lowercase name. -/
def firstPinningIn? (ms : List Manifest) (group key : String) : Option Manifest :=
  ms.find? fun m => (Merge.pinsIn group m.pins).any (·.key == key)

/-- The last version of a package is the last one that its highest layer gives it. -/
theorem lastVersion?_flatMap (ms : List Manifest) (key : String) :
    Merge.lastVersion? key (ms.flatMap pins) =
      (lastPinning? ms key).bind fun m => Merge.lastVersion? key m.pins := by
  rw [Merge.lastVersion?, List.reverse_flatMap, find?_flatMap_eq, lastPinning?, Option.map_bind]
  simp only [Function.comp_def, List.any_reverse]
  rfl

theorem pinsIn_flatMap (ms : List Manifest) (group : String) :
    Merge.pinsIn group (ms.flatMap pins) = ms.flatMap fun m => Merge.pinsIn group m.pins := by
  rw [Merge.pinsIn, List.filter_flatMap, List.map_flatMap]
  rfl

/-- The first pin of a package in a group is the first one that its lowest layer has there. -/
theorem find?_pinsIn_flatMap (ms : List Manifest) (group key : String) :
    (Merge.pinsIn group (ms.flatMap pins)).find? (·.key == key) =
      (firstPinningIn? ms group key).bind fun m =>
        (Merge.pinsIn group m.pins).find? (·.key == key) := by
  rw [pinsIn_flatMap, find?_flatMap_eq]
  rfl

end Pinfile.Manifest
