import Pinfile.Proofs.Repeats
import Pinfile.Validate

/-!
# What validation accepts

The rules of a valid manifest, said without the passes that check them: `PinsOnce`, `OneVersion`,
`ExactVersions` and a count of markers, together `Valid`. Two of the passes look at less than these
rules speak of. The comparison between groups leaves out every pin that repeats its group, and it
compares a version with the first one only.

The main statement is that nothing slips through by this (`problems_eq_nil_iff_valid`): a manifest
has no problem exactly when it follows the rules.
-/

namespace Pinfile.Manifest

/-! ## The rules -/

/-- The names of the groups are pairwise different up to letter case. Validation does not look at this,
because reading a text gives no other manifests. -/
def DistinctGroups (m : Manifest) : Prop :=
  m.groups.Pairwise fun g h => g.key ≠ h.key

/-- No group pins a package twice. -/
def PinsOnce (m : Manifest) : Prop :=
  ∀ g ∈ m.groups, g.pins.Pairwise fun p q => p.key ≠ q.key

/-- Any two pins of one package have one version, in whichever groups they stand. -/
def OneVersion (m : Manifest) : Prop :=
  ∀ a ∈ m.pins, ∀ b ∈ m.pins, a.2.key = b.2.key → a.2.version = b.2.version

/-- Every pin has an exact version. -/
def ExactVersions (policy : VersionPolicy) (m : Manifest) : Prop :=
  ∀ a ∈ m.pins, ∃ v, ExactVersion.parse policy a.2.version = .ok v

instance (m : Manifest) : Decidable m.DistinctGroups :=
  inferInstanceAs (Decidable (m.groups.Pairwise fun g h => g.key ≠ h.key))

instance (m : Manifest) : Decidable m.PinsOnce :=
  inferInstanceAs (Decidable (∀ g ∈ m.groups, g.pins.Pairwise fun p q => p.key ≠ q.key))

instance (m : Manifest) : Decidable m.OneVersion :=
  inferInstanceAs (Decidable
    (∀ a ∈ m.pins, ∀ b ∈ m.pins, a.2.key = b.2.key → a.2.version = b.2.version))

/-- A manifest that follows every rule. -/
structure Valid (policy : VersionPolicy) (m : Manifest) : Prop where
  pinsOnce : m.PinsOnce
  oneVersion : m.OneVersion
  exactVersions : m.ExactVersions policy
  oneMarker : m.markers.length ≤ 1

/-! ## One pass after the other -/

theorem mem_pins_iff {m : Manifest} {a : Group × Pin} :
    a ∈ m.pins ↔ a.1 ∈ m.groups ∧ a.2 ∈ a.1.pins := by
  obtain ⟨g, p⟩ := a
  simp only [pins, List.mem_flatMap, List.mem_map, Prod.mk.injEq]
  constructor
  · rintro ⟨_, hg, _, hp, rfl, rfl⟩
    exact ⟨hg, hp⟩
  · rintro ⟨hg, hp⟩
    exact ⟨g, hg, p, hp, rfl, rfl⟩

theorem mem_markers_iff {m : Manifest} {a : Group × Marker} :
    a ∈ m.markers ↔ a.1 ∈ m.groups ∧ a.2 ∈ a.1.markers := by
  obtain ⟨g, k⟩ := a
  simp only [markers, List.mem_flatMap, List.mem_map, Prod.mk.injEq]
  constructor
  · rintro ⟨_, hg, _, hk, rfl, rfl⟩
    exact ⟨hg, hk⟩
  · rintro ⟨hg, hk⟩
    exact ⟨g, hg, k, hk, rfl, rfl⟩

theorem mem_pins_group_iff {g : Group} {p : Pin} : p ∈ g.pins ↔ .pin p ∈ g.entries := by
  rw [Group.pins, List.mem_filterMap]
  constructor
  · rintro ⟨e, he, hp⟩
    cases e with
    | pin q => rwa [← Option.some.inj hp]
    | editable k => cases hp
  · exact fun h => ⟨_, h, rfl⟩

theorem mem_markers_group_iff {g : Group} {k : Marker} :
    k ∈ g.markers ↔ .editable k ∈ g.entries := by
  rw [Group.markers, List.mem_filterMap]
  constructor
  · rintro ⟨e, he, hk⟩
    cases e with
    | pin q => cases hk
    | editable m => rwa [← Option.some.inj hk]
  · exact fun h => ⟨_, h, rfl⟩

/-- The pins among the entries of a group are pins of the manifest. -/
theorem mem_pins_of_mem_entries {m : Manifest} {g : Group} {p : Pin} (hg : g ∈ m.groups)
    (hp : .pin p ∈ g.entries) : (g, p) ∈ m.pins :=
  mem_pins_iff.mpr ⟨hg, mem_pins_group_iff.mpr hp⟩

theorem duplicates_eq_nil_iff {m : Manifest} : m.duplicates = [] ↔ m.PinsOnce := by
  rw [duplicates, List.flatMap_eq_nil_iff]
  apply forall₂_congr
  intro g _
  rw [duplicatesIn, List.map_eq_nil_iff, repeats_eq_nil_iff]

/-- Where no group repeats a package, every pin takes part in the comparison between groups. -/
theorem groupFirsts_eq_pins {m : Manifest} (h : m.PinsOnce) : m.groupFirsts = m.pins := by
  rw [groupFirsts, pins, List.flatMap_def, List.flatMap_def]
  refine congrArg List.flatten (List.map_congr_left fun g hg => ?_)
  rw [firsts_eq_self (h g hg)]

theorem conflicts_eq_nil_iff {m : Manifest} (h : m.PinsOnce) : m.conflicts = [] ↔ m.OneVersion := by
  rw [conflicts, List.filterMap_eq_nil_iff, groupFirsts_eq_pins h, OneVersion]
  have hagree : (∀ pair ∈ repeats ownedKey m.pins, pair.1.2.version = pair.2.2.version) ↔
      ∀ a ∈ m.pins, ∀ b ∈ m.pins, ownedKey a = ownedKey b → a.2.version = b.2.version :=
    repeats_agree_iff (fun a => a.2.version) m.pins
  simp only [conflictProblem?_eq_none_iff]
  exact hagree

theorem versionProblem?_eq_none_iff {policy : VersionPolicy} {a : Group × Pin} :
    versionProblem? policy a = none ↔ ∃ v, ExactVersion.parse policy a.2.version = .ok v := by
  unfold versionProblem?
  cases h : ExactVersion.parse policy a.2.version with
  | ok v => exact iff_of_true rfl ⟨v, rfl⟩
  | error reason => exact iff_of_false (by simp) (by simp)

theorem malformedVersions_eq_nil_iff {policy : VersionPolicy} {m : Manifest} :
    m.malformedVersions policy = [] ↔ m.ExactVersions policy := by
  rw [malformedVersions, List.filterMap_eq_nil_iff]
  exact forall₂_congr fun _ _ => versionProblem?_eq_none_iff

/-! ## All passes -/

/-- A manifest has no problem exactly when it follows the rules. -/
theorem problems_eq_nil_iff_valid {policy : VersionPolicy} {m : Manifest} :
    m.problems policy = [] ↔ m.Valid policy := by
  rw [problems_eq_nil_iff, duplicates_eq_nil_iff, malformedVersions_eq_nil_iff,
    markerProblems_eq_nil_iff]
  constructor
  · rintro ⟨honce, hconflicts, hexact, hmarkers⟩
    exact ⟨honce, (conflicts_eq_nil_iff honce).mp hconflicts, hexact, hmarkers⟩
  · rintro ⟨honce, hversion, hexact, hmarkers⟩
    exact ⟨honce, (conflicts_eq_nil_iff honce).mpr hversion, hexact, hmarkers⟩

/-- Validation accepts exactly the manifests that pin no package twice in a group, give every package
one version in all groups, give exact versions only and hold at most one marker. -/
theorem validate_ok_iff_rules (policy : VersionPolicy) (m : Manifest) :
    m.validate policy = .ok () ↔
      (∀ g ∈ m.groups, g.pins.Pairwise fun p q => p.key ≠ q.key) ∧
      (∀ a ∈ m.pins, ∀ b ∈ m.pins, a.2.key = b.2.key → a.2.version = b.2.version) ∧
      (∀ a ∈ m.pins, ∃ v, ExactVersion.parse policy a.2.version = .ok v) ∧
      m.markers.length ≤ 1 := by
  rw [validate_eq_ok_iff, problems_eq_nil_iff_valid]
  constructor
  · intro h
    exact ⟨h.pinsOnce, h.oneVersion, h.exactVersions, h.oneMarker⟩
  · rintro ⟨honce, hversion, hexact, hmarkers⟩
    exact ⟨honce, hversion, hexact, hmarkers⟩

/-! ## Lines do not matter -/

theorem pins_withoutLines_group (g : Group) :
    g.withoutLines.pins = g.pins.map fun p => { p with line := 0 } := by
  rw [Group.pins, Group.pins, Group.withoutLines, List.filterMap_map, List.map_filterMap]
  congr 1
  funext e
  cases e <;> rfl

theorem markers_withoutLines_group (g : Group) :
    g.withoutLines.markers = g.markers.map fun k => { k with line := 0 } := by
  rw [Group.markers, Group.markers, Group.withoutLines, List.filterMap_map, List.map_filterMap]
  congr 1
  funext e
  cases e <;> rfl

theorem pins_withoutLines (m : Manifest) :
    m.withoutLines.pins = m.pins.map fun a => (a.1.withoutLines, { a.2 with line := 0 }) := by
  simp [pins, withoutLines, pins_withoutLines_group, List.map_flatMap, List.flatMap_map,
    Function.comp_def]

theorem length_markers_withoutLines (m : Manifest) :
    m.withoutLines.markers.length = m.markers.length := by
  simp [markers, withoutLines, List.length_flatMap, markers_withoutLines_group, Function.comp_def]

theorem valid_withoutLines {policy : VersionPolicy} {m : Manifest} :
    m.withoutLines.Valid policy ↔ m.Valid policy := by
  have honce : m.withoutLines.PinsOnce ↔ m.PinsOnce := by
    simp [PinsOnce, withoutLines, pins_withoutLines_group, List.pairwise_map, Pin.key]
  have hversion : m.withoutLines.OneVersion ↔ m.OneVersion := by
    simp only [OneVersion, pins_withoutLines, List.forall_mem_map]
    rfl
  have hexact : m.withoutLines.ExactVersions policy ↔ m.ExactVersions policy := by
    simp only [ExactVersions, pins_withoutLines, List.forall_mem_map]
  constructor
  · rintro ⟨ho, hv, he, hm⟩
    exact ⟨honce.mp ho, hversion.mp hv, hexact.mp he, length_markers_withoutLines m ▸ hm⟩
  · rintro ⟨ho, hv, he, hm⟩
    exact ⟨honce.mpr ho, hversion.mpr hv, hexact.mpr he, (length_markers_withoutLines m).symm ▸ hm⟩

/-- Two manifests that say the same are valid together. -/
theorem valid_iff_of_same {policy : VersionPolicy} {a b : Manifest} (h : a.Same b) :
    a.Valid policy ↔ b.Valid policy := by
  rw [← valid_withoutLines, h, valid_withoutLines]

end Pinfile.Manifest
