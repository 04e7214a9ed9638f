import Mathlib.Data.List.Nodup
import Pinfile.Environment
import Pinfile.Proofs.Results
import Pinfile.Proofs.Validity

/-!
# Selections of a resolved environment

What is selected depends on which groups the names go by, and not on how often or in what order they
are named. In the environment of a valid manifest all groups agree on the version of a package
(`Coherent`), so two lists of the same groups give the same versions, key by key
(`versions_packagesByKey_congr`).
-/

namespace Pinfile

/-- The version of each package, with its key. -/
def Package.versions (ps : List Package) : List (String × String) := ps.map fun p => (p.key, p.version)

namespace Environment

variable {env : Environment} {names : List String} {name : String} {g : PackageGroup}
  {gs hs : List PackageGroup}

/-! ## Environments of valid manifests -/

/-- Two packages of one key in the groups have one version. -/
def AgreeOnVersions (gs : List PackageGroup) : Prop :=
  ∀ g ∈ gs, ∀ h ∈ gs, ∀ p ∈ g.packages, ∀ q ∈ h.packages, p.key = q.key → p.version = q.version

/-- A name stands for one group, and the groups agree on versions. -/
structure Coherent (env : Environment) : Prop where
  distinctGroups : env.groups.Pairwise fun g h => Text.lowercase g.name ≠ Text.lowercase h.name
  agree : AgreeOnVersions env.groups

/-- What a valid manifest asks for agrees on versions, in groups of any names. -/
theorem agree_of_resolve {policy : VersionPolicy} {m : Manifest} (h : resolve policy m = .ok env) :
    AgreeOnVersions env.groups := by
  obtain ⟨hvalidate, rfl⟩ := resolve_eq_ok_iff.mp h
  have hvalid := Manifest.problems_eq_nil_iff_valid.mp (Manifest.validate_eq_ok_iff.mp hvalidate)
  intro a ha b hb x hx y hy hkey
  obtain ⟨g, hg, rfl⟩ := List.mem_map.mp ha
  obtain ⟨h, hh, rfl⟩ := List.mem_map.mp hb
  obtain ⟨p, hp, rfl⟩ := List.mem_map.mp hx
  obtain ⟨q, hq, rfl⟩ := List.mem_map.mp hy
  exact hvalid.oneVersion (g, p) (Manifest.mem_pins_iff.mpr ⟨hg, hp⟩)
    (h, q) (Manifest.mem_pins_iff.mpr ⟨hh, hq⟩) hkey

theorem coherent_of_resolve {policy : VersionPolicy} {m : Manifest} (hd : m.DistinctGroups)
    (h : resolve policy m = .ok env) : env.Coherent := by
  refine ⟨?_, agree_of_resolve h⟩
  obtain ⟨-, rfl⟩ := resolve_eq_ok_iff.mp h
  exact List.pairwise_map.mpr hd

/-! ## The groups that are named -/

/-- Where names are distinct, a name goes for at most one group. -/
theorem Coherent.group?_eq_some_iff (h : env.Coherent) :
    env.group? name = some g ↔ g ∈ env.groups ∧ g.isNamed name = true := by
  refine ⟨isNamed_of_group?, fun ⟨hg, hnamed⟩ => ?_⟩
  have hfind : env.groups.find? (fun h => Text.lowercase h.name == Text.lowercase g.name) = some g :=
    find?_of_pairwise h.distinctGroups hg
  have hkey : Text.lowercase g.name = Text.lowercase (Text.trimmed name) := by
    simpa [PackageGroup.isNamed] using hnamed
  rw [hkey] at hfind
  exact hfind

theorem groupNamed_eq_ok_iff : env.groupNamed name = .ok g ↔ env.group? name = some g := by
  unfold groupNamed
  cases env.group? name <;> simp

/-- The selected groups are those that the names go by. -/
theorem mem_selectGroups (hnames : names ≠ []) (h : env.selectGroups names = .ok gs) :
    g ∈ gs ↔ ∃ name ∈ names, env.group? name = some g := by
  rw [selectGroups, if_neg (by simpa using hnames), mapM_eq_ok_iff] at h
  have hmem : g ∈ gs ↔ .ok g ∈ names.map env.groupNamed := by simp [h]
  rw [hmem, List.mem_map]
  simp only [groupNamed_eq_ok_iff]

theorem select_eq_ok_iff {ps : List Package} :
    env.select names = .ok ps ↔ ∃ gs, env.selectGroups names = .ok gs ∧ packagesByKey gs = ps :=
  map_eq_ok_iff

/-! ## One package for every key -/

theorem pairwise_packagesByKey (gs : List PackageGroup) :
    (packagesByKey gs).Pairwise fun p q => p.key ≤ q.key ∧ p.key ≠ q.key := by
  have hsorted : (packagesByKey gs).Pairwise fun p q => decide (p.key ≤ q.key) = true := by
    refine List.pairwise_mergeSort ?_ ?_ _
    · intro p q r hpq hqr
      exact decide_eq_true (String.le_trans (of_decide_eq_true hpq) (of_decide_eq_true hqr))
    · intro p q
      simpa using String.le_total p.key q.key
  have hdistinct : (packagesByKey gs).Pairwise fun p q => p.key ≠ q.key :=
    ((List.mergeSort_perm _ _).pairwise_iff Ne.symm).mpr (firsts_pairwise _)
  exact hsorted.imp₂ (fun _ _ hle hne => ⟨of_decide_eq_true hle, hne⟩) hdistinct

/-- Every package of the groups has its key among the packages selected. -/
theorem exists_mem_packagesByKey {p : Package} (hg : g ∈ gs) (hp : p ∈ g.packages) :
    ∃ q ∈ packagesByKey gs, q.key = p.key := by
  obtain ⟨q, hq, hkey⟩ : ∃ q ∈ firsts Package.key (gs.flatMap PackageGroup.packages),
      q.key = p.key := exists_mem_firsts (List.mem_flatMap.mpr ⟨g, hg, hp⟩)
  exact ⟨q, List.mem_mergeSort.mpr hq, hkey⟩

/-- Where the groups agree, the versions of a selection are the versions of its groups. -/
theorem mem_versions_packagesByKey (h : AgreeOnVersions gs) {key version : String} :
    (key, version) ∈ Package.versions (packagesByKey gs) ↔
      ∃ g ∈ gs, ∃ p ∈ g.packages, p.key = key ∧ p.version = version := by
  rw [Package.versions, List.mem_map]
  constructor
  · rintro ⟨p, hp, heq⟩
    obtain ⟨g, hg, hp⟩ := mem_of_mem_packagesByKey hp
    exact ⟨g, hg, p, hp, Prod.mk.inj heq⟩
  · rintro ⟨g, hg, p, hp, rfl, rfl⟩
    obtain ⟨q, hmem, hkey⟩ := exists_mem_packagesByKey hg hp
    obtain ⟨h', hh', hq'⟩ := mem_of_mem_packagesByKey hmem
    exact ⟨q, hmem, Prod.ext hkey (h h' hh' g hg q hq' p hp hkey)⟩

/-- Lists of the same groups give the same versions. -/
theorem versions_packagesByKey_congr (hmem : ∀ g, g ∈ gs ↔ g ∈ hs) (h : AgreeOnVersions gs) :
    Package.versions (packagesByKey gs) = Package.versions (packagesByKey hs) := by
  have hagree : AgreeOnVersions hs := by
    simpa only [AgreeOnVersions, hmem] using h
  have hsorted : ∀ gs, (Package.versions (packagesByKey gs)).Pairwise fun a b =>
      a.1 ≤ b.1 ∧ a.1 ≠ b.1 := fun gs => List.pairwise_map.mpr (pairwise_packagesByKey gs)
  have hnodup : ∀ gs, (Package.versions (packagesByKey gs)).Nodup :=
    fun gs => (hsorted gs).imp fun hab heq => hab.2 (congrArg Prod.fst heq)
  -- with strictly increasing keys there is one order only, so the members decide
  refine List.Perm.eq_of_pairwise ?_ (hsorted gs) (hsorted hs) ?_
  · intro a b _ _ hab hba
    exact absurd (String.le_antisymm hab.1 hba.1) hab.2
  · rw [List.perm_ext_iff_of_nodup (hnodup gs) (hnodup hs)]
    rintro ⟨key, version⟩
    rw [mem_versions_packagesByKey h, mem_versions_packagesByKey hagree]
    simp only [hmem]

end Environment
end Pinfile
