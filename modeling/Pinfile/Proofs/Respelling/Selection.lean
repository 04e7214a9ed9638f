import Pinfile.Proofs.Environment.Selection
import Pinfile.Proofs.Respelling.Merge

/-!
# Selecting from other spellings

What manifests that are respellings of each other ask for is installed in the same versions. Their
environments are respellings of each other (`Environment.Respelled.ofManifest`), every query goes for
the same groups in both, and the packages that are selected have the same keys and versions
(`Environment.Respelled.select`). Together with merging and validation: the spelling of a name decides
nothing (`Respelling.decides_nothing`).
-/

namespace Pinfile

variable (r : Respelling)

/-- The package `q` is the package `p` in another spelling. -/
structure Package.Respelled (p q : Package) : Prop where
  name : r.package p.name q.name
  version : p.version = q.version

/-- The group `h` is the group `g` with other spellings of its name and of its packages. -/
structure PackageGroup.Respelled (g h : PackageGroup) : Prop where
  name : r.group g.name h.name
  packages : List.Forall₂ (Package.Respelled r) g.packages h.packages

/-- The same path is installed, from a group in another spelling. -/
structure EditableInstall.Respelled (e f : EditableInstall) : Prop where
  group : r.group e.group f.group
  target : e.target = f.target

/-- The environment `env'` is the environment `env` with other spellings. -/
structure Environment.Respelled (env env' : Environment) : Prop where
  editable : Option.Rel (EditableInstall.Respelled r) env.editable env'.editable
  groups : List.Forall₂ (PackageGroup.Respelled r) env.groups env'.groups

/-- The same query fails, among groups in other spellings. -/
structure UnknownGroup.Respelled (e f : UnknownGroup) : Prop where
  name : e.name = f.name
  available : List.Forall₂ r.group e.available f.available

variable {r}

theorem Package.Respelled.key {p q : Package} (h : p.Respelled r q) : p.key = q.key := r.key_eq h.name

/-- The same keys have the same versions. -/
theorem Package.versions_eq_of_respelled {ps qs : List Package}
    (h : List.Forall₂ (Package.Respelled r) ps qs) : versions ps = versions qs := by
  rw [← List.forall₂_eq_eq_eq]
  exact List.rel_map (fun p q hpq => by rw [hpq.key, hpq.version]) h

theorem PackageGroup.Respelled.isNamed {g h : PackageGroup} (hgh : g.Respelled r h) (name : String) :
    g.isNamed name = h.isNamed name := by
  rw [PackageGroup.isNamed, PackageGroup.isNamed, r.lowercase_eq hgh.name]

theorem Group.Respelled.toPackages {g h : Group} (hgh : g.Respelled r h) :
    g.toPackages.Respelled r h.toPackages :=
  ⟨hgh.name, List.rel_map (fun _ _ hpq => ⟨hpq.name, hpq.version⟩) hgh.pins⟩

namespace Environment

/-- The packages that are taken from groups in other spellings are the same packages, in one order. -/
theorem packagesByKey_respelled {gs hs : List PackageGroup}
    (h : List.Forall₂ (PackageGroup.Respelled r) gs hs) :
    List.Forall₂ (Package.Respelled r) (packagesByKey gs) (packagesByKey hs) := by
  have hpackages : List.Forall₂ (Package.Respelled r) (gs.flatMap PackageGroup.packages)
      (hs.flatMap PackageGroup.packages) := List.rel_flatMap h fun _ _ hg => hg.packages
  have hfirsts := firsts_of_forall₂ hpackages fun p q hpq => hpq.key
  exact mergeSort_of_forall₂ hfirsts fun p q p' q' hpq hpq' => by rw [hpq.key, hpq'.key]

namespace Respelled

variable {env env' : Environment}

theorem ofManifest {m n : Manifest} (h : m.Respelled r n) :
    (ofManifest m).Respelled r (ofManifest n) where
  editable := by
    rw [Environment.ofManifest, Environment.ofManifest]
    rcases cases_of_rel (head?_of_forall₂ h.markers) with ⟨hm, hn⟩ | ⟨a, b, hm, hn, hgroup, hmarker⟩
    · rw [hm, hn]
      exact .none
    · rw [hm, hn]
      exact .some ⟨hgroup.name, congrArg Marker.target hmarker⟩
  groups := List.rel_map (fun _ _ hg => hg.toPackages) h

/-- A query goes for the same group in both environments. -/
theorem groupNamed (h : env.Respelled r env') (name : String) :
    Agree (UnknownGroup.Respelled r) (PackageGroup.Respelled r) (env.groupNamed name)
      (env'.groupNamed name) := by
  have hgroup : Option.Rel (PackageGroup.Respelled r) (env.group? name) (env'.group? name) :=
    find?_of_forall₂ h.groups fun _ _ hg => hg.isNamed name
  rw [Environment.groupNamed, Environment.groupNamed]
  rcases cases_of_rel hgroup with ⟨hnone, hnone'⟩ | ⟨g, g', hsome, hsome', hg⟩
  · rw [hnone, hnone']
    exact .error ⟨rfl, List.rel_map (fun _ _ hg => hg.name) h.groups⟩
  · rw [hsome, hsome']
    exact .ok hg

theorem selectGroups (h : env.Respelled r env') (names : List String) :
    Agree (UnknownGroup.Respelled r) (List.Forall₂ (PackageGroup.Respelled r))
      (env.selectGroups names) (env'.selectGroups names) := by
  rw [Environment.selectGroups, Environment.selectGroups]
  split
  · exact .ok h.groups
  · exact Agree.mapM h.groupNamed

/-- The same queries select the same packages from both environments, or the first query that no group
goes by is the same. -/
theorem select (h : env.Respelled r env') (names : List String) :
    Agree (UnknownGroup.Respelled r) (List.Forall₂ (Package.Respelled r)) (env.select names)
      (env'.select names) :=
  (h.selectGroups names).map fun _ _ hgroups => packagesByKey_respelled hgroups

end Respelled
end Environment

/-- The spelling of a name decides nothing. For manifests that are respellings of each other:

* merges both succeed, with manifests that are respellings of each other, or both fail, with the same
  conflicts at the same positions;
* validations both succeed, or both report the same problems at the same positions;
* when both manifests resolve, the same queries select the same versions for the same keys, or the
  same query fails. -/
theorem Respelling.decides_nothing (r : Respelling) :
    (∀ ms ns, List.Forall₂ (Manifest.Respelled r) ms ns →
      Agree (Report.Respelled r) (Manifest.Respelled r) (Manifest.merge ms) (Manifest.merge ns)) ∧
    (∀ m n : Manifest, m.Respelled r n → ∀ policy,
      Agree (Report.Respelled r) Eq (m.validate policy) (n.validate policy)) ∧
    ∀ m n : Manifest, m.Respelled r n → ∀ policy env env', Environment.resolve policy m = .ok env →
      Environment.resolve policy n = .ok env' → ∀ names,
        Agree (UnknownGroup.Respelled r)
          (fun ps qs => Package.versions ps = Package.versions qs ∧
            List.Forall₂ (Package.Respelled r) ps qs)
          (env.select names) (env'.select names) := by
  refine ⟨fun _ _ => Manifest.merge_respelled, fun _ _ h => Manifest.validate_respelled h, ?_⟩
  intro m n h policy env env' hm hn names
  obtain ⟨-, rfl⟩ := Environment.resolve_eq_ok_iff.mp hm
  obtain ⟨-, rfl⟩ := Environment.resolve_eq_ok_iff.mp hn
  refine ((Environment.Respelled.ofManifest h).select names).imp fun ps qs hpackages => ?_
  exact ⟨Package.versions_eq_of_respelled hpackages, hpackages⟩

/-- A group that pins one package, each in the given spelling. -/
def pinning (group package version : String) (isOverride : Bool) : Manifest :=
  ⟨[{ name := group, entries := [.pin ⟨⟨package⟩, version, isOverride, 2⟩] }]⟩

theorem Respelling.decides_nothing_of_pinning :
    (∃ m n, Manifest.merge [pinning "Οδός" "typing_extensions" "4.12.1" false,
        pinning "ΟΔΌΣ" "Typing.Extensions" "4.12.2" true] = .ok m ∧
      Manifest.merge [pinning "ΟΔΌΣ" "TYPING-extensions" "4.12.1" false,
        pinning "οδός" "typing--extensions" "4.12.2" true] = .ok n ∧ m.Respelled .any n) ∧
    Agree (Report.Respelled .any) Eq ((pinning "Οδός" "typing_extensions" "4.12" false).validate {})
      ((pinning "ΟΔΌΣ" "TYPING-extensions" "4.12" false).validate {}) ∧
    ∃ env env', Environment.resolve {} (pinning "Οδός" "typing_extensions" "4.12.1" false) = .ok env ∧
      Environment.resolve {} (pinning "ΟΔΌΣ" "TYPING-extensions" "4.12.1" false) = .ok env' ∧
      ∃ ps qs, env.select ["οδός "] = .ok ps ∧ env'.select ["οδός "] = .ok qs ∧
        Package.versions ps = Package.versions qs := by
  obtain ⟨hmerge, hvalidate, hselect⟩ := decides_nothing .any
  have hgroup : Text.lowercase "Οδός" = Text.lowercase "ΟΔΌΣ" := by decide +kernel
  have hgroup' : Text.lowercase "ΟΔΌΣ" = Text.lowercase "οδός" := by decide +kernel
  have hpackage : PackageName.normalize "typing_extensions" =
      PackageName.normalize "TYPING-extensions" := by decide +kernel
  have hpackage' : PackageName.normalize "Typing.Extensions" =
      PackageName.normalize "typing--extensions" := by decide +kernel
  have hlower (version : String) : (pinning "Οδός" "typing_extensions" version false).Respelled .any
      (pinning "ΟΔΌΣ" "TYPING-extensions" version false) :=
    .cons ⟨hgroup, rfl, .cons (.pin ⟨hpackage, rfl, rfl, rfl⟩) .nil⟩ .nil
  have hupper : (pinning "ΟΔΌΣ" "Typing.Extensions" "4.12.2" true).Respelled .any
      (pinning "οδός" "typing--extensions" "4.12.2" true) :=
    .cons ⟨hgroup', rfl, .cons (.pin ⟨hpackage', rfl, rfl, rfl⟩) .nil⟩ .nil
  have hm : Manifest.merge [pinning "Οδός" "typing_extensions" "4.12.1" false,
      pinning "ΟΔΌΣ" "Typing.Extensions" "4.12.2" true] =
      .ok (pinning "Οδός" "typing_extensions" "4.12.2" false) := by decide +kernel
  have hn : Manifest.merge [pinning "ΟΔΌΣ" "TYPING-extensions" "4.12.1" false,
      pinning "οδός" "typing--extensions" "4.12.2" true] =
      .ok (pinning "ΟΔΌΣ" "TYPING-extensions" "4.12.2" false) := by decide +kernel
  refine ⟨⟨_, _, hm, hn, ?_⟩, hvalidate _ _ (hlower "4.12") {}, ?_⟩
  · exact (hmerge _ _ (.cons (hlower "4.12.1") (.cons hupper .nil))).rel_of_eq_ok hm hn
  · have henv : Environment.resolve {} (pinning "Οδός" "typing_extensions" "4.12.1" false) =
        .ok _ := rfl
    have henv' : Environment.resolve {} (pinning "ΟΔΌΣ" "TYPING-extensions" "4.12.1" false) =
        .ok _ := rfl
    have hagree := hselect _ _ (hlower "4.12.1") {} _ _ henv henv' ["οδός "]
    refine ⟨_, _, henv, henv', [⟨"typing_extensions", "4.12.1"⟩], [⟨"TYPING-extensions", "4.12.1"⟩],
      by decide +kernel, by decide +kernel, ?_⟩
    exact (hagree.rel_of_eq_ok (by decide +kernel) (by decide +kernel)).1

end Pinfile
