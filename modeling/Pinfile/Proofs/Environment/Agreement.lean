import Pinfile.Failure
import Pinfile.Proofs.Environment.Selection
import Pinfile.Proofs.Text.Padding

/-!
# All selections agree

A selection takes the first package it meets under a key, so its result could depend on the groups
that are named and on their order. In the environment of a valid manifest it does not: every pin of a
package has one version, wherever it stands, and what a selection says about a package is that
version. `IsSelection` says what is selected from a manifest without looking at the first of anything.

Names can be written in many ways that select the same (`Rewritten`). One step from one way to another
leaves the groups that the names go by as they are (`Rewritten.mem_groups_iff`), so the versions that
are selected stay too.
-/

namespace Pinfile

/-! ## What a selection is -/

/-- The group is one of those that the names go by; without names every group is. -/
def Manifest.Chooses (m : Manifest) (names : List String) (g : Group) : Prop :=
  if names = [] then g ∈ m.groups else ∃ name ∈ names, m.group? name = some g

/-- The packages are a selection of the manifest by the names: one for each package that is pinned in
a chosen group, in the order of the keys, with the version that all of its pins have. -/
structure Manifest.IsSelection (m : Manifest) (names : List String) (ps : List Package) : Prop where
  increasing : ps.Pairwise fun p q => p.key ≤ q.key ∧ p.key ≠ q.key
  keys : ∀ key, key ∈ ps.map Package.key ↔ ∃ g, m.Chooses names g ∧ ∃ p ∈ g.pins, p.key = key
  /-- The pins in all groups count, whether their group is chosen or not. -/
  versions : ∀ p ∈ ps, ∀ a ∈ m.pins, a.2.key = p.key → a.2.version = p.version

namespace Environment

variable {policy : VersionPolicy} {m : Manifest} {env : Environment} {names names' : List String}
  {name : String} {gs : List PackageGroup} {ps qs : List Package}

/-! ## Environments and their manifests -/

theorem group?_ofManifest (m : Manifest) (name : String) :
    (ofManifest m).group? name = (m.group? name).map Group.toPackages := by
  rw [group?, ofManifest, List.find?_map]
  rfl

/-- The groups of a selection are those that are chosen in the manifest. -/
theorem mem_selectGroups_ofManifest (h : (ofManifest m).selectGroups names = .ok gs)
    {g : PackageGroup} : g ∈ gs ↔ ∃ g', m.Chooses names g' ∧ g'.toPackages = g := by
  unfold Manifest.Chooses
  by_cases hnames : names = []
  · subst hnames
    obtain rfl : (ofManifest m).groups = gs := Except.ok.inj h
    simp [ofManifest]
  · rw [mem_selectGroups hnames h]
    simp only [group?_ofManifest, Option.map_eq_some_iff, if_neg hnames]
    constructor
    · rintro ⟨name, hname, g', hg', heq⟩
      exact ⟨g', ⟨name, hname, hg'⟩, heq⟩
    · rintro ⟨g', ⟨name, hname, hg'⟩, heq⟩
      exact ⟨name, hname, g', hg', heq⟩

/-- The groups that are chosen are groups of the manifest. -/
theorem mem_groups_of_chooses {g : Group} (h : m.Chooses names g) : g ∈ m.groups := by
  unfold Manifest.Chooses at h
  split at h
  · exact h
  · obtain ⟨name, -, hgroup⟩ := h
    exact List.mem_of_find?_eq_some hgroup

/-- What is selected from a manifest that resolves is a selection of it. -/
theorem isSelection_of_select (h : resolve policy m = .ok env) (hselect : env.select names = .ok ps) :
    m.IsSelection names ps := by
  obtain ⟨hvalidate, rfl⟩ := resolve_eq_ok_iff.mp h
  have hvalid := Manifest.problems_eq_nil_iff_valid.mp (Manifest.validate_eq_ok_iff.mp hvalidate)
  obtain ⟨gs, hgs, rfl⟩ := select_eq_ok_iff.mp hselect
  refine ⟨pairwise_packagesByKey gs, fun key => ?_, ?_⟩
  · rw [List.mem_map]
    constructor
    · rintro ⟨x, hx, rfl⟩
      obtain ⟨g, hg, hxg⟩ := mem_of_mem_packagesByKey hx
      obtain ⟨g', hchosen, rfl⟩ := (mem_selectGroups_ofManifest hgs).mp hg
      obtain ⟨p, hp, rfl⟩ := List.mem_map.mp hxg
      exact ⟨g', hchosen, p, hp, (Pin.key_toPackage p).symm⟩
    · rintro ⟨g, hchosen, p, hp, rfl⟩
      have hg : g.toPackages ∈ gs := (mem_selectGroups_ofManifest hgs).mpr ⟨g, hchosen, rfl⟩
      rw [← Pin.key_toPackage]
      exact exists_mem_packagesByKey hg (List.mem_map_of_mem hp)
  · intro x hx b hb hkey
    obtain ⟨g, hg, hxg⟩ := mem_of_mem_packagesByKey hx
    obtain ⟨g', hchosen, rfl⟩ := (mem_selectGroups_ofManifest hgs).mp hg
    obtain ⟨p, hp, rfl⟩ := List.mem_map.mp hxg
    rw [Pin.key_toPackage] at hkey
    exact hvalid.oneVersion b hb (g', p)
      (Manifest.mem_pins_iff.mpr ⟨mem_groups_of_chooses hchosen, hp⟩) hkey

/-! ## Names that no group goes by -/

theorem exists_groupNamed_iff : (∃ g, env.groupNamed name = .ok g) ↔ env.group? name ≠ none := by
  simp only [groupNamed_eq_ok_iff, Option.ne_none_iff_exists']

/-- Selecting succeeds exactly when every name goes for a group. -/
theorem exists_select_iff : (∃ ps, env.select names = .ok ps) ↔ none ∉ names.map env.group? := by
  have hall : (∃ ps, env.select names = .ok ps) ↔ ∃ gs, env.selectGroups names = .ok gs := by
    simp [select_eq_ok_iff]
  rw [hall, selectGroups]
  split
  · next hnil => simp [List.isEmpty_iff.mp hnil]
  · simp [exists_mapM_eq_ok_iff, exists_groupNamed_iff]

/-- Selecting complains about the first name that goes for no group. -/
theorem select_eq_error {rest : List String} (hnames : ∀ n ∈ names, env.group? n ≠ none)
    (hname : env.group? name = none) :
    env.select (names ++ name :: rest) = .error ⟨name, env.groups.map PackageGroup.name⟩ := by
  have hcomplaint : env.groupNamed name = .error ⟨name, env.groups.map PackageGroup.name⟩ := by
    rw [groupNamed, hname]
  rw [select, selectGroups, if_neg (by simp),
    mapM_eq_error (fun n hn => exists_groupNamed_iff.mpr (hnames n hn)) hcomplaint]
  rfl

/-! ## Other ways of writing the names -/

/-- The second list is another way of writing the first: in another order, with a name once more, with
a name in another letter case, or with blanks around a name, and so on. -/
inductive Rewritten : List String → List String → Prop
  | permuted {as bs : List String} : as.Perm bs → Rewritten as bs
  | repeated {a : String} {as : List String} : a ∈ as → Rewritten as (a :: as)
  | recased {a b : String} (as : List String) :
      Text.lowercase a = Text.lowercase b → Rewritten (a :: as) (b :: as)
  | padded (left right : List Char) (a : String) (as : List String) :
      Text.IsBlank left → Text.IsBlank right →
        Rewritten (a :: as) (String.ofList (left ++ a.toList ++ right) :: as)
  | symm {as bs : List String} : Rewritten as bs → Rewritten bs as
  | trans {as bs cs : List String} : Rewritten as bs → Rewritten bs cs → Rewritten as cs

/-- Names with one lowercase form, without the blanks around them, go for the same group. -/
theorem group?_congr {a b : String}
    (h : Text.lowercase (Text.trimmed a) = Text.lowercase (Text.trimmed b)) :
    env.group? a = env.group? b := by
  simp only [group?, PackageGroup.isNamed, h]

/-- Names written in another way go for the same groups, and as many of them go for none. -/
theorem Rewritten.mem_groups_iff (h : Rewritten names names') (env : Environment)
    (found : Option PackageGroup) :
    found ∈ names.map env.group? ↔ found ∈ names'.map env.group? := by
  induction h with
  | permuted hperm => exact (hperm.map env.group?).mem_iff
  | repeated ha =>
    rw [List.map_cons, List.mem_cons]
    exact (or_iff_right_of_imp fun heq => heq ▸ List.mem_map_of_mem ha).symm
  | recased as hlower =>
    rw [List.map_cons, List.map_cons, group?_congr]
    rw [Text.lowercase_trimmed, Text.lowercase_trimmed, hlower]
  | padded left right a as hleft hright =>
    have hgroup : env.group? (String.ofList (left ++ a.toList ++ right)) = env.group? a :=
      group?_congr (by rw [Text.trimmed_padded hleft hright])
    rw [List.map_cons, List.map_cons, hgroup]
  | symm _ ih => exact ih.symm
  | trans _ _ ih ih' => exact ih.trans ih'

/-- Names written in another way select the same versions. -/
theorem Rewritten.versions_eq (h : Rewritten names names') (hagree : AgreeOnVersions env.groups)
    (hselect : env.select names = .ok ps) :
    ∃ qs, env.select names' = .ok qs ∧ Package.versions qs = Package.versions ps := by
  have hfound := h.mem_groups_iff env
  have hnil : names = [] ↔ names' = [] := by
    rw [← List.map_eq_nil_iff (f := env.group?), ← List.map_eq_nil_iff (f := env.group?) (l := names'),
      List.eq_nil_iff_forall_not_mem, List.eq_nil_iff_forall_not_mem]
    simp only [hfound]
  by_cases hnames : names = []
  · rw [hnil.mp hnames, ← hnames]
    exact ⟨ps, hselect, rfl⟩
  · have hall : none ∉ names'.map env.group? := by
      rw [← hfound none]
      exact exists_select_iff.mp ⟨ps, hselect⟩
    obtain ⟨qs, hqs⟩ := exists_select_iff.mpr hall
    obtain ⟨gs, hgs, rfl⟩ := select_eq_ok_iff.mp hselect
    obtain ⟨gs', hgs', rfl⟩ := select_eq_ok_iff.mp hqs
    have hmem : ∀ g, g ∈ gs ↔ g ∈ gs' := by
      intro g
      rw [mem_selectGroups hnames hgs, mem_selectGroups (mt hnil.mpr hnames) hgs']
      simpa only [List.mem_map] using hfound (some g)
    refine ⟨_, hqs, (versions_packagesByKey_congr hmem ?_).symm⟩
    intro g hg h hh
    have hgroups : ∀ g ∈ gs, g ∈ env.groups := fun g hg => by
      obtain ⟨name, -, hgroup⟩ := (mem_selectGroups hnames hgs).mp hg
      exact (isNamed_of_group? hgroup).1
    exact hagree g (hgroups g hg) h (hgroups h hh)

/-! ## All selections -/

/-- The complaint quotes the name as it was given. -/
theorem message_unknownGroup (e : UnknownGroup) :
    (Failure.unknownGroup e).message = "Resolution failed: unknown group '" ++ e.name ++
      "' (available: " ++ String.intercalate ", " e.available ++ ")" := by
  have hmessage : (Failure.unknownGroup e).message = "Resolution failed: " ++ e.message := rfl
  have hstart : "Resolution failed: unknown group '" = "Resolution failed: " ++ "unknown group '" :=
    rfl
  rw [hmessage, hstart]
  unfold UnknownGroup.message
  -- the simplifier would look into the literal texts
  generalize "Resolution failed: " = kind
  generalize "unknown group '" = opening
  simp only [String.append_assoc]

/-- The environment of a manifest that resolves is free of conflicts under every selection. Groups that
are named are selected, with the one version that each of their packages has in the manifest. So any
two selections agree, other ways of writing the names select the same, and where a name goes for no
group, the first such name is complained about. -/
theorem select_conflict_free (h : resolve policy m = .ok env) :
    (∀ names, (∀ name ∈ names, ∃ g ∈ m.groups, g.isNamed name = true) →
      ∃ ps, env.select names = .ok ps ∧ m.IsSelection names ps) ∧
    (∀ names names' ps qs, env.select names = .ok ps → env.select names' = .ok qs →
      ∀ p ∈ ps, ∀ q ∈ qs, p.key = q.key → p.version = q.version) ∧
    (∀ names names' ps, Rewritten names names' → env.select names = .ok ps →
      ∃ qs, env.select names' = .ok qs ∧ Package.versions qs = Package.versions ps) ∧
    (∀ known name rest, (∀ n ∈ known, ∃ g ∈ m.groups, g.isNamed n = true) →
      (∀ g ∈ m.groups, g.isNamed name = false) →
      ∃ e, env.select (known ++ name :: rest) = .error e ∧ e.name = name ∧
        (Failure.unknownGroup e).message = "Resolution failed: unknown group '" ++ name ++
          "' (available: " ++ String.intercalate ", " (m.groups.map Group.name) ++ ")") := by
  have hfound : ∀ name, env.group? name ≠ none ↔ ∃ g ∈ m.groups, g.isNamed name = true := by
    intro name
    rw [← (resolve_eq_ok_iff.mp h).2, group?_ofManifest, ne_eq, Option.map_eq_none_iff,
      Manifest.group?, List.find?_eq_none]
    simp
  have hnames : env.groups.map PackageGroup.name = m.groups.map Group.name := by
    rw [← (resolve_eq_ok_iff.mp h).2, ofManifest, List.map_map]
    rfl
  refine ⟨?_, ?_, ?_, ?_⟩
  · intro names hnamed
    have hall : none ∉ names.map env.group? := by
      rintro hnone
      obtain ⟨name, hname, hgroup⟩ := List.mem_map.mp hnone
      exact (hfound name).mpr (hnamed name hname) hgroup
    obtain ⟨ps, hps⟩ := exists_select_iff.mpr hall
    exact ⟨ps, hps, isSelection_of_select h hps⟩
  · intro names names' ps qs hps hqs p hp q hq hkey
    -- both versions are the version of one pin
    have hp' := isSelection_of_select h hps
    obtain ⟨g, hg, a, ha, hak⟩ := (hp'.keys p.key).mp (List.mem_map_of_mem hp)
    have hpin : (g, a) ∈ m.pins := Manifest.mem_pins_iff.mpr ⟨mem_groups_of_chooses hg, ha⟩
    rw [← hp'.versions p hp (g, a) hpin hak,
      (isSelection_of_select h hqs).versions q hq (g, a) hpin (hak.trans hkey)]
  · intro names names' ps hrewritten hps
    exact hrewritten.versions_eq (agree_of_resolve h) hps
  · intro known name rest hknown hname
    have hnone : env.group? name = none := by
      by_contra hsome
      obtain ⟨g, hg, hnamed⟩ := (hfound name).mp hsome
      simp [hname g hg] at hnamed
    refine ⟨_, select_eq_error (fun n hn => (hfound n).mpr (hknown n hn)) hnone, rfl, ?_⟩
    rw [message_unknownGroup, hnames]

/-- A manifest with packages in several groups, under names that are not ASCII. -/
def crossing : Manifest :=
  .ofGroups [
    { name := "Οδός", entries := [.pin ⟨⟨"typing_extensions"⟩, "4.12.2", false, 2⟩] },
    { name := "ΛΟΓΟΣ", entries := [.pin ⟨⟨"Typing.Extensions"⟩, "4.12.2", false, 5⟩,
        .pin ⟨⟨"attrs"⟩, "25.1.0", false, 6⟩] },
    { name := "Empty" }]

theorem select_crossing : ∃ env, resolve {} crossing = .ok env ∧
    (∃ ps, env.select ["λογος", "ΟΔΌΣ"] = .ok ps ∧ crossing.IsSelection ["λογος", "ΟΔΌΣ"] ps ∧
      ∃ qs, env.select ["ΟΔΌΣ", " ΛΟΓΟΣ\t", "ΟΔΌΣ"] = .ok qs ∧
        Package.versions qs = Package.versions ps) ∧
    ∃ e, env.select ["empty", "lint", "docs"] = .error e ∧ e.name = "lint" := by
  have hr : resolve {} crossing = .ok (ofManifest crossing) := by rfl
  obtain ⟨hselects, -, hrewritten, hcomplains⟩ := select_conflict_free hr
  obtain ⟨ps, hps, hselection⟩ := hselects ["λογος", "ΟΔΌΣ"] (by decide +kernel)
  have hcase : Rewritten ["λογος", "ΟΔΌΣ"] ["ΛΟΓΟΣ", "ΟΔΌΣ"] := .recased _ (by decide +kernel)
  have hpad : Rewritten ["ΛΟΓΟΣ", "ΟΔΌΣ"] [" ΛΟΓΟΣ\t", "ΟΔΌΣ"] :=
    .padded [' '] ['\t'] _ _ (by simp [Text.IsBlank]; rfl) (by simp [Text.IsBlank]; rfl)
  have hrepeat : Rewritten [" ΛΟΓΟΣ\t", "ΟΔΌΣ"] ["ΟΔΌΣ", " ΛΟΓΟΣ\t", "ΟΔΌΣ"] := .repeated (by simp)
  obtain ⟨e, he, hname, -⟩ := hcomplains ["empty"] "lint" ["docs"] (by decide +kernel)
    (by decide +kernel)
  exact ⟨_, hr, ⟨ps, hps, hselection, hrewritten _ _ ps ((hcase.trans hpad).trans hrepeat) hps⟩,
    e, he, hname⟩

end Environment
end Pinfile
