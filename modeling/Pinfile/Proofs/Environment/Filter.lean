import Pinfile.Manifest.Parser
import Pinfile.Proofs.Environment.Selection
import Pinfile.Proofs.Text.LetterCase

/-!
# Keeping the named groups

A selection looks for the group whose name has the lowercase form of the name given. Keeping some
groups rejects the names that select nothing, as a selection does, but then it compares names in
another way: a group is kept if its name is one of the given names up to the case of ASCII letters.
That is stricter. Both `É` and `é` go for the group `É`, and only the first of them keeps it.

`KeepsSelection` says what it is for an environment to keep what the names select. The main statement
is that keeping does so exactly when each of the selected groups has a name that differs from one of
the names given in ASCII letters alone (`filterGroups_keepsSelection_iff`). On names that are ASCII
this is always so (`keepsSelection_of_ascii`).
-/

namespace Pinfile.Environment

variable {env kept : Environment} {names : List String} {ps : List Package} {g : PackageGroup}

/-- The groups that some of the names go by, in their order in the environment. -/
def named (env : Environment) (names : List String) : List PackageGroup :=
  env.groups.filter fun g => ∃ name ∈ names, env.group? name = some g

theorem mem_named : g ∈ env.named names ↔ ∃ name ∈ names, env.group? name = some g := by
  rw [named, List.mem_filter, decide_eq_true_iff, and_iff_right_of_imp]
  rintro ⟨name, -, hgroup⟩
  exact (isNamed_of_group? hgroup).1

/-- An environment keeps what the names select: the packages `ps`. -/
structure KeepsSelection (env kept : Environment) (names : List String) (ps : List Package) :
    Prop where
  groups : kept.groups = env.named names
  /-- The editable install is kept exactly when its group is. -/
  editable : ∀ e, kept.editable = some e ↔
    env.editable = some e ∧ ∃ g ∈ kept.groups, g.name = e.group
  /-- All groups that are kept have together the versions of the selection. -/
  versions : ∃ qs, kept.select [] = .ok qs ∧ Package.versions qs = Package.versions ps

/-! ## Keeping and selecting -/

theorem filterGroups_eq_ok_iff (hnames : names ≠ []) :
    env.filterGroups names = .ok kept ↔
      (∃ ps, env.select names = .ok ps) ∧ kept = env.restrict names := by
  rw [filterGroups, if_neg (by simpa using hnames)]
  cases env.select names <;> simp [Except.map, eq_comm]

/-- A group that is kept is one that is named: letters that differ in ASCII case alone have one
lowercase form. -/
theorem mem_named_of_keeps (h : env.Coherent) (hg : g ∈ env.groups) (hkeeps : keeps names g = true) :
    g ∈ env.named names := by
  obtain ⟨name, hname, hsame⟩ := List.any_eq_true.mp hkeeps
  have hlower := Text.lowercase_eq_of_sameIgnoringAsciiCase hsame
  have hnamed : g.isNamed name = true := beq_iff_eq.mpr hlower.symm
  exact mem_named.mpr ⟨name, hname, h.group?_eq_some_iff.mpr ⟨hg, hnamed⟩⟩

/-- The named groups are kept exactly when each of them is. -/
theorem restrict_groups_eq_named_iff (h : env.Coherent) :
    (env.restrict names).groups = env.named names ↔
      ∀ g ∈ env.named names, keeps names g = true := by
  constructor
  · intro heq g hg
    rw [← heq] at hg
    exact (mem_restrict.mp hg).2
  · intro hall
    refine List.filter_congr fun g hg => ?_
    have hiff : keeps names g = true ↔ ∃ name ∈ names, env.group? name = some g :=
      ⟨fun hkeeps => mem_named.mp (mem_named_of_keeps h hg hkeeps),
        fun hnamed => hall g (mem_named.mpr hnamed)⟩
    exact Bool.eq_iff_iff.mpr (hiff.trans decide_eq_true_iff.symm)

/-- The restricted environment keeps what the names select exactly when it keeps the named groups. -/
theorem keepsSelection_restrict_iff (h : env.Coherent) (hnames : names ≠ [])
    (hselect : env.select names = .ok ps) :
    env.KeepsSelection (env.restrict names) names ps ↔
      ∀ g ∈ env.named names, keeps names g = true := by
  rw [← restrict_groups_eq_named_iff h]
  refine ⟨KeepsSelection.groups, fun hgroups => ⟨hgroups, ?_, ?_⟩⟩
  · intro e
    simp [restrict, Option.filter_eq_some_iff, and_assoc]
  · -- the selection has the same groups in the order of the names, and perhaps several times
    obtain ⟨gs, hgs, rfl⟩ := select_eq_ok_iff.mp hselect
    refine ⟨packagesByKey (env.restrict names).groups, rfl, ?_⟩
    refine versions_packagesByKey_congr (fun g => ?_) ?_
    · rw [hgroups, mem_named, mem_selectGroups hnames hgs]
    · intro g hg g' hg'
      exact h.agree g (mem_restrict.mp hg).1 g' (mem_restrict.mp hg').1

/-- In the environment of a manifest of distinct groups, keeping succeeds where selecting does, and
what is kept is what is selected exactly when each of the selected groups has one of the names up to
the case of ASCII letters. -/
theorem filterGroups_keepsSelection_iff {policy : VersionPolicy} {m : Manifest}
    (hd : m.DistinctGroups) (hr : resolve policy m = .ok env) (hnames : names ≠ []) :
    ((∃ kept, env.filterGroups names = .ok kept) ↔ ∃ ps, env.select names = .ok ps) ∧
      ∀ kept ps, env.filterGroups names = .ok kept → env.select names = .ok ps →
        (env.KeepsSelection kept names ps ↔ ∀ g ∈ env.named names, keeps names g = true) := by
  constructor
  · constructor
    · rintro ⟨kept, hkept⟩
      exact ((filterGroups_eq_ok_iff hnames).mp hkept).1
    · intro hselect
      exact ⟨_, (filterGroups_eq_ok_iff hnames).mpr ⟨hselect, rfl⟩⟩
  · intro kept ps hkept hselect
    obtain ⟨-, rfl⟩ := (filterGroups_eq_ok_iff hnames).mp hkept
    exact keepsSelection_restrict_iff (coherent_of_resolve hd hr) hnames hselect

/-- A manifest with a package in two groups. -/
def shared : Manifest :=
  .ofGroups [
    { name := "Web", entries := [.editable ⟨"./app", [], 2⟩, .pin ⟨⟨"Flask"⟩, "3.0.0", false, 3⟩] },
    { name := "Lint", entries := [.pin ⟨⟨"ruff"⟩, "0.8.0", false, 6⟩] },
    { name := "Dev", entries := [.pin ⟨⟨"pytest"⟩, "8.3.4", false, 9⟩,
        .pin ⟨⟨"flask"⟩, "3.0.0", false, 10⟩] }]

theorem filterGroups_shared : shared.DistinctGroups ∧ ∃ env kept ps, resolve {} shared = .ok env ∧
    env.filterGroups ["DEV", " web", "dev"] = .ok kept ∧
    env.select ["DEV", " web", "dev"] = .ok ps ∧
    env.KeepsSelection kept ["DEV", " web", "dev"] ps := by
  have hd : shared.DistinctGroups := by decide +kernel
  have hr : resolve {} shared = .ok (ofManifest shared) := by rfl
  obtain ⟨hsucceeds, hkeeps⟩ :=
    filterGroups_keepsSelection_iff hd hr (List.cons_ne_nil "DEV" [" web", "dev"])
  have hselect : ∃ ps, (ofManifest shared).select ["DEV", " web", "dev"] = .ok ps := ⟨_, rfl⟩
  obtain ⟨kept, hkept⟩ := hsucceeds.mpr hselect
  obtain ⟨ps, hps⟩ := hselect
  exact ⟨hd, _, kept, ps, hr, hkept, hps, (hkeeps kept ps hkept hps).mpr (by decide +kernel)⟩

/-- A name in the other letter case, outside ASCII, selects a group that is not kept. -/
theorem filterGroups_loses_group : ∃ m env kept, Manifest.parse "# É\nflask==3.0.0\n" = .ok m ∧
    resolve {} m = .ok env ∧ env.select ["é"] = .ok [⟨"flask", "3.0.0"⟩] ∧
    env.filterGroups ["é"] = .ok kept ∧ kept.groups = [] ∧
    ¬ env.KeepsSelection kept ["é"] [⟨"flask", "3.0.0"⟩] := by
  let env : Environment := ⟨none, [⟨"É", [⟨"flask", "3.0.0"⟩]⟩]⟩
  have hselect : env.select ["é"] = .ok [⟨"flask", "3.0.0"⟩] := by
    refine select_eq_ok_iff.mpr ⟨env.groups, by rfl, ?_⟩
    simp [env, packagesByKey, firsts, firstsAfter, firstLike]
  have hkept : env.filterGroups ["é"] = .ok ⟨none, []⟩ :=
    (filterGroups_eq_ok_iff (by simp)).mpr ⟨⟨_, hselect⟩, by rfl⟩
  refine ⟨.ofGroups [{ name := "É", entries := [.pin ⟨⟨"flask"⟩, "3.0.0", false, 2⟩] }], env, _,
    by rfl, by rfl, hselect, hkept, rfl, fun h => ?_⟩
  have hgroups : [] = env.named ["é"] := h.groups
  exact absurd hgroups (by decide +kernel)

/-- On names that are ASCII, what is kept is always what is selected. -/
theorem keepsSelection_of_ascii (h : env.Coherent)
    (hgroups : ∀ g ∈ env.groups, ∀ c ∈ g.name.toList, c.toNat < 0x80)
    (hascii : ∀ name ∈ names, ∀ c ∈ (Text.trimmed name).toList, c.toNat < 0x80)
    (hnames : names ≠ []) (hselect : env.select names = .ok ps) :
    env.KeepsSelection (env.restrict names) names ps := by
  refine (keepsSelection_restrict_iff h hnames hselect).mpr fun g hg => ?_
  obtain ⟨name, hname, hgroup⟩ := mem_named.mp hg
  obtain ⟨hmem, hnamed⟩ := isNamed_of_group? hgroup
  exact List.any_eq_true.mpr ⟨name, hname, Text.sameIgnoringAsciiCase_of_ascii (hascii name hname)
    (hgroups g hmem) (beq_iff_eq.mp hnamed).symm⟩

end Pinfile.Environment
