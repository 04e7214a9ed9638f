import Pinfile.Manifest.Json
import Pinfile.Manifest.Printer
import Pinfile.Proofs.Json.Layouts
import Pinfile.Proofs.Pointwise
import Pinfile.Proofs.Validity

/-!
# Manifests written as JSON and read back

A manifest is read back from its JSON text as it is, but for the lines of its entries, which are not
written (`Manifest.read_toJson`). No name, version, path or number is asked to be of any form: a text
is escaped where it has to be and is read back whatever is in it. The one bound is that of the type of
ordinals.

What depends on a manifest does not look at lines, except for one problem: several markers are reported
with the lines they stand on. So validation says of what is read back what it says of the manifest,
with these lines forgotten (`Manifest.validate_withoutLines`).
-/

namespace Pinfile

/-! ## Lines in reports -/

/-- The problem with its lines forgotten. -/
def Problem.withoutLines : Problem → Problem
  | .multipleEditableMarkers count groups lines =>
    .multipleEditableMarkers count groups (lines.map fun _ => 0)
  | problem => problem

/-- The report with the lines of its problems forgotten. -/
def Report.withoutLines (r : Report) : Report :=
  ⟨r.problems.map Problem.withoutLines, by simpa using r.ne_nil⟩

theorem Report.ofProblems_map_withoutLines (problems : List Problem) :
    ofProblems (problems.map Problem.withoutLines) =
      (ofProblems problems).mapError Report.withoutLines := by
  cases problems <;> rfl

namespace Manifest

variable (m : Manifest) (g : Group)

/-! ## Validation without lines -/

theorem duplicatesIn_withoutLines : duplicatesIn g.withoutLines = duplicatesIn g := by
  rw [duplicatesIn, pins_withoutLines_group, repeats_map, List.map_map]
  rfl

theorem duplicates_withoutLines : m.withoutLines.duplicates = m.duplicates := by
  rw [duplicates, withoutLines, List.flatMap_map]
  simp only [duplicatesIn_withoutLines]
  rfl

theorem groupFirsts_withoutLines : m.withoutLines.groupFirsts =
    m.groupFirsts.map fun a => (a.1.withoutLines, { a.2 with line := 0 }) := by
  rw [groupFirsts, groupFirsts, withoutLines, List.flatMap_map, List.map_flatMap]
  refine congrArg m.groups.flatMap (funext fun g => ?_)
  rw [pins_withoutLines_group, firsts_map, List.map_map, List.map_map]
  rfl

theorem conflicts_withoutLines : m.withoutLines.conflicts = m.conflicts := by
  rw [conflicts, groupFirsts_withoutLines, repeats_map, List.filterMap_map]
  rfl

theorem malformedVersions_withoutLines (policy : VersionPolicy) :
    m.withoutLines.malformedVersions policy = m.malformedVersions policy := by
  rw [malformedVersions, pins_withoutLines, List.filterMap_map]
  rfl

theorem markers_withoutLines : m.withoutLines.markers =
    m.markers.map fun a => (a.1.withoutLines, { a.2 with line := 0 }) := by
  simp [markers, withoutLines, markers_withoutLines_group, List.map_flatMap, List.flatMap_map,
    Function.comp_def]

theorem markerProblems_withoutLines :
    m.withoutLines.markerProblems = m.markerProblems.map Problem.withoutLines := by
  rw [markerProblems, markerProblems, markers_withoutLines, List.length_map, List.map_map, List.map_map]
  split
  · rw [List.map_singleton, Problem.withoutLines, List.map_map]
    rfl
  · rfl

/-- Only markers are reported with lines. -/
theorem withoutLines_of_mem {policy : VersionPolicy} {p : Problem}
    (h : p ∈ m.duplicates ++ m.conflicts ++ m.malformedVersions policy) : p.withoutLines = p := by
  rcases List.mem_append.mp h with h | h
  · rcases List.mem_append.mp h with h | h
    · obtain ⟨g, -, hp⟩ := List.mem_flatMap.mp h
      obtain ⟨pair, -, rfl⟩ := List.mem_map.mp hp
      rfl
    · obtain ⟨⟨first, second⟩, -, hp⟩ := List.mem_filterMap.mp h
      simp only [conflictProblem?] at hp
      split at hp
      · cases hp
      · rw [← Option.some.inj hp]
        rfl
  · obtain ⟨a, -, hp⟩ := List.mem_filterMap.mp h
    rw [versionProblem?] at hp
    split at hp
    · cases hp
    · rw [← Option.some.inj hp]
      rfl

/-- Forgetting the lines of a manifest forgets the lines in its report and nothing else. -/
theorem validate_withoutLines (policy : VersionPolicy) :
    m.withoutLines.validate policy = (m.validate policy).mapError Report.withoutLines := by
  have hothers : (m.duplicates ++ m.conflicts ++ m.malformedVersions policy).map
      Problem.withoutLines = m.duplicates ++ m.conflicts ++ m.malformedVersions policy :=
    (List.map_congr_left fun p hp => m.withoutLines_of_mem hp).trans (List.map_id _)
  have hproblems : m.withoutLines.problems policy = (m.problems policy).map Problem.withoutLines := by
    rw [problems, duplicates_withoutLines, conflicts_withoutLines, malformedVersions_withoutLines,
      markerProblems_withoutLines, problems, List.map_append, hothers]
  rw [validate, hproblems, Report.ofProblems_map_withoutLines]
  rfl

end Manifest

/-! ## Reading back -/

/-- A count is read back from its number. -/
theorem Json.asCount?_ofNat {n : Nat} (h : n < countBound) : (Json.ofNat n).asCount? = some n := by
  have hnumeral := Text.isNumeral_toDigits n
  have hempty : n.repr.toList.isEmpty = false := by
    rw [Nat.toList_repr, List.isEmpty_eq_false_iff]
    exact hnumeral.ne_nil
  have hdigits : n.repr.toList.all Char.isDigit = true := by
    rw [Nat.toList_repr, List.all_eq_true]
    exact fun c hc => Text.isDigit_iff.mpr (hnumeral.digits c hc)
  rw [ofNat, asCount?]
  simp only [hempty, hdigits, Text.ofDigits_repr, h, Bool.not_false, Bool.and_self, decide_true, if_true]

theorem Group.ofJson?_toJson {g : Group} (h : g.ordinal < Json.countBound) :
    Group.ofJson? g.toJson = some g.withoutLines := by
  have hentries : (Json.array (g.entries.map Entry.toJson)).asList? Entry.ofJson? =
      some (g.entries.map Entry.withoutLine) :=
    Json.asList?_array_map fun e _ => Entry.ofJson?_toJson e
  simp [Group.toJson, Group.ofJson?, Json.fields?, Json.member?, Json.asCount?_ofNat h, hentries,
    Group.withoutLines]

/-- A manifest is read back from its JSON value, without its lines. -/
theorem Manifest.ofJson?_toJson {m : Manifest} (h : ∀ g ∈ m.groups, g.ordinal < Json.countBound) :
    Manifest.ofJson? m.toJson = some m.withoutLines := by
  have hgroups : (Json.array (m.groups.map Group.toJson)).asList? Group.ofJson? =
      some (m.groups.map Group.withoutLines) :=
    Json.asList?_array_map fun g hg => Group.ofJson?_toJson (h g hg)
  simp [Manifest.toJson, Manifest.ofJson?, Json.fields?, Json.member?, hgroups, Manifest.withoutLines]

/-! ## The numbers that are written -/

theorem Entry.wellFormed_toJson (e : Entry) : e.toJson.WellFormed := by
  cases e with
  | pin p =>
    refine .object ?_
    simp only [List.forall_mem_cons]
    exact ⟨.string _, .string _, .string _, .bool _, nofun⟩
  | editable k =>
    refine .object ?_
    simp only [List.forall_mem_cons]
    exact ⟨.string _, .string _, .array (List.forall_mem_map.mpr fun _ _ => .string _), nofun⟩

theorem Group.wellFormed_toJson (g : Group) : g.toJson.WellFormed := by
  refine .object ?_
  simp only [List.forall_mem_cons]
  refine ⟨.string _, .number (Json.isNumber_repr _), .array ?_, nofun⟩
  exact List.forall_mem_map.mpr fun e _ => e.wellFormed_toJson

theorem Manifest.wellFormed_toJson (m : Manifest) : m.toJson.WellFormed := by
  refine .object ?_
  simp only [List.forall_mem_cons]
  refine ⟨.array ?_, nofun⟩
  exact List.forall_mem_map.mpr fun g _ => g.wellFormed_toJson

/-! ## The round trip -/

/-- The manifest `n` is what is left of the manifest `m` when it is written down without its lines. -/
structure Manifest.KeptAs (m n : Manifest) : Prop where
  same : n.Same m
  pinLines : ∀ a ∈ n.pins, a.2.line = 0
  markerLines : ∀ a ∈ n.markers, a.2.line = 0
  keys : n.pins.map (fun a => a.2.key) = m.pins.map fun a => a.2.key
  render : n.render = m.render
  validate : ∀ policy, n.validate policy = (m.validate policy).mapError Report.withoutLines

theorem Manifest.keptAs_withoutLines (m : Manifest) : m.KeptAs m.withoutLines := by
  have hsame : m.withoutLines.Same m := by
    have hentry : Entry.withoutLine ∘ Entry.withoutLine = Entry.withoutLine :=
      funext fun e => by cases e <;> rfl
    have hgroup : Group.withoutLines ∘ Group.withoutLines = Group.withoutLines :=
      funext fun g => by simp [Group.withoutLines, hentry]
    rw [Same, withoutLines, withoutLines, List.map_map, hgroup]
  refine ⟨hsame, ?_, ?_, ?_, render_eq_of_same hsame, m.validate_withoutLines⟩
  · rw [pins_withoutLines]
    exact List.forall_mem_map.mpr fun _ _ => rfl
  · rw [markers_withoutLines]
    exact List.forall_mem_map.mpr fun _ _ => rfl
  · rw [pins_withoutLines, List.map_map]
    rfl

/-- A manifest is read back from its JSON text in either layout, whatever texts and entries are in it:
the same manifest with the same keys, without lines. It has the same rendering, and validation says of
it what it says of the manifest, up to the lines of several markers. In the text, the quotation mark,
the backslash and the characters below U+0020 are escaped and no other. -/
theorem Manifest.read_toJson (m : Manifest) (h : ∀ g ∈ m.groups, g.ordinal < Json.countBound) :
    (∀ text ∈ [m.toJson.compact, m.toJson.pretty],
      ∃ n, (Json.parse? text).bind Manifest.ofJson? = some n ∧ m.KeptAs n) ∧
    ∀ c, Json.escape c ≠ [c] ↔ c = '"' ∨ c = '\\' ∨ c.toNat < 0x20 := by
  refine ⟨?_, Json.escape_ne_self_iff⟩
  obtain ⟨hcompact, hpretty⟩ := m.wellFormed_toJson.parse?
  have hread : ∀ text, Json.parse? text = some m.toJson →
      ∃ n, (Json.parse? text).bind Manifest.ofJson? = some n ∧ m.KeptAs n := by
    intro text hparse
    refine ⟨m.withoutLines, ?_, m.keptAs_withoutLines⟩
    rw [hparse, Option.bind_some, Manifest.ofJson?_toJson h]
  intro text htext
  rcases List.mem_pair.mp htext with rfl | rfl
  · exact hread _ hcompact
  · exact hread _ hpretty

/-- A manifest with texts and ordinals that no manifest is read with from its own format. -/
def outlandish : Manifest :=
  ⟨[{ name := "\"Οδός\"\\ \x01", ordinal := 18446744073709551615, entries := [
        .editable ⟨".\n", ["full", "", "full"], 3⟩,
        .pin ⟨⟨"_Typing..Extensions\t"⟩, "", true, 4⟩,
        .editable { path := "" },
        .pin ⟨⟨"𝒳\x7f"⟩, "1.0", false, 7⟩] },
    { name := "" }]⟩

theorem Manifest.read_toJson_outlandish :
    (∀ g ∈ outlandish.groups, g.ordinal < Json.countBound) ∧
      ∀ text ∈ [outlandish.toJson.compact, outlandish.toJson.pretty],
        ∃ n, (Json.parse? text).bind Manifest.ofJson? = some n ∧ outlandish.KeptAs n := by
  have h : ∀ g ∈ outlandish.groups, g.ordinal < Json.countBound := by decide +kernel
  exact ⟨h, (read_toJson outlandish h).1⟩

end Pinfile
