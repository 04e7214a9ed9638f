import Mathlib.Data.List.Dedup
import Pinfile.Proofs.Merge.Markers
import Pinfile.Proofs.Merge.Union

/-!
# Merging valid manifests

What validation checks of a manifest stays so when manifests are merged, with one exception. A merged
group holds every package once, every package has the version of the highest layer that pins it, and
that version was exact before. Markers are the exception: each of the layers may have one, and those
that ask for different things are all kept.

The main statement is that this is all that can go wrong (`merge_valid`): the merged manifest is valid
when the layers ask for one marker at most, and otherwise the number of markers is its only problem.
-/

namespace Pinfile.Manifest

open Merge
open scoped List

variable {policy : VersionPolicy} {ms : List Manifest} {r : Manifest}

/-- The number of markers of some manifests that ask for different things. -/
def distinctMarkers (ms : List Manifest) : Nat := (ms.flatMap asked).dedup.length

/-! ## Pins -/

theorem Valid.clean {m : Manifest} (h : m.Valid policy) (hd : m.DistinctGroups) : m.Clean :=
  ⟨hd, h.pinsOnce, h.oneVersion⟩

/-- A pin of a merged manifest has the last version that the layers give to its package. -/
theorem lastVersion?_of_merge (hclean : ∀ m ∈ ms, m.Clean) (hr : merge ms = .ok r)
    {a : Group × Pin} (ha : a ∈ r.pins) :
    lastVersion? a.2.key (ms.flatMap pins) = some a.2.version := by
  obtain ⟨-, -, hheld⟩ := merge_groups hclean hr
  have hnone : conflictsOf ms = [] := by
    rw [← (settled_ofLayers hclean).2]
    exact (merge_eq_ok_iff.mp hr).1
  obtain ⟨hg, hp⟩ := mem_pins_iff.mp ha
  rw [hheld a.1 hg] at hp
  obtain ⟨-, -, -, -, hlast⟩ := Ledger.exists_of_mem_held hp
  rwa [pins_ofLayers hnone] at hlast

/-- Merging keeps the rules that speak of pins. -/
theorem pins_of_merge (hd : ∀ m ∈ ms, m.DistinctGroups) (hvalid : ∀ m ∈ ms, m.Valid policy)
    (hr : merge ms = .ok r) : r.PinsOnce ∧ r.OneVersion ∧ r.ExactVersions policy := by
  have hclean : ∀ m ∈ ms, m.Clean := fun m hm => (hvalid m hm).clean (hd m hm)
  refine ⟨?_, ?_, ?_⟩
  · intro g hg
    obtain ⟨-, -, hheld⟩ := merge_groups hclean hr
    rw [hheld g hg]
    exact Ledger.held_pairwise _ _
  · intro a ha b hb hkey
    have hlast := lastVersion?_of_merge hclean hr ha
    rw [hkey, lastVersion?_of_merge hclean hr hb] at hlast
    exact (Option.some.inj hlast).symm
  · intro a ha
    obtain ⟨c, hc, -, hversion⟩ :=
      exists_of_lastVersion? (lastVersion?_of_merge hclean hr ha)
    obtain ⟨m, hm, hc⟩ := List.mem_flatMap.mp hc
    rw [← hversion]
    exact (hvalid m hm).exactVersions c hc

/-! ## Markers -/

theorem length_asked (m : Manifest) : m.asked.length = m.markers.length := by
  rw [← map_asks_markers, List.length_map]

/-- Where the lowest layer has one marker at most, merging keeps one of each that ask for the
same. -/
theorem asked_perm_dedup (hone : ∀ m ∈ ms, m.markers.length ≤ 1) (hr : merge ms = .ok r) :
    r.asked ~ (ms.flatMap asked).dedup := by
  cases ms with
  | nil =>
    cases hr
    exact List.Perm.refl _
  | cons base layers =>
    have hbase : base.asked.Nodup := by
      refine List.nodup_iff_count_le_one.mpr fun what => ?_
      have hlength := hone base (by simp)
      rw [← length_asked] at hlength
      exact List.count_le_length.trans hlength
    refine (asked_of_merge hr).trans ?_
    -- neither side repeats anything, so it is enough that both ask for the same
    rw [List.perm_ext_iff_of_nodup (hbase.union _) (List.nodup_dedup _)]
    intro what
    rw [List.mem_union_iff, List.mem_dedup, List.flatMap_cons, List.mem_append, or_comm]

/-! ## All rules -/

/-- Merging valid manifests keeps every marker once up to its line. The merged manifest is valid when
there is at most one, and otherwise their number is its only problem. -/
theorem merge_valid (hd : ∀ m ∈ ms, m.DistinctGroups)
    (hvalid : ∀ m ∈ ms, m.validate policy = .ok ()) (hr : merge ms = .ok r) :
    (∀ what ∈ ms.flatMap asked, r.asked.count what = 1) ∧
      (distinctMarkers ms ≤ 1 → r.validate policy = .ok ()) ∧
      (1 < distinctMarkers ms → ∃ report, r.validate policy = .error report ∧
        report.problems = [.multipleEditableMarkers (distinctMarkers ms)
          (r.markers.map fun k => k.1.name) (r.markers.map fun k => k.2.line)]) ∧
      r.duplicates = [] ∧ r.conflicts = [] ∧ r.malformedVersions policy = [] := by
  replace hvalid : ∀ m ∈ ms, m.Valid policy := fun m hm =>
    problems_eq_nil_iff_valid.mp (validate_eq_ok_iff.mp (hvalid m hm))
  obtain ⟨honce, hversion, hexact⟩ := pins_of_merge hd hvalid hr
  have hduplicates : r.duplicates = [] := duplicates_eq_nil_iff.mpr honce
  have hconflicts : r.conflicts = [] := (conflicts_eq_nil_iff honce).mpr hversion
  have hmalformed : r.malformedVersions policy = [] := malformedVersions_eq_nil_iff.mpr hexact
  have hperm := asked_perm_dedup (fun m hm => (hvalid m hm).oneMarker) hr
  have hcount : r.markers.length = distinctMarkers ms := by
    rw [← length_asked, hperm.length_eq, distinctMarkers]
  -- only the markers are left to object to
  have hproblems : r.problems policy = r.markerProblems := by
    rw [problems, hduplicates, hconflicts, hmalformed]
    rfl
  refine ⟨?_, ?_, ?_, hduplicates, hconflicts, hmalformed⟩
  · intro what hwhat
    rw [hperm.count_eq]
    exact List.count_eq_one_of_mem (List.nodup_dedup _) (List.mem_dedup.mpr hwhat)
  · intro hone
    rw [validate_eq_ok_iff, hproblems, markerProblems_eq_nil_iff, hcount]
    exact hone
  · intro hmany
    rw [← hcount] at hmany
    have hmarkers : r.problems policy = [.multipleEditableMarkers (distinctMarkers ms)
        (r.markers.map fun k => k.1.name) (r.markers.map fun k => k.2.line)] := by
      rw [hproblems, markerProblems, if_pos hmany, hcount]
    exact ⟨⟨_, by simp⟩, Report.ofProblems_eq_error_iff.mpr hmarkers.symm, rfl⟩

/-- Valid layers of which the upper one replaces a version and asks for another marker. -/
def marked : List Manifest :=
  [ofGroups [{ name := "Web", entries := [.pin ⟨⟨"Flask"⟩, "3.0.0", false, 2⟩,
      .editable ⟨"./app", [], 3⟩] }],
    ofGroups [{ name := "Dev", entries := [.editable ⟨"./app", ["test"], 2⟩,
      .pin ⟨⟨"flask"⟩, "3.1.0", true, 3⟩] }]]

theorem merge_marked : (∀ m ∈ marked, m.DistinctGroups) ∧ (∀ m ∈ marked, m.validate {} = .ok ()) ∧
    ∃ r, merge marked = .ok r ∧ (∀ what ∈ marked.flatMap asked, r.asked.count what = 1) ∧
      ∃ report, r.validate {} = .error report ∧
        report.problems = [.multipleEditableMarkers 2 ["Web", "Dev"] [3, 2]] := by
  have hd : ∀ m ∈ marked, m.DistinctGroups := by decide +kernel
  have hvalid : ∀ m ∈ marked, m.validate {} = .ok () := by
    simp only [marked, List.forall_mem_cons]
    exact ⟨by rfl, by rfl, by simp⟩
  have hr : merge marked = .ok (ofGroups [
      { name := "Web", entries := [.pin ⟨⟨"Flask"⟩, "3.1.0", false, 2⟩,
          .editable ⟨"./app", [], 3⟩] },
      { name := "Dev", entries := [.editable ⟨"./app", ["test"], 2⟩,
          .pin ⟨⟨"flask"⟩, "3.1.0", true, 3⟩] }]) := by rfl
  obtain ⟨honce, -, hmany, -⟩ := merge_valid hd hvalid hr
  exact ⟨hd, hvalid, _, hr, honce, hmany (by decide +kernel)⟩

end Pinfile.Manifest
