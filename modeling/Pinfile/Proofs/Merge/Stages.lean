import Pinfile.Proofs.Merge.TopLayer
import Pinfile.Proofs.Merge.WellFormed

/-!
# Merging in stages

Merging may pause after any layer. What a merge carries from one layer to the next is the merged
groups, what is in force and the conflicts. Where there are no conflicts, all of it can be read off the
merged manifest, so going on from that manifest is going on from where the merge was; where there are
some, they stay the first conflicts of every longer merge (`Manifest.merge_append`). Nothing is asked
of the layers.
-/

namespace Pinfile

namespace Merge.State

/-- Merging all layers is merging the upper ones on top of the lower ones. -/
theorem ofLayers_append {ms : List Manifest} (hms : ms ≠ []) (above : List Manifest) :
    ofLayers (ms ++ above) = above.foldl addLayer (ofLayers ms) := by
  cases ms with
  | nil => exact absurd rfl hms
  | cons base layers => exact List.foldl_append

/-- Layers add to the conflicts that were found below them. -/
theorem prefix_problems_addLayers (s : State) (above : List Manifest) :
    s.problems <+: (above.foldl addLayer s).problems :=
  prefix_foldl problems addLayer prefix_problems_addLayer above s

/-- A layer looks at nothing but what its lower layers hand on to it. -/
theorem addLayer_congr {s t : State} (h : s.nextLayer = t.nextLayer) (layer : Manifest) :
    s.addLayer layer = t.addLayer layer := by
  rw [addLayer, addLayer, h]

/-- A merge without conflicts goes on from its merged manifest as it goes on itself. -/
theorem addLayers_ofBase {s : State} (h : s.problems = []) {above : List Manifest}
    (habove : above ≠ []) :
    above.foldl addLayer (ofBase (Manifest.ofGroups (s.slots.map Slot.toGroup))) =
      above.foldl addLayer s := by
  cases above with
  | nil => exact absurd rfl habove
  | cons layer rest =>
    -- from the first layer on, both are in one state
    rw [List.foldl_cons, List.foldl_cons, addLayer_congr (nextLayer_ofBase h)]

end Merge.State

namespace Manifest

open Merge

/-- Merging more layers on top of some layers is merging them on top of what those give, be it the
merged manifest or the conflicts that are found. Where those layers have conflicts already, their
conflicts come first in the report on all layers. -/
theorem merge_append {ms : List Manifest} (hms : ms ≠ []) (above : List Manifest) :
    (∀ m, merge ms = .ok m → merge (ms ++ above) = merge (m :: above)) ∧
      ∀ report, merge ms = .error report →
        ∃ whole, merge (ms ++ above) = .error whole ∧ report.problems <+: whole.problems := by
  constructor
  · intro m hm
    obtain ⟨hnone, rfl⟩ := merge_eq_ok_iff.mp hm
    by_cases habove : above = []
    · rw [habove, List.append_nil, hm, merge_singleton (map_ordinal_ofGroups _)]
    · rw [merge_eq_finish, merge_eq_finish, State.ofLayers_append hms]
      exact congrArg State.finish (State.addLayers_ofBase hnone habove).symm
  · intro report hreport
    have hbelow : report.problems = (State.ofLayers ms).problems := merge_eq_error_iff.mp hreport
    have hprefix : report.problems <+: (State.ofLayers (ms ++ above)).problems := by
      rw [hbelow, State.ofLayers_append hms]
      exact State.prefix_problems_addLayers (State.ofLayers ms) above
    -- a list that begins with the conflicts of a report is not empty
    have hsome : (State.ofLayers (ms ++ above)).problems ≠ [] := by
      intro hnil
      rw [hnil, List.prefix_nil] at hprefix
      exact report.ne_nil hprefix
    exact ⟨⟨_, hsome⟩, merge_eq_error_iff.mpr rfl, hprefix⟩

/-- The layer of a single pin of `flask`. -/
def flaskLayer (group version : String) (isOverride : Bool) : Manifest :=
  ofGroups [{ name := group, entries := [.pin ⟨⟨"flask"⟩, version, isOverride, 2⟩] }]

theorem merge_flaskLayers :
    let agreed := [flaskLayer "Web" "3.0.0" false, flaskLayer "Dev" "3.1.0" true]
    let disputed := [flaskLayer "Web" "3.0.0" false, flaskLayer "Dev" "3.1.0" false]
    let above := [flaskLayer "dev" "3.2.0" false, flaskLayer "Docs" "3.3.0" true]
    (agreed ≠ [] ∧ ∃ m, merge agreed = .ok m ∧ merge (agreed ++ above) = merge (m :: above)) ∧
      disputed ≠ [] ∧ ∃ report whole, merge disputed = .error report ∧
        merge (disputed ++ above) = .error whole ∧ report.problems <+: whole.problems := by
  intro agreed disputed above
  have hagreed : agreed ≠ [] := by decide
  have hdisputed : disputed ≠ [] := by decide
  refine ⟨⟨hagreed, ?_⟩, hdisputed, ?_⟩
  · cases h : merge agreed with
    | ok m => exact ⟨m, rfl, (merge_append hagreed above).1 m h⟩
    | error report =>
      have hsome : (merge agreed).toOption.isSome = true := by decide +kernel
      rw [h] at hsome
      cases hsome
  · cases h : merge disputed with
    | ok m =>
      have hnone : (merge disputed).toOption.isSome = false := by decide +kernel
      rw [h] at hnone
      cases hnone
    | error report =>
      obtain ⟨whole, hwhole, hprefix⟩ := (merge_append hdisputed above).2 report h
      exact ⟨report, whole, rfl, hwhole, hprefix⟩

end Manifest
end Pinfile
