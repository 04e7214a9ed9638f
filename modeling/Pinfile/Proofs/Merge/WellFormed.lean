import Pinfile.Proofs.Manifest.RoundTrip
import Pinfile.Proofs.Merge.Invariants
import Pinfile.Proofs.Merge.TopLayer

/-!
# What is merged can be written

Well-formed layers merge into well-formed manifests (`wellFormed_of_merge`), so a merged manifest is
read back as it was written. Merging well-formed layers keeps the merged groups well formed
(`Merge.Slot.WellFormed.keptBy`): the versions that pins are given come from pins of the layers, and
so they are in the characters that an entry line can hold, and a name of a group comes from a group.
No two groups of one name are begun.

A single well-formed layer merges into itself (`merge_singleton`).
-/

namespace Pinfile

/-- An entry can take the version of any well-formed pin. -/
theorem Entry.WellFormed.retarget {e : Entry} (h : e.WellFormed) {p : Pin} (hp : p.WellFormed)
    (key : String) : (e.retarget key p.version).WellFormed := by
  cases e with
  | pin q =>
    obtain ⟨hname, hne, hversion⟩ : q.WellFormed := h
    change Pin.WellFormed (if q.key = key then q.withVersion p.version else q)
    split
    · exact ⟨hname, hp.version_ne, hp.version⟩
    · exact ⟨hname, hne, hversion⟩
  | editable m => exact h

namespace Merge

/-! ## Merged groups -/

/-- A merged group with a name that is a trimmed line, and with well-formed entries. -/
structure Slot.WellFormed (s : Slot) : Prop where
  name : Text.IsTrimmedLine s.name.toList
  prior : ∀ e ∈ s.prior, e.WellFormed
  added : ∀ e ∈ s.added, e.WellFormed

namespace Slot.WellFormed

variable {s : Slot}

theorem entries (h : s.WellFormed) : ∀ e ∈ s.entries, e.WellFormed := by
  intro e he
  rcases List.mem_append.mp he with he | he
  · exact h.prior e he
  · exact h.added e he

theorem settle (h : s.WellFormed) : s.settle.WellFormed :=
  ⟨h.name, h.entries, fun _ he => absurd he List.not_mem_nil⟩

theorem push (h : s.WellFormed) {e : Entry} (he : e.WellFormed) : (s.push e).WellFormed := by
  refine ⟨h.name, h.prior, fun t ht => ?_⟩
  rcases List.mem_append.mp ht with ht | ht
  · exact h.added t ht
  · obtain rfl := List.mem_singleton.mp ht
    exact he

theorem retarget (h : s.WellFormed) {p : Pin} (hp : p.WellFormed) (key : String) :
    (s.retarget key p.version).WellFormed := by
  refine ⟨h.name, fun e he => ?_, h.added⟩
  obtain ⟨t, ht, rfl⟩ := List.mem_map.mp he
  exact (h.prior t ht).retarget hp key

end Slot.WellFormed

/-- A well-formed layer keeps the merged groups well formed. -/
theorem Slot.WellFormed.keptBy {m : Manifest} (hm : m.WellFormed) :
    Slot.KeptBy m Slot.WellFormed where
  begin g hg := ⟨(hm.groups g hg).name, by simp, by simp⟩
  push g hg e he slot _ hslot := hslot.push ((hm.groups g hg).entries e he)
  retarget a ha slot hslot := hslot.retarget (hm.pin a ha) a.2.key
  settle slot hslot := hslot.settle

/-- Well-formed layers have well-formed merged groups. -/
theorem wellFormed_ofLayers {ms : List Manifest} (h : ∀ m ∈ ms, m.WellFormed) :
    (State.ofLayers ms).All Slot.WellFormed := by
  cases ms with
  | nil => exact fun _ hslot => absurd hslot List.not_mem_nil
  | cons base layers =>
    refine State.all_ofLayers (fun g hg => ?_) fun m hm => Slot.WellFormed.keptBy (h m (by simp [hm]))
    have hgroup := (h base (by simp)).groups g hg
    exact ⟨hgroup.name, hgroup.entries, by simp [Slot.ofGroup]⟩

end Merge

/-! ## Whole merges -/

namespace Manifest

open Merge

variable {ms : List Manifest} {m r : Manifest}

/-- Well-formed layers merge into well-formed manifests. -/
theorem wellFormed_of_merge (h : ∀ m ∈ ms, m.WellFormed) (hr : merge ms = .ok r) :
    r.WellFormed := by
  have hdistinct := distinctGroups_of_merge (fun m hm => (h m hm).distinct) hr
  obtain ⟨-, rfl⟩ := merge_eq_ok_iff.mp hr
  refine ⟨map_ordinal_ofGroups _, fun g hg => ?_, hdistinct⟩
  obtain ⟨slot, hslot, hname, hentries⟩ := mem_groups_finish hg
  have hwell := wellFormed_ofLayers h slot hslot
  exact ⟨by rw [hname]; exact hwell.name, by rw [hentries]; exact hwell.entries⟩

/-- A single layer whose groups are numbered by position merges into itself. -/
theorem merge_singleton (h : m.groups.map Group.ordinal = List.range m.groups.length) :
    merge [m] = .ok m := by
  obtain ⟨groups⟩ := m
  have heta : ∀ (g : Group) i, g.ordinal = i → g = ⟨g.name, i, g.entries⟩ := by
    rintro g _ rfl
    rfl
  have hgroups : groups = (ofGroups ((groups.map Slot.ofGroup).map Slot.toGroup)).groups := by
    refine List.ext_getElem (by simp) fun i hi _ => ?_
    have hordinal : groups[i].ordinal = i := by
      have hat := List.getElem_of_eq h (by simpa using hi)
      simpa using hat
    simp only [groups_ofGroups, List.getElem_mapIdx, List.getElem_map, Slot.ofGroup, Slot.toGroup,
      Slot.entries, List.append_nil]
    exact heta groups[i] i hordinal
  exact merge_eq_ok_iff.mpr ⟨rfl, congrArg Manifest.mk hgroups⟩

/-- What is merged from layers that were read is read back as it was written. -/
theorem parse_render_of_merge (h : ∀ m ∈ ms, ∃ text, parse text = .ok m) (hr : merge ms = .ok r) :
    ∃ r', parse r.render = .ok r' ∧ r'.Same r := by
  refine parse_render (wellFormed_of_merge (fun m hm => ?_) hr)
  obtain ⟨text, htext⟩ := h m hm
  exact wellFormed_of_parse htext

end Manifest
end Pinfile
