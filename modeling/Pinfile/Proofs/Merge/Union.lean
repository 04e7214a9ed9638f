import Pinfile.Proofs.Merge.Ledger

/-!
# Merging is a layered union

What a merged manifest holds, said on the layers alone (`LayeredUnion`): its groups are the names of
the layers, a group has one pin of every package that some layer pins there, the highest layer that
pins the package anywhere decides the version, and the lowest one that pins it in the group decides
how the pin is written.

The main statement is that the merge of clean layers, where it succeeds, is this union
(`merge_layeredUnion`). Without conflicts the ledger is nothing but all pins of the layers, so all
that is left is to read its lists layer by layer.
-/

namespace Pinfile.Manifest

/-! ## The union -/

/-- What the union of some layers, the lowest first, has to be. -/
structure LayeredUnion (ms : List Manifest) (r : Manifest) : Prop where
  /-- The groups are the names of the layers up to letter case, each spelled as it was first. -/
  groupNames : r.groups.map Group.name =
    firsts Text.lowercase (ms.flatMap fun m => m.groups.map Group.name)
  ordinals : r.groups.map Group.ordinal = List.range r.groups.length
  /-- A package that some layer pins in a group stands there once. -/
  once : ∀ g ∈ r.groups, ∀ key, (∃ m ∈ ms, m.PinsIn g.key key) → g.pins.countP (·.key == key) = 1
  /-- No other package stands there. -/
  only : ∀ g ∈ r.groups, ∀ key, ¬ (∃ m ∈ ms, m.PinsIn g.key key) → g.pins.countP (·.key == key) = 0
  /-- The highest layer that pins a package in any group decides its version everywhere. -/
  version : ∀ g ∈ r.groups, ∀ p ∈ g.pins, ∃ m, lastPinning? ms p.key = some m ∧
    ∀ a ∈ m.pins, a.2.key = p.key → a.2.version = p.version
  /-- The lowest layer that pins a package in the group decides how the pin is written. -/
  spelling : ∀ g ∈ r.groups, ∀ p ∈ g.pins, ∃ m, firstPinningIn? ms g.key p.key = some m ∧
    ∀ q ∈ Merge.pinsIn g.key m.pins, q.key = p.key → q.name = p.name ∧ q.isOverride = p.isOverride
  /-- The pins of a group stand in the order in which the layers first have them there. -/
  order : ∀ g ∈ r.groups,
    g.pins.map Pin.key = firsts id ((Merge.pinsIn g.key (ms.flatMap pins)).map Pin.key)

/-- The groups of a successful merge of clean layers. -/
theorem merge_groups {ms : List Manifest} {r : Manifest} (hclean : ∀ m ∈ ms, m.Clean)
    (hr : merge ms = .ok r) :
    r.groups.map Group.name = firsts Text.lowercase (ms.flatMap fun m => m.groups.map Group.name) ∧
      r.groups.map Group.ordinal = List.range r.groups.length ∧
      ∀ g ∈ r.groups, g.pins = (Merge.Ledger.ofLayers ms).held g.key := by
  obtain ⟨hsettled, -⟩ := Merge.settled_ofLayers hclean
  rw [Merge.merge_eq_ok_iff] at hr
  obtain ⟨-, rfl⟩ := hr
  refine ⟨?_, ?_, ?_⟩
  · rw [map_name_ofGroups, List.map_map, ← Merge.names_ofLayers, ← hsettled.slotNames]
    rfl
  · exact map_ordinal_ofGroups _
  · intro g hg
    obtain ⟨i, hi, rfl⟩ := List.mem_mapIdx.mp hg
    obtain ⟨slot, hslot, hgroup⟩ := List.mem_map.mp (List.getElem_mem hi)
    rw [← hgroup]
    exact hsettled.pins slot hslot

/-- Merging clean layers, where it succeeds, gives their union. -/
theorem merge_layeredUnion {ms : List Manifest} {r : Manifest} (hclean : ∀ m ∈ ms, m.Clean)
    (hr : merge ms = .ok r) : LayeredUnion ms r := by
  obtain ⟨hnames, hordinals, hheld⟩ := merge_groups hclean hr
  have hpins : (Merge.Ledger.ofLayers ms).pins = ms.flatMap pins := by
    rw [Merge.merge_eq_ok_iff, (Merge.settled_ofLayers hclean).2] at hr
    exact Merge.pins_ofLayers hr.1
  have hpinned : ∀ g ∈ r.groups, ∀ key,
      (∃ p ∈ g.pins, p.key = key) ↔ ∃ m ∈ ms, m.PinsIn g.key key := by
    intro g hg key
    have hmem : key ∈ g.pins.map Pin.key ↔
        key ∈ (Merge.pinsIn g.key (ms.flatMap pins)).map Pin.key := by
      rw [hheld g hg, Merge.Ledger.keys_held, hpins, mem_firsts_id]
    rw [List.mem_map, List.mem_map] at hmem
    rw [hmem]
    constructor
    · rintro ⟨p, hp, hkey⟩
      rw [pinsIn_flatMap, List.mem_flatMap] at hp
      obtain ⟨m, hm, hp⟩ := hp
      exact ⟨m, hm, p, hp, hkey⟩
    · rintro ⟨m, hm, p, hp, hkey⟩
      rw [pinsIn_flatMap]
      exact ⟨p, List.mem_flatMap_of_mem hm hp, hkey⟩
  refine ⟨hnames, hordinals, ?_, ?_, ?_, ?_, ?_⟩
  · intro g hg key hkey
    refine countP_of_pairwise ?_ ((hpinned g hg key).mpr hkey)
    rw [hheld g hg]
    exact Merge.Ledger.held_pairwise _ _
  · intro g hg key hkey
    rw [List.countP_eq_zero]
    intro p hp hpkey
    exact hkey ((hpinned g hg key).mp ⟨p, hp, by simpa using hpkey⟩)
  · intro g hg p hp
    rw [hheld g hg] at hp
    obtain ⟨-, -, -, -, hlast⟩ := Merge.Ledger.exists_of_mem_held hp
    rw [hpins, lastVersion?_flatMap, Option.bind_eq_some_iff] at hlast
    obtain ⟨m, hm, hversion⟩ := hlast
    have hmem : m ∈ ms := by simpa using List.mem_of_find?_eq_some hm
    refine ⟨m, hm, fun a ha hkey => ?_⟩
    have ha' := (hclean m hmem).lastVersion?_eq (fun _ h => h) ha
    rw [hkey, hversion] at ha'
    exact (Option.some.inj ha').symm
  · intro g hg p hp
    rw [hheld g hg] at hp
    obtain ⟨q, hq, hname, hoverride, -⟩ := Merge.Ledger.exists_of_mem_held hp
    rw [hpins, find?_pinsIn_flatMap, Option.bind_eq_some_iff] at hq
    obtain ⟨m, hm, hq⟩ := hq
    refine ⟨m, hm, fun q' hq' hkey => ?_⟩
    have hfind := find?_of_pairwise
      ((hclean m (List.mem_of_find?_eq_some hm)).pinsIn_pairwise g.key) hq'
    rw [hkey, hq] at hfind
    rw [← Option.some.inj hfind]
    exact ⟨hname, hoverride⟩
  · intro g hg
    rw [hheld g hg, Merge.Ledger.keys_held, hpins]

/-- Two layers, of which the upper one replaces a version and adds a package and a group. -/
def overriding : List Manifest :=
  [ofGroups [{ name := "Web", entries := [.pin ⟨⟨"Flask"⟩, "3.0.0", false, 2⟩] }],
    ofGroups [
      { name := "WEB", entries := [.pin ⟨⟨"flask"⟩, "3.1.0", true, 2⟩,
          .pin ⟨⟨"jinja2"⟩, "3.1.4", false, 3⟩] },
      { name := "Dev", entries := [.pin ⟨⟨"flask"⟩, "3.1.0", true, 5⟩] }]]

/-- What merging them gives. -/
def overridden : Manifest :=
  ofGroups [
    { name := "Web", entries := [.pin ⟨⟨"Flask"⟩, "3.1.0", false, 2⟩,
        .pin ⟨⟨"jinja2"⟩, "3.1.4", false, 3⟩] },
    { name := "Dev", entries := [.pin ⟨⟨"flask"⟩, "3.1.0", true, 5⟩] }]

theorem merge_overriding : (∀ m ∈ overriding, m.Clean) ∧ merge overriding = .ok overridden ∧
    LayeredUnion overriding overridden := by
  have hclean : ∀ m ∈ overriding, m.Clean := by decide +kernel
  have hmerge : merge overriding = .ok overridden := by rfl
  exact ⟨hclean, hmerge, merge_layeredUnion hclean hmerge⟩

end Pinfile.Manifest
