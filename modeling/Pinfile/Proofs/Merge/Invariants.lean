import Pinfile.Proofs.Merge.Ledger

/-!
# What holds of every merged group

A property of single merged groups that a merge keeps is shown once for all merges. A step begins an
empty group, adds an entry of a layer to the group of that entry's name, or gives the pins of a
package the version of a pin of the layer; between two layers what was added is settled. A property
that stands all of this is *kept* by the layer (`Slot.KeptBy`). Where it holds of the groups of the
lowest layer and every other layer keeps it, it holds of all merged groups (`State.all_ofLayers`).
-/

namespace Pinfile.Merge

/-- The property of merged groups stands whatever merging the layer does. -/
structure Slot.KeptBy (layer : Manifest) (P : Slot → Prop) : Prop where
  begin : ∀ g ∈ layer.groups, P { name := g.name }
  push : ∀ g ∈ layer.groups, ∀ e ∈ g.entries, ∀ slot : Slot, slot.key = g.key → P slot →
    P (slot.push e)
  retarget : ∀ a ∈ layer.pins, ∀ slot : Slot, P slot → P (slot.retarget a.2.key a.2.version)
  settle : ∀ slot : Slot, P slot → P slot.settle

namespace State

/-- All merged groups have the property. -/
def All (P : Slot → Prop) (s : State) : Prop := ∀ slot ∈ s.slots, P slot

variable {P : Slot → Prop} {s t : State} {i : Nat} {layer : Manifest} {g : Group}

/-- The position is that of a group of the given key. -/
def IsAt (s : State) (i : Nat) (key : String) : Prop :=
  ∃ slot, s.slots[i]? = some slot ∧ slot.key = key

/-- A group that is opened stands at its position. -/
theorem isAt_openSlot (s : State) (name : String) :
    (s.openSlot name).1.IsAt (s.openSlot name).2 (Text.lowercase name) := by
  unfold openSlot
  split
  · next i hi =>
    obtain ⟨hlt, hkey, -⟩ := List.findIdx?_eq_some_iff_getElem.mp hi
    exact ⟨s.slots[i], List.getElem?_eq_getElem hlt, beq_iff_eq.mp hkey⟩
  · exact ⟨{ name }, List.getElem?_concat_length, rfl⟩

theorem map_name_modifySlot (s : State) (i : Nat) {f : Slot → Slot}
    (hf : ∀ slot, (f slot).name = slot.name) :
    (s.modifySlot i f).slots.map Slot.name = s.slots.map Slot.name := by
  have hid : ∀ slot, (f slot).name = id slot.name := hf
  rw [modifySlot, map_modify_eq hid, List.modify_id]

theorem map_name_place (s : State) (i : Nat) (p : Pin) :
    (s.place i p).slots.map Slot.name = s.slots.map Slot.name := by
  refine s.map_name_modifySlot i fun slot => ?_
  split <;> rfl

theorem map_name_retarget (s : State) (key version : String) :
    (s.retarget key version).slots.map Slot.name = s.slots.map Slot.name := by
  rw [slots_retarget, List.map_map]
  rfl

/-- Merging an entry leaves every group where it stands, with its name. -/
theorem map_name_addEntry (i : Nat) (group : String) (s : State) (e : Entry) :
    (s.addEntry i group e).slots.map Slot.name = s.slots.map Slot.name := by
  cases e with
  | pin p =>
    change (s.addPin i group p).slots.map Slot.name = _
    rcases s.addPin_cases i group p with ⟨-, hs⟩ | ⟨f, -, -, -, hs⟩ | ⟨f, -, -, -, hs⟩
    · rw [hs, map_name_place]
    · rw [hs, map_name_place, map_name_retarget]
    · rw [hs]
      rfl
  | editable m =>
    change (s.addMarker i m).slots.map Slot.name = _
    unfold addMarker
    split
    · rfl
    · exact s.map_name_modifySlot i fun slot => rfl

/-- Which group stands at a position can be seen on the names. -/
theorem IsAt.of_names {key : String} (h : s.IsAt i key)
    (hnames : t.slots.map Slot.name = s.slots.map Slot.name) : t.IsAt i key := by
  obtain ⟨slot, hslot, rfl⟩ := h
  have hat := congrArg (·[i]?) hnames
  simp only [List.getElem?_map, hslot, Option.map_some] at hat
  obtain ⟨later, hlater, hname⟩ := Option.map_eq_some_iff.mp hat
  exact ⟨later, hlater, congrArg Text.lowercase hname⟩

namespace All

theorem modifySlot (h : s.All P) {key : String} (hi : s.IsAt i key) {f : Slot → Slot}
    (hf : ∀ slot : Slot, slot.key = key → P slot → P (f slot)) : (s.modifySlot i f).All P := by
  obtain ⟨opened, hopened, hkey⟩ := hi
  intro slot hslot
  obtain ⟨j, hj⟩ := List.mem_iff_getElem?.mp hslot
  rw [getElem?_modifySlot] at hj
  obtain ⟨before, hbefore, rfl⟩ := Option.map_eq_some_iff.mp hj
  have hP := h before (List.mem_of_getElem? hbefore)
  split
  · next hij =>
    subst hij
    rw [hopened] at hbefore
    exact hf before (Option.some.inj hbefore ▸ hkey) hP
  · exact hP

theorem place (h : s.All P) {key : String} (hi : s.IsAt i key) {p : Pin}
    (hpush : ∀ slot : Slot, slot.key = key → P slot → P (slot.push (.pin p))) :
    (s.place i p).All P := by
  refine h.modifySlot hi fun slot hkey hP => ?_
  split
  · exact hP
  · exact hpush slot hkey hP

theorem retarget (h : s.All P) {key version : String}
    (hretarget : ∀ slot : Slot, P slot → P (slot.retarget key version)) :
    (s.retarget key version).All P := by
  intro slot hslot
  obtain ⟨before, hbefore, rfl⟩ := List.mem_map.mp hslot
  exact hretarget before (h before hbefore)

/-- Merging an entry of a group of the layer keeps what the layer keeps. -/
theorem addEntry (h : s.All P) (hP : Slot.KeptBy layer P) (hg : g ∈ layer.groups)
    (hi : s.IsAt i g.key) {e : Entry} (he : e ∈ g.entries) :
    (s.addEntry i g.name e).All P := by
  have hpush := hP.push g hg e he
  cases e with
  | pin p =>
    change (s.addPin i g.name p).All P
    rcases s.addPin_cases i g.name p with ⟨-, hs⟩ | ⟨f, -, -, -, hs⟩ | ⟨f, -, -, -, hs⟩
    · rw [hs]
      exact h.place hi hpush
    · have hretarget := hP.retarget (g, p) (Manifest.mem_pins_of_mem_entries hg he)
      rw [hs]
      exact (h.retarget hretarget).place (hi.of_names (s.map_name_retarget p.key p.version)) hpush
    · rw [hs]
      exact h
  | editable m =>
    change (s.addMarker i m).All P
    unfold addMarker
    split
    · exact h
    · exact h.modifySlot hi hpush

theorem openSlot (h : s.All P) {name : String} (hbegin : P { name }) :
    (s.openSlot name).1.All P := by
  unfold State.openSlot
  split
  · exact h
  · intro slot hslot
    rcases List.mem_append.mp hslot with hslot | hslot
    · exact h slot hslot
    · rw [List.mem_singleton.mp hslot]
      exact hbegin

theorem addGroup (h : s.All P) (hP : Slot.KeptBy layer P) (hg : g ∈ layer.groups) :
    (s.addGroup g).All P := by
  have hopen : (s.openSlot g.name).1.All P ∧
      (s.openSlot g.name).1.IsAt (s.openSlot g.name).2 g.key :=
    ⟨h.openSlot (hP.begin g hg), s.isAt_openSlot g.name⟩
  refine (List.foldlRecOn g.entries _
    (motive := fun t : State => t.All P ∧ t.IsAt (s.openSlot g.name).2 g.key) hopen ?_).1
  rintro t ⟨ht, hi⟩ e he
  exact ⟨ht.addEntry hP hg hi he, hi.of_names (map_name_addEntry _ g.name t e)⟩

theorem nextLayer (h : s.All P) (hsettle : ∀ slot : Slot, P slot → P slot.settle) :
    s.nextLayer.All P := by
  intro slot hslot
  obtain ⟨before, hbefore, rfl⟩ := List.mem_map.mp hslot
  exact hsettle before (h before hbefore)

/-- Merging a layer keeps what the layer keeps. -/
theorem addLayer (h : s.All P) (hP : Slot.KeptBy layer P) : (s.addLayer layer).All P :=
  List.foldlRecOn layer.groups _ (h.nextLayer hP.settle) fun _ ht _ hg => ht.addGroup hP hg

end All

/-- What holds of the groups of the lowest layer, and is kept by the others, holds of all merged
groups. -/
theorem all_ofLayers {base : Manifest} {layers : List Manifest}
    (hbase : ∀ g ∈ base.groups, P (.ofGroup g)) (hP : ∀ layer ∈ layers, Slot.KeptBy layer P) :
    (State.ofLayers (base :: layers)).All P := by
  have hstart : (State.ofBase base).All P := by
    intro slot hslot
    obtain ⟨g, hg, rfl⟩ := List.mem_map.mp hslot
    exact hbase g hg
  exact List.foldlRecOn layers _ hstart fun _ ht layer hlayer => ht.addLayer (hP layer hlayer)

end State
end Pinfile.Merge
