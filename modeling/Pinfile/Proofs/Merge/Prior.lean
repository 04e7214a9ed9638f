import Mathlib.Data.List.Basic
import Pinfile.Proofs.Merge.Invariants

/-!
# What a layer leaves of the layers below

While a layer is merged, the merged groups only grow (`State.Grows`). Groups are begun at the end,
and entries are added at the end of a group; of the entries that the layers below have left there,
nothing changes but the versions of pins.

What is in force is looked up in an index, which is made once for a layer. An override replaces the
version in the index and in the groups in one step (`State.retarget`), and no other step writes either
of them. So the two never disagree (`State.Indexed`): after every step, what the index says of a
package is what its first pin of the layers below says.

Nothing is asked here of the layer or of the groups, which may even go by one name.
-/

namespace Pinfile

/-! ## Entries up to their versions -/

@[simp] theorem Entry.pinsKey_shape (e : Entry) (key : String) :
    e.shape.pinsKey key = e.pinsKey key := by
  cases e <;> rfl

@[simp] theorem Entry.isMarkerLike_shape (e : Entry) (m : Marker) :
    e.shape.isMarkerLike m = e.isMarkerLike m := by
  cases e <;> rfl

/-- What does not look at versions finds in the shapes what it finds in the entries. -/
theorem any_of_map_shape {es es' : List Entry} (h : es'.map Entry.shape = es.map Entry.shape)
    {f : Entry → Bool} (hf : ∀ e, f e.shape = f e) : es'.any f = es.any f := by
  have hany : ∀ es : List Entry, (es.map Entry.shape).any f = es.any f := fun es => by
    rw [List.any_map]
    exact congrArg es.any (funext hf)
  rw [← hany, h, hany]

namespace Merge

/-! ## Growing groups -/

/-- The group `b` is what has become of the group `a` in the course of a layer: entries were added,
and versions of the entries from the layers below may have been replaced. -/
structure Slot.Grows (a b : Slot) : Prop where
  name : b.name = a.name
  prior : b.prior.map Entry.shape = a.prior.map Entry.shape
  added : a.added <+: b.added

namespace Slot.Grows

variable {a b c : Slot}

theorem refl (a : Slot) : a.Grows a := ⟨rfl, rfl, List.prefix_rfl⟩

theorem trans (h : a.Grows b) (h' : b.Grows c) : a.Grows c :=
  ⟨h'.name.trans h.name, h'.prior.trans h.prior, h.added.trans h'.added⟩

theorem push (a : Slot) (e : Entry) : a.Grows (a.push e) := ⟨rfl, rfl, List.prefix_append _ _⟩

theorem retarget (key version : String) (a : Slot) : a.Grows (a.retarget key version) :=
  ⟨rfl, Slot.shape_retarget key version a, List.prefix_rfl⟩

theorem key (h : a.Grows b) : b.key = a.key := congrArg Text.lowercase h.name

/-- What is found in a group without looking at versions is found there later, too. -/
theorem any_entries (h : a.Grows b) {f : Entry → Bool} (hf : ∀ e, f e.shape = f e)
    (hany : a.entries.any f = true) : b.entries.any f = true := by
  rw [Slot.entries, List.any_append, Bool.or_eq_true] at hany ⊢
  refine hany.imp (fun hprior => ?_) fun hadded => ?_
  · rwa [any_of_map_shape h.prior hf]
  · obtain ⟨e, he, hfe⟩ := List.any_eq_true.mp hadded
    exact List.any_eq_true.mpr ⟨e, h.added.mem he, hfe⟩

end Slot.Grows

/-- The state `t` comes after `s` in the course of a layer: the groups stand where they stood, and
each has grown. -/
def State.Grows (s t : State) : Prop :=
  ∀ (i : Nat) (slot : Slot), s.slots[i]? = some slot →
    ∃ later, t.slots[i]? = some later ∧ slot.Grows later

namespace State

variable {s t u : State}

namespace Grows

theorem refl (s : State) : s.Grows s := fun _ slot h => ⟨slot, h, .refl slot⟩

theorem trans (h : s.Grows t) (h' : t.Grows u) : s.Grows u := by
  intro i slot hslot
  obtain ⟨later, hlater, hgrows⟩ := h i slot hslot
  obtain ⟨last, hlast, hgrows'⟩ := h' i later hlater
  exact ⟨last, hlast, hgrows.trans hgrows'⟩

theorem of_slots_eq (h : t.slots = s.slots) : s.Grows t := by
  intro i slot hslot
  rw [← h] at hslot
  exact ⟨slot, hslot, .refl slot⟩

/-- A group that is found by its name is found at the same position later. -/
theorem findIdx?_key (h : s.Grows t) {key : String} {i : Nat}
    (hi : s.slots.findIdx? (·.key == key) = some i) : t.slots.findIdx? (·.key == key) = some i := by
  obtain ⟨hlt, hkey, hbefore⟩ := List.findIdx?_eq_some_iff_getElem.mp hi
  have hat : ∀ j (hj : j < s.slots.length), ∃ hj' : j < t.slots.length,
      t.slots[j].key = s.slots[j].key := by
    intro j hj
    obtain ⟨later, hlater, hgrows⟩ := h j _ (List.getElem?_eq_getElem hj)
    obtain ⟨hj', heq⟩ := List.getElem?_eq_some_iff.mp hlater
    exact ⟨hj', by rw [heq, hgrows.key]⟩
  obtain ⟨hlt', hkey'⟩ := hat i hlt
  refine List.findIdx?_eq_some_iff_getElem.mpr ⟨hlt', by rw [hkey']; exact hkey, fun j hj => ?_⟩
  obtain ⟨hj', hkey'⟩ := hat j (by omega)
  rw [hkey']
  exact hbefore j hj

/-- A marker that a group has stays there. -/
theorem hasMarker (h : s.Grows t) {m : Marker} (hm : s.hasMarker m = true) :
    t.hasMarker m = true := by
  obtain ⟨slot, hslot, hany⟩ := List.any_eq_true.mp hm
  obtain ⟨i, hi⟩ := List.mem_iff_getElem?.mp hslot
  obtain ⟨later, hlater, hgrows⟩ := h i slot hi
  exact List.any_eq_true.mpr ⟨later, List.mem_of_getElem? hlater,
    hgrows.any_entries (fun e => e.isMarkerLike_shape m) hany⟩

end Grows

theorem grows_modifySlot (s : State) (i : Nat) {f : Slot → Slot}
    (hf : ∀ slot : Slot, slot.Grows (f slot)) :
    s.Grows (s.modifySlot i f) := by
  intro j slot hslot
  refine ⟨if i = j then f slot else slot, by rw [getElem?_modifySlot, hslot]; rfl, ?_⟩
  split
  · exact hf slot
  · exact .refl slot

theorem grows_place (s : State) (i : Nat) (p : Pin) : s.Grows (s.place i p) := by
  refine s.grows_modifySlot i fun slot => ?_
  split
  · exact .refl slot
  · exact .push slot (.pin p)

/-- Where a pin is placed, its package stands. -/
theorem exists_slot_place {i : Nat} (hi : i < s.slots.length) (p : Pin) :
    ∃ slot, (s.place i p).slots[i]? = some slot ∧
      slot.entries.any (·.pinsKey p.key) = true := by
  refine ⟨_, getElem?_modifySlot_self (List.getElem?_eq_getElem hi) _, ?_⟩
  split
  · next hprior =>
    rw [Slot.entries, List.any_append, Bool.or_eq_true]
    exact Or.inl hprior
  · simp [Slot.entries, Slot.push, Entry.pinsKey]

theorem grows_retarget (s : State) (key version : String) : s.Grows (s.retarget key version) := by
  intro i slot hslot
  refine ⟨slot.retarget key version, ?_, .retarget key version slot⟩
  rw [slots_retarget, List.getElem?_map, hslot]
  rfl

/-- Merging an entry lets the groups grow. -/
theorem grows_addEntry (i : Nat) (group : String) (s : State) (e : Entry) :
    s.Grows (s.addEntry i group e) := by
  cases e with
  | pin p =>
    change s.Grows (s.addPin i group p)
    rcases s.addPin_cases i group p with ⟨-, hs⟩ | ⟨f, -, -, -, hs⟩ | ⟨f, -, -, -, hs⟩
    · rw [hs]
      exact s.grows_place i p
    · rw [hs]
      exact (s.grows_retarget p.key p.version).trans (grows_place _ i p)
    · rw [hs]
      exact .of_slots_eq rfl
  | editable m =>
    change s.Grows (s.addMarker i m)
    unfold addMarker
    split
    · exact .refl s
    · exact s.grows_modifySlot i fun slot => .push slot _

theorem grows_openSlot (s : State) (name : String) : s.Grows (s.openSlot name).1 := by
  unfold openSlot
  split
  · exact .refl s
  · intro i slot hslot
    obtain ⟨hlt, -⟩ := List.getElem?_eq_some_iff.mp hslot
    exact ⟨slot, by rw [List.getElem?_append_left hlt, hslot], .refl slot⟩

/-- A group that is opened is found by its name from then on. -/
theorem findIdx?_openSlot (s : State) (name : String) :
    (s.openSlot name).1.slots.findIdx? (·.key == Text.lowercase name) =
      some (s.openSlot name).2 := by
  unfold openSlot
  split
  · next i hi => exact hi
  · next hnone =>
    rw [List.findIdx?_append, hnone]
    simp [Slot.key]

/-! ## The index of the lower layers -/

/-- The pins of the lower layers, each with the name of its group. -/
def priorPins (s : State) : List (String × Pin) := s.slots.flatMap Slot.priorPins

/-- What the first pin of a package in the lower layers says. -/
def firstPrior? (s : State) (key : String) : Option InForce :=
  (s.priorPins.find? (·.2.key == key)).map fun owned => ⟨owned.2.key, owned.1, owned.2.version⟩

/-- What is in force for a package is what its first pin in the lower layers says. -/
def Indexed (s : State) : Prop := ∀ key, s.inForce? key = s.firstPrior? key

theorem indexed_nextLayer (s : State) : s.nextLayer.Indexed := by
  intro key
  rw [inForce?, nextLayer, indexPrior, List.find?_map]
  simp only [Function.comp_def]
  rw [find?_firsts]
  rfl

theorem priorPins_modifySlot (s : State) (i : Nat) {f : Slot → Slot}
    (hf : ∀ slot, (f slot).priorPins = slot.priorPins) :
    (s.modifySlot i f).priorPins = s.priorPins := by
  have hmap : (s.modifySlot i f).slots.map Slot.priorPins = s.slots.map Slot.priorPins := by
    apply List.ext_getElem?
    intro j
    rw [List.getElem?_map, List.getElem?_map, getElem?_modifySlot, Option.map_map]
    congr 1
    funext slot
    rw [Function.comp_apply]
    split
    · exact hf slot
    · rfl
  rw [priorPins, priorPins, List.flatMap_def, List.flatMap_def, hmap]

theorem priorPins_place (s : State) (i : Nat) (p : Pin) :
    (s.place i p).priorPins = s.priorPins := by
  refine s.priorPins_modifySlot i fun slot => ?_
  split <;> rfl

theorem priorPins_openSlot (s : State) (name : String) :
    (s.openSlot name).1.priorPins = s.priorPins := by
  unfold openSlot
  split
  · rfl
  · rw [priorPins, List.flatMap_append]
    exact List.append_nil _

/-- Replacing a version replaces it in the pins of the lower layers. -/
theorem priorPins_retarget (s : State) (key version : String) :
    (s.retarget key version).priorPins = s.priorPins.map fun owned =>
      (owned.1, if owned.2.key = key then owned.2.withVersion version else owned.2) := by
  have hpin : ∀ e : Entry, (e.retarget key version).pin? =
      e.pin?.map fun p => if p.key = key then p.withVersion version else p := by
    intro e
    cases e <;> rfl
  rw [priorPins, slots_retarget, List.flatMap_map, priorPins, List.map_flatMap]
  refine List.flatMap_congr fun slot _ => ?_
  simp only [Slot.priorPins, Slot.retarget, List.filterMap_map, List.map_map, Function.comp_def,
    hpin, ← List.map_filterMap]

namespace Indexed

theorem of_eq (h : s.Indexed) (hinForce : t.inForce = s.inForce)
    (hprior : t.priorPins = s.priorPins) : t.Indexed := by
  intro key
  rw [inForce?, hinForce, firstPrior?, hprior]
  exact h key

theorem retarget (h : s.Indexed) (k version : String) : (s.retarget k version).Indexed := by
  intro key
  have hkey : ∀ p : Pin, (if p.key = k then p.withVersion version else p).key = p.key := by
    intro p
    split <;> rfl
  rw [inForce?_retarget, h, firstPrior?, firstPrior?, priorPins_retarget, List.find?_map]
  simp only [Function.comp_def, hkey, Option.map_map]
  cases hfind : s.priorPins.find? (·.2.key == key) with
  | none => simp
  | some owned =>
    have howned : owned.2.key = key := by simpa using List.find?_some hfind
    by_cases hk : k = key
    · simp [hk, howned, Pin.withVersion]
    · simp [hk, howned, Ne.symm hk]

/-- Merging an entry replaces a version in the index and in the groups alike. -/
theorem addEntry (h : s.Indexed) (i : Nat) (group : String) (e : Entry) :
    (s.addEntry i group e).Indexed := by
  cases e with
  | pin p =>
    change (s.addPin i group p).Indexed
    rcases s.addPin_cases i group p with ⟨-, hs⟩ | ⟨f, -, -, -, hs⟩ | ⟨f, -, -, -, hs⟩
    · rw [hs]
      exact h.of_eq rfl (s.priorPins_place i p)
    · rw [hs]
      exact (h.retarget p.key p.version).of_eq rfl (priorPins_place _ i p)
    · rw [hs]
      exact h.of_eq rfl rfl
  | editable m =>
    change (s.addMarker i m).Indexed
    unfold addMarker
    split
    · exact h
    · exact h.of_eq rfl (s.priorPins_modifySlot i fun slot => rfl)

theorem openSlot (h : s.Indexed) (name : String) : (s.openSlot name).1.Indexed := by
  refine h.of_eq ?_ (s.priorPins_openSlot name)
  unfold State.openSlot
  split <;> rfl

theorem addGroup (h : s.Indexed) (g : Group) : (s.addGroup g).Indexed :=
  List.foldlRecOn g.entries _ (h.openSlot g.name) fun _ ht e _ => ht.addEntry _ g.name e

end Indexed

/-! ## What the layer adds -/

/-- Whatever the current layer has added is of the given kind. -/
def AddsOnly (P : Entry → Prop) (s : State) : Prop := s.All fun slot => ∀ e ∈ slot.added, P e

/-- What has been added at the end of a layer are entries of the layer. -/
theorem addsOnly_addLayer (s : State) (m : Manifest) :
    (s.addLayer m).AddsOnly fun e => ∃ g ∈ m.groups, e ∈ g.entries := by
  have hstart : s.nextLayer.AddsOnly fun e => ∃ g ∈ m.groups, e ∈ g.entries := by
    intro slot hslot
    obtain ⟨before, -, rfl⟩ := List.mem_map.mp hslot
    exact fun e he => absurd he List.not_mem_nil
  have hkept : Slot.KeptBy m fun slot => ∀ e ∈ slot.added, ∃ g ∈ m.groups, e ∈ g.entries := by
    refine ⟨by simp, fun g hg e he slot _ hslot t ht => ?_, fun _ _ _ hslot => hslot,
      by simp [Slot.settle]⟩
    rcases List.mem_append.mp ht with ht | ht
    · exact hslot t ht
    · rw [List.mem_singleton.mp ht]
      exact ⟨g, hg, he⟩
  exact List.foldlRecOn m.groups _ hstart fun _ ht g hg => State.All.addGroup ht hkept hg

/-! ## Whole layers -/

theorem grows_addGroup (s : State) (g : Group) : s.Grows (s.addGroup g) :=
  List.foldlRecOn g.entries _ (s.grows_openSlot g.name) fun _ ht e _ =>
    ht.trans (grows_addEntry _ g.name _ e)

/-- In the course of a layer, the merged groups grow from what the layers below have left. -/
theorem grows_addLayer (s : State) (m : Manifest) : s.nextLayer.Grows (s.addLayer m) :=
  List.foldlRecOn m.groups _ (Grows.refl _) fun _ ht g _ => ht.trans (grows_addGroup _ g)

/-- To the end of a layer, the index says what the first pins of the layers below say. -/
theorem indexed_addLayer (s : State) (m : Manifest) : (s.addLayer m).Indexed :=
  List.foldlRecOn m.groups _ s.indexed_nextLayer fun _ ht g _ => ht.addGroup g

end State
end Merge
end Pinfile
