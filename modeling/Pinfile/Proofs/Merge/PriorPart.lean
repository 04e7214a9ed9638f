import Pinfile.Proofs.Merge.Prior

/-!
# The part of a merge that existed before its layer

When a layer begins, every merged group has some number of entries. These numbers are recorded
(`State.lengths`), and the recorded number of entries at the front of each group is its *prior part*
(`State.priorPart`). Groups and entries are added while the layer is merged, so the recorded numbers
and the groups have to be kept in step: a pin is looked up in the prior part of its group, an override
rewrites the prior parts of all groups, and the index says which version stands first in them.

`State.Within` lists the points of a layer: before each of its groups, before each of their entries, and
where an override has replaced a version and is about to be placed. At every one of them the recorded
numbers are in range, the prior parts are what they were but for versions of pins, and the index agrees
with them (`KeepsPrior`, `keepsPrior_within`). Nothing is asked of the layers.
-/

namespace Pinfile.Merge

namespace State

/-! ## The points of a layer -/

/-- The states in which a merge stands while it merges the layer on top of what is merged `below`. An
override replaces the version in the groups and in the index in one step, so there is no point between
the two. -/
inductive Within (below : State) (layer : Manifest) : State → Prop
  /-- Some groups of the layer are merged, and the next one is about to be opened. -/
  | groups {done rest : List Group} : layer.groups = done ++ rest →
      Within below layer (done.foldl addGroup below.nextLayer)
  /-- A group is opened and some of its entries are merged. -/
  | entries {done rest : List Group} {g : Group} {seen todo : List Entry} :
      layer.groups = done ++ g :: rest → g.entries = seen ++ todo →
      Within below layer
        (seen.foldl (addEntry ((done.foldl addGroup below.nextLayer).openSlot g.name).2 g.name)
          ((done.foldl addGroup below.nextLayer).openSlot g.name).1)
  /-- A pin has replaced the version of its package, and is about to be placed. -/
  | replaced {s : State} {p : Pin} {f : InForce} : Within below layer s →
      (∃ g ∈ layer.groups, .pin p ∈ g.entries) → s.inForce? p.key = some f →
      f.version ≠ p.version → p.isOverride = true →
      Within below layer (s.retarget p.key p.version)

/-- A layer ends at one of its points. -/
theorem within_addLayer (below : State) (layer : Manifest) :
    below.Within layer (below.addLayer layer) := .groups (List.append_nil _).symm

/-- What holds when a layer begins, and is kept by every step, holds at all points of the layer. -/
theorem Within.of_steps {below s : State} {layer : Manifest} {P : State → Prop}
    (h : below.Within layer s) (start : P below.nextLayer)
    (openSlot : ∀ t name, P t → P (t.openSlot name).1)
    (addEntry : ∀ i group t e, P t → P (addEntry i group t e))
    (retarget : ∀ t key version, P t → P (t.retarget key version)) : P s := by
  have entries : ∀ i group (es : List Entry) t, P t → P (es.foldl (State.addEntry i group) t) :=
    fun i group es t ht => List.foldlRecOn es _ ht fun u hu e _ => addEntry i group u e hu
  have groups : ∀ gs : List Group, P (gs.foldl addGroup below.nextLayer) := fun gs =>
    List.foldlRecOn gs _ start fun t ht g _ => entries _ _ _ _ (openSlot t g.name ht)
  induction h with
  | groups _ => exact groups _
  | entries _ _ => exact entries _ _ _ _ (openSlot _ _ (groups _))
  | replaced _ _ _ _ _ ih => exact retarget _ _ _ ih

/-! ## Prior parts -/

/-- The number of entries of every merged group. -/
def lengths (s : State) : List Nat := s.slots.map fun slot => slot.entries.length

/-- The given number of entries at the front of each merged group, with the group's name. Groups
beyond the given numbers are new and have no such part. -/
def priorPart (lens : List Nat) (s : State) : List (String × List Entry) :=
  List.zipWith (fun slot len => (slot.name, slot.entries.take len)) s.slots lens

/-- The first pin of a package in some parts of groups, with the name of the group. -/
def firstPin? (key : String) (parts : List (String × List Entry)) : Option (String × Pin) :=
  (parts.flatMap fun part => (part.2.filterMap Entry.pin?).map fun p => (part.1, p)).find?
    (·.2.key == key)

/-- Parts of groups without the versions of their pins. -/
def shapes (parts : List (String × List Entry)) : List (String × List Entry) :=
  parts.map fun part => (part.1, part.2.map Entry.shape)

/-- The state `s` has kept what the layer found in the state `start` in which it began. -/
structure KeepsPrior (start s : State) : Prop where
  /-- There are at least as many groups as recorded lengths. -/
  enoughGroups : start.lengths.length ≤ s.slots.length
  /-- A group with a recorded length has at least as many entries. -/
  enoughEntries : ∀ (i len : Nat), start.lengths[i]? = some len →
    ∃ slot, s.slots[i]? = some slot ∧ len ≤ slot.entries.length
  /-- The entries that are looked up and rewritten as those of the layers below are the recorded
  number of entries at the front of the group, and none in a group without a recorded number. -/
  prior_eq_take : ∀ (i : Nat) (slot : Slot), s.slots[i]? = some slot →
    slot.prior = slot.entries.take (start.lengths[i]?.getD 0)
  /-- The prior parts are all that there was, but for versions of pins. -/
  shapes_eq : shapes (s.priorPart start.lengths) =
    start.slots.map fun slot => (slot.name, slot.entries.map Entry.shape)
  /-- What is in force for a package is the version of its first pin in the prior parts. -/
  inForce?_eq : ∀ key, s.inForce? key =
    (firstPin? key (s.priorPart start.lengths)).map fun owned => ⟨key, owned.1, owned.2.version⟩

/-! ## New groups -/

/-- The groups that were not there in the state `start` have nothing from the layers below. -/
def BeginsEmpty (start s : State) : Prop :=
  ∀ (i : Nat) (slot : Slot), start.slots.length ≤ i → s.slots[i]? = some slot → slot.prior = []

namespace BeginsEmpty

variable {start s : State}

theorem modifySlot (h : start.BeginsEmpty s) (i : Nat) {f : Slot → Slot}
    (hf : ∀ slot : Slot, slot.prior = [] → (f slot).prior = []) :
    start.BeginsEmpty (s.modifySlot i f) := by
  intro j slot hj hslot
  rw [getElem?_modifySlot] at hslot
  obtain ⟨before, hbefore, rfl⟩ := Option.map_eq_some_iff.mp hslot
  have hprior := h j before hj hbefore
  split
  · exact hf before hprior
  · exact hprior

theorem place (h : start.BeginsEmpty s) (i : Nat) (p : Pin) : start.BeginsEmpty (s.place i p) := by
  refine h.modifySlot i fun slot hslot => ?_
  split <;> exact hslot

theorem retarget (h : start.BeginsEmpty s) (key version : String) :
    start.BeginsEmpty (s.retarget key version) := by
  intro i slot hi hslot
  rw [slots_retarget, List.getElem?_map] at hslot
  obtain ⟨before, hbefore, rfl⟩ := Option.map_eq_some_iff.mp hslot
  rw [Slot.retarget, h i before hi hbefore]
  rfl

theorem addEntry (h : start.BeginsEmpty s) (i : Nat) (group : String) (e : Entry) :
    start.BeginsEmpty (s.addEntry i group e) := by
  cases e with
  | pin p =>
    change start.BeginsEmpty (s.addPin i group p)
    rcases s.addPin_cases i group p with ⟨-, hs⟩ | ⟨f, -, -, -, hs⟩ | ⟨f, -, -, -, hs⟩
    · rw [hs]
      exact h.place i p
    · rw [hs]
      exact (h.retarget p.key p.version).place i p
    · rw [hs]
      exact h
  | editable m =>
    change start.BeginsEmpty (s.addMarker i m)
    unfold addMarker
    split
    · exact h
    · exact h.modifySlot i fun slot hslot => hslot

theorem openSlot (h : start.BeginsEmpty s) (name : String) :
    start.BeginsEmpty (s.openSlot name).1 := by
  unfold State.openSlot
  split
  · exact h
  · intro i slot hi hslot
    rw [List.getElem?_append] at hslot
    split at hslot
    · exact h i slot hi hslot
    · rw [List.mem_singleton.mp (List.mem_of_getElem? hslot)]

end BeginsEmpty

/-! ## At every point -/

variable {below s : State} {layer : Manifest}

theorem grows_of_within (h : below.Within layer s) : below.nextLayer.Grows s :=
  h.of_steps (.refl _) (fun t name ht => ht.trans (t.grows_openSlot name))
    (fun i group t e ht => ht.trans (grows_addEntry i group t e))
    fun t key version ht => ht.trans (t.grows_retarget key version)

theorem indexed_of_within (h : below.Within layer s) : s.Indexed :=
  h.of_steps below.indexed_nextLayer (fun _ name ht => ht.openSlot name)
    (fun i group _ e ht => ht.addEntry i group e) fun _ key version ht => ht.retarget key version

theorem beginsEmpty_of_within (h : below.Within layer s) : below.nextLayer.BeginsEmpty s := by
  refine h.of_steps ?_ (fun _ name ht => ht.openSlot name)
    (fun i group _ e ht => ht.addEntry i group e) fun _ key version ht => ht.retarget key version
  intro i slot hi hslot
  rw [List.getElem?_eq_none hi] at hslot
  cases hslot

/-- When a layer begins, all that there is comes from the layers below. -/
theorem prior_nextLayer {i : Nat} {slot : Slot} (h : below.nextLayer.slots[i]? = some slot) :
    slot.prior = slot.entries := by
  obtain ⟨before, -, rfl⟩ := List.mem_map.mp (List.mem_of_getElem? h)
  exact (List.append_nil _).symm

/-- A group that there was has kept what it had, and its prior part is that. -/
theorem exists_later_of_within (h : below.Within layer s) {i : Nat} {slot : Slot}
    (hslot : below.nextLayer.slots[i]? = some slot) :
    ∃ later, s.slots[i]? = some later ∧ later.name = slot.name ∧
      later.prior.map Entry.shape = slot.entries.map Entry.shape ∧
      later.entries.take slot.entries.length = later.prior := by
  obtain ⟨later, hlater, hgrows⟩ := grows_of_within h i slot hslot
  have hshape := hgrows.prior
  rw [prior_nextLayer hslot] at hshape
  have hlength : slot.entries.length = later.prior.length := by
    simpa using (congrArg List.length hshape).symm
  exact ⟨later, hlater, hgrows.name, hshape, by rw [hlength, Slot.entries, List.take_left]⟩

/-- The prior parts are the parts that are kept apart as those of the layers below. -/
theorem priorPart_of_within (h : below.Within layer s) :
    s.priorPart below.nextLayer.lengths =
      (s.slots.take below.nextLayer.slots.length).map fun slot => (slot.name, slot.prior) := by
  apply List.ext_getElem?
  intro i
  rw [priorPart, List.getElem?_zipWith, lengths, List.getElem?_map, List.getElem?_map,
    List.getElem?_take]
  cases hslot : below.nextLayer.slots[i]? with
  | none =>
    have hi := List.getElem?_eq_none_iff.mp hslot
    rw [if_neg (by omega)]
    cases s.slots[i]? <;> rfl
  | some slot =>
    obtain ⟨hi, -⟩ := List.getElem?_eq_some_iff.mp hslot
    obtain ⟨later, hlater, -, -, htake⟩ := exists_later_of_within h hslot
    simp [if_pos hi, hlater, htake]

/-- The pins of the layers below are those of the prior parts. -/
theorem priorPins_of_within (h : below.Within layer s) :
    s.priorPins = (s.priorPart below.nextLayer.lengths).flatMap fun part =>
      (part.2.filterMap Entry.pin?).map fun p => (part.1, p) := by
  have hnew : (s.slots.drop below.nextLayer.slots.length).flatMap Slot.priorPins = [] := by
    rw [List.flatMap_eq_nil_iff]
    intro slot hslot
    obtain ⟨i, hi⟩ := List.mem_iff_getElem?.mp hslot
    rw [List.getElem?_drop] at hi
    rw [Slot.priorPins, beginsEmpty_of_within h _ slot (Nat.le_add_right _ _) hi]
    rfl
  rw [priorPart_of_within h, List.flatMap_map, priorPins,
    ← List.take_append_drop below.nextLayer.slots.length s.slots, List.flatMap_append, hnew,
    List.append_nil, List.take_append_drop]
  rfl

theorem length_slots_of_within (h : below.Within layer s) :
    below.nextLayer.slots.length ≤ s.slots.length := by
  by_contra hlt
  obtain ⟨later, hlater, -⟩ := exists_later_of_within h
    (List.getElem?_eq_getElem (show s.slots.length < below.nextLayer.slots.length by omega))
  rw [List.getElem?_eq_none (Nat.le_refl _)] at hlater
  cases hlater

theorem length_entries_of_within (h : below.Within layer s) {i len : Nat}
    (hlen : below.nextLayer.lengths[i]? = some len) :
    ∃ slot, s.slots[i]? = some slot ∧ len ≤ slot.entries.length := by
  rw [lengths, List.getElem?_map] at hlen
  obtain ⟨slot, hslot, rfl⟩ := Option.map_eq_some_iff.mp hlen
  obtain ⟨later, hlater, -, hshape, -⟩ := exists_later_of_within h hslot
  have hlength : later.prior.length = slot.entries.length := by
    simpa using congrArg List.length hshape
  refine ⟨later, hlater, ?_⟩
  rw [← hlength, Slot.entries, List.length_append]
  exact Nat.le_add_right _ _

theorem prior_of_within (h : below.Within layer s) {i : Nat} {later : Slot}
    (hlater : s.slots[i]? = some later) :
    later.prior = later.entries.take (below.nextLayer.lengths[i]?.getD 0) := by
  rw [lengths, List.getElem?_map]
  cases hslot : below.nextLayer.slots[i]? with
  | none =>
    rw [beginsEmpty_of_within h i later (List.getElem?_eq_none_iff.mp hslot) hlater]
    rfl
  | some slot =>
    obtain ⟨later', hlater', -, -, htake⟩ := exists_later_of_within h hslot
    obtain rfl := Option.some.inj (hlater.symm.trans hlater')
    exact htake.symm

theorem shapes_of_within (h : below.Within layer s) :
    shapes (s.priorPart below.nextLayer.lengths) =
      below.nextLayer.slots.map fun slot => (slot.name, slot.entries.map Entry.shape) := by
  rw [priorPart_of_within h, shapes, List.map_map]
  apply List.ext_getElem?
  intro i
  rw [List.getElem?_map, List.getElem?_map, List.getElem?_take]
  cases hslot : below.nextLayer.slots[i]? with
  | none =>
    have hi := List.getElem?_eq_none_iff.mp hslot
    rw [if_neg (by omega)]
    rfl
  | some slot =>
    obtain ⟨hi, -⟩ := List.getElem?_eq_some_iff.mp hslot
    obtain ⟨later, hlater, hname, hshape, -⟩ := exists_later_of_within h hslot
    simp [if_pos hi, hlater, hname, hshape]

theorem inForce?_of_within (h : below.Within layer s) (key : String) :
    s.inForce? key = (firstPin? key (s.priorPart below.nextLayer.lengths)).map fun owned =>
      ⟨key, owned.1, owned.2.version⟩ := by
  rw [indexed_of_within h key, firstPrior?, firstPin?, priorPins_of_within h]
  cases hfind : List.find? _ _ with
  | none => rfl
  | some owned =>
    have hkey : owned.2.key = key := by simpa using List.find?_some hfind
    rw [Option.map_some, Option.map_some, hkey]

end State

/-- While any manifests are merged, at every point of every layer, the part that existed before the
layer keeps its groups and entries with all but versions of pins, the recorded lengths are in range,
and the version in force for a package is that of its first pin there. -/
theorem keepsPrior_within (lower : List Manifest) (layer : Manifest) {s : State}
    (h : (State.ofLayers lower).Within layer s) :
    (State.ofLayers lower).nextLayer.KeepsPrior s where
  enoughGroups := by
    rw [State.lengths, List.length_map]
    exact State.length_slots_of_within h
  enoughEntries _ _ hlen := State.length_entries_of_within h hlen
  prior_eq_take _ _ hslot := State.prior_of_within h hslot
  shapes_eq := State.shapes_of_within h
  inForce?_eq := State.inForce?_of_within h

/-- A package and a marker in one group, and the package again in another. -/
def paired : Manifest :=
  .ofGroups [
    { name := "Lint", entries := [.pin ⟨⟨"Ruff"⟩, "0.8.1", false, 2⟩, .editable ⟨".", ["full"], 3⟩] },
    { name := "Docs", entries := [.pin ⟨⟨"ruff"⟩, "0.8.1", false, 6⟩] }]

/-- A group that gives the package another version twice. -/
def raising : Group :=
  { name := "Test", entries := [.pin ⟨⟨"RUFF"⟩, "0.8.2", true, 2⟩, .pin ⟨⟨"ruff"⟩, "0.9.0", true, 3⟩] }

/-- A group that adds a package and asks for the old version of the other. -/
def lagging : Group :=
  { name := "LINT", entries := [.pin ⟨⟨"trio"⟩, "0.27.0", false, 6⟩, .pin ⟨⟨"ruff"⟩, "0.8.1", false, 7⟩] }

theorem keepsPrior_before_conflict :
    ∃ s, (State.ofLayers [paired]).Within ⟨[raising, lagging]⟩ s ∧
      (State.ofLayers [paired]).nextLayer.KeepsPrior s ∧
      s.inForce? "ruff" = some ⟨"ruff", "Lint", "0.9.0"⟩ ∧ s.lengths = [3, 1, 2] := by
  have hgroups : [raising, lagging] = [raising] ++ lagging :: [] := rfl
  have hentries : lagging.entries = lagging.entries.take 1 ++ lagging.entries.drop 1 := rfl
  have hwithin : (State.ofLayers [paired]).Within ⟨[raising, lagging]⟩ _ := .entries hgroups hentries
  exact ⟨_, hwithin, keepsPrior_within [paired] _ hwithin, by decide +kernel, by decide +kernel⟩

end Pinfile.Merge
