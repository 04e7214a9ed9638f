import Pinfile.Proofs.Merge.Walk

/-!
# What merging a layer does to the merged groups

`LayerRun base names seen s` says where a merge stands inside a layer: it began the layer in the
state `base`, has opened the groups with the given names and has walked along the pins `seen`. What
the layers below have left keeps its entries in order, with the versions of the replaced packages
rewritten; what the layer itself has added are its accepted pins, except for the packages that the
layers below had already put into the group; and what is in force, and which conflicts have been
found, is what the walk along `seen` says.

One step keeps this (`LayerRun.openSlot`, `LayerRun.addPin`, `LayerRun.addMarker`), so it holds at
the end of every layer, whatever pins the layer holds (`layerRun_addLayer`).
-/

namespace Pinfile.Merge

/-! ## Entries and slots -/

@[simp] theorem withVersion_withVersion (p : Pin) (v w : String) :
    (p.withVersion v).withVersion w = p.withVersion w := rfl

/-- The entry after its package's version was replaced, once for each of the given pins. -/
def retargetAll (pins : List (Group × Pin)) (e : Entry) : Entry :=
  pins.foldl (fun e a => e.retarget a.2.key a.2.version) e

theorem retargetAll_append_singleton (pins : List (Group × Pin)) (a : Group × Pin) (e : Entry) :
    retargetAll (pins ++ [a]) e = (retargetAll pins e).retarget a.2.key a.2.version := by
  simp [retargetAll]

@[simp] theorem retargetAll_editable (pins : List (Group × Pin)) (m : Marker) :
    retargetAll pins (.editable m) = .editable m := by
  induction pins using List.reverseRecOn with
  | nil => rfl
  | append_singleton pins a ih =>
    rw [retargetAll_append_singleton, ih]
    rfl

/-- A pin takes the last of the versions that its package was given. -/
@[simp] theorem retargetAll_pin (pins : List (Group × Pin)) (p : Pin) :
    retargetAll pins (.pin p) =
      .pin (withLast pins p) := by
  induction pins using List.reverseRecOn with
  | nil => rfl
  | append_singleton pins a ih =>
    rw [retargetAll_append_singleton, ih, withLast, withLast, lastVersion?_append,
      lastVersion?_singleton]
    by_cases hk : a.2.key = p.key
    · simp [Entry.retarget, hk]
    · simp [Entry.retarget, hk, Ne.symm hk]

@[simp] theorem pin?_retargetAll (pins : List (Group × Pin)) (e : Entry) :
    (retargetAll pins e).pin? = e.pin?.map (withLast pins) := by
  cases e <;> simp [Entry.pin?]

namespace Slot

/-- The pins of a merged group in order. -/
def pins (s : Slot) : List Pin := s.entries.filterMap Entry.pin?

@[simp] theorem key_retarget (key version : String) (s : Slot) :
    (s.retarget key version).key = s.key := rfl

@[simp] theorem key_push (s : Slot) (e : Entry) : (s.push e).key = s.key := rfl

@[simp] theorem hasPrior_push (s : Slot) (e : Entry) (k : String) :
    (s.push e).hasPrior k = s.hasPrior k := rfl

@[simp] theorem key_ofGroup (g : Group) : (ofGroup g).key = g.key := rfl

@[simp] theorem pins_ofGroup (g : Group) : (ofGroup g).pins = g.pins := by
  simp [pins, entries, ofGroup, Group.pins]

@[simp] theorem key_settle (s : Slot) : s.settle.key = s.key := rfl

/-- The slot after a pin for the group of the given key was placed. -/
def receive (group : String) (p : Pin) (s : Slot) : Slot :=
  if s.key = group ∧ s.hasPrior p.key = false then s.push (.pin p) else s

@[simp] theorem name_receive (group : String) (p : Pin) (s : Slot) :
    (s.receive group p).name = s.name := by
  unfold receive
  split <;> rfl

/-- The layers below have put a package into a group when one of their pins there is of it. -/
theorem hasPrior_eq_any (s : Slot) (k : String) :
    s.hasPrior k = (s.prior.filterMap Entry.pin?).any (·.key == k) := by
  rw [hasPrior, List.any_filterMap]
  congr 1
  funext e
  cases e <;> rfl

end Slot

/-! ## One step of the state -/

namespace State

/-- What merging a pin does: the pin is placed as it is, or replaces the version of its package, or
is reported. -/
theorem addPin_cases (s : State) (i : Nat) (group : String) (p : Pin) :
    ((∀ f ∈ s.inForce? p.key, f.version = p.version) ∧ s.addPin i group p = s.place i p) ∨
    (∃ f, s.inForce? p.key = some f ∧ f.version ≠ p.version ∧ p.isOverride = true ∧
      s.addPin i group p = (s.retarget p.key p.version).place i p) ∨
    (∃ f, s.inForce? p.key = some f ∧ f.version ≠ p.version ∧ p.isOverride = false ∧
      s.addPin i group p = s.report (conflict f group p)) := by
  unfold addPin
  cases h : s.inForce? p.key with
  | none => exact Or.inl ⟨by simp, rfl⟩
  | some f =>
    by_cases hv : f.version = p.version
    · exact Or.inl ⟨by simpa using hv, by simp [hv]⟩
    · by_cases ho : p.isOverride = true
      · exact Or.inr (Or.inl ⟨f, rfl, hv, ho, by simp [hv, ho]⟩)
      · exact Or.inr (Or.inr ⟨f, rfl, hv, by simpa using ho, by simp [hv, ho]⟩)

@[simp] theorem inForce?_place (s : State) (i : Nat) (p : Pin) (key : String) :
    (s.place i p).inForce? key = s.inForce? key := rfl

@[simp] theorem inForce?_report (s : State) (problem : Problem) (key : String) :
    (s.report problem).inForce? key = s.inForce? key := rfl

@[simp] theorem slots_retarget (s : State) (key version : String) :
    (s.retarget key version).slots = s.slots.map (Slot.retarget key version) := rfl

@[simp] theorem problems_retarget (s : State) (key version : String) :
    (s.retarget key version).problems = s.problems := rfl

theorem getElem?_modifySlot (s : State) (i : Nat) (f : Slot → Slot) (j : Nat) :
    (s.modifySlot i f).slots[j]? = s.slots[j]?.map fun slot => if i = j then f slot else slot :=
  List.getElem?_modify f i s.slots j

theorem getElem?_modifySlot_self {s : State} {i : Nat} {slot : Slot}
    (h : s.slots[i]? = some slot) (f : Slot → Slot) :
    (s.modifySlot i f).slots[i]? = some (f slot) := by
  rw [getElem?_modifySlot, h, Option.map_some, if_pos rfl]

/-- Only the group at the position counts. -/
theorem modifySlot_congr {s : State} {i : Nat} {f g : Slot → Slot}
    (h : ∀ slot, s.slots[i]? = some slot → f slot = g slot) :
    s.modifySlot i f = s.modifySlot i g := by
  have hslots : (s.modifySlot i f).slots = (s.modifySlot i g).slots := by
    apply List.ext_getElem?
    intro j
    rw [getElem?_modifySlot, getElem?_modifySlot]
    apply Option.map_congr
    intro slot hslot
    split
    · next hij => rw [h slot (hij ▸ hslot)]
    · rfl
  exact congrArg (fun slots => { s with slots }) hslots

theorem modifySlot_eq_self {s : State} {i : Nat} {f : Slot → Slot}
    (h : ∀ slot, s.slots[i]? = some slot → f slot = slot) : s.modifySlot i f = s := by
  have hid : s.modifySlot i id = s := by
    rw [modifySlot, List.modify_id]
  rw [modifySlot_congr h]
  exact hid

/-- Replacing a version puts it in force for its package and leaves the others alone. -/
theorem inForce?_retarget (s : State) (k version key : String) :
    (s.retarget k version).inForce? key =
      if k = key then (s.inForce? key).map fun f => { f with version } else s.inForce? key := by
  -- the keys stay, so what is found for a key stands at the same place before and after
  have hkey : ∀ f : InForce, (if f.key = k then { f with version } else f).key = f.key := by
    intro f
    split <;> rfl
  have hfind : (s.retarget k version).inForce? key =
      (s.inForce? key).map fun f => if f.key = k then { f with version } else f := by
    rw [inForce?, retarget, List.find?_map]
    simp only [Function.comp_def, hkey]
    rfl
  rw [hfind]
  cases h : s.inForce? key with
  | none => simp
  | some f =>
    have hf : f.key = key := by simpa using List.find?_some h
    by_cases hk : k = key
    · simp [hk, hf]
    · simp [hk, hf, Ne.symm hk]

/-- Placing a pin adds it to the slot of its group, unless the layers below have its package
there. -/
theorem slots_place {s : State} (hd : s.slots.Pairwise fun a b => a.key ≠ b.key) {i : Nat}
    {slot : Slot} (hi : s.slots[i]? = some slot) (p : Pin) :
    (s.place i p).slots = s.slots.map (Slot.receive slot.key p) := by
  rw [place, modifySlot, modify_of_pairwise hd hi]
  apply List.map_congr_left
  intro t _
  by_cases ht : t.key = slot.key <;> by_cases hp : t.hasPrior p.key = true <;>
    simp [Slot.receive, ht, hp]

/-- What the layers below have left in the group of the given key. -/
def priorOf (s : State) (key : String) : List Entry :=
  ((s.slots.find? (·.key == key)).map Slot.prior).getD []

end State

/-! ## The invariant -/

/-- What a merged group holds inside a layer: the entries `left` by the layers below after the
versions of the pins `moved` were given to their packages, and of the pins `taken` those of its own
whose packages are new to it. -/
structure Slot.Holds (left : List Entry) (moved taken : List (Group × Pin)) (slot : Slot) : Prop where
  prior : slot.prior = left.map (retargetAll moved)
  added : slot.added.filterMap Entry.pin? =
    (pinsIn slot.key taken).filter fun p => !slot.hasPrior p.key

/-- Where a merge stands inside a layer that it began in the state `base`, after the groups with the
given names were opened and the pins `seen` were merged. -/
structure LayerRun (base : State) (names : List String) (seen : List (Group × Pin)) (s : State) :
    Prop where
  /-- The groups of the layers below and the new ones, each spelled as it was first. -/
  slotNames : s.slots.map Slot.name = firsts Text.lowercase (base.slots.map Slot.name ++ names)
  /-- Every pin walked along stands in a group that was opened. -/
  opened : ∀ a ∈ seen, a.1.name ∈ names
  /-- The groups hold what the layers below have left and what the layer has added. -/
  holds : ∀ slot ∈ s.slots, slot.Holds (base.priorOf slot.key) (replacing base.inForce? seen)
    (accepted base.inForce? seen)
  /-- What is in force is what the walk says. -/
  inForce : ∀ key, s.inForce? key = inForceAfter base.inForce? seen key
  /-- The conflicts found are those that the walk finds. -/
  problems : s.problems = base.problems ++ refusals base.inForce? seen

namespace Slot.Holds

variable {left : List Entry} {moved taken : List (Group × Pin)} {slot : Slot}

/-- Replacing a version rewrites what the layers below have left. -/
theorem retarget (h : slot.Holds left moved taken) (a : Group × Pin) :
    (slot.retarget a.2.key a.2.version).Holds left (moved ++ [a]) taken where
  prior := by
    rw [Slot.retarget, h.prior, List.map_map]
    apply List.map_congr_left
    intro e _
    rw [retargetAll_append_singleton, Function.comp_apply]
  added := by
    simp only [hasPrior_retarget, added_retarget, key_retarget]
    exact h.added

/-- Placing a pin adds it to its group if its package is new there. -/
theorem receive (h : slot.Holds left moved taken) (a : Group × Pin) :
    (slot.receive a.1.key a.2).Holds left moved (taken ++ [a]) := by
  unfold Slot.receive
  split
  · next hnew =>
    obtain ⟨hkey, hprior⟩ := hnew
    refine ⟨h.prior, ?_⟩
    simp only [hasPrior_push, key_push, pinsIn_append, List.filter_append]
    rw [← h.added, pinsIn_singleton, if_pos hkey.symm]
    simp [Slot.push, Entry.pin?, hprior]
  · next hold =>
    refine ⟨h.prior, ?_⟩
    rw [h.added, pinsIn_append, List.filter_append, pinsIn_singleton]
    by_cases hkey : a.1.key = slot.key
    · have hprior : slot.hasPrior a.2.key = true := by
        simpa [hkey] using hold
      simp [hkey, hprior]
    · simp [hkey]

/-- A marker changes nothing about the pins. -/
theorem pushMarker (h : slot.Holds left moved taken) (m : Marker) :
    (slot.push (.editable m)).Holds left moved taken where
  prior := h.prior
  added := by
    simp only [hasPrior_push, key_push]
    rw [← h.added]
    simp [Slot.push, Entry.pin?]

end Slot.Holds

/-- Slots whose names are the firsts of some names have different keys. -/
theorem slots_pairwise_of_firsts {slots : List Slot} {names : List String}
    (h : slots.map Slot.name = firsts Text.lowercase names) :
    slots.Pairwise fun a b => a.key ≠ b.key := by
  have hp : (slots.map Slot.name).Pairwise fun a b => Text.lowercase a ≠ Text.lowercase b := by
    rw [h]
    exact firsts_pairwise names
  rw [List.pairwise_map] at hp
  exact hp

namespace LayerRun

variable {base s : State} {names : List String} {seen : List (Group × Pin)}

theorem distinct (h : LayerRun base names seen s) :
    s.slots.Pairwise fun a b => a.key ≠ b.key :=
  slots_pairwise_of_firsts h.slotNames

/-- Before its first group, a layer has done nothing. -/
theorem start (base : State) (hd : base.slots.Pairwise fun a b => a.key ≠ b.key)
    (hadded : ∀ slot ∈ base.slots, slot.added = []) : LayerRun base [] [] base where
  slotNames := by
    rw [List.append_nil, firsts_eq_self]
    exact List.pairwise_map.mpr hd
  opened := by simp
  holds slot hslot := by
    refine ⟨?_, by simp [hadded slot hslot]⟩
    rw [State.priorOf, find?_of_pairwise hd hslot, replacing_nil]
    exact (List.map_id' slot.prior).symm
  inForce key := by simp
  problems := by simp

/-- A name is that of an opened group when a slot has its key. -/
theorem any_slot (h : LayerRun base names seen s) (name : String) :
    (s.slots.any fun slot => slot.key == Text.lowercase name) =
      (base.slots.map Slot.name ++ names).any
        fun n => Text.lowercase n == Text.lowercase name := by
  calc (s.slots.any fun slot => slot.key == Text.lowercase name)
      = (s.slots.map Slot.name).any fun n => Text.lowercase n == Text.lowercase name := by
        rw [List.any_map]
        rfl
    _ = (firsts Text.lowercase (base.slots.map Slot.name ++ names)).any
          fun n => Text.lowercase n == Text.lowercase name := by rw [h.slotNames]
    _ = _ := any_firsts _ _

theorem opened_append (h : LayerRun base names seen s) (name : String) :
    ∀ a ∈ seen, a.1.name ∈ names ++ [name] := by
  intro a ha
  exact List.mem_append_left _ (h.opened a ha)

/-- A group with a name that was met before goes on in its slot. -/
theorem openKnown (h : LayerRun base names seen s) {name : String}
    (hany : (s.slots.any fun slot => slot.key == Text.lowercase name) = true) :
    LayerRun base (names ++ [name]) seen s := by
  refine { h with slotNames := ?_, opened := h.opened_append name }
  rw [← List.append_assoc, firsts_append_singleton, ← h.any_slot, if_pos hany]
  exact h.slotNames

/-- A group with a new name begins an empty slot, and nothing of the layer went there before. -/
theorem openNew (h : LayerRun base names seen s) {name : String}
    (hany : ¬ (s.slots.any fun slot => slot.key == Text.lowercase name) = true) :
    LayerRun base (names ++ [name]) seen { s with slots := s.slots ++ [{ name }] } := by
  -- neither the layers below nor the groups opened before have the new key
  have hnew : ∀ n ∈ base.slots.map Slot.name ++ names, Text.lowercase n ≠ Text.lowercase name := by
    intro n hn hkey
    apply hany
    rw [h.any_slot]
    exact List.any_eq_true.mpr ⟨n, hn, by simp [hkey]⟩
  have hbelow : base.priorOf (Text.lowercase name) = [] := by
    have hfind : base.slots.find? (·.key == Text.lowercase name) = none := by
      rw [List.find?_eq_none]
      intro slot hslot
      have hne := hnew slot.name (List.mem_append_left _ (List.mem_map_of_mem hslot))
      simpa [Slot.key] using hne
    rw [State.priorOf, hfind]
    rfl
  have hpins : pinsIn (Text.lowercase name) (accepted base.inForce? seen) = [] := by
    apply List.eq_nil_iff_forall_not_mem.mpr
    intro p hp
    obtain ⟨a, ha, hkey, -⟩ := mem_pinsIn_iff.mp hp
    have hmem := h.opened a ((accepted_sublist seen).mem ha)
    exact hnew a.1.name (List.mem_append_right _ hmem) hkey
  refine ⟨?_, h.opened_append name, ?_, h.inForce, h.problems⟩
  · rw [← List.append_assoc, firsts_append_singleton, ← h.any_slot, if_neg hany, ← h.slotNames]
    simp
  · intro slot hslot
    rcases List.mem_append.mp hslot with hslot | hslot
    · exact h.holds slot hslot
    · obtain rfl := List.mem_singleton.mp hslot
      refine ⟨?_, ?_⟩
      · show [] = (base.priorOf (Text.lowercase name)).map _
        rw [hbelow]
        rfl
      · show [] = (pinsIn (Text.lowercase name) (accepted base.inForce? seen)).filter _
        rw [hpins]
        rfl

/-- Opening a group, the slot of its key is the one that the pins of the group go to, and what was
merged before stays as it was. -/
theorem openSlot (h : LayerRun base names seen s) (name : String) :
    LayerRun base (names ++ [name]) seen (s.openSlot name).1 ∧
      ∃ slot, (s.openSlot name).1.slots[(s.openSlot name).2]? = some slot ∧
        slot.key = Text.lowercase name := by
  unfold State.openSlot
  split
  · next i hi =>
    obtain ⟨hlt, hkey, -⟩ := List.findIdx?_eq_some_iff_getElem.mp hi
    have hany : (s.slots.any fun slot => slot.key == Text.lowercase name) = true :=
      List.any_eq_true.mpr ⟨s.slots[i], List.getElem_mem hlt, hkey⟩
    refine ⟨h.openKnown hany, s.slots[i], List.getElem?_eq_getElem hlt, ?_⟩
    simpa using hkey
  · next hnone =>
    rw [List.findIdx?_eq_none_iff] at hnone
    have hany : ¬ (s.slots.any fun slot => slot.key == Text.lowercase name) = true := by
      simpa using hnone
    exact ⟨h.openNew hany, { name }, by simp, rfl⟩

/-- Changing the slots, but neither their names nor the walk, keeps the invariant as long as each
slot holds what it should. -/
theorem map_slots (h : LayerRun base names seen s) {s' : State} {seen' : List (Group × Pin)}
    {f : Slot → Slot} (hslots : s'.slots = s.slots.map f) (hname : ∀ slot, (f slot).name = slot.name)
    (hopened : ∀ a ∈ seen', a.1.name ∈ names)
    (hholds : ∀ slot ∈ s.slots, (f slot).Holds (base.priorOf slot.key)
      (replacing base.inForce? seen') (accepted base.inForce? seen'))
    (hinForce : ∀ key, s'.inForce? key = inForceAfter base.inForce? seen' key)
    (hproblems : s'.problems = base.problems ++ refusals base.inForce? seen') :
    LayerRun base names seen' s' := by
  refine ⟨?_, hopened, ?_, hinForce, hproblems⟩
  · rw [hslots, List.map_map, ← h.slotNames]
    exact List.map_congr_left fun slot _ => hname slot
  · intro slot hslot
    rw [hslots] at hslot
    obtain ⟨t, ht, rfl⟩ := List.mem_map.mp hslot
    rw [Slot.key, hname]
    exact hholds t ht

/-- Merging a marker changes nothing about the pins. -/
theorem addMarker (h : LayerRun base names seen s) {i : Nat} {slot : Slot}
    (hi : s.slots[i]? = some slot) (m : Marker) : LayerRun base names seen (s.addMarker i m) := by
  unfold State.addMarker
  split
  · exact h
  · refine h.map_slots (modify_of_pairwise h.distinct hi _) ?_ h.opened ?_ h.inForce h.problems
    · intro t
      split <;> rfl
    · intro t ht
      split
      · exact (h.holds t ht).pushMarker m
      · exact h.holds t ht

/-- Merging a pin into the slot of its group is one more step of the walk. -/
theorem addPin (h : LayerRun base names seen s) {i : Nat} {slot : Slot} {g : Group}
    (hi : s.slots[i]? = some slot) (hkey : slot.key = g.key) (hg : g.name ∈ names) (p : Pin) :
    LayerRun base names (seen ++ [(g, p)]) (s.addPin i g.name p) := by
  have hopened : ∀ a ∈ seen ++ [(g, p)], a.1.name ∈ names := by
    intro a ha
    rcases List.mem_append.mp ha with ha | ha
    · exact h.opened a ha
    · obtain rfl := List.mem_singleton.mp ha
      exact hg
  rcases s.addPin_cases i g.name p with ⟨hstay, hs⟩ | ⟨f, hf, hv, ho, hs⟩ | ⟨f, hf, hv, ho, hs⟩
  · -- the pin agrees with what is in force
    rw [h.inForce] at hstay
    obtain ⟨hacc, hrep, href, hin⟩ := walk_agree (a := (g, p)) hstay
    rw [hs]
    refine h.map_slots (State.slots_place h.distinct hi p) (Slot.name_receive _ p) hopened ?_ ?_ ?_
    · intro t ht
      rw [hacc, hrep, hkey]
      exact (h.holds t ht).receive (g, p)
    · intro key
      rw [hin, State.inForce?_place, h.inForce]
    · rw [href, State.problems_place, h.problems]
  · -- the pin replaces the version in force
    rw [h.inForce] at hf
    obtain ⟨hacc, hrep, href, hin⟩ := walk_replace (a := (g, p)) hf hv ho
    have hdistinct : (s.retarget p.key p.version).slots.Pairwise fun a b => a.key ≠ b.key :=
      List.pairwise_map.mpr h.distinct
    have hslot : (s.retarget p.key p.version).slots[i]? = some (slot.retarget p.key p.version) := by
      rw [State.slots_retarget, List.getElem?_map, hi]
      rfl
    have hslots := State.slots_place hdistinct hslot p
    rw [State.slots_retarget, List.map_map] at hslots
    rw [hs]
    refine h.map_slots hslots (fun t => ?_) hopened ?_ ?_ ?_
    · rw [Function.comp_apply, Slot.name_receive, Slot.name_retarget]
    · intro t ht
      rw [hacc, hrep, Slot.key_retarget, hkey]
      exact ((h.holds t ht).retarget (g, p)).receive (g, p)
    · intro key
      rw [hin, State.inForce?_place, State.inForce?_retarget, h.inForce]
    · rw [href, State.problems_place, State.problems_retarget, h.problems]
  · -- the pin is refused
    rw [h.inForce] at hf
    obtain ⟨hacc, hrep, href, hin⟩ := walk_refuse (a := (g, p)) hf hv ho
    rw [hs]
    refine h.map_slots (f := id) (List.map_id _).symm (fun _ => rfl) hopened ?_ ?_ ?_
    · intro t ht
      rw [hacc, hrep]
      exact h.holds t ht
    · intro key
      rw [hin, State.inForce?_report, h.inForce]
    · rw [href, State.report, h.problems, List.append_assoc]
      rfl

/-- Merging the entries of a group walks along its pins. -/
theorem addEntries (h : LayerRun base names seen s) {i : Nat} {slot : Slot} {g : Group}
    (hi : s.slots[i]? = some slot) (hkey : slot.key = g.key) (hg : g.name ∈ names)
    (es : List Entry) :
    LayerRun base names (seen ++ (es.filterMap Entry.pin?).map fun p => (g, p))
      (es.foldl (State.addEntry i g.name) s) := by
  -- on the entries: each step is one of the walk, from the state that the entries before have left
  induction es generalizing s seen slot with
  | nil => simpa using h
  | cons e es ih =>
    -- the slot at the position keeps its key, because the names of the slots stay
    have hstep : ∀ {seen' s'}, LayerRun base names seen' s' →
        ∃ t, s'.slots[i]? = some t ∧ t.key = g.key := by
      intro seen' s' h'
      have hnames : s'.slots.map Slot.name = s.slots.map Slot.name := by
        rw [h'.slotNames, h.slotNames]
      have hat := congrArg (·[i]?) hnames
      simp only [List.getElem?_map, hi, Option.map_some] at hat
      obtain ⟨t, ht, hname⟩ := Option.map_eq_some_iff.mp hat
      exact ⟨t, ht, by rw [Slot.key, hname, ← hkey, Slot.key]⟩
    cases e with
    | pin p =>
      have h' := h.addPin hi hkey hg p
      obtain ⟨t, ht, htkey⟩ := hstep h'
      have hrest := ih h' ht htkey
      rw [List.append_assoc] at hrest
      exact hrest
    | editable m =>
      have h' := h.addMarker hi m
      obtain ⟨t, ht, htkey⟩ := hstep h'
      exact ih h' ht htkey

/-- Merging a group opens it and walks along its pins. -/
theorem addGroup (h : LayerRun base names seen s) (g : Group) :
    LayerRun base (names ++ [g.name]) (seen ++ g.pins.map fun p => (g, p)) (s.addGroup g) := by
  obtain ⟨hopen, slot, hslot, hkey⟩ := h.openSlot g.name
  exact hopen.addEntries hslot hkey (by simp) g.entries

theorem addGroups (h : LayerRun base names seen s) (groups : List Group) :
    LayerRun base (names ++ groups.map Group.name)
      (seen ++ groups.flatMap fun g => g.pins.map fun p => (g, p))
      (groups.foldl State.addGroup s) := by
  induction groups generalizing s names seen with
  | nil => simpa using h
  | cons g groups ih =>
    have hrest := ih (h.addGroup g)
    rw [List.append_assoc, List.append_assoc] at hrest
    exact hrest

end LayerRun

/-- Merging a layer walks along all its pins. -/
theorem layerRun_addLayer {s : State} (hd : s.slots.Pairwise fun a b => a.key ≠ b.key)
    (m : Manifest) :
    LayerRun s.nextLayer (m.groups.map Group.name) m.pins (s.addLayer m) := by
  have hstart : LayerRun s.nextLayer [] [] s.nextLayer := by
    refine LayerRun.start s.nextLayer ?_ ?_
    · exact List.pairwise_map.mpr hd
    · intro slot hslot
      obtain ⟨t, -, rfl⟩ := List.mem_map.mp hslot
      rfl
  exact hstart.addGroups m.groups

end Pinfile.Merge
