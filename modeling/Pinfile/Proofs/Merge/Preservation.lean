import Pinfile.Proofs.Merge.Markers
import Pinfile.Proofs.Merge.Prior
import Pinfile.Proofs.Merge.TopLayer

/-!
# What a merge keeps of its layers

A merge that succeeds has what its layers have and nothing else (`Preserved`), whatever the layers
are like: they may pin a package many times, disagree with themselves or repeat the names of their
groups. A package stands in a merged group exactly when some layer pins it under that name. A pin of
the merged manifest is a pin of a layer, with a version that some layer has for the package. Markers
are kept, and after the groups of the lowest layer come groups of new names only.

Two lemmas carry this, one for each direction. That every pin comes from a layer is a property of
single merged groups which each layer keeps (`Slot.comesFrom_keptBy`). That no pin is lost is shown
for one pin at a time: it stands in its group once it was merged without a conflict
(`State.pins_addPin`), and from then on the groups only grow.
-/

namespace Pinfile
namespace Merge

/-! ## Where pins come from -/

/-- The pins of a merged group are pins of the layers in groups of its name, with versions that the
layers have for their packages. -/
def Slot.ComesFrom (ms : List Manifest) (slot : Slot) : Prop :=
  ∀ p ∈ slot.pins, (∃ m ∈ ms, ∃ q ∈ pinsIn slot.key m.pins, p = q.withVersion p.version) ∧
    ∃ m ∈ ms, ∃ a ∈ m.pins, a.2.key = p.key ∧ a.2.version = p.version

@[simp] theorem Slot.pins_settle (s : Slot) : s.settle.pins = s.pins := by
  rw [pins, entries_settle, pins]

theorem Slot.pins_push (s : Slot) (e : Entry) : (s.push e).pins = s.pins ++ e.pin?.toList := by
  have hentries : (s.push e).entries = s.entries ++ [e] := by simp [push, entries]
  rw [pins, hentries, List.filterMap_append, pins]
  cases h : e.pin? <;> simp [h]

/-- A pin of a group that was given a version has that version, or was a pin of the group. -/
theorem Slot.of_mem_pins_retarget {s : Slot} {key version : String} {p : Pin}
    (h : p ∈ (s.retarget key version).pins) :
    p ∈ s.pins ∨ p.key = key ∧ ∃ q ∈ s.pins, p = q.withVersion version := by
  rw [pins, entries, List.filterMap_append, List.mem_append] at h
  rw [pins, entries, List.filterMap_append]
  rcases h with hprior | hadded
  · obtain ⟨e, he, hp⟩ := List.mem_filterMap.mp hprior
    obtain ⟨e, he', rfl⟩ := List.mem_map.mp he
    cases e with
    | pin q =>
      have hq : q ∈ s.prior.filterMap Entry.pin? := List.mem_filterMap.mpr ⟨_, he', rfl⟩
      obtain rfl : (if q.key = key then q.withVersion version else q) = p := Option.some.inj hp
      split
      · next hkey => exact Or.inr ⟨hkey, q, List.mem_append_left _ hq, rfl⟩
      · exact Or.inl (List.mem_append_left _ hq)
    | editable m => cases hp
  · exact Or.inl (List.mem_append_right _ hadded)

/-- A layer that is among the given ones keeps that all pins come from them. -/
theorem Slot.comesFrom_keptBy {ms : List Manifest} {m : Manifest} (hm : m ∈ ms) :
    Slot.KeptBy m (Slot.ComesFrom ms) where
  begin g _ p hp := absurd hp List.not_mem_nil
  push g hg e he slot hkey h p hp := by
    rw [pins_push, List.mem_append, Option.mem_toList] at hp
    rcases hp with hp | hp
    · exact h p hp
    · obtain rfl : e = .pin p := by
        cases e with
        | pin q => exact congrArg Entry.pin (Option.some.inj hp)
        | editable k => cases hp
      have hpin : (g, p) ∈ m.pins := Manifest.mem_pins_of_mem_entries hg he
      exact ⟨⟨m, hm, p, mem_pinsIn_iff.mpr ⟨(g, p), hpin, hkey.symm, rfl⟩, rfl⟩,
        m, hm, (g, p), hpin, rfl, rfl⟩
  retarget a ha slot h p hp := by
    rcases of_mem_pins_retarget hp with hp | ⟨hkey, q, hq, rfl⟩
    · exact h p hp
    · obtain ⟨⟨n, hn, origin, horigin, hq'⟩, -⟩ := h q hq
      refine ⟨⟨n, hn, origin, horigin, ?_⟩, m, hm, a, ha, hkey.symm, rfl⟩
      rw [hq']
      rfl
  settle slot h p hp := h p (by rwa [pins_settle] at hp)

/-- All pins of the merged groups come from the layers. -/
theorem comesFrom_ofLayers (ms : List Manifest) :
    (State.ofLayers ms).All (Slot.ComesFrom ms) := by
  cases ms with
  | nil => exact fun _ hslot => absurd hslot List.not_mem_nil
  | cons base layers =>
    refine State.all_ofLayers (fun g hg p hp => ?_) fun m hm =>
      Slot.comesFrom_keptBy (List.mem_cons_of_mem base hm)
    rw [Slot.pins_ofGroup] at hp
    have hpin : (g, p) ∈ base.pins := Manifest.mem_pins_iff.mpr ⟨hg, hp⟩
    exact ⟨⟨base, by simp, p, mem_pinsIn_iff.mpr ⟨(g, p), hpin, rfl, rfl⟩, rfl⟩,
      base, by simp, (g, p), hpin, rfl, rfl⟩

/-! ## Pins are not lost -/

namespace State

variable {s t : State} {i : Nat} {group key : String} {m : Manifest} {g : Group} {p : Pin}

/-- Some merged group of the key `group` has the package. -/
def Pins (s : State) (group key : String) : Prop :=
  ∃ slot ∈ s.slots, slot.key = group ∧ slot.entries.any (·.pinsKey key) = true

theorem Grows.pins (h : s.Grows t) (hs : s.Pins group key) : t.Pins group key := by
  obtain ⟨slot, hslot, rfl, hany⟩ := hs
  obtain ⟨i, hi⟩ := List.mem_iff_getElem?.mp hslot
  obtain ⟨later, hlater, hgrows⟩ := h i slot hi
  exact ⟨later, List.mem_of_getElem? hlater, hgrows.key,
    hgrows.any_entries (fun e => e.pinsKey_shape key) hany⟩

theorem Pins.nextLayer (h : s.Pins group key) : s.nextLayer.Pins group key := by
  obtain ⟨slot, hslot, hkey, hany⟩ := h
  exact ⟨slot.settle, List.mem_map_of_mem hslot, hkey, by rwa [Slot.entries_settle]⟩

theorem pins_place (hi : s.IsAt i group) (p : Pin) : (s.place i p).Pins group p.key := by
  obtain ⟨slot, hslot, hkey⟩ := hi.of_names (s.map_name_place i p)
  obtain ⟨before, hbefore, -⟩ := hi
  obtain ⟨hlt, -⟩ := List.getElem?_eq_some_iff.mp hbefore
  obtain ⟨placed, hplaced, hany⟩ := exists_slot_place hlt p
  rw [hslot] at hplaced
  exact ⟨slot, List.mem_of_getElem? hslot, hkey, Option.some.inj hplaced ▸ hany⟩

/-- A pin that is merged without a conflict has its package in its group from then on. -/
theorem pins_addPin (hi : s.IsAt i group) (name : String)
    (h : (s.addPin i name p).problems = s.problems) : (s.addPin i name p).Pins group p.key := by
  rcases s.addPin_cases i name p with ⟨-, hs⟩ | ⟨f, -, -, -, hs⟩ | ⟨f, -, -, -, hs⟩
  · rw [hs]
    exact pins_place hi p
  · rw [hs]
    exact pins_place (hi.of_names (s.map_name_retarget p.key p.version)) p
  · rw [hs, report] at h
    simp at h

/-- Where a group is merged without a conflict, its packages stand in the merged group. -/
theorem pins_addGroup (hp : .pin p ∈ g.entries) (h : (s.addGroup g).problems = []) :
    (s.addGroup g).Pins g.key p.key := by
  let i := (s.openSlot g.name).2
  refine of_mem_foldl (P := fun t => t.IsAt i g.key) (prefix_problems_addEntry i g.name)
    (fun t e _ ht => ht.of_names (map_name_addEntry i g.name t e))
    (fun t e _ ht => (grows_addEntry i g.name t e).pins ht) hp ?_ (s.isAt_openSlot g.name) h
  intro t ht hbefore hafter
  exact pins_addPin ht g.name (hafter.trans hbefore.symm)

/-- Where a layer is merged without a conflict, its packages stand in the merged groups. -/
theorem pins_addLayer {a : Group × Pin} (ha : a ∈ m.pins) (h : (s.addLayer m).problems = []) :
    (s.addLayer m).Pins a.1.key a.2.key := by
  obtain ⟨hg, hp⟩ := Manifest.mem_pins_iff.mp ha
  exact of_mem_foldl (P := fun _ => True) prefix_problems_addGroup (fun _ _ _ _ => trivial)
    (fun t g _ ht => (grows_addGroup t g).pins ht) hg
    (fun t _ _ hafter => pins_addGroup (Manifest.mem_pins_group_iff.mp hp) hafter) trivial h

/-- Where layers are merged without a conflict, all their packages stand in the merged groups. -/
theorem pins_ofLayers {ms : List Manifest} (h : (State.ofLayers ms).problems = []) (hm : m ∈ ms)
    {a : Group × Pin} (ha : a ∈ m.pins) : (State.ofLayers ms).Pins a.1.key a.2.key := by
  induction ms using List.reverseRecOn with
  | nil => exact absurd hm List.not_mem_nil
  | append_singleton ms top ih =>
    by_cases hms : ms = []
    · subst hms
      obtain rfl := List.mem_singleton.mp hm
      obtain ⟨hg, hp⟩ := Manifest.mem_pins_iff.mp ha
      refine ⟨.ofGroup a.1, List.mem_map_of_mem hg, rfl, List.any_eq_true.mpr ⟨.pin a.2, ?_, ?_⟩⟩
      · exact List.mem_append_left _ (Manifest.mem_pins_group_iff.mp hp)
      · exact beq_self_eq_true a.2.key
    · rw [State.ofLayers_append_singleton hms] at h ⊢
      rcases List.mem_append.mp hm with hm | hm
      · have hbelow : (State.ofLayers ms).problems = [] := by
          have hprefix := prefix_problems_addLayer (State.ofLayers ms) top
          rwa [h, List.prefix_nil] at hprefix
        exact (grows_addLayer _ top).pins (ih hbelow hm).nextLayer
      · obtain rfl := List.mem_singleton.mp hm
        exact pins_addLayer ha h

/-! ## New groups -/

/-- The names are the old ones and after them new ones, each unlike all names before it up to letter
case. -/
def NamesExtend (old names : List String) : Prop :=
  ∃ new, names = old ++ new ∧ (∀ o ∈ old, ∀ n ∈ new, Text.lowercase o ≠ Text.lowercase n) ∧
    new.Pairwise fun a b => Text.lowercase a ≠ Text.lowercase b

theorem NamesExtend.refl (names : List String) : NamesExtend names names :=
  ⟨[], (List.append_nil names).symm, by simp, List.Pairwise.nil⟩

/-- A name that is unlike all of the names can come after them. -/
theorem NamesExtend.append {old names : List String} (h : NamesExtend old names) {name : String}
    (hnew : ∀ n ∈ names, Text.lowercase n ≠ Text.lowercase name) :
    NamesExtend old (names ++ [name]) := by
  obtain ⟨new, rfl, hold, hpairwise⟩ := h
  refine ⟨new ++ [name], List.append_assoc _ _ _, fun o ho n hn => ?_, ?_⟩
  · rcases List.mem_append.mp hn with hn | hn
    · exact hold o ho n hn
    · rw [List.mem_singleton.mp hn]
      exact hnew o (List.mem_append_left _ ho)
  · refine List.pairwise_append.mpr ⟨hpairwise, List.pairwise_singleton _ _, fun a ha b hb => ?_⟩
    rw [List.mem_singleton.mp hb]
    exact hnew a (List.mem_append_right _ ha)

/-- Merging a group begins one of a new name, or none. -/
theorem namesExtend_addGroup {old : List String}
    (h : NamesExtend old (s.slots.map Slot.name)) (g : Group) :
    NamesExtend old ((s.addGroup g).slots.map Slot.name) := by
  have hopen : NamesExtend old ((s.openSlot g.name).1.slots.map Slot.name) := by
    unfold openSlot
    split
    · exact h
    · next hnone =>
      rw [List.map_append]
      refine h.append fun n hn => ?_
      obtain ⟨slot, hslot, rfl⟩ := List.mem_map.mp hn
      have hne : slot.key ≠ Text.lowercase g.name := by
        simpa using List.findIdx?_eq_none_iff.mp hnone slot hslot
      exact hne
  refine List.foldlRecOn g.entries _
    (motive := fun t : State => NamesExtend old (t.slots.map Slot.name)) hopen fun t ht e _ => ?_
  rwa [map_name_addEntry]

/-- After the groups of the lowest layer come groups of new names. -/
theorem namesExtend_ofLayers (base : Manifest) (layers : List Manifest) :
    NamesExtend (base.groups.map Group.name)
      ((State.ofLayers (base :: layers)).slots.map Slot.name) := by
  have hbase : (State.ofBase base).slots.map Slot.name = base.groups.map Group.name := by
    rw [State.ofBase, List.map_map]
    rfl
  refine List.foldlRecOn layers _
    (motive := fun t : State => NamesExtend _ (t.slots.map Slot.name)) ?_ fun t ht m _ => ?_
  · rw [hbase]
    exact .refl _
  · have hnext : t.nextLayer.slots.map Slot.name = t.slots.map Slot.name := by
      rw [State.nextLayer, List.map_map]
      rfl
    rw [← hnext] at ht
    exact List.foldlRecOn m.groups _
      (motive := fun t : State => NamesExtend _ (t.slots.map Slot.name)) ht
      fun u hu g _ => namesExtend_addGroup hu g

end State
end Merge

/-! ## Whole merges -/

namespace Manifest

open Merge

variable {ms : List Manifest} {r : Manifest}

/-- The merged manifest has what the layers have and nothing else. -/
structure Preserved (ms : List Manifest) (r : Manifest) : Prop where
  /-- A package stands under a name where a layer pins it under that name. -/
  packages : ∀ group key, r.PinsIn group key ↔ ∃ m ∈ ms, m.PinsIn group key
  /-- A pin is one of a layer in a group of the same name, up to the version. -/
  origin : ∀ a ∈ r.pins, ∃ m ∈ ms, ∃ q ∈ pinsIn a.1.key m.pins,
    q.name = a.2.name ∧ q.isOverride = a.2.isOverride ∧ q.line = a.2.line
  /-- A layer gives the package the version. -/
  version : ∀ a ∈ r.pins, ∃ m ∈ ms, ∃ b ∈ m.pins, b.2.key = a.2.key ∧ b.2.version = a.2.version
  /-- The markers are those of the layers, up to their lines. -/
  markers : ∀ what, what ∈ r.asked ↔ ∃ m ∈ ms, what ∈ m.asked
  /-- A marker that the lowest layer does not have stands there once. -/
  newMarkers : ∀ what ∈ r.asked, what ∉ (ms.headD {}).asked → r.asked.count what = 1
  /-- After the groups of the lowest layer come groups of new names. -/
  groupNames : State.NamesExtend ((ms.headD {}).groups.map Group.name) (r.groups.map Group.name)

/-- The pins of a merged manifest are those of the merged groups. -/
theorem exists_slot_of_mem_pins {slots : List Slot} {a : Group × Pin}
    (ha : a ∈ (ofGroups (slots.map Slot.toGroup)).pins) :
    ∃ slot ∈ slots, slot.key = a.1.key ∧ a.2 ∈ slot.pins := by
  obtain ⟨hg, hp⟩ := mem_pins_iff.mp ha
  obtain ⟨slot, hslot, hname, hentries⟩ := mem_groups_finish hg
  refine ⟨slot, hslot, (congrArg Text.lowercase hname).symm, ?_⟩
  rw [Slot.pins, ← hentries]
  exact hp

/-- A package of a merged group stands in the merged manifest. -/
theorem pinsIn_of_slot {slots : List Slot} {slot : Slot} (hslot : slot ∈ slots) {key : String}
    (hany : slot.entries.any (·.pinsKey key) = true) :
    (ofGroups (slots.map Slot.toGroup)).PinsIn slot.key key := by
  obtain ⟨e, he, hkey⟩ := List.any_eq_true.mp hany
  obtain ⟨g, hg, hname, hentries⟩ := exists_group_of_slot hslot
  rw [← hentries] at he
  cases e with
  | pin p =>
    have hpin := mem_pins_of_mem_entries hg he
    exact ⟨p, mem_pinsIn_iff.mpr ⟨(g, p), hpin, congrArg Text.lowercase hname, rfl⟩,
      beq_iff_eq.mp hkey⟩
  | editable m => cases hkey

/-- What comes with a pin of a merged manifest comes from the layers. -/
theorem comesFrom_of_merge (hr : merge ms = .ok r) {a : Group × Pin} (ha : a ∈ r.pins) :
    (∃ m ∈ ms, ∃ q ∈ pinsIn a.1.key m.pins, a.2 = q.withVersion a.2.version) ∧
      ∃ m ∈ ms, ∃ b ∈ m.pins, b.2.key = a.2.key ∧ b.2.version = a.2.version := by
  obtain ⟨-, rfl⟩ := merge_eq_ok_iff.mp hr
  obtain ⟨slot, hslot, hkey, hp⟩ := exists_slot_of_mem_pins ha
  rw [← hkey]
  exact comesFrom_ofLayers ms slot hslot a.2 hp

/-- The packages of a merged manifest are those of the layers, under the same names. -/
theorem pinsIn_merge_iff (hr : merge ms = .ok r) {group key : String} :
    r.PinsIn group key ↔ ∃ m ∈ ms, m.PinsIn group key := by
  constructor
  · rintro ⟨p, hp, rfl⟩
    obtain ⟨a, ha, rfl, rfl⟩ := mem_pinsIn_iff.mp hp
    obtain ⟨⟨m, hm, q, hq, hsame⟩, -⟩ := comesFrom_of_merge hr ha
    exact ⟨m, hm, q, hq, (congrArg Pin.key hsame).symm⟩
  · rintro ⟨m, hm, p, hp, rfl⟩
    obtain ⟨a, ha, rfl, rfl⟩ := mem_pinsIn_iff.mp hp
    obtain ⟨hnone, rfl⟩ := merge_eq_ok_iff.mp hr
    obtain ⟨slot, hslot, hkey, hany⟩ := State.pins_ofLayers hnone hm ha
    rw [← hkey]
    exact pinsIn_of_slot hslot hany

/-- What a merged manifest asks for is what the layers ask for. -/
theorem mem_asked_merge_iff (hr : merge ms = .ok r) {what : Marker} :
    what ∈ r.asked ↔ ∃ m ∈ ms, what ∈ m.asked := by
  cases ms with
  | nil =>
    obtain rfl : {} = r := Except.ok.inj hr
    simp [asked]
  | cons base layers =>
    rw [(asked_of_merge hr).mem_iff, List.mem_union_iff, List.mem_flatMap]
    simp [or_comm]

/-- A marker that the lowest layer does not have stands in a merged manifest once. -/
theorem count_asked_of_merge (hr : merge ms = .ok r) {what : Marker} (hwhat : what ∈ r.asked)
    (hnew : what ∉ (ms.headD {}).asked) : r.asked.count what = 1 := by
  cases ms with
  | nil =>
    obtain rfl : {} = r := Except.ok.inj hr
    exact absurd hwhat hnew
  | cons base layers =>
    rw [List.headD_cons] at hnew
    have hperm := asked_of_merge hr
    rw [hperm.mem_iff, List.mem_union_iff] at hwhat
    rw [hperm.count_eq, count_union_of_not_mem hnew, if_pos (hwhat.resolve_right hnew)]

/-- After the groups of the lowest layer, a merged manifest has groups of new names. -/
theorem namesExtend_of_merge (hr : merge ms = .ok r) :
    State.NamesExtend ((ms.headD {}).groups.map Group.name) (r.groups.map Group.name) := by
  obtain ⟨-, rfl⟩ := merge_eq_ok_iff.mp hr
  rw [map_name_ofGroups, List.map_map]
  cases ms with
  | nil => exact .refl _
  | cons base layers => exact State.namesExtend_ofLayers base layers

/-- A successful merge keeps what its layers have and adds nothing to it. -/
theorem merge_preserved (hr : merge ms = .ok r) : Preserved ms r where
  packages _ _ := pinsIn_merge_iff hr
  origin a ha := by
    obtain ⟨⟨m, hm, q, hq, hsame⟩, -⟩ := comesFrom_of_merge hr ha
    rw [hsame]
    exact ⟨m, hm, q, hq, rfl, rfl, rfl⟩
  version a ha := (comesFrom_of_merge hr ha).2
  markers _ := mem_asked_merge_iff hr
  newMarkers _ := count_asked_of_merge hr
  groupNames := namesExtend_of_merge hr

/-- A manifest that has two groups of one name and disagrees with itself, and a layer that overrides
a version twice and begins a group twice. -/
def careless : List Manifest :=
  [ofGroups [
      { name := "Web", entries := [.pin ⟨⟨"Flask"⟩, "3.0.0", false, 2⟩, .editable ⟨".", [], 3⟩,
          .pin ⟨⟨"flask"⟩, "3.1.0", false, 4⟩] },
      { name := "WEB", entries := [.editable ⟨".", [], 6⟩, .pin ⟨⟨"jinja2"⟩, "3.1.4", false, 7⟩] }],
    ofGroups [
      { name := "web", entries := [.pin ⟨⟨"flask"⟩, "3.2.0", true, 2⟩,
          .pin ⟨⟨"FLASK"⟩, "3.3.0", true, 3⟩, .pin ⟨⟨"jinja2"⟩, "3.1.4", false, 4⟩] },
      { name := "Dev", entries := [.editable ⟨"lib", ["dev"], 6⟩, .pin ⟨⟨"rich"⟩, "1", false, 7⟩] },
      { name := "dev", entries := [.pin ⟨⟨"Rich"⟩, "2", true, 9⟩,
          .editable ⟨"lib", ["dev"], 10⟩] }]]

/-- What merging them gives. -/
def carelessMerged : Manifest :=
  ofGroups [
    { name := "Web", entries := [.pin ⟨⟨"Flask"⟩, "3.3.0", false, 2⟩, .editable ⟨".", [], 3⟩,
        .pin ⟨⟨"flask"⟩, "3.3.0", false, 4⟩, .pin ⟨⟨"jinja2"⟩, "3.1.4", false, 4⟩] },
    { name := "WEB", entries := [.editable ⟨".", [], 6⟩, .pin ⟨⟨"jinja2"⟩, "3.1.4", false, 7⟩] },
    { name := "Dev", entries := [.editable ⟨"lib", ["dev"], 6⟩, .pin ⟨⟨"rich"⟩, "1", false, 7⟩,
        .pin ⟨⟨"Rich"⟩, "2", true, 9⟩] }]

theorem merge_careless : merge careless = .ok carelessMerged ∧ Preserved careless carelessMerged := by
  have hmerge : merge careless = .ok carelessMerged := by rfl
  exact ⟨hmerge, merge_preserved hmerge⟩

end Manifest
end Pinfile
