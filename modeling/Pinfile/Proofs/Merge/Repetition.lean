import Pinfile.Proofs.Merge.Disjoint
import Pinfile.Proofs.Merge.Prior
import Pinfile.Proofs.Merge.Stages

/-!
# Layers that are merged again

A layer that gives each of its packages one version can be merged again right away, and this changes
nothing (`Manifest.merge_append_twice`). After the layer has been merged, the merged groups have
everything that it asks for (`State.HasGroup`): its packages stand in its groups, what is in force
for them are its versions, and its markers stand somewhere. What a merge finds to be there it leaves
alone (`State.addLayer_of_hasGroup`), so the second time is no work.

The versions need a closer look. What is in force for the second time is what the first pin of the
package says by then, and that may be one that the layer has added itself. Both this pin and the one
that was in force before have the layer's version.
-/

namespace Pinfile
namespace Merge.State

variable {s t u : State} {l : Manifest} {i : Nat} {group : String} {g : Group} {p : Pin} {e : Entry}

/-! ## What is there already -/

/-- What is in force for the pin's package, if anything is, is the pin's version. -/
def Agrees (s : State) (p : Pin) : Prop := ∀ f ∈ s.inForce? p.key, f.version = p.version

/-- What the entry asks for is there: its package in the group at position `i`, with its version in
force, or its marker in any group. -/
def Has (s : State) (i : Nat) : Entry → Prop
  | .pin p => s.Agrees p ∧
      ∃ slot, s.slots[i]? = some slot ∧ slot.entries.any (·.pinsKey p.key) = true
  | .editable m => s.hasMarker m = true

/-- There is a group of the name, and all that the entries of `g` ask for. -/
def HasGroup (s : State) (g : Group) : Prop :=
  ∃ i, s.slots.findIdx? (·.key == g.key) = some i ∧ ∀ e ∈ g.entries, s.Has i e

/-- The current layer has not added anything yet. -/
def Fresh (s : State) : Prop := ∀ slot ∈ s.slots, slot.added = []

theorem fresh_nextLayer (s : State) : s.nextLayer.Fresh := by
  intro slot hslot
  obtain ⟨before, -, rfl⟩ := List.mem_map.mp hslot
  rfl

/-- Where the package is there already, a pin of the version in force changes nothing. -/
theorem addEntry_of_has (hfresh : s.Fresh) (h : s.Has i e) (group : String) :
    s.addEntry i group e = s := by
  cases e with
  | pin p =>
    obtain ⟨hagrees, slot, hslot, hany⟩ := h
    have hprior : slot.hasPrior p.key = true := by
      rwa [Slot.entries, hfresh slot (List.mem_of_getElem? hslot), List.append_nil] at hany
    have hplace : s.place i p = s := by
      refine modifySlot_eq_self fun slot' hslot' => ?_
      rw [hslot] at hslot'
      rw [← Option.some.inj hslot', if_pos hprior]
    change s.addPin i group p = s
    unfold addPin
    cases hf : s.inForce? p.key with
    | none => exact hplace
    | some f =>
      have hversion : f.version = p.version := hagrees f hf
      dsimp only
      rw [if_pos hversion, hplace]
  | editable m => exact if_pos h

theorem foldl_eq_self {σ α : Type} {step : σ → α → σ} {s : σ} {as : List α}
    (h : ∀ a ∈ as, step s a = s) : as.foldl step s = s :=
  List.foldlRecOn as step (motive := fun t => t = s) rfl fun t ht a ha => by rw [ht, h a ha]

theorem addGroup_of_hasGroup (hfresh : s.Fresh) (h : s.HasGroup g) : s.addGroup g = s := by
  obtain ⟨i, hi, hall⟩ := h
  have hopen : s.openSlot g.name = (s, i) := by
    unfold openSlot
    rw [show s.slots.findIdx? (fun slot => slot.key == Text.lowercase g.name) = some i from hi]
  rw [addGroup, hopen]
  exact foldl_eq_self fun e he => addEntry_of_has hfresh (hall e he) g.name

/-- A layer that finds everything there changes nothing. -/
theorem addLayer_of_hasGroup (h : ∀ g ∈ l.groups, s.nextLayer.HasGroup g) :
    s.addLayer l = s.nextLayer :=
  foldl_eq_self fun g hg => addGroup_of_hasGroup s.fresh_nextLayer (h g hg)

theorem finish_nextLayer (s : State) : s.nextLayer.finish = s.finish := by
  have hgroups : s.nextLayer.slots.map Slot.toGroup = s.slots.map Slot.toGroup := by
    rw [nextLayer, List.map_map]
    refine List.map_congr_left fun slot _ => ?_
    rw [Function.comp_apply, Slot.toGroup, Slot.toGroup, Slot.entries_settle]
    rfl
  rw [finish, finish, hgroups]
  rfl

/-! ## What a layer leaves -/

/-- What agrees with a pin goes on to agree with it while pins of its version are merged. -/
theorem Agrees.addEntry (h : s.Agrees p)
    (he : ∀ q, e = .pin q → q.key = p.key → q.version = p.version) (i : Nat) (group : String) :
    (s.addEntry i group e).Agrees p := by
  cases e with
  | pin q =>
    change (s.addPin i group q).Agrees p
    rcases s.addPin_cases i group q with ⟨-, hs⟩ | ⟨f, -, -, -, hs⟩ | ⟨f, -, -, -, hs⟩
    · rw [hs]
      exact h
    · rw [hs]
      intro f hf
      rw [Option.mem_def, inForce?_place, inForce?_retarget] at hf
      split at hf
      · next hkey =>
        obtain ⟨f', -, rfl⟩ := Option.map_eq_some_iff.mp hf
        exact he q rfl hkey
      · exact h f hf
    · rw [hs]
      exact h
  | editable m =>
    change (s.addMarker i m).Agrees p
    unfold addMarker
    split
    · exact h
    · exact h

/-- A pin that is not reported agrees with what is in force from then on. -/
theorem agrees_addPin (h : (s.addPin i group p).problems = s.problems) :
    (s.addPin i group p).Agrees p := by
  rcases s.addPin_cases i group p with ⟨hstay, hs⟩ | ⟨f, -, -, -, hs⟩ | ⟨f, -, -, -, hs⟩
  · rw [hs]
    exact hstay
  · rw [hs]
    intro f hf
    rw [Option.mem_def, inForce?_place, inForce?_retarget, if_pos rfl] at hf
    obtain ⟨f', -, rfl⟩ := Option.map_eq_some_iff.mp hf
    rfl
  · rw [hs, report] at h
    simp at h

/-- An entry that is not reported is there from then on. -/
theorem has_addEntry (hi : i < s.slots.length)
    (h : (s.addEntry i group e).problems = s.problems) : (s.addEntry i group e).Has i e := by
  cases e with
  | pin p =>
    refine ⟨agrees_addPin h, ?_⟩
    change ∃ slot, (s.addPin i group p).slots[i]? = some slot ∧ _
    rcases s.addPin_cases i group p with ⟨-, hs⟩ | ⟨f, -, -, -, hs⟩ | ⟨f, -, -, -, hs⟩
    · rw [hs]
      exact exists_slot_place hi p
    · rw [hs]
      exact exists_slot_place (by simpa using hi) p
    · change (s.addPin i group p).problems = s.problems at h
      rw [hs, report] at h
      simp at h
  | editable m =>
    change (s.addMarker i m).hasMarker m = true
    rw [addMarker]
    split
    · next hm => exact hm
    · refine List.any_eq_true.mpr ⟨s.slots[i].push (.editable m), ?_, ?_⟩
      · exact List.mem_of_getElem? (getElem?_modifySlot_self (List.getElem?_eq_getElem hi) _)
      · simp [Slot.entries, Slot.push, Entry.isMarkerLike, Marker.same]

/-- The state `t` comes after `s` while the layer `l` is merged: the groups have grown, and what
agreed with a pin of the layer agrees with it still. -/
structure Later (l : Manifest) (s t : State) : Prop where
  grows : s.Grows t
  agrees : ∀ a ∈ l.pins, s.Agrees a.2 → t.Agrees a.2

theorem Later.refl (l : Manifest) (s : State) : Later l s s := ⟨.refl s, fun _ _ h => h⟩

theorem Later.trans (h : Later l s t) (h' : Later l t u) : Later l s u :=
  ⟨h.grows.trans h'.grows, fun a ha hs => h'.agrees a ha (h.agrees a ha hs)⟩

/-- What is there stays there. -/
theorem Has.later (h : s.Has i e) (hlater : Later l s t) (hg : g ∈ l.groups) (he : e ∈ g.entries) :
    t.Has i e := by
  cases e with
  | pin p =>
    obtain ⟨hagrees, slot, hslot, hany⟩ := h
    obtain ⟨later, hat, hgrows⟩ := hlater.grows i slot hslot
    have hpin : (g, p) ∈ l.pins := Manifest.mem_pins_of_mem_entries hg he
    exact ⟨hlater.agrees (g, p) hpin hagrees, later, hat,
      hgrows.any_entries (fun e => e.pinsKey_shape p.key) hany⟩
  | editable m => exact hlater.grows.hasMarker h

theorem HasGroup.later (h : s.HasGroup g) (hlater : Later l s t) (hg : g ∈ l.groups) :
    t.HasGroup g := by
  obtain ⟨i, hi, hall⟩ := h
  exact ⟨i, hlater.grows.findIdx?_key hi, fun e he => (hall e he).later hlater hg he⟩

section OneVersion

variable (hl : l.OneVersion)
include hl

theorem later_addEntry (hg : g ∈ l.groups) (he : e ∈ g.entries) (i : Nat) (group : String)
    (s : State) : Later l s (s.addEntry i group e) := by
  refine ⟨grows_addEntry i group s e, fun a ha hagrees => ?_⟩
  refine hagrees.addEntry (fun q hq hkey => ?_) i group
  subst hq
  exact hl _ (Manifest.mem_pins_of_mem_entries hg he) a ha hkey

/-- Where entries are merged without a report, all of them are there in the end. -/
theorem has_addEntries (hg : g ∈ l.groups) {es : List Entry} (hes : ∀ e ∈ es, e ∈ g.entries)
    (hi : i < s.slots.length) (hs : s.problems = [])
    (hnone : (es.foldl (addEntry i group) s).problems = []) :
    Later l s (es.foldl (addEntry i group) s) ∧
      ∀ e ∈ es, (es.foldl (addEntry i group) s).Has i e := by
  -- on the entries: what the first one leaves is still there after the others
  induction es generalizing s with
  | nil => exact ⟨.refl l s, by simp⟩
  | cons e es ih =>
    have hstep : (s.addEntry i group e).problems = [] := by
      have hprefix := prefix_foldl problems _ (prefix_problems_addEntry i group) es
        (s.addEntry i group e)
      rwa [← List.foldl_cons, hnone, List.prefix_nil] at hprefix
    have hfirst := later_addEntry hl hg (hes e (by simp)) i group s
    obtain ⟨hlater, hrest⟩ := ih (fun t ht => hes t (by simp [ht]))
      (by rwa [length_slots_addEntry]) hstep hnone
    have hhas : (s.addEntry i group e).Has i e := has_addEntry hi (by rw [hstep, hs])
    exact ⟨hfirst.trans hlater,
      List.forall_mem_cons.mpr ⟨hhas.later hlater hg (hes e (by simp)), hrest⟩⟩

/-- A group that is merged without a report is there in the end. -/
theorem hasGroup_addGroup (hg : g ∈ l.groups) (hs : s.problems = [])
    (hnone : (s.addGroup g).problems = []) :
    Later l s (s.addGroup g) ∧ (s.addGroup g).HasGroup g := by
  have hfind := s.findIdx?_openSlot g.name
  obtain ⟨hlt, -⟩ := List.findIdx?_eq_some_iff_getElem.mp hfind
  have hopen : Later l s (s.openSlot g.name).1 ∧ (s.openSlot g.name).1.problems = [] := by
    refine ⟨⟨s.grows_openSlot g.name, fun a _ hagrees => ?_⟩, ?_⟩
    · unfold openSlot
      split
      · exact hagrees
      · exact hagrees
    · unfold openSlot
      split
      · exact hs
      · exact hs
  obtain ⟨hlater, hall⟩ := has_addEntries hl hg (fun _ he => he) hlt hopen.2 hnone
  exact ⟨hopen.1.trans hlater, _, hlater.grows.findIdx?_key hfind, hall⟩

/-- Where groups of the layer are merged without a report, all of them are there in the end. -/
theorem hasGroup_addGroups {gs : List Group} (hgs : ∀ g ∈ gs, g ∈ l.groups) (hs : s.problems = [])
    (hnone : (gs.foldl addGroup s).problems = []) :
    Later l s (gs.foldl addGroup s) ∧ ∀ g ∈ gs, (gs.foldl addGroup s).HasGroup g := by
  induction gs generalizing s with
  | nil => exact ⟨.refl l s, by simp⟩
  | cons g gs ih =>
    have hstep : (s.addGroup g).problems = [] := by
      have hprefix := prefix_foldl problems _ prefix_problems_addGroup gs (s.addGroup g)
      rwa [← List.foldl_cons, hnone, List.prefix_nil] at hprefix
    obtain ⟨hfirst, hhas⟩ := hasGroup_addGroup hl (hgs g (by simp)) hs hstep
    obtain ⟨hlater, hrest⟩ := ih (fun t ht => hgs t (by simp [ht])) hstep hnone
    exact ⟨hfirst.trans hlater,
      List.forall_mem_cons.mpr ⟨hhas.later hlater (hgs g (by simp)), hrest⟩⟩

end OneVersion

/-! ## The next layer -/

/-- The first pin of some kind among all entries is the first one of that kind that the layers below
have left, or the current layer has added it. -/
theorem find?_settle (slots : List Slot) (f : String × Pin → Bool) {owned : String × Pin}
    (h : (slots.flatMap fun slot => slot.settle.priorPins).find? f = some owned) :
    (slots.flatMap Slot.priorPins).find? f = some owned ∨
      ∃ slot ∈ slots, .pin owned.2 ∈ slot.added := by
  induction slots with
  | nil => cases h
  | cons slot slots ih =>
    have hsettle : slot.settle.priorPins =
        slot.priorPins ++ (slot.added.filterMap Entry.pin?).map fun p => (slot.name, p) := by
      simp [Slot.priorPins, Slot.settle, Slot.entries]
    rw [List.flatMap_cons, hsettle, List.append_assoc, List.find?_append,
      Option.or_eq_some_iff] at h
    rw [List.flatMap_cons, List.find?_append]
    rcases h with hprior | ⟨hnone, h⟩
    · exact Or.inl (by rw [hprior]; rfl)
    · rw [List.find?_append, Option.or_eq_some_iff] at h
      rw [hnone, Option.none_or]
      rcases h with hadded | ⟨-, hrest⟩
      · right
        obtain ⟨p, hp, rfl⟩ := List.mem_map.mp (List.mem_of_find?_eq_some hadded)
        obtain ⟨e, he, hpin⟩ := List.mem_filterMap.mp hp
        refine ⟨slot, by simp, ?_⟩
        cases e with
        | pin q => rwa [← Option.some.inj hpin]
        | editable m => cases hpin
      · refine (ih hrest).imp id ?_
        rintro ⟨slot', hslot', hmem⟩
        exact ⟨slot', List.mem_cons_of_mem slot hslot', hmem⟩

/-- What agrees with a pin agrees with it in the next layer, where the pins that were added to its
package have its version. -/
theorem Agrees.nextLayer (h : s.Agrees p) (hindexed : s.Indexed)
    (hadded : s.AddsOnly fun e => ∀ q, e = .pin q → q.key = p.key → q.version = p.version) :
    s.nextLayer.Agrees p := by
  intro f hf
  rw [Option.mem_def, s.indexed_nextLayer] at hf
  obtain ⟨owned, howned, rfl⟩ := Option.map_eq_some_iff.mp hf
  have hkey : owned.2.key = p.key := by simpa using List.find?_some howned
  have hall : (s.slots.flatMap fun slot => slot.settle.priorPins).find? (·.2.key == p.key) =
      some owned := by
    rw [priorPins, State.nextLayer, List.flatMap_map] at howned
    exact howned
  rcases find?_settle s.slots _ hall with hprior | ⟨slot, hslot, hmem⟩
  · refine h ⟨owned.2.key, owned.1, owned.2.version⟩ ?_
    rw [Option.mem_def, hindexed, firstPrior?, priorPins, hprior]
    rfl
  · exact hadded slot hslot _ hmem owned.2 rfl hkey

/-- What is there at the end of a layer is there for the next one. -/
theorem HasGroup.nextLayer (h : s.HasGroup g)
    (hagrees : ∀ p, .pin p ∈ g.entries → s.Agrees p → s.nextLayer.Agrees p) :
    s.nextLayer.HasGroup g := by
  obtain ⟨i, hi, hall⟩ := h
  refine ⟨i, ?_, fun e he => ?_⟩
  · rw [State.nextLayer, List.findIdx?_map]
    exact hi
  · have hhas := hall e he
    cases e with
    | pin p =>
      obtain ⟨hp, slot, hslot, hany⟩ := hhas
      refine ⟨hagrees p he hp, slot.settle, ?_, ?_⟩
      · rw [State.nextLayer, List.getElem?_map, hslot]
        rfl
      · rwa [Slot.entries_settle]
    | editable m =>
      change s.nextLayer.hasMarker m = true
      change s.hasMarker m = true at hhas
      rwa [hasMarker_iff, asked_nextLayer, ← hasMarker_iff]

/-- After a layer was merged without a report, all that it asks for is there for the next one. -/
theorem hasGroup_nextLayer (hl : l.OneVersion) (hnone : (s.addLayer l).problems = []) :
    ∀ g ∈ l.groups, (s.addLayer l).nextLayer.HasGroup g := by
  have hs : s.nextLayer.problems = [] := by
    have hprefix := s.prefix_problems_addLayer l
    rwa [hnone, List.prefix_nil] at hprefix
  intro g hg
  have hhas := (hasGroup_addGroups hl (fun _ h => h) hs hnone).2 g hg
  refine HasGroup.nextLayer hhas fun p hp hagrees => ?_
  refine hagrees.nextLayer (s.indexed_addLayer l) fun slot hslot e he => ?_
  rintro q rfl hkey
  obtain ⟨g', hg', hq⟩ := s.addsOnly_addLayer l slot hslot _ he
  exact hl _ (Manifest.mem_pins_of_mem_entries hg' hq) _ (Manifest.mem_pins_of_mem_entries hg hp) hkey

/-! ## The lowest layer -/

/-- A group of the lowest layer is there as it is. -/
theorem hasGroup_ofBase (hd : l.DistinctGroups) (hg : g ∈ l.groups) : (ofBase l).HasGroup g := by
  have hmem : Slot.ofGroup g ∈ (ofBase l).slots := List.mem_map_of_mem hg
  cases hfind : (ofBase l).slots.findIdx? (·.key == g.key) with
  | none =>
    have hne := List.findIdx?_eq_none_iff.mp hfind _ hmem
    simp at hne
  | some i =>
    have hslots : (ofBase l).slots.Pairwise fun a b => a.key ≠ b.key := List.pairwise_map.mpr hd
    obtain ⟨hlt, hkey, -⟩ := List.findIdx?_eq_some_iff_getElem.mp hfind
    have hslot : (ofBase l).slots[i] = Slot.ofGroup g := by
      have hfirst := find?_of_pairwise hslots (List.getElem_mem hlt)
      rw [beq_iff_eq.mp hkey, ← Slot.key_ofGroup, find?_of_pairwise hslots hmem] at hfirst
      exact (Option.some.inj hfirst).symm
    refine ⟨i, hfind, fun e he => ?_⟩
    have hentry : e ∈ (Slot.ofGroup g).entries := List.mem_append_left _ he
    cases e with
    | pin p =>
      refine ⟨fun f hf => absurd hf (by simp [inForce?, ofBase]), Slot.ofGroup g, ?_, ?_⟩
      · rw [List.getElem?_eq_getElem hlt, hslot]
      · exact List.any_eq_true.mpr ⟨_, hentry, beq_self_eq_true _⟩
    | editable m =>
      refine List.any_eq_true.mpr ⟨_, hmem, List.any_eq_true.mpr ⟨_, hentry, ?_⟩⟩
      simp [Entry.isMarkerLike, Marker.same]

/-- On a layer that gives each package one version, the layer itself is no work. -/
theorem addLayer_ofBase (hl : l.OneVersion) (hd : l.DistinctGroups) :
    (ofBase l).addLayer l = (ofBase l).nextLayer := by
  refine addLayer_of_hasGroup fun g hg => (hasGroup_ofBase hd hg).nextLayer fun p hp _ f hf => ?_
  rw [Option.mem_def, Manifest.inForce?_ofBase] at hf
  obtain ⟨a, ha, rfl⟩ := Option.map_eq_some_iff.mp hf
  have hkey : a.2.key = p.key := by simpa using List.find?_some ha
  exact hl a (List.mem_of_find?_eq_some ha) (g, p) (Manifest.mem_pins_of_mem_entries hg hp) hkey

end Merge.State

namespace Manifest

open Merge

variable {ms : List Manifest} {l m r : Manifest}

/-- A layer that was merged on top of others is merged again without any change. -/
theorem merge_append_twice (hms : ms ≠ []) (hl : l.OneVersion) (hr : merge (ms ++ [l]) = .ok r) :
    merge (ms ++ [l] ++ [l]) = .ok r := by
  obtain ⟨hnone, -⟩ := merge_eq_ok_iff.mp hr
  rw [State.ofLayers_append_singleton hms] at hnone
  have htwice : State.ofLayers (ms ++ [l] ++ [l]) = (State.ofLayers (ms ++ [l])).nextLayer := by
    rw [State.ofLayers_append_singleton (by simp), State.ofLayers_append_singleton hms]
    exact State.addLayer_of_hasGroup (State.hasGroup_nextLayer hl hnone)
  rw [merge_eq_finish, htwice, State.finish_nextLayer, ← merge_eq_finish, hr]

/-- Copies of a layer are merged into the layer. -/
theorem merge_replicate (hl : l.OneVersion) (hd : l.DistinctGroups)
    (ho : l.groups.map Group.ordinal = List.range l.groups.length) (n : Nat) :
    merge (List.replicate (n + 1) l) = .ok l := by
  have hself : merge [l, l] = .ok l := by
    calc merge [l, l] = ((State.ofBase l).addLayer l).finish := rfl
      _ = (State.ofBase l).nextLayer.finish := by rw [State.addLayer_ofBase hl hd]
      _ = merge [l] := State.finish_nextLayer _
      _ = .ok l := merge_singleton ho
  induction n with
  | zero => exact merge_singleton ho
  | succ n ih =>
    rw [List.replicate_succ', merge_append_of_ok (by simp) ih, hself]

/-- On nothing, a manifest without repeated markers is merged into itself. -/
theorem merge_empty_left (hd : m.DistinctGroups)
    (ho : m.groups.map Group.ordinal = List.range m.groups.length)
    (hm : m.markers.Pairwise fun a b => a.2.same b.2 = false) : merge [{}, m] = .ok m := by
  have hempty : DistinctGroups {} := List.Pairwise.nil
  obtain ⟨r, hr, hmade⟩ := merge_disjoint (b := m) hempty (fun _ hx => absurd hx List.not_mem_nil)
    (fun _ _ => List.not_mem_nil) (nodup_asked_iff.mpr hm)
  have hself : m.MadeOf (m.groups.map Group.piece) := madeOf_self hd ho
  rw [hr, MadeOf.unique hmade hself]

/-- Nothing on top of a manifest changes nothing. -/
theorem merge_empty_right (ho : m.groups.map Group.ordinal = List.range m.groups.length) :
    merge [m, {}] = .ok m := by
  calc merge [m, {}] = (State.ofBase m).nextLayer.finish := rfl
    _ = merge [m] := State.finish_nextLayer _
    _ = .ok m := merge_singleton ho

/-- Merging a layer again changes nothing, on top of whatever layers, and copies of it alone are
merged into the layer itself. Nothing, below a manifest or on top of it, changes nothing either,
whatever the pins of the manifest are. -/
theorem merge_layer_again :
    (∀ ms l r, l.OneVersion → l.DistinctGroups →
      l.groups.map Group.ordinal = List.range l.groups.length →
      merge (ms ++ [l]) = .ok r → merge (ms ++ [l, l]) = .ok r) ∧
    (∀ l n, l.OneVersion → l.DistinctGroups →
      l.groups.map Group.ordinal = List.range l.groups.length →
      merge (List.replicate (n + 1) l) = .ok l) ∧
    ∀ m, m.DistinctGroups → m.groups.map Group.ordinal = List.range m.groups.length →
      (m.markers.Pairwise fun a b => a.2.same b.2 = false) →
      merge [{}, m] = .ok m ∧ merge [m, {}] = .ok m := by
  refine ⟨fun ms l r hl hd ho hr => ?_, fun l n hl hd ho => merge_replicate hl hd ho n,
    fun m hd ho hm => ⟨merge_empty_left hd ho hm, merge_empty_right ho⟩⟩
  by_cases hms : ms = []
  · rw [hms, List.nil_append, merge_singleton ho] at hr
    rw [hms, ← hr]
    exact merge_replicate hl hd ho 1
  · have htwice := merge_append_twice hms hl hr
    rwa [List.append_assoc] at htwice

/-- A manifest that pins a package in three versions. -/
def disorderly : Manifest :=
  .ofGroups [
    { name := "Web" },
    { name := "Dev", entries := [.pin ⟨⟨"flask"⟩, "3.0.0", false, 4⟩, .editable ⟨".", [], 5⟩,
        .pin ⟨⟨"Flask"⟩, "3.1.0", false, 6⟩] },
    { name := "Docs", entries := [.pin ⟨⟨"FLASK"⟩, "3.2.0", false, 9⟩] }]

/-- A layer that adds the package to the first group, and overrides its version. -/
def reordering : Manifest :=
  .ofGroups [
    { name := "web", entries := [.pin ⟨⟨"flask"⟩, "3.3.0", true, 2⟩,
        .pin ⟨⟨"flask"⟩, "3.3.0", false, 3⟩] },
    { name := "Οδός", entries := [.editable ⟨".", ["dev"], 6⟩, .editable ⟨".", [], 7⟩] }]

theorem merge_reordering_again :
    (∃ r, merge [disorderly, reordering] = .ok r ∧
      merge [disorderly, reordering, reordering] = .ok r) ∧
    merge [reordering, reordering, reordering] = .ok reordering ∧
    merge [{}, disorderly] = .ok disorderly ∧ merge [disorderly, {}] = .ok disorderly := by
  obtain ⟨hagain, hcopies, hempty⟩ := merge_layer_again
  have hversion : reordering.OneVersion := by decide +kernel
  have hdistinct : reordering.DistinctGroups := by decide +kernel
  have hmerged : (merge [disorderly, reordering]).toOption.isSome = true := by decide +kernel
  refine ⟨?_, hcopies reordering 2 hversion hdistinct rfl,
    hempty disorderly (by decide +kernel) rfl (by decide +kernel)⟩
  cases hr : merge [disorderly, reordering] with
  | error report =>
    rw [hr] at hmerged
    cases hmerged
  | ok r => exact ⟨r, rfl, hagain [disorderly] reordering r hversion hdistinct rfl hr⟩

end Manifest
end Pinfile
