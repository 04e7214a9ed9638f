import Pinfile.Proofs.Merge.Ledger
import Pinfile.Proofs.Respelling.Basic

/-!
# Merging other spellings

A merge looks at keys and at lowercase forms, never at spellings. So two merges of manifests that are
respellings of each other go the same way: after every step their states are respellings of each other
(`State.Respelled`), with the same groups and entries, the same versions in force and the same
conflicts. In the end both succeed or both fail, with results that are respellings of each other
(`Manifest.merge_respelled`).
-/

namespace Pinfile

variable {r : Respelling}

/-! ## Entries -/

namespace Entry.Respelled

variable {e f : Entry}

theorem pinsKey (h : e.Respelled r f) (key : String) : e.pinsKey key = f.pinsKey key := by
  cases h with
  | pin h => rw [Entry.pinsKey, Entry.pinsKey, h.key]
  | editable m => rfl

theorem isMarkerLike (h : e.Respelled r f) (m : Marker) : e.isMarkerLike m = f.isMarkerLike m := by
  cases h <;> rfl

theorem retarget (h : e.Respelled r f) (key version : String) :
    (e.retarget key version).Respelled r (f.retarget key version) := by
  cases h with
  | pin h =>
    rw [Entry.retarget, Entry.retarget, h.key]
    split
    · exact .pin { h with version := rfl }
    · exact .pin h
  | editable m => exact .editable m

end Entry.Respelled

namespace Merge

/-! ## Merged groups -/

/-- The merged group `t` is the merged group `s` with other spellings. -/
structure Slot.Respelled (r : Respelling) (s t : Slot) : Prop where
  name : r.group s.name t.name
  prior : List.Forall₂ (Entry.Respelled r) s.prior t.prior
  added : List.Forall₂ (Entry.Respelled r) s.added t.added

namespace Slot.Respelled

variable {s t : Slot}

theorem key (h : s.Respelled r t) : s.key = t.key := r.lowercase_eq h.name

theorem entries (h : s.Respelled r t) : List.Forall₂ (Entry.Respelled r) s.entries t.entries :=
  List.rel_append h.prior h.added

theorem settle (h : s.Respelled r t) : s.settle.Respelled r t.settle := ⟨h.name, h.entries, .nil⟩

theorem push (h : s.Respelled r t) {e f : Entry} (hef : e.Respelled r f) :
    (s.push e).Respelled r (t.push f) :=
  ⟨h.name, h.prior, List.rel_append h.added (.cons hef .nil)⟩

theorem retarget (h : s.Respelled r t) (key version : String) :
    (s.retarget key version).Respelled r (t.retarget key version) :=
  ⟨h.name, List.rel_map (fun _ _ he => he.retarget key version) h.prior, h.added⟩

theorem hasPrior (h : s.Respelled r t) (key : String) : s.hasPrior key = t.hasPrior key :=
  any_of_forall₂ h.prior fun _ _ he => he.pinsKey key

theorem priorPins (h : s.Respelled r t) :
    List.Forall₂ (fun a b => r.group a.1 b.1 ∧ a.2.Respelled r b.2) s.priorPins t.priorPins :=
  List.rel_map (fun _ _ hp => ⟨h.name, hp⟩)
    (List.rel_filterMap (fun _ _ he => Entry.Respelled.pin? he) h.prior)

theorem toGroup (h : s.Respelled r t) : s.toGroup.Respelled r t.toGroup := ⟨h.name, rfl, h.entries⟩

theorem ofGroup {g g' : Group} (h : g.Respelled r g') : (Slot.ofGroup g).Respelled r (.ofGroup g') :=
  ⟨h.name, h.entries, .nil⟩

end Slot.Respelled

/-! ## States -/

/-- The same version is in force, under another spelling of its group. -/
structure InForce.Respelled (r : Respelling) (a b : InForce) : Prop where
  key : a.key = b.key
  group : r.group a.group b.group
  version : a.version = b.version

/-- The state `t` is the state `s` with other spellings. -/
structure State.Respelled (r : Respelling) (s t : State) : Prop where
  slots : List.Forall₂ (Slot.Respelled r) s.slots t.slots
  inForce : List.Forall₂ (InForce.Respelled r) s.inForce t.inForce
  problems : List.Forall₂ (Problem.Respelled r) s.problems t.problems

namespace State.Respelled

variable {s t : State}

/-! ## One step -/

theorem inForce? (h : s.Respelled r t) (key : String) :
    Option.Rel (InForce.Respelled r) (s.inForce? key) (t.inForce? key) :=
  find?_of_forall₂ h.inForce fun _ _ hf => by rw [hf.key]

theorem modifySlot (h : s.Respelled r t) (i : Nat) {f g : Slot → Slot}
    (hfg : ∀ a b : Slot, a.Respelled r b → (f a).Respelled r (g b)) :
    (s.modifySlot i f).Respelled r (t.modifySlot i g) :=
  ⟨modify_of_forall₂ h.slots i hfg, h.inForce, h.problems⟩

theorem retarget (h : s.Respelled r t) (key version : String) :
    (s.retarget key version).Respelled r (t.retarget key version) where
  slots := List.rel_map (fun _ _ hslot => hslot.retarget key version) h.slots
  inForce := by
    refine List.rel_map (fun a b hab => ?_) h.inForce
    rw [hab.key]
    split
    · exact ⟨rfl, hab.group, rfl⟩
    · exact hab
  problems := h.problems

theorem place (h : s.Respelled r t) (i : Nat) {p q : Pin} (hpq : p.Respelled r q) :
    (s.place i p).Respelled r (t.place i q) := by
  refine h.modifySlot i fun a b hab => ?_
  rw [hab.hasPrior, hpq.key]
  split
  · exact hab
  · exact hab.push (.pin hpq)

/-- The same pin under another spelling is accepted, replaces a version or is a conflict likewise. -/
theorem addPin (h : s.Respelled r t) (i : Nat) {group group' : String} (hgroup : r.group group group')
    {p q : Pin} (hpq : p.Respelled r q) :
    (s.addPin i group p).Respelled r (t.addPin i group' q) := by
  rw [State.addPin, State.addPin, hpq.key, hpq.version, hpq.isOverride]
  rcases cases_of_rel (h.inForce? q.key) with ⟨hs, ht⟩ | ⟨a, b, hs, ht, hab⟩
  · rw [hs, ht]
    exact h.place i hpq
  · rw [hs, ht]
    simp only [hab.version]
    split
    · exact h.place i hpq
    · split
      · exact (h.retarget q.key q.version).place i hpq
      · have hconflict : (conflict a group p).Respelled r (conflict b group' q) := by
          rw [conflict, conflict, hab.version, hpq.version]
          exact .crossGroupConflict _ _ hpq.name hab.group hgroup
        exact ⟨h.slots, h.inForce, List.rel_append h.problems (.cons hconflict .nil)⟩

theorem addMarker (h : s.Respelled r t) (i : Nat) (m : Marker) :
    (s.addMarker i m).Respelled r (t.addMarker i m) := by
  have hany : s.hasMarker m = t.hasMarker m :=
    any_of_forall₂ h.slots fun _ _ hslot => any_of_forall₂ hslot.entries fun _ _ he => he.isMarkerLike m
  rw [State.addMarker, State.addMarker, hany]
  split
  · exact h
  · exact h.modifySlot i fun _ _ hslot => hslot.push (.editable m)

theorem addEntry (h : s.Respelled r t) (i : Nat) {group group' : String}
    (hgroup : r.group group group') {e f : Entry} (hef : e.Respelled r f) :
    (s.addEntry i group e).Respelled r (t.addEntry i group' f) := by
  cases hef with
  | pin hpq => exact h.addPin i hgroup hpq
  | editable m => exact h.addMarker i m

/-- A group under another spelling goes to the same position. -/
theorem openSlot (h : s.Respelled r t) {name name' : String} (hname : r.group name name') :
    (s.openSlot name).1.Respelled r (t.openSlot name').1 ∧
      (s.openSlot name).2 = (t.openSlot name').2 := by
  have hfind : s.slots.findIdx? (·.key == Text.lowercase name) =
      t.slots.findIdx? (·.key == Text.lowercase name') :=
    findIdx?_of_forall₂ h.slots fun _ _ hslot => by rw [hslot.key, r.lowercase_eq hname]
  rw [State.openSlot, State.openSlot, hfind]
  split
  · exact ⟨h, rfl⟩
  · refine ⟨⟨List.rel_append h.slots (.cons ⟨hname, .nil, .nil⟩ .nil), h.inForce, h.problems⟩, ?_⟩
    exact h.slots.length_eq

/-! ## Groups, layers and merges -/

theorem addGroup (h : s.Respelled r t) {g g' : Group} (hg : g.Respelled r g') :
    (s.addGroup g).Respelled r (t.addGroup g') := by
  obtain ⟨hopen, hposition⟩ := h.openSlot hg.name
  change State.Respelled r (g.entries.foldl (State.addEntry (s.openSlot g.name).2 g.name) _)
    (g'.entries.foldl (State.addEntry (t.openSlot g'.name).2 g'.name) _)
  rw [hposition]
  exact List.rel_foldl (fun _ _ hst _ _ he => hst.addEntry _ hg.name he) hopen hg.entries

theorem nextLayer (h : s.Respelled r t) : s.nextLayer.Respelled r t.nextLayer := by
  have hslots := List.rel_map (fun _ _ hslot => Slot.Respelled.settle hslot) h.slots
  have hpins := List.rel_flatMap hslots fun _ _ hslot => Slot.Respelled.priorPins hslot
  refine ⟨hslots, ?_, h.problems⟩
  exact List.rel_map (fun _ _ hab => ⟨hab.2.key, hab.1, hab.2.version⟩)
    (firsts_of_forall₂ hpins fun _ _ hab => hab.2.key)

theorem addLayer (h : s.Respelled r t) {m n : Manifest} (hmn : m.Respelled r n) :
    (s.addLayer m).Respelled r (t.addLayer n) :=
  List.rel_foldl (fun _ _ hst _ _ hg => hst.addGroup hg) h.nextLayer hmn

theorem ofBase {m n : Manifest} (hmn : m.Respelled r n) : (State.ofBase m).Respelled r (.ofBase n) :=
  ⟨List.rel_map (fun _ _ hg => .ofGroup hg) hmn, .nil, .nil⟩

theorem ofLayers {ms ns : List Manifest} (h : List.Forall₂ (Manifest.Respelled r) ms ns) :
    (State.ofLayers ms).Respelled r (State.ofLayers ns) := by
  cases h with
  | nil => exact ⟨.nil, .nil, .nil⟩
  | cons hbase hlayers =>
    exact List.rel_foldl (fun _ _ hst _ _ hmn => hst.addLayer hmn) (ofBase hbase) hlayers

theorem finish (h : s.Respelled r t) :
    Agree (Report.Respelled r) (Manifest.Respelled r) s.finish t.finish := by
  refine (Report.ofProblems_respelled r h.problems).map fun _ _ _ => ?_
  have hgroups := List.rel_map (fun _ _ hslot => Slot.Respelled.toGroup hslot) h.slots
  exact mapIdx_of_forall₂ hgroups fun _ _ _ hg => ⟨hg.name, rfl, hg.entries⟩

end State.Respelled
end Merge

/-- Merges of manifests that are respellings of each other both succeed or both fail, with manifests
or reports that are respellings of each other. -/
theorem Manifest.merge_respelled {ms ns : List Manifest}
    (h : List.Forall₂ (Manifest.Respelled r) ms ns) :
    Agree (Report.Respelled r) (Manifest.Respelled r) (merge ms) (merge ns) := by
  rw [Merge.merge_eq_finish, Merge.merge_eq_finish]
  exact (Merge.State.Respelled.ofLayers h).finish

end Pinfile
