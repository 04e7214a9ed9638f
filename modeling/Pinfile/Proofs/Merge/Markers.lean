import Mathlib.Data.List.Nodup
import Mathlib.Data.List.Perm.Basic
import Pinfile.Proofs.Merge.Ledger

/-!
# Markers in a merge

Two markers are the same when they ask for the same path with the same features. A marker of a layer
is added unless some merged group has the same one already, in whichever group that is, so what the
markers ask for grows like a set: every step of a merge adds what is new and nothing else
(`asked_addEntry`). In the merged manifest stand the markers of the lowest layer as they are, and of
the other layers each that is new, once (`asked_ofLayers`).
-/

namespace Pinfile

/-- What a marker asks for: the marker with its line forgotten. -/
def Marker.asks (m : Marker) : Marker := { m with line := 0 }

/-- What an entry asks to be installed in editable form. -/
def Entry.asks? (e : Entry) : Option Marker := e.marker?.map Marker.asks

/-- What the markers of a group ask for, in order. -/
def Group.asked (g : Group) : List Marker := g.entries.filterMap Entry.asks?

/-- What the markers of a manifest ask for, in order. -/
def Manifest.asked (m : Manifest) : List Marker := m.groups.flatMap Group.asked

theorem Manifest.map_asks_markers (m : Manifest) : m.markers.map (·.2.asks) = m.asked := by
  rw [markers, asked, List.map_flatMap]
  refine List.flatMap_congr fun g _ => ?_
  rw [List.map_map, Group.markers, List.map_filterMap, Group.asked]
  rfl

theorem Marker.same_eq_false_iff (a b : Marker) : a.same b = false ↔ a.asks ≠ b.asks := by
  rw [← Bool.not_eq_true, Marker.same_iff]
  rfl

/-- The markers of a manifest ask for different things when no two of them are the same. -/
theorem Manifest.nodup_asked_iff {m : Manifest} :
    m.asked.Nodup ↔ m.markers.Pairwise fun a b => a.2.same b.2 = false := by
  rw [← map_asks_markers, List.nodup_iff_pairwise_ne, List.pairwise_map]
  simp only [Marker.same_eq_false_iff]

/-- Nothing that `b` asks for is asked for by `a` when no marker of the one is the same as one of the
other. -/
theorem Manifest.not_mem_asked_iff {a b : Manifest} :
    (∀ k ∈ b.asked, k ∉ a.asked) ↔
      ∀ x ∈ a.markers, ∀ y ∈ b.markers, x.2.same y.2 = false := by
  simp only [← map_asks_markers, Marker.same_eq_false_iff]
  constructor
  · intro h x hx y hy heq
    exact h y.2.asks (List.mem_map.mpr ⟨y, hy, rfl⟩) (List.mem_map.mpr ⟨x, hx, heq⟩)
  · intro h k hb ha
    obtain ⟨y, hy, rfl⟩ := List.mem_map.mp hb
    obtain ⟨x, hx, heq⟩ := List.mem_map.mp ha
    exact h x hx y hy heq

@[simp] theorem Entry.asks?_retarget (key version : String) (e : Entry) :
    (e.retarget key version).asks? = e.asks? := by
  cases e <;> rfl

namespace Merge

open scoped List

/-! ## Growing like a set -/

theorem union_append {α : Type} [DecidableEq α] (as bs cs : List α) :
    (as ++ bs) ∪ cs = as ∪ (bs ∪ cs) := by
  simp [Union.union, List.union]

/-- What is new in a union stands there once. -/
theorem count_union_of_not_mem {α : Type} [DecidableEq α] {as bs : List α} {a : α} (h : a ∉ bs) :
    (as ∪ bs).count a = if a ∈ as then 1 else 0 := by
  induction as with
  | nil => exact List.count_eq_zero_of_not_mem h
  | cons b as ih =>
    rw [List.cons_union]
    by_cases hb : b ∈ as ∪ bs
    · have hmem : a = b → a ∈ as := by
        rintro rfl
        exact (List.mem_union_iff.mp hb).resolve_right h
      rw [List.insert_of_mem hb, ih]
      simp only [List.mem_cons, or_iff_right_of_imp hmem]
    · rw [List.insert_of_not_mem hb, List.count_cons, ih]
      rw [List.mem_union_iff, not_or] at hb
      by_cases hab : b = a
      · subst hab
        simp [hb.1]
      · simp [hab, Ne.symm hab]

/-- A run whose steps each add what is new adds what is new. -/
theorem perm_foldl_union {σ α β : Type} [DecidableEq β] (asked : σ → List β) (step : σ → α → σ)
    (own : α → List β) (P : σ → Prop)
    (hstep : ∀ s a, P s → P (step s a) ∧ asked (step s a) ~ own a ∪ asked s)
    (as : List α) {s : σ} (hs : P s) :
    asked (as.foldl step s) ~ as.flatMap own ∪ asked s := by
  -- on the steps from the first; the order of what is added does not matter
  induction as generalizing s with
  | nil => exact List.Perm.refl _
  | cons a as ih =>
    obtain ⟨hnext, hadd⟩ := hstep s a hs
    calc asked (as.foldl step (step s a))
        ~ as.flatMap own ∪ asked (step s a) := ih hnext
      _ ~ as.flatMap own ∪ (own a ∪ asked s) := hadd.union_left _
      _ = (as.flatMap own ++ own a) ∪ asked s := (union_append _ _ _).symm
      _ ~ (own a ++ as.flatMap own) ∪ asked s := List.perm_append_comm.union_right _

/-! ## What the merged groups ask for -/

/-- What the markers of a merged group ask for. -/
def Slot.asked (s : Slot) : List Marker := s.entries.filterMap Entry.asks?

/-- What the markers of all merged groups ask for. -/
def State.asked (s : State) : List Marker := s.slots.flatMap Slot.asked

namespace Slot

@[simp] theorem asked_settle (s : Slot) : s.settle.asked = s.asked := by
  rw [asked, entries_settle, asked]

@[simp] theorem asked_retarget (key version : String) (s : Slot) :
    (s.retarget key version).asked = s.asked := by
  simp [asked, entries, retarget, List.filterMap_append, List.filterMap_map]

theorem asked_push (s : Slot) (e : Entry) : (s.push e).asked = s.asked ++ e.asks?.toList := by
  cases h : e.asks? <;> simp [asked, entries, push, h]

end Slot

namespace State

/-- A state has a marker when its groups ask for the same. -/
theorem hasMarker_iff (s : State) (m : Marker) : s.hasMarker m = true ↔ m.asks ∈ s.asked := by
  have hentry : ∀ e : Entry, e.isMarkerLike m = true ↔ e.asks? = some m.asks := by
    intro e
    cases e with
    | pin p => simp [Entry.isMarkerLike, Entry.asks?, Entry.marker?]
    | editable k => simp [Entry.isMarkerLike, Entry.asks?, Entry.marker?, Marker.asks, Marker.same_iff]
  simp only [hasMarker, List.any_eq_true, hentry, asked, Slot.asked, List.mem_flatMap,
    List.mem_filterMap]

/-- Changing a group changes what it asks for, and nothing else. -/
theorem exists_asked_modifySlot {s : State} {i : Nat} (hi : i < s.slots.length) (f : Slot → Slot) :
    ∃ before slot after, s.asked = before ++ (slot.asked ++ after) ∧
      (s.modifySlot i f).asked = before ++ ((f slot).asked ++ after) := by
  obtain ⟨before, slot, after, hslots, -, hmodify⟩ := List.exists_of_modify f hi
  refine ⟨before.flatMap Slot.asked, slot, after.flatMap Slot.asked, ?_, ?_⟩
  · rw [asked, hslots, List.flatMap_append, List.flatMap_cons]
  · rw [asked, modifySlot, hmodify, List.flatMap_append, List.flatMap_cons]

theorem asked_retarget (s : State) (key version : String) :
    (s.retarget key version).asked = s.asked := by
  rw [asked, slots_retarget, List.flatMap_map]
  exact List.flatMap_congr fun slot _ => slot.asked_retarget key version

theorem asked_place {s : State} {i : Nat} (hi : i < s.slots.length) (p : Pin) :
    (s.place i p).asked = s.asked := by
  obtain ⟨before, slot, after, hs, hplace⟩ := exists_asked_modifySlot hi
    fun slot => if slot.hasPrior p.key then slot else slot.push (.pin p)
  rw [place, hplace, hs]
  split
  · rfl
  · rw [Slot.asked_push]
    simp [Entry.asks?, Entry.marker?]

theorem asked_addPin {s : State} {i : Nat} (hi : i < s.slots.length) (group : String) (p : Pin) :
    (s.addPin i group p).asked = s.asked := by
  rcases s.addPin_cases i group p with ⟨-, hs⟩ | ⟨f, -, -, -, hs⟩ | ⟨f, -, -, -, hs⟩
  · rw [hs, asked_place hi]
  · rw [hs, asked_place (by simpa using hi), asked_retarget]
  · rw [hs]
    rfl

/-- Merging an entry adds what it asks for if it is new. -/
theorem asked_addEntry {s : State} {i : Nat} (hi : i < s.slots.length) (group : String)
    (e : Entry) : (s.addEntry i group e).asked ~ e.asks?.toList ∪ s.asked := by
  cases e with
  | pin p =>
    change (s.addPin i group p).asked ~ [] ∪ s.asked
    rw [asked_addPin hi, List.nil_union]
  | editable m =>
    change (s.addMarker i m).asked ~ [m.asks] ∪ s.asked
    rw [List.cons_union, List.nil_union]
    unfold addMarker
    split
    · next h => rw [List.insert_of_mem ((s.hasMarker_iff m).mp h)]
    · next h =>
      -- the marker is put at the end of its group, in the middle of what is asked
      rw [s.hasMarker_iff] at h
      rw [List.insert_of_not_mem h]
      obtain ⟨before, slot, after, hs, hpush⟩ :=
        exists_asked_modifySlot hi (·.push (.editable m))
      rw [hpush, hs, Slot.asked_push, List.append_assoc, ← List.append_assoc before,
        ← List.append_assoc before]
      exact List.perm_middle

/-- Opening a group asks for nothing. -/
theorem asked_openSlot (s : State) (name : String) :
    (s.openSlot name).1.asked = s.asked ∧
      (s.openSlot name).2 < (s.openSlot name).1.slots.length := by
  unfold openSlot
  split
  · next i hi =>
    obtain ⟨hlt, -, -⟩ := List.findIdx?_eq_some_iff_getElem.mp hi
    exact ⟨rfl, hlt⟩
  · refine ⟨?_, by simp⟩
    simp [asked, Slot.asked, Slot.entries]

theorem asked_addGroup (s : State) (g : Group) : (s.addGroup g).asked ~ g.asked ∪ s.asked := by
  obtain ⟨hasked, hlt⟩ := s.asked_openSlot g.name
  have hown : g.asked = g.entries.flatMap fun e => e.asks?.toList :=
    List.filterMap_eq_flatMap_toList _ _
  rw [← hasked, hown]
  refine perm_foldl_union asked _ _ (fun t => (s.openSlot g.name).2 < t.slots.length) ?_ g.entries
    hlt
  intro t e ht
  exact ⟨by rwa [length_slots_addEntry], asked_addEntry ht g.name e⟩

theorem asked_nextLayer (s : State) : s.nextLayer.asked = s.asked := by
  rw [asked, nextLayer, List.flatMap_map]
  exact List.flatMap_congr fun slot _ => slot.asked_settle

theorem asked_ofBase (base : Manifest) : (ofBase base).asked = base.asked := by
  rw [asked, ofBase, List.flatMap_map]
  refine List.flatMap_congr fun g _ => ?_
  rw [Slot.asked, Slot.entries]
  exact congrArg _ (List.append_nil _)

/-- Merging a layer adds what it asks for if it is new. -/
theorem asked_addLayer (s : State) (m : Manifest) : (s.addLayer m).asked ~ m.asked ∪ s.asked := by
  rw [← s.asked_nextLayer]
  exact perm_foldl_union asked addGroup Group.asked (fun _ => True)
    (fun t g _ => ⟨trivial, t.asked_addGroup g⟩) m.groups trivial

/-- The merged groups ask for what the lowest layer does, and for what is new in the others. -/
theorem asked_ofLayers (base : Manifest) (layers : List Manifest) :
    (State.ofLayers (base :: layers)).asked ~ layers.flatMap Manifest.asked ∪ base.asked := by
  rw [← asked_ofBase base]
  exact perm_foldl_union asked addLayer Manifest.asked (fun _ => True)
    (fun t m _ => ⟨trivial, t.asked_addLayer m⟩) layers trivial

end State

end Merge

namespace Manifest

open Merge
open scoped List

theorem asked_ofGroups (groups : List Group) :
    (ofGroups groups).asked = groups.flatMap Group.asked := by
  rw [asked, List.flatMap_def, List.flatMap_def]
  refine congrArg List.flatten (List.ext_getElem (by simp) fun i _ _ => ?_)
  simp [Group.asked]

/-- A merged manifest asks for what the lowest layer does, and for what is new in the others, each
once. -/
theorem asked_of_merge {base : Manifest} {layers : List Manifest} {r : Manifest}
    (hr : merge (base :: layers) = .ok r) : r.asked ~ layers.flatMap asked ∪ base.asked := by
  obtain ⟨-, rfl⟩ := merge_eq_ok_iff.mp hr
  rw [asked_ofGroups, List.flatMap_map]
  exact State.asked_ofLayers base layers

end Manifest
end Pinfile
