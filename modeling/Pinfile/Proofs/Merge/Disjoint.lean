import Pinfile.Proofs.Gathering
import Pinfile.Proofs.Merge.Markers
import Pinfile.Proofs.Merge.TopLayer

/-!
# Layers that have nothing in common

Two manifests that share no package and no marker are merged by gathering the groups of both
(`Manifest.merge_disjoint`): groups of one name become one group, and the entries follow each other
as the groups do. Validity is not asked for. A package may be pinned many times in the upper
manifest, with different versions, because a layer compares its pins with the layers below and not
with each other.

What the groups so far lack (`State.Lacks`) is added at the end of its group, entry by entry, so a
group of the layer goes to the end of a merged group as a whole (`State.addGroup_of_lacks`).
-/

namespace Pinfile
namespace Merge

/-! ## Putting groups to those that are there -/

/-- The merged group with more entries of the current layer. -/
def Slot.extend (s : Slot) (es : List Entry) : Slot := { s with added := s.added ++ es }

/-- What a merged group says, as a piece. -/
def Slot.piece (s : Slot) : Piece := ⟨s.name, s.entries⟩

theorem Slot.piece_extend (s : Slot) (es : List Entry) :
    (s.extend es).piece = s.piece.extend es := by
  simp [Slot.piece, Slot.extend, Piece.extend, Slot.entries]

theorem Slot.extend_push (s : Slot) (e : Entry) (es : List Entry) :
    (s.push e).extend es = s.extend (e :: es) := by
  simp [Slot.push, Slot.extend]

namespace State

variable {s : State} {i : Nat} {e : Entry} {es rest : List Entry}

/-- Puts a group as a whole to those that are there. -/
def appendGroup (s : State) (g : Group) : State :=
  (s.openSlot g.name).1.modifySlot (s.openSlot g.name).2 (·.extend g.entries)

/-- Putting a group to the merged ones is gathering it. -/
theorem map_piece_appendGroup (s : State) (g : Group) :
    (s.appendGroup g).slots.map Slot.piece = gather (s.slots.map Slot.piece) g.piece := by
  have hfind : (s.slots.map Slot.piece).findIdx? (·.key == g.piece.key) =
      s.slots.findIdx? fun slot => slot.key == Text.lowercase g.name := by
    rw [List.findIdx?_map]
    rfl
  unfold appendGroup openSlot gather modifySlot
  rw [hfind]
  cases s.slots.findIdx? fun slot => slot.key == Text.lowercase g.name with
  | some i => exact map_modify_eq (fun slot => slot.piece_extend g.entries) s.slots i
  | none =>
    dsimp only
    rw [modify_length_append, List.map_append]
    rfl

theorem map_piece_appendGroups (s : State) (gs : List Group) :
    (gs.foldl appendGroup s).slots.map Slot.piece =
      (gs.map Group.piece).foldl gather (s.slots.map Slot.piece) := by
  induction gs generalizing s with
  | nil => rfl
  | cons g gs ih =>
    rw [List.foldl_cons, ih, map_piece_appendGroup]
    rfl

theorem problems_openSlot (s : State) (name : String) :
    (s.openSlot name).1.problems = s.problems := by
  unfold openSlot
  split <;> rfl

theorem problems_appendGroups (s : State) (gs : List Group) :
    (gs.foldl appendGroup s).problems = s.problems :=
  List.foldlRecOn gs appendGroup (motive := fun t => t.problems = s.problems) rfl
    fun t ht g _ => (t.problems_openSlot g.name).trans ht

/-! ## Entries that are lacking -/

/-- Nothing is in force for the packages of the entries and the layers below do not have them, and
their markers are not there, either, and are different from each other. -/
structure Lacks (s : State) (es : List Entry) : Prop where
  inForce : ∀ p, .pin p ∈ es → s.inForce? p.key = none
  prior : ∀ p, .pin p ∈ es → ∀ slot ∈ s.slots, slot.hasPrior p.key = false
  asked : ∀ m ∈ es.filterMap Entry.asks?, m ∉ s.asked
  distinct : (es.filterMap Entry.asks?).Nodup

/-- An entry that is lacking is added to its group. -/
theorem addEntry_of_lacks (h : s.Lacks (e :: rest)) (i : Nat) (group : String) :
    s.addEntry i group e = s.modifySlot i (·.push e) := by
  cases e with
  | pin p =>
    change s.addPin i group p = _
    unfold addPin
    rw [h.inForce p (by simp)]
    refine modifySlot_congr fun slot hslot => ?_
    rw [h.prior p (by simp) slot (List.mem_of_getElem? hslot)]
    rfl
  | editable m =>
    have hm : ¬ s.hasMarker m = true := by
      rw [hasMarker_iff]
      exact h.asked m.asks (by simp [Entry.asks?, Entry.marker?])
    exact if_neg hm

/-- What is lacking besides an entry is lacking still when the entry was added. -/
theorem Lacks.push (h : s.Lacks (e :: rest)) (hi : i < s.slots.length) :
    (s.modifySlot i (·.push e)).Lacks rest := by
  have hcons : (e :: rest).filterMap Entry.asks? =
      e.asks?.toList ++ rest.filterMap Entry.asks? := by
    cases he : e.asks? <;> simp [he]
  obtain ⟨hasked, hdistinct⟩ := And.intro h.asked h.distinct
  rw [hcons] at hasked hdistinct
  obtain ⟨-, hrest, hnew⟩ := List.nodup_append.mp hdistinct
  refine ⟨fun p hp => h.inForce p (List.mem_cons_of_mem e hp), fun p hp slot hslot => ?_,
    fun m hm hmem => ?_, hrest⟩
  · obtain ⟨j, hj⟩ := List.mem_iff_getElem?.mp hslot
    rw [getElem?_modifySlot] at hj
    obtain ⟨before, hbefore, rfl⟩ := Option.map_eq_some_iff.mp hj
    have hprior := h.prior p (List.mem_cons_of_mem e hp) before (List.mem_of_getElem? hbefore)
    split
    · exact hprior
    · exact hprior
  · -- a marker that is asked for now was asked for before, or the entry asks for it
    obtain ⟨before, slot, after, hs, hpushed⟩ := exists_asked_modifySlot hi (·.push e)
    have hold : m ∉ before ++ (slot.asked ++ after) := by
      rw [← hs]
      exact hasked m (List.mem_append_right _ hm)
    rw [hpushed, Slot.asked_push] at hmem
    simp only [List.mem_append, not_or] at hmem hold
    obtain ⟨hbefore, hslot, hafter⟩ := hold
    rcases hmem with hmem | (hmem | hmem) | hmem
    · exact hbefore hmem
    · exact hslot hmem
    · exact hnew m hmem m hm rfl
    · exact hafter hmem

theorem Lacks.openSlot (h : s.Lacks es) (name : String) : (s.openSlot name).1.Lacks es := by
  have hasked := (s.asked_openSlot name).1
  refine ⟨fun p hp => ?_, fun p hp slot hslot => ?_, fun m hm => ?_, h.distinct⟩
  · rw [← h.inForce p hp]
    unfold State.openSlot
    split <;> rfl
  · unfold State.openSlot at hslot
    split at hslot
    · exact h.prior p hp slot hslot
    · rcases List.mem_append.mp hslot with hslot | hslot
      · exact h.prior p hp slot hslot
      · rw [List.mem_singleton.mp hslot]
        rfl
  · rw [hasked]
    exact h.asked m hm

/-- Entries that are lacking are added to their group one after the other. -/
theorem addEntries_of_lacks (h : s.Lacks (es ++ rest)) (hi : i < s.slots.length) (group : String) :
    es.foldl (addEntry i group) s = s.modifySlot i (·.extend es) ∧
      (s.modifySlot i (·.extend es)).Lacks rest := by
  induction es generalizing s with
  | nil =>
    have hnone : s.modifySlot i (·.extend []) = s :=
      modifySlot_eq_self fun slot _ => by simp [Slot.extend]
    rw [hnone]
    exact ⟨rfl, h⟩
  | cons e es ih =>
    have hpush : (s.modifySlot i (·.push e)).modifySlot i (·.extend es) =
        s.modifySlot i (·.extend (e :: es)) := by
      rw [modifySlot, modifySlot, modifySlot, List.modify_modify_eq]
      simp only [Function.comp_def, Slot.extend_push]
    obtain ⟨hfold, hlacks⟩ := ih (h.push hi) (by simpa using hi)
    rw [hpush] at hfold hlacks
    rw [List.foldl_cons, addEntry_of_lacks h]
    exact ⟨hfold, hlacks⟩

/-- A group that is lacking is put as a whole to those that are there. -/
theorem addGroup_of_lacks {g : Group} (h : s.Lacks (g.entries ++ rest)) :
    s.addGroup g = s.appendGroup g ∧ (s.appendGroup g).Lacks rest :=
  addEntries_of_lacks (h.openSlot g.name) (s.asked_openSlot g.name).2 g.name

theorem addGroups_of_lacks {gs : List Group} (h : s.Lacks (gs.flatMap Group.entries)) :
    gs.foldl addGroup s = gs.foldl appendGroup s := by
  induction gs generalizing s with
  | nil => rfl
  | cons g gs ih =>
    rw [List.flatMap_cons] at h
    obtain ⟨hadd, hlacks⟩ := addGroup_of_lacks h
    rw [List.foldl_cons, List.foldl_cons, hadd]
    exact ih hlacks

end State
end Merge

namespace Manifest

open Merge

variable {a b : Manifest}

/-- The entries of a manifest that has nothing in common with another are lacking there. -/
theorem lacks_ofBase (hpins : ∀ x ∈ a.pins, ∀ y ∈ b.pins, x.2.key ≠ y.2.key)
    (hnew : ∀ m ∈ b.asked, m ∉ a.asked) (hdistinct : b.asked.Nodup) :
    (State.ofBase a).nextLayer.Lacks (b.groups.flatMap Group.entries) := by
  have hasked : (b.groups.flatMap Group.entries).filterMap Entry.asks? = b.asked := by
    rw [List.filterMap_flatMap]
    rfl
  have hpin : ∀ p, .pin p ∈ b.groups.flatMap Group.entries → ∀ x ∈ a.pins, x.2.key ≠ p.key := by
    intro p hp x hx
    obtain ⟨g, hg, he⟩ := List.mem_flatMap.mp hp
    exact hpins x hx (g, p) (mem_pins_of_mem_entries hg he)
  refine ⟨fun p hp => ?_, fun p hp slot hslot => ?_, ?_, by rwa [hasked]⟩
  · rw [inForce?_ofBase, inForce, Option.map_eq_none_iff, List.find?_eq_none]
    intro x hx
    simpa using hpin p hp x hx
  · obtain ⟨before, hbefore, rfl⟩ := List.mem_map.mp hslot
    obtain ⟨g, hg, rfl⟩ := List.mem_map.mp hbefore
    have hpins : ((Slot.ofGroup g).settle.prior).filterMap Entry.pin? = g.pins := by
      simp [Slot.settle, Slot.entries, Slot.ofGroup, Group.pins]
    rw [Slot.hasPrior_eq_any, hpins, List.any_eq_false]
    intro q hq
    simpa using hpin p hp (g, q) (mem_pins_iff.mpr ⟨hg, hq⟩)
  · rw [hasked, State.asked_nextLayer, State.asked_ofBase]
    exact hnew

/-- Manifests that share no package and no marker are merged by gathering their groups. -/
theorem merge_disjoint (ha : a.DistinctGroups)
    (hpins : ∀ x ∈ a.pins, ∀ y ∈ b.pins, x.2.key ≠ y.2.key)
    (hnew : ∀ m ∈ b.asked, m ∉ a.asked) (hdistinct : b.asked.Nodup) :
    ∃ r, merge [a, b] = .ok r ∧ r.MadeOf ((a.groups ++ b.groups).map Group.piece) := by
  have hlayers : State.ofLayers [a, b] =
      b.groups.foldl State.appendGroup (State.ofBase a).nextLayer :=
    State.addGroups_of_lacks (lacks_ofBase hpins hnew hdistinct)
  have hbase : (State.ofBase a).nextLayer.slots.map Slot.piece = a.groups.map Group.piece := by
    rw [State.nextLayer, State.ofBase, List.map_map, List.map_map]
    refine List.map_congr_left fun g _ => ?_
    simp [Slot.piece, Slot.settle, Slot.entries, Slot.ofGroup, Group.piece]
  have hgroup : ((State.ofLayers [a, b]).slots.map Slot.toGroup).map Group.piece =
      (State.ofLayers [a, b]).slots.map Slot.piece := by
    rw [List.map_map]
    rfl
  refine ⟨_, merge_eq_ok_iff.mpr ⟨?_, rfl⟩, madeOf_ofGroups ?_⟩
  · rw [hlayers, State.problems_appendGroups]
    rfl
  · have hself : Gathered (a.groups.map Group.piece) (a.groups.map Group.piece) :=
      .self (List.pairwise_map.mpr ha)
    rw [hgroup, hlayers, State.map_piece_appendGroups, hbase, List.map_append]
    exact hself.foldl (b.groups.map Group.piece)

end Manifest
end Pinfile
