import Pinfile.Proofs.Manifest.WellFormed
import Pinfile.Proofs.Merge.Ledger

/-!
# One layer on top of a merged manifest

The layers merged so far go into the next layer as the manifest that they give, and as nothing else:
merging a layer on top of them is merging it on top of that manifest (`merge_append_of_ok`). What
the top layer does is therefore said for two manifests, whatever they hold. The layer is accepted
when none of its pins is refused (`exists_merge_pair_iff`). A merged group then has the pins of the
lower manifest, with the versions that the layer has replaced, and after them the pins of the layer
whose packages are new to the group (`pinsIn_merge_pair`).

Of the lower manifest it is only asked that its groups have different names. That is so for a
manifest that was read from a text, and merging keeps it (`distinctGroups_of_merge`).
-/

namespace Pinfile

namespace Merge

/-! ## Conflicts are not forgotten -/

/-- A run whose steps only add to a list only adds to it. -/
theorem prefix_foldl {σ α β : Type} (found : σ → List β) (step : σ → α → σ)
    (hstep : ∀ s a, found s <+: found (step s a)) (as : List α) (s : σ) :
    found s <+: found (as.foldl step s) := by
  induction as generalizing s with
  | nil => exact List.prefix_rfl
  | cons a as ih => exact (hstep s a).trans (ih _)

/-- In a run that finds nothing, what one element brings about and no element takes away is there in
the end. -/
theorem of_mem_foldl {σ α β : Type} {found : σ → List β} {step : σ → α → σ}
    (hfound : ∀ s a, found s <+: found (step s a)) {P Q : σ → Prop} {as : List α}
    (hP : ∀ s, ∀ a ∈ as, P s → P (step s a))
    (hQ : ∀ s, ∀ a ∈ as, Q s → Q (step s a)) {a : α} (ha : a ∈ as)
    (hstep : ∀ s, P s → found s = [] → found (step s a) = [] → Q (step s a)) {s : σ}
    (hs : P s) (hnone : found (as.foldl step s) = []) : Q (as.foldl step s) := by
  induction as generalizing s with
  | nil => exact absurd ha List.not_mem_nil
  | cons b as ih =>
    have hrest : ∀ t, ∀ c ∈ as, Q t → Q (step t c) := fun t c hc =>
      hQ t c (List.mem_cons_of_mem b hc)
    rcases List.mem_cons.mp ha with rfl | ha
    · have hnext : found (step s a) = [] := by
        have hprefix := prefix_foldl found step hfound as (step s a)
        rwa [← List.foldl_cons, hnone, List.prefix_nil] at hprefix
      have hfirst : found s = [] := by
        have hprefix := hfound s a
        rwa [hnext, List.prefix_nil] at hprefix
      exact List.foldlRecOn as step (hstep s hs hfirst hnext) fun t ht c hc => hrest t c hc ht
    · exact ih (fun t c hc => hP t c (List.mem_cons_of_mem b hc)) hrest ha
        (hP s b (by simp) hs) hnone

namespace State

theorem prefix_problems_addEntry (i : Nat) (group : String) (s : State) (e : Entry) :
    s.problems <+: (s.addEntry i group e).problems := by
  cases e with
  | pin p =>
    change s.problems <+: (s.addPin i group p).problems
    rcases s.addPin_cases i group p with ⟨-, hs⟩ | ⟨f, -, -, -, hs⟩ | ⟨f, -, -, -, hs⟩
    · rw [hs]
      exact List.prefix_rfl
    · rw [hs]
      exact List.prefix_rfl
    · rw [hs]
      exact List.prefix_append _ _
  | editable m =>
    change s.problems <+: (s.addMarker i m).problems
    unfold addMarker
    split <;> exact List.prefix_rfl

theorem prefix_problems_addGroup (s : State) (g : Group) :
    s.problems <+: (s.addGroup g).problems := by
  have hopen : (s.openSlot g.name).1.problems = s.problems := by
    unfold openSlot
    split <;> rfl
  rw [← hopen]
  exact prefix_foldl problems _ (prefix_problems_addEntry (s.openSlot g.name).2 g.name) g.entries _

/-- A layer adds to the conflicts that were found below it. -/
theorem prefix_problems_addLayer (s : State) (m : Manifest) :
    s.problems <+: (s.addLayer m).problems :=
  prefix_foldl problems addGroup prefix_problems_addGroup m.groups s.nextLayer

/-! ## Going on from a merged manifest -/

/-- A state without conflicts and the manifest that it gives are the same to the next layer. -/
theorem nextLayer_ofBase {s : State} (h : s.problems = []) :
    (ofBase (Manifest.ofGroups (s.slots.map Slot.toGroup))).nextLayer = s.nextLayer := by
  have hslots : (ofBase (Manifest.ofGroups (s.slots.map Slot.toGroup))).slots.map Slot.settle =
      s.slots.map Slot.settle := by
    apply List.ext_getElem
    · simp [ofBase]
    · intro i _ _
      simp [ofBase, Slot.ofGroup, Slot.toGroup, Slot.settle, Slot.entries]
  rw [nextLayer, nextLayer, hslots, h]
  rfl

end State

end Merge

namespace Manifest

open Merge

/-- Merging a layer on top of some layers is merging it on top of what they give. -/
theorem merge_append_of_ok {ms : List Manifest} (hms : ms ≠ []) {b : Manifest}
    (hb : merge ms = .ok b) (l : Manifest) : merge (ms ++ [l]) = merge [b, l] := by
  obtain ⟨hnone, rfl⟩ := merge_eq_ok_iff.mp hb
  rw [merge_eq_finish, merge_eq_finish, State.ofLayers_append_singleton hms]
  change (State.addLayer (State.ofLayers ms) l).finish = (State.addLayer (.ofBase _) l).finish
  rw [State.addLayer, State.addLayer, State.nextLayer_ofBase hnone]

/-- Where a merge succeeds, the merge without the top layer does, and goes on to the same. -/
theorem exists_merge_of_append {ms : List Manifest} (hms : ms ≠ []) {l r : Manifest}
    (hr : merge (ms ++ [l]) = .ok r) : ∃ b, merge ms = .ok b ∧ merge [b, l] = .ok r := by
  obtain ⟨hnone, -⟩ := merge_eq_ok_iff.mp hr
  rw [State.ofLayers_append_singleton hms] at hnone
  have hbelow : (State.ofLayers ms).problems = [] := by
    have hprefix := State.prefix_problems_addLayer (State.ofLayers ms) l
    rwa [hnone, List.prefix_nil] at hprefix
  have hb : merge ms = .ok (ofGroups ((State.ofLayers ms).slots.map Slot.toGroup)) :=
    merge_eq_ok_iff.mpr ⟨hbelow, rfl⟩
  exact ⟨_, hb, by rw [← merge_append_of_ok hms hb, hr]⟩

/-! ## Distinct names -/

theorem distinct_ofLayers {ms : List Manifest} (h : ∀ m ∈ ms, m.DistinctGroups) :
    (State.ofLayers ms).slots.Pairwise fun a b => a.key ≠ b.key := by
  induction ms using List.reverseRecOn with
  | nil => exact List.Pairwise.nil
  | append_singleton ms m ih =>
    by_cases hms : ms = []
    · subst hms
      exact List.pairwise_map.mpr (h m (by simp))
    · rw [State.ofLayers_append_singleton hms]
      exact (layerRun_addLayer (ih fun t ht => h t (List.mem_append_left _ ht)) m).distinct

/-- A group of a merged manifest is a merged group. -/
theorem mem_groups_finish {slots : List Slot} {g : Group}
    (h : g ∈ (ofGroups (slots.map Slot.toGroup)).groups) :
    ∃ slot ∈ slots, g.name = slot.name ∧ g.entries = slot.entries := by
  obtain ⟨i, hi, rfl⟩ := List.mem_mapIdx.mp h
  obtain ⟨slot, hslot, hgroup⟩ := List.mem_map.mp (List.getElem_mem hi)
  exact ⟨slot, hslot, by rw [← hgroup]; rfl, by rw [← hgroup]; rfl⟩

/-- A merged group is a group of the merged manifest. -/
theorem exists_group_of_slot {slots : List Slot} {slot : Slot} (h : slot ∈ slots) :
    ∃ g ∈ (ofGroups (slots.map Slot.toGroup)).groups,
      g.name = slot.name ∧ g.entries = slot.entries := by
  obtain ⟨i, hi, rfl⟩ := List.mem_iff_getElem.mp h
  refine ⟨{ slots[i].toGroup with ordinal := i }, List.mem_mapIdx.mpr ⟨i, by simpa, ?_⟩, rfl, rfl⟩
  simp

/-- Merging manifests of distinct groups gives distinct groups. -/
theorem distinctGroups_of_merge {ms : List Manifest} {r : Manifest}
    (h : ∀ m ∈ ms, m.DistinctGroups) (hr : merge ms = .ok r) : r.DistinctGroups := by
  obtain ⟨-, rfl⟩ := merge_eq_ok_iff.mp hr
  have hnames : ((State.ofLayers ms).slots.map Slot.name).Pairwise
      fun a b => Text.lowercase a ≠ Text.lowercase b :=
    List.pairwise_map.mpr (distinct_ofLayers h)
  rw [DistinctGroups, Group.pairwise_key_iff, map_name_ofGroups, List.map_map]
  exact hnames

/-! ## The top layer on a manifest -/

/-- What a manifest puts in force for the layer on top of it: the first pin of the package. -/
def inForce (b : Manifest) (key : String) : Option InForce :=
  (b.pins.find? (·.2.key == key)).map fun a => ⟨a.2.key, a.1.name, a.2.version⟩

/-- The pins of the layer `l` in the groups of the given lowercase name whose packages the manifest
`b` does not have there. -/
def newPins (b l : Manifest) (group : String) : List Pin :=
  (pinsIn group l.pins).filter fun p => !(pinsIn group b.pins).any (·.key == p.key)

theorem inForce?_ofBase (b : Manifest) (key : String) :
    (State.ofBase b).nextLayer.inForce? key = b.inForce key := by
  have hprior : ((State.ofBase b).slots.map Slot.settle).flatMap Slot.priorPins =
      b.pins.map fun a => (a.1.name, a.2) := by
    rw [State.ofBase, List.map_map, List.flatMap_map, pins, List.map_flatMap]
    refine List.flatMap_congr fun g _ => ?_
    simp [Slot.priorPins, Slot.settle, Slot.entries, Slot.ofGroup, Group.pins]
  rw [State.inForce?, State.nextLayer, State.indexPrior, hprior, List.find?_map]
  simp only [Function.comp_def]
  rw [find?_firsts, List.find?_map, inForce, Option.map_map]
  rfl

theorem pinsIn_eq_nil_of {m : Manifest} {group : String} (h : ∀ g ∈ m.groups, g.key ≠ group) :
    pinsIn group m.pins = [] := by
  apply List.eq_nil_iff_forall_not_mem.mpr
  intro p hp
  obtain ⟨a, ha, hkey, -⟩ := mem_pinsIn_iff.mp hp
  exact h a.1 (mem_pins_iff.mp ha).1 hkey

variable {b l r : Manifest}

/-- The pins that the lower manifest leaves in a group are the group's pins. -/
theorem pins_priorOf_ofBase (hb : b.DistinctGroups) (group : String) :
    ((State.ofBase b).nextLayer.priorOf group).filterMap Entry.pin? = pinsIn group b.pins := by
  rw [State.priorOf, State.nextLayer, State.ofBase, List.map_map, List.find?_map]
  cases hfind : b.groups.find? ((·.key == group) ∘ (Slot.settle ∘ Slot.ofGroup)) with
  | some g =>
    have hkey : g.key = group := by simpa using List.find?_some hfind
    rw [← hkey, hb.pinsIn_key (List.mem_of_find?_eq_some hfind)]
    simp [Slot.settle, Slot.entries, Slot.ofGroup, Group.pins]
  | none =>
    rw [List.find?_eq_none] at hfind
    rw [pinsIn_eq_nil_of fun g hg => by simpa using hfind g hg]
    rfl

/-- The walk along the top layer, from what the lower manifest puts in force. -/
theorem layerRun_pair (hb : b.DistinctGroups) (l : Manifest) :
    LayerRun (State.ofBase b).nextLayer (l.groups.map Group.name) l.pins
      ((State.ofBase b).addLayer l) ∧ (State.ofBase b).nextLayer.inForce? = b.inForce := by
  have hslots : (State.ofBase b).slots.Pairwise fun s t => s.key ≠ t.key :=
    List.pairwise_map.mpr hb
  exact ⟨layerRun_addLayer hslots l, funext (inForce?_ofBase b)⟩

/-- The top layer is accepted when none of its pins is refused. -/
theorem exists_merge_pair_iff (hb : b.DistinctGroups) :
    (∃ r, merge [b, l] = .ok r) ↔ refusals b.inForce l.pins = [] := by
  obtain ⟨hrun, hstart⟩ := layerRun_pair hb l
  have hproblems : (State.ofLayers [b, l]).problems = refusals b.inForce l.pins := by
    rw [← hstart]
    exact hrun.problems
  simp [merge_eq_ok_iff, hproblems]

/-- In an accepted top layer no pin is refused. -/
theorem refusals_of_merge_pair (hb : b.DistinctGroups) (hr : merge [b, l] = .ok r) :
    refusals b.inForce l.pins = [] :=
  (exists_merge_pair_iff hb).mp ⟨r, hr⟩

/-- The merged groups go by the names of the two manifests. -/
theorem exists_slot_iff (hb : b.DistinctGroups) (group : String) :
    (∃ slot ∈ (State.ofLayers [b, l]).slots, slot.key = group) ↔
      ∃ g, (g ∈ b.groups ∨ g ∈ l.groups) ∧ g.key = group := by
  have hnames : (State.ofLayers [b, l]).slots.map Slot.name =
      firsts Text.lowercase (b.groups.map Group.name ++ l.groups.map Group.name) := by
    refine (layerRun_pair hb l).1.slotNames.trans (congrArg (firsts Text.lowercase <| · ++ _) ?_)
    simp [State.nextLayer, State.ofBase, Slot.settle, Slot.ofGroup]
  have hslot : (∃ slot ∈ (State.ofLayers [b, l]).slots, slot.key = group) ↔
      ((State.ofLayers [b, l]).slots.map Slot.name).any (Text.lowercase · == group) = true := by
    simp [Slot.key]
  rw [hslot, hnames, any_firsts]
  simp [Group.key, or_and_right, exists_or]

/-- An accepted top layer leaves in a merged group what the lower manifest had there, with the
versions that were replaced, and adds its own pins whose packages are new there. -/
theorem pins_slot (hb : b.DistinctGroups) (hnone : refusals b.inForce l.pins = []) {slot : Slot}
    (hslot : slot ∈ (State.ofLayers [b, l]).slots) :
    slot.pins = (pinsIn slot.key b.pins).map (withLast (replacing b.inForce l.pins)) ++
      b.newPins l slot.key := by
  obtain ⟨hrun, hstart⟩ := layerRun_pair hb l
  obtain ⟨hprior, hadded⟩ := hrun.holds slot hslot
  rw [hstart] at hprior hadded
  have hleft : slot.prior.filterMap Entry.pin? =
      (pinsIn slot.key b.pins).map (withLast (replacing b.inForce l.pins)) := by
    rw [hprior, List.filterMap_map, ← pins_priorOf_ofBase hb, List.map_filterMap]
    exact List.filterMap_congr fun e _ => pin?_retargetAll _ e
  have hhas : ∀ key, slot.hasPrior key = (pinsIn slot.key b.pins).any (·.key == key) := by
    intro key
    rw [Slot.hasPrior_eq_any, hleft, List.any_map]
    rfl
  rw [Slot.pins, Slot.entries, List.filterMap_append, hleft, hadded, accepted_eq_self hnone]
  simp only [hhas]
  rfl

/-- Where merging a layer on top succeeds, a group has the lower manifest's pins with the versions
that were replaced, and then the layer's pins whose packages are new there. -/
theorem pinsIn_merge_pair (hb : b.DistinctGroups) (hl : l.DistinctGroups)
    (hr : merge [b, l] = .ok r) (group : String) :
    pinsIn group r.pins =
      (pinsIn group b.pins).map (withLast (replacing b.inForce l.pins)) ++ b.newPins l group := by
  have hdistinct : r.DistinctGroups := distinctGroups_of_merge (by simp [hb, hl]) hr
  have hnone := refusals_of_merge_pair hb hr
  obtain ⟨-, rfl⟩ := merge_eq_ok_iff.mp hr
  by_cases hslot : ∃ slot ∈ (State.ofLayers [b, l]).slots, slot.key = group
  · obtain ⟨slot, hslot, rfl⟩ := hslot
    obtain ⟨g, hg, hname, hentries⟩ := exists_group_of_slot hslot
    have hkey : g.key = slot.key := congrArg Text.lowercase hname
    rw [← pins_slot hb hnone hslot, ← hkey, hdistinct.pinsIn_key hg, Group.pins, hentries]
    rfl
  · -- neither manifest has a group of the name, so there is nothing on either side
    have hmissing : ∀ g, g ∈ b.groups ∨ g ∈ l.groups → g.key ≠ group := by
      intro g hg hkey
      exact hslot ((exists_slot_iff hb group).mpr ⟨g, hg, hkey⟩)
    rw [newPins, pinsIn_eq_nil_of fun g hg => hmissing g (Or.inl hg),
      pinsIn_eq_nil_of fun g hg => hmissing g (Or.inr hg)]
    refine pinsIn_eq_nil_of fun g hg hkey => ?_
    obtain ⟨slot, hmem, hname, -⟩ := mem_groups_finish hg
    exact hslot ⟨slot, hmem, by rw [Slot.key, ← hname]; exact hkey⟩

/-- What is said of the pins of a manifest is said of those of every group name. -/
theorem forall_pins_iff (m : Manifest) (P : Pin → Prop) :
    (∀ a ∈ m.pins, P a.2) ↔ ∀ group, ∀ p ∈ pinsIn group m.pins, P p := by
  constructor
  · intro h group p hp
    obtain ⟨a, ha, -, rfl⟩ := mem_pinsIn_iff.mp hp
    exact h a ha
  · intro h a ha
    exact h a.1.key a.2 (mem_pinsIn_iff.mpr ⟨a, ha, rfl, rfl⟩)

/-- The pins after a successful merge are those of the lower manifest, with the versions that were
replaced, and the new ones. -/
theorem forall_merge_pair_iff (hb : b.DistinctGroups) (hl : l.DistinctGroups)
    (hr : merge [b, l] = .ok r) (P : Pin → Prop) :
    (∀ a ∈ r.pins, P a.2) ↔
      (∀ a ∈ b.pins, P (withLast (replacing b.inForce l.pins) a.2)) ∧
        ∀ group, ∀ p ∈ b.newPins l group, P p := by
  rw [forall_pins_iff r P, forall_pins_iff b fun p => P (withLast _ p), ← forall_and]
  refine forall_congr' fun group => ?_
  rw [pinsIn_merge_pair hb hl hr]
  simp only [List.forall_mem_append, List.forall_mem_map]

/-! ## Replaced versions -/

/-- The layer gives the package another version than the one that the lower manifest puts in
force. -/
def Moves (l b : Manifest) (key : String) : Prop :=
  ∃ f, b.inForce key = some f ∧ ∃ a ∈ l.pins, a.2.key = key ∧ a.2.version ≠ f.version

theorem exists_inForce {a : Group × Pin} (ha : a ∈ b.pins) :
    ∃ f, b.inForce a.2.key = some f ∧ ∃ c ∈ b.pins, c.2.key = a.2.key ∧ f.version = c.2.version := by
  cases hfind : b.pins.find? (·.2.key == a.2.key) with
  | none => exact absurd (beq_self_eq_true _) (List.find?_eq_none.mp hfind a ha)
  | some c =>
    refine ⟨_, by rw [inForce, hfind]; rfl, c, List.mem_of_find?_eq_some hfind, ?_, rfl⟩
    simpa using List.find?_some hfind

/-- Where a layer does not move a package, its pins have the version in force. -/
theorem version_eq_of_not_moves {key : String} (h : ¬ l.Moves b key) {f : InForce}
    (hf : b.inForce key = some f) {a : Group × Pin} (ha : a ∈ l.pins) (hkey : a.2.key = key) :
    a.2.version = f.version := by
  by_contra hv
  exact h ⟨f, hf, a, ha, hkey, hv⟩

theorem Moves.exists_lastVersion? {key : String} (h : l.Moves b key) :
    ∃ version, lastVersion? key l.pins = some version := by
  obtain ⟨-, -, a, ha, rfl, -⟩ := h
  exact Merge.exists_lastVersion? ha

/-- The pins of a package that an accepted layer moves get the last version that the layer gives
it. -/
theorem withLast_of_moves (hnone : refusals b.inForce l.pins = []) {p : Pin}
    (h : l.Moves b p.key) {version : String} (hlast : lastVersion? p.key l.pins = some version) :
    withLast (replacing b.inForce l.pins) p = p.withVersion version := by
  obtain ⟨f, hf, a, ha, hkey, hv⟩ := h
  rw [withLast, lastVersion?_replacing hf hnone ha hkey hv, hlast, Option.getD_some]

/-- The other pins stay as they are. -/
theorem withLast_of_not_moves (hnone : refusals b.inForce l.pins = []) {a : Group × Pin}
    (ha : a ∈ b.pins) (h : ¬ l.Moves b a.2.key) :
    withLast (replacing b.inForce l.pins) a.2 = a.2 := by
  obtain ⟨f, hf, -⟩ := exists_inForce ha
  have hkeep := (lastVersion?_replacing_eq_none_iff hf hnone).mpr fun c hc hkey =>
    version_eq_of_not_moves h hf hc hkey
  rw [withLast, hkeep]
  rfl

end Manifest
end Pinfile
