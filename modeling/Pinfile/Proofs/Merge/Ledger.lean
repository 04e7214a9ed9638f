import Mathlib.Data.List.Basic
import Mathlib.Data.List.Find
import Pinfile.Proofs.Merge.Clean
import Pinfile.Proofs.Merge.Layer

/-!
# What clean layers leave behind

A `Ledger` records what the layers merged so far have contributed: the names of their groups and
their accepted pins. For clean layers it says everything about the merged groups (`Settled`): their
names, their pins with versions (`Ledger.held`), what is in force for the next layer
(`Ledger.start`), and which conflicts that layer has.

The main statement is that merging keeps this, whether or not a layer has conflicts
(`settled_ofLayers`). The step (`Settled.addLayer`) rests on the walk of a layer and on the two places
where cleanness counts: a layer adds no package twice to a group, and what it adds has the version
that it also gives to the package elsewhere.
-/

namespace Pinfile.Merge

/-! ## The ledger -/

/-- What some layers have contributed: the names of their groups and their accepted pins, the lowest
layer first. -/
structure Ledger where
  names : List String := []
  pins : List (Group × Pin) := []
  /-- Every pin stands in a group of the layers. -/
  owned : ∀ a ∈ pins, a.1.name ∈ names := by simp

namespace Ledger

/-- The merged group, as it is spelled, in which a package stands first. -/
def firstGroup? (l : Ledger) (key : String) : Option String :=
  (firsts Text.lowercase l.names).find? fun name =>
    (pinsIn (Text.lowercase name) l.pins).any (·.key == key)

/-- What is in force for a package before the next layer. -/
def start (l : Ledger) (key : String) : Option InForce :=
  (l.firstGroup? key).bind fun group =>
    (lastVersion? key l.pins).map fun version => ⟨key, group, version⟩

/-- What the merged group of the given key has to hold: the first pin of each package, with the
version that the package got last. -/
def held (l : Ledger) (group : String) : List Pin :=
  (firsts Pin.key (pinsIn group l.pins)).map (withLast l.pins)

/-- The contributions with those of one more layer. -/
def addLayer (l : Ledger) (m : Manifest) : Ledger where
  names := l.names ++ m.groups.map Group.name
  pins := l.pins ++ accepted l.start m.pins
  owned := by
    intro a ha
    rcases List.mem_append.mp ha with ha | ha
    · exact List.mem_append_left _ (l.owned a ha)
    · have hgroup := (Manifest.mem_pins_iff.mp ((accepted_sublist m.pins).mem ha)).1
      exact List.mem_append_right _ (List.mem_map_of_mem hgroup)

@[simp] theorem names_addLayer (l : Ledger) (m : Manifest) :
    (l.addLayer m).names = l.names ++ m.groups.map Group.name := rfl

@[simp] theorem pins_addLayer (l : Ledger) (m : Manifest) :
    (l.addLayer m).pins = l.pins ++ accepted l.start m.pins := rfl

/-- The contributions of some layers, the lowest first. -/
def ofLayers (ms : List Manifest) : Ledger := ms.foldl addLayer {}

theorem ofLayers_append_singleton (ms : List Manifest) (m : Manifest) :
    ofLayers (ms ++ [m]) = (ofLayers ms).addLayer m := by
  simp [ofLayers]

/-- The group of a pin is known under its first spelling. -/
theorem exists_name {l : Ledger} {a : Group × Pin} (ha : a ∈ l.pins) :
    ∃ name ∈ firsts Text.lowercase l.names, Text.lowercase name = a.1.key :=
  exists_mem_firsts (l.owned a ha)

/-- A package that was pinned is in force with its last version. -/
theorem exists_start {l : Ledger} {key version : String}
    (h : lastVersion? key l.pins = some version) :
    ∃ group, l.start key = some ⟨key, group, version⟩ := by
  obtain ⟨a, ha, hkey, -⟩ := exists_of_lastVersion? h
  have hfirst : (l.firstGroup? key).isSome := by
    rw [firstGroup?, List.find?_isSome]
    obtain ⟨name, hname, hlower⟩ := exists_name ha
    refine ⟨name, hname, List.any_eq_true.mpr ⟨a.2, ?_, by simp [hkey]⟩⟩
    exact mem_pinsIn_iff.mpr ⟨a, ha, hlower.symm, rfl⟩
  obtain ⟨group, hgroup⟩ := Option.isSome_iff_exists.mp hfirst
  exact ⟨group, by rw [start, hgroup, h]; rfl⟩

theorem start_eq_none {l : Ledger} {key : String} (h : lastVersion? key l.pins = none) :
    l.start key = none := by
  rw [start, h]
  cases l.firstGroup? key <;> rfl

/-- Before the first layer nothing is in force. -/
@[simp] theorem start_empty (key : String) : ({} : Ledger).start key = none := start_eq_none rfl

/-- The lowest layer has no conflict. -/
theorem refusals_start_empty (pins : List (Group × Pin)) :
    refusals ({} : Ledger).start pins = [] := by
  rw [refusals_eq_nil_iff]
  intro pair _
  simp [refuses, inForceAfter]

theorem keys_held (l : Ledger) (group : String) :
    (l.held group).map Pin.key = firsts id ((pinsIn group l.pins).map Pin.key) := by
  rw [held, List.map_map, firsts_map]
  rfl

theorem held_pairwise (l : Ledger) (group : String) :
    (l.held group).Pairwise fun p q => p.key ≠ q.key :=
  List.pairwise_map.mpr (firsts_pairwise _)

/-- A pin that a merged group has to hold is the first of its package in the group and has the last
version of its package. -/
theorem exists_of_mem_held {l : Ledger} {group : String} {p : Pin} (h : p ∈ l.held group) :
    ∃ q, (pinsIn group l.pins).find? (·.key == p.key) = some q ∧ q.name = p.name ∧
      q.isOverride = p.isOverride ∧ lastVersion? p.key l.pins = some p.version := by
  obtain ⟨q, hq, rfl⟩ := List.mem_map.mp h
  refine ⟨q, find?_of_mem_firsts hq, rfl, rfl, ?_⟩
  obtain ⟨a, ha, -, rfl⟩ := mem_pinsIn_iff.mp (mem_of_mem_firstsAfter hq)
  obtain ⟨version, hlast⟩ := exists_lastVersion? ha
  rw [key_withLast, withLast, hlast]
  rfl

/-- What a merged group keeps from the layers below is what the ledger with the next layer says
about their packages. -/
theorem map_held (l : Ledger) (m : Manifest) (group : String) :
    (l.held group).map (withLast (replacing l.start m.pins)) =
      (firsts Pin.key (pinsIn group l.pins)).map (withLast (l.addLayer m).pins) := by
  rw [held, List.map_map]
  apply List.map_congr_left
  intro p hp
  obtain ⟨a, ha, -, rfl⟩ := mem_pinsIn_iff.mp (mem_of_mem_firstsAfter hp)
  obtain ⟨version, hlast⟩ := exists_lastVersion? ha
  obtain ⟨g, hg⟩ := exists_start hlast
  -- what was replaced and what was accepted lead to the same version in force
  obtain ⟨hacc, hrep⟩ := inForceAfter_eq hg m.pins
  have hsame : (lastVersion? a.2.key (accepted l.start m.pins)).getD version =
      (lastVersion? a.2.key (replacing l.start m.pins)).getD version :=
    congrArg InForce.version (Option.some.inj (hacc.symm.trans hrep))
  have hadd : (lastVersion? a.2.key (l.addLayer m).pins).getD a.2.version =
      (lastVersion? a.2.key (accepted l.start m.pins)).getD version := by
    rw [pins_addLayer, lastVersion?_append, hlast]
    cases lastVersion? a.2.key (accepted l.start m.pins) <;> rfl
  rw [Function.comp_apply, withLast, withLast, withLast, Pin.key_withVersion,
    withVersion_withVersion, hadd, hsame, hlast]
  rfl

end Ledger

/-! ## Ledger and state -/

/-- Between two layers, the merged groups are those of the ledger. -/
structure Settled (l : Ledger) (s : State) : Prop where
  slotNames : s.slots.map Slot.name = firsts Text.lowercase l.names
  pins : ∀ slot ∈ s.slots, slot.pins = l.held slot.key

/-- The merged group in which a package stands first. -/
def State.firstSlot? (s : State) (key : String) : Option Slot :=
  s.slots.find? fun slot => slot.pins.any (·.key == key)

/-- Before a layer, the first pin of a package says what is in force for it. -/
theorem State.inForce?_nextLayer (s : State) (key : String) :
    s.nextLayer.inForce? key = (s.firstSlot? key).bind fun slot =>
      (slot.pins.find? (·.key == key)).map fun p => ⟨p.key, slot.name, p.version⟩ := by
  have hprior : ∀ slot : Slot, slot.settle.priorPins = slot.pins.map fun p => (slot.name, p) :=
    fun slot => rfl
  rw [State.inForce?, State.nextLayer, State.indexPrior, List.find?_map]
  simp only [Function.comp_def]
  rw [find?_firsts, List.flatMap_map, find?_flatMap_eq, Option.map_bind]
  simp only [hprior, List.any_map, List.find?_map, Function.comp_def, Option.map_map]
  rfl

namespace Settled

variable {l : Ledger} {s : State}

theorem distinct (h : Settled l s) : s.slots.Pairwise fun a b => a.key ≠ b.key :=
  slots_pairwise_of_firsts h.slotNames

/-- The group in which a package stands first is the one that the ledger says. -/
theorem firstGroup?_eq (h : Settled l s) (key : String) :
    l.firstGroup? key = (s.firstSlot? key).map Slot.name := by
  have hany : ∀ slot ∈ s.slots,
      slot.pins.any (·.key == key) = (pinsIn slot.key l.pins).any (·.key == key) := by
    intro slot hslot
    rw [h.pins slot hslot, Ledger.held, List.any_map, ← any_firsts]
    rfl
  rw [Ledger.firstGroup?, ← h.slotNames, List.find?_map, State.firstSlot?, List.find?_congr hany]
  rfl

/-- What is in force for the next layer is what the ledger says. -/
theorem start (h : Settled l s) (key : String) : s.nextLayer.inForce? key = l.start key := by
  rw [State.inForce?_nextLayer, Ledger.start, h.firstGroup?_eq]
  cases hslot : s.firstSlot? key with
  | none => rfl
  | some slot =>
    have hany : slot.pins.any (·.key == key) = true := by
      rw [State.firstSlot?, List.find?_eq_some_iff_append] at hslot
      exact hslot.1
    obtain ⟨p, hp, hkey⟩ := List.any_eq_true.mp hany
    -- so the slot has a first pin of the package, and that pin has the last version
    cases hfind : slot.pins.find? (·.key == key) with
    | none => exact absurd hkey (List.find?_eq_none.mp hfind p hp)
    | some q =>
      have hq : q ∈ l.held slot.key := by
        rw [← h.pins slot (List.mem_of_find?_eq_some hslot)]
        exact List.mem_of_find?_eq_some hfind
      have hqkey : q.key = key := by simpa using List.find?_some hfind
      obtain ⟨-, -, -, -, hlast⟩ := Ledger.exists_of_mem_held hq
      rw [hqkey] at hlast
      rw [Option.bind_some, hfind, hlast, ← hqkey]
      rfl

/-- Before a layer, the group of a key has the pins that the ledger says, or is not there and has to
hold none. -/
theorem pins_priorOf (h : Settled l s) (group : String) :
    (s.nextLayer.priorOf group).filterMap Entry.pin? = l.held group := by
  rw [State.priorOf, State.nextLayer, List.find?_map]
  cases hfind : s.slots.find? ((·.key == group) ∘ Slot.settle) with
  | some slot =>
    have hkey : slot.key = group := by simpa using List.find?_some hfind
    rw [← hkey, ← h.pins slot (List.mem_of_find?_eq_some hfind)]
    rfl
  | none =>
    have hnone : pinsIn group l.pins = [] := by
      apply List.eq_nil_iff_forall_not_mem.mpr
      intro p hp
      obtain ⟨a, ha, hkey, -⟩ := mem_pinsIn_iff.mp hp
      obtain ⟨name, hname, hlower⟩ := Ledger.exists_name ha
      rw [← h.slotNames] at hname
      obtain ⟨slot, hslot, rfl⟩ := List.mem_map.mp hname
      have hslotKey : slot.key = group := hlower.trans hkey
      exact List.find?_eq_none.mp hfind slot hslot (by simp [hslotKey])
    rw [Ledger.held, hnone]
    rfl

/-- One more clean layer settles what it leaves behind, and its conflicts are those of its walk. -/
theorem addLayer (h : Settled l s) {m : Manifest} (hm : m.Clean) :
    Settled (l.addLayer m) (s.addLayer m) ∧
      (s.addLayer m).problems = s.problems ++ refusals l.start m.pins := by
  have hrun := layerRun_addLayer h.distinct m
  have hstart : s.nextLayer.inForce? = l.start := funext h.start
  have haccepted : ∀ a ∈ accepted l.start m.pins, a ∈ m.pins := by
    intro a ha
    exact (accepted_sublist m.pins).mem ha
  refine ⟨⟨?_, ?_⟩, ?_⟩
  · have hnames : s.nextLayer.slots.map Slot.name = s.slots.map Slot.name := by
      rw [State.nextLayer, List.map_map]
      rfl
    rw [hrun.slotNames, hnames, h.slotNames, firsts_firsts_append]
    rfl
  · intro slot hslot
    obtain ⟨hprior, hadded⟩ := hrun.holds slot hslot
    rw [hstart] at hprior hadded
    -- what the layers below have left there, with the versions after the layer
    have hleft : slot.prior.filterMap Entry.pin? =
        (firsts Pin.key (pinsIn slot.key l.pins)).map (withLast (l.addLayer m).pins) := by
      rw [hprior, List.filterMap_map, ← l.map_held m slot.key,
        ← h.pins_priorOf slot.key, List.map_filterMap]
      exact List.filterMap_congr fun e _ => pin?_retargetAll _ e
    have hhas : ∀ key, slot.hasPrior key = (pinsIn slot.key l.pins).any (·.key == key) := by
      intro key
      rw [Slot.hasPrior_eq_any, hleft, List.any_map, ← any_firsts]
      rfl
    -- what the layer adds there has its last versions already, and no package twice
    have hnew : ((pinsIn slot.key (accepted l.start m.pins)).filter fun p =>
          !slot.hasPrior p.key).map (withLast (l.addLayer m).pins) =
        (pinsIn slot.key (accepted l.start m.pins)).filter fun p => !slot.hasPrior p.key := by
      apply map_withLast_eq_self
      intro p hp
      obtain ⟨a, ha, -, rfl⟩ := mem_pinsIn_iff.mp (List.mem_of_mem_filter hp)
      rw [Ledger.pins_addLayer, lastVersion?_append, hm.lastVersion?_eq haccepted ha]
      rfl
    have hpairwise : (pinsIn slot.key (accepted l.start m.pins)).Pairwise
        fun p q => p.key ≠ q.key :=
      (hm.pinsIn_pairwise slot.key).sublist (((accepted_sublist m.pins).filter _).map _)
    rw [Slot.pins, Slot.entries, List.filterMap_append, hleft, hadded, ← hnew, ← List.map_append,
      Ledger.held]
    simp only [hhas]
    rw [Ledger.addLayer, pinsIn_append, firsts_append, firsts_eq_self hpairwise]
  · rw [hrun.problems, hstart]
    rfl

/-- The lowest layer is accepted as a whole and settles as it is. -/
theorem ofBase {base : Manifest} (hbase : base.Clean) :
    Settled (({} : Ledger).addLayer base) (.ofBase base) := by
  have hpins : (({} : Ledger).addLayer base).pins = base.pins :=
    accepted_eq_self (Ledger.refusals_start_empty base.pins)
  refine ⟨?_, ?_⟩
  · rw [State.ofBase, List.map_map, Ledger.names_addLayer, List.nil_append, firsts_eq_self]
    · rfl
    · exact List.pairwise_map.mpr hbase.distinctGroups
  · intro slot hslot
    obtain ⟨g, hg, rfl⟩ := List.mem_map.mp hslot
    have hpinsIn : pinsIn g.key (({} : Ledger).addLayer base).pins = g.pins := by
      rw [hpins]
      exact hbase.distinctGroups.pinsIn_key hg
    have hheld : (({} : Ledger).addLayer base).held g.key = g.pins := by
      rw [Ledger.held, hpinsIn, firsts_eq_self (hbase.pinsOnce g hg), hpins]
      apply map_withLast_eq_self
      intro p hp
      have hmem : (g, p) ∈ base.pins := Manifest.mem_pins_iff.mpr ⟨hg, hp⟩
      have hlast := hbase.lastVersion?_eq (fun _ ha => ha) hmem
      exact hlast
    rw [Slot.pins_ofGroup, Slot.key_ofGroup, hheld]

end Settled

/-! ## All layers -/

/-- The conflicts of each layer with those below it, the lowest layer first. -/
def conflictsOf (ms : List Manifest) : List Problem :=
  (withEarlier ms).flatMap fun pair => refusals (Ledger.ofLayers pair.1).start pair.2.pins

theorem conflictsOf_append_singleton (ms : List Manifest) (m : Manifest) :
    conflictsOf (ms ++ [m]) = conflictsOf ms ++ refusals (Ledger.ofLayers ms).start m.pins := by
  rw [conflictsOf, withEarlier_append_singleton, List.flatMap_append, ← conflictsOf]
  simp

theorem conflictsOf_singleton (m : Manifest) : conflictsOf [m] = [] :=
  (conflictsOf_append_singleton [] m).trans (Ledger.refusals_start_empty m.pins)

/-- The merged groups after some layers, the lowest first. -/
def State.ofLayers : List Manifest → State
  | [] => {}
  | base :: layers => layers.foldl addLayer (.ofBase base)

theorem State.ofLayers_append_singleton {ms : List Manifest} (h : ms ≠ []) (m : Manifest) :
    State.ofLayers (ms ++ [m]) = (State.ofLayers ms).addLayer m := by
  cases ms with
  | nil => exact absurd rfl h
  | cons base layers => exact List.foldl_append

/-- Clean layers settle, whether or not they have conflicts. -/
theorem settled_ofLayers {ms : List Manifest} (hclean : ∀ m ∈ ms, m.Clean) :
    Settled (Ledger.ofLayers ms) (State.ofLayers ms) ∧
      (State.ofLayers ms).problems = conflictsOf ms := by
  -- on the layers from below, because a layer is merged into what the lower ones have left
  induction ms using List.reverseRecOn with
  | nil => exact ⟨⟨rfl, by simp [State.ofLayers]⟩, rfl⟩
  | append_singleton ms m ih =>
    have hm : m.Clean := hclean m (by simp)
    by_cases hms : ms = []
    · subst hms
      exact ⟨Settled.ofBase hm, (conflictsOf_singleton m).symm⟩
    · obtain ⟨hsettled, hproblems⟩ := ih fun t ht => hclean t (List.mem_append_left _ ht)
      rw [State.ofLayers_append_singleton hms, Ledger.ofLayers_append_singleton,
        conflictsOf_append_singleton, ← hproblems]
      exact hsettled.addLayer hm

theorem names_ofLayers (ms : List Manifest) :
    (Ledger.ofLayers ms).names = ms.flatMap fun m => m.groups.map Group.name := by
  induction ms using List.reverseRecOn with
  | nil => rfl
  | append_singleton ms m ih =>
    rw [Ledger.ofLayers_append_singleton, Ledger.names_addLayer, ih, List.flatMap_append]
    simp

/-- Without conflicts every pin of the layers counts. -/
theorem pins_ofLayers {ms : List Manifest} (h : conflictsOf ms = []) :
    (Ledger.ofLayers ms).pins = ms.flatMap Manifest.pins := by
  induction ms using List.reverseRecOn with
  | nil => rfl
  | append_singleton ms m ih =>
    rw [conflictsOf_append_singleton, List.append_eq_nil_iff] at h
    rw [Ledger.ofLayers_append_singleton, Ledger.pins_addLayer, ih h.1, accepted_eq_self h.2,
      List.flatMap_append]
    simp

theorem merge_eq_finish (ms : List Manifest) : Manifest.merge ms = (State.ofLayers ms).finish := by
  cases ms <;> rfl

theorem merge_eq_ok_iff {ms : List Manifest} {r : Manifest} :
    Manifest.merge ms = .ok r ↔ (State.ofLayers ms).problems = [] ∧
      r = Manifest.ofGroups ((State.ofLayers ms).slots.map Slot.toGroup) := by
  rw [merge_eq_finish, State.finish, Report.ofProblems]
  split
  · next h => simp [h, Except.map, eq_comm]
  · next h => simp [h, Except.map]

theorem merge_eq_error_iff {ms : List Manifest} {report : Report} :
    Manifest.merge ms = .error report ↔ report.problems = (State.ofLayers ms).problems := by
  rw [merge_eq_finish, ← Report.ofProblems_eq_error_iff, State.finish]
  cases Report.ofProblems (State.ofLayers ms).problems <;> simp [Except.map]

end Pinfile.Merge
