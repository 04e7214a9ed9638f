import Pinfile.Merge
import Pinfile.Proofs.Repeats

/-!
# Walking along a layer

The rules of merging, said on lists of pins and without groups that grow or versions that are
replaced. A layer is the list of its pins in the order of the text. Walking along it, the version in
force for a package is the one that the layers below have left, or the one of the last override that
the layer itself has for the package (`inForceAfter`). A plain pin with another version is refused;
every other pin is accepted, and an override with another version replaces the one in force.

The main statement is that both the last accepted version and the last one that replaced another are
the version in force (`inForceAfter_eq`), whatever the layer holds.
-/

namespace Pinfile.Merge

/-! ## Lists of pins -/

/-- The pins that stand in groups whose name has the given lowercase form. -/
def pinsIn (group : String) (owned : List (Group × Pin)) : List Pin :=
  (owned.filter (·.1.key == group)).map Prod.snd

/-- The version of the last pin of a package. -/
def lastVersion? (key : String) (owned : List (Group × Pin)) : Option String :=
  (owned.reverse.find? (·.2.key == key)).map (·.2.version)

@[simp] theorem pinsIn_nil (group : String) : pinsIn group [] = [] := rfl

@[simp] theorem pinsIn_append (group : String) (as bs : List (Group × Pin)) :
    pinsIn group (as ++ bs) = pinsIn group as ++ pinsIn group bs := by
  simp [pinsIn]

theorem pinsIn_singleton (group : String) (a : Group × Pin) :
    pinsIn group [a] = if a.1.key = group then [a.2] else [] := by
  by_cases h : a.1.key = group <;> simp [pinsIn, h]

theorem mem_pinsIn_iff {group : String} {owned : List (Group × Pin)} {p : Pin} :
    p ∈ pinsIn group owned ↔ ∃ a ∈ owned, a.1.key = group ∧ a.2 = p := by
  simp [pinsIn, and_assoc]

@[simp] theorem lastVersion?_nil (key : String) : lastVersion? key [] = none := rfl

@[simp] theorem lastVersion?_append (key : String) (as bs : List (Group × Pin)) :
    lastVersion? key (as ++ bs) = (lastVersion? key bs).or (lastVersion? key as) := by
  rw [lastVersion?, List.reverse_append, List.find?_append, lastVersion?, lastVersion?]
  cases bs.reverse.find? (·.2.key == key) <;> rfl

theorem lastVersion?_singleton (key : String) (a : Group × Pin) :
    lastVersion? key [a] = if a.2.key = key then some a.2.version else none := by
  by_cases h : a.2.key = key <;> simp [lastVersion?, h]

theorem lastVersion?_eq_none_iff {key : String} {owned : List (Group × Pin)} :
    lastVersion? key owned = none ↔ ∀ a ∈ owned, a.2.key ≠ key := by
  simp [lastVersion?]

theorem exists_of_lastVersion? {key version : String} {owned : List (Group × Pin)}
    (h : lastVersion? key owned = some version) :
    ∃ a ∈ owned, a.2.key = key ∧ a.2.version = version := by
  obtain ⟨a, ha, hv⟩ := Option.map_eq_some_iff.mp h
  exact ⟨a, by simpa using List.mem_of_find?_eq_some ha, by simpa using List.find?_some ha, hv⟩

/-- Where all pins of a package have one version, that is the last version. -/
theorem lastVersion?_eq_of_agree {key version : String} {owned : List (Group × Pin)}
    (hagree : ∀ a ∈ owned, a.2.key = key → a.2.version = version)
    (hpinned : ∃ a ∈ owned, a.2.key = key) : lastVersion? key owned = some version := by
  cases h : lastVersion? key owned with
  | none =>
    obtain ⟨a, ha, hkey⟩ := hpinned
    exact absurd hkey (lastVersion?_eq_none_iff.mp h a ha)
  | some v =>
    obtain ⟨a, ha, hkey, rfl⟩ := exists_of_lastVersion? h
    rw [hagree a ha hkey]

/-- A package that is pinned has a last version. -/
theorem exists_lastVersion? {owned : List (Group × Pin)} {a : Group × Pin} (ha : a ∈ owned) :
    ∃ version, lastVersion? a.2.key owned = some version := by
  cases h : lastVersion? a.2.key owned with
  | none => exact absurd rfl (lastVersion?_eq_none_iff.mp h a ha)
  | some version => exact ⟨version, rfl⟩

/-- The pin with the last of the versions that the given pins have for its package. -/
def withLast (owned : List (Group × Pin)) (p : Pin) : Pin :=
  p.withVersion ((lastVersion? p.key owned).getD p.version)

@[simp] theorem key_withLast (owned : List (Group × Pin)) (p : Pin) :
    (withLast owned p).key = p.key := rfl

/-- Pins that have the last versions already stay as they are. -/
theorem map_withLast_eq_self {owned : List (Group × Pin)} {ps : List Pin}
    (h : ∀ p ∈ ps, lastVersion? p.key owned = some p.version) : ps.map (withLast owned) = ps := by
  refine (List.map_congr_left fun p hp => ?_).trans (List.map_id ps)
  rw [withLast, h p hp]
  rfl

/-! ## Walking along a layer -/

/-- What is in force for a package after the first pins of a layer, when `start` is in force before
the layer: an override of the layer for the package puts its version in force. -/
def inForceAfter (start : String → Option InForce) (seen : List (Group × Pin)) (key : String) :
    Option InForce :=
  (start key).map fun f =>
    { f with version := (lastVersion? key (seen.filter (·.2.isOverride))).getD f.version }

/-- After the first pins of the layer, its next pin is refused: it is plain, and another version is
in force for its package. -/
def refuses (start : String → Option InForce) (seen : List (Group × Pin)) (p : Pin) : Bool :=
  !p.isOverride && (inForceAfter start seen p.key).any (·.version != p.version)

/-- After the first pins of the layer, its next pin is an override that replaces another version. -/
def replaces (start : String → Option InForce) (seen : List (Group × Pin)) (p : Pin) : Bool :=
  p.isOverride && (inForceAfter start seen p.key).any (·.version != p.version)

/-- The pins of a layer that are accepted. -/
def accepted (start : String → Option InForce) (pins : List (Group × Pin)) : List (Group × Pin) :=
  ((withEarlier pins).filter fun pair => !refuses start pair.1 pair.2.2).map Prod.snd

/-- The pins of a layer that replace a version of the layers below. -/
def replacing (start : String → Option InForce) (pins : List (Group × Pin)) : List (Group × Pin) :=
  ((withEarlier pins).filter fun pair => replaces start pair.1 pair.2.2).map Prod.snd

/-- The conflict of a pin that is refused. -/
def refusal? (start : String → Option InForce) (seen : List (Group × Pin)) (a : Group × Pin) :
    Option Problem :=
  if refuses start seen a.2 then
    (inForceAfter start seen a.2.key).map fun f =>
      .crossGroupConflict a.2.name.text f.group f.version a.1.name a.2.version
  else none

/-- The conflicts of a layer: one for each pin that is refused, in the order of the text. -/
def refusals (start : String → Option InForce) (pins : List (Group × Pin)) : List Problem :=
  (withEarlier pins).filterMap fun pair => refusal? start pair.1 pair.2

variable {start : String → Option InForce}

@[simp] theorem inForceAfter_nil (start : String → Option InForce) (key : String) :
    inForceAfter start [] key = start key := by
  cases h : start key <;> simp [inForceAfter, h]

theorem inForceAfter_append_singleton (seen : List (Group × Pin)) (a : Group × Pin) (key : String) :
    inForceAfter start (seen ++ [a]) key =
      if a.2.isOverride = true ∧ a.2.key = key then
        (inForceAfter start seen key).map fun f => { f with version := a.2.version }
      else inForceAfter start seen key := by
  by_cases ho : a.2.isOverride = true
  · by_cases hk : a.2.key = key
    · simp [inForceAfter, ho, hk, lastVersion?_singleton, Function.comp_def]
    · simp [inForceAfter, ho, hk, lastVersion?_singleton]
  · simp [inForceAfter, ho]

@[simp] theorem accepted_nil : accepted start [] = [] := rfl

@[simp] theorem replacing_nil : replacing start [] = [] := rfl

@[simp] theorem refusals_nil : refusals start [] = [] := rfl

theorem accepted_append_singleton (seen : List (Group × Pin)) (a : Group × Pin) :
    accepted start (seen ++ [a]) =
      accepted start seen ++ if refuses start seen a.2 then [] else [a] := by
  rw [accepted, withEarlier_append_singleton, List.filter_append, List.map_append, ← accepted]
  by_cases h : refuses start seen a.2 = true <;> simp [h]

theorem replacing_append_singleton (seen : List (Group × Pin)) (a : Group × Pin) :
    replacing start (seen ++ [a]) =
      replacing start seen ++ if replaces start seen a.2 then [a] else [] := by
  rw [replacing, withEarlier_append_singleton, List.filter_append, List.map_append, ← replacing]
  by_cases h : replaces start seen a.2 = true <;> simp [h]

theorem refusals_append_singleton (seen : List (Group × Pin)) (a : Group × Pin) :
    refusals start (seen ++ [a]) = refusals start seen ++ (refusal? start seen a).toList := by
  rw [refusals, withEarlier_append_singleton, List.filterMap_append, ← refusals]
  cases h : refusal? start seen a <;> simp [h]

/-- Accepted pins are pins of the layer, in the same order. -/
theorem accepted_sublist (pins : List (Group × Pin)) : (accepted start pins).Sublist pins := by
  induction pins using List.reverseRecOn with
  | nil => exact .slnil
  | append_singleton pins a ih =>
    rw [accepted_append_singleton]
    refine List.Sublist.append ih ?_
    split
    · exact List.nil_sublist _
    · exact List.Sublist.refl _

/-- A refused pin has a conflict. -/
theorem refusal?_eq_none_iff {seen : List (Group × Pin)} {a : Group × Pin} :
    refusal? start seen a = none ↔ refuses start seen a.2 = false := by
  unfold refusal?
  split
  · next h =>
    refine iff_of_false (fun hnone => ?_) (by simp [h])
    rw [Option.map_eq_none_iff] at hnone
    simp [refuses, hnone] at h
  · next h => exact iff_of_true rfl (by simpa using h)

theorem refusals_eq_nil_iff {pins : List (Group × Pin)} :
    refusals start pins = [] ↔ ∀ pair ∈ withEarlier pins, refuses start pair.1 pair.2.2 = false := by
  rw [refusals, List.filterMap_eq_nil_iff]
  exact forall₂_congr fun _ _ => refusal?_eq_none_iff

/-- A pin that agrees with what is in force is accepted and changes nothing. -/
theorem walk_agree {seen : List (Group × Pin)} {a : Group × Pin}
    (h : ∀ f ∈ inForceAfter start seen a.2.key, f.version = a.2.version) :
    accepted start (seen ++ [a]) = accepted start seen ++ [a] ∧
      replacing start (seen ++ [a]) = replacing start seen ∧
      refusals start (seen ++ [a]) = refusals start seen ∧
      ∀ key, inForceAfter start (seen ++ [a]) key = inForceAfter start seen key := by
  have hany : (inForceAfter start seen a.2.key).any (·.version != a.2.version) = false := by
    cases hf : inForceAfter start seen a.2.key with
    | none => rfl
    | some f => simpa using h f hf
  have hrefuses : refuses start seen a.2 = false := by simp [refuses, hany]
  have hreplaces : replaces start seen a.2 = false := by simp [replaces, hany]
  refine ⟨?_, ?_, ?_, fun key => ?_⟩
  · rw [accepted_append_singleton, hrefuses]
    rfl
  · rw [replacing_append_singleton, hreplaces]
    exact List.append_nil _
  · rw [refusals_append_singleton, refusal?_eq_none_iff.mpr hrefuses]
    exact List.append_nil _
  · rw [inForceAfter_append_singleton]
    split
    · next hkey =>
      -- an override that agrees puts the version in force that is in force already
      rw [← hkey.2]
      cases hf : inForceAfter start seen a.2.key with
      | none => rfl
      | some f => simp [← h f hf]
    · rfl

/-- An override with another version than the one in force is accepted and replaces that version. -/
theorem walk_replace {seen : List (Group × Pin)} {a : Group × Pin} {f : InForce}
    (hf : inForceAfter start seen a.2.key = some f) (hv : f.version ≠ a.2.version)
    (ho : a.2.isOverride = true) :
    accepted start (seen ++ [a]) = accepted start seen ++ [a] ∧
      replacing start (seen ++ [a]) = replacing start seen ++ [a] ∧
      refusals start (seen ++ [a]) = refusals start seen ∧
      ∀ key, inForceAfter start (seen ++ [a]) key =
        if a.2.key = key then
          (inForceAfter start seen key).map fun f => { f with version := a.2.version }
        else inForceAfter start seen key := by
  have hrefuses : refuses start seen a.2 = false := by simp [refuses, ho]
  have hreplaces : replaces start seen a.2 = true := by simp [replaces, ho, hf, hv]
  refine ⟨?_, ?_, ?_, fun key => ?_⟩
  · rw [accepted_append_singleton, hrefuses]
    rfl
  · rw [replacing_append_singleton, hreplaces]
    rfl
  · rw [refusals_append_singleton, refusal?_eq_none_iff.mpr hrefuses]
    exact List.append_nil _
  · rw [inForceAfter_append_singleton]
    simp only [ho, true_and]

/-- A plain pin with another version than the one in force is refused and changes nothing. -/
theorem walk_refuse {seen : List (Group × Pin)} {a : Group × Pin} {f : InForce}
    (hf : inForceAfter start seen a.2.key = some f) (hv : f.version ≠ a.2.version)
    (ho : a.2.isOverride = false) :
    accepted start (seen ++ [a]) = accepted start seen ∧
      replacing start (seen ++ [a]) = replacing start seen ∧
      refusals start (seen ++ [a]) = refusals start seen ++
        [.crossGroupConflict a.2.name.text f.group f.version a.1.name a.2.version] ∧
      ∀ key, inForceAfter start (seen ++ [a]) key = inForceAfter start seen key := by
  have hrefuses : refuses start seen a.2 = true := by simp [refuses, ho, hf, hv]
  have hreplaces : replaces start seen a.2 = false := by simp [replaces, ho]
  refine ⟨?_, ?_, ?_, fun key => ?_⟩
  · rw [accepted_append_singleton, hrefuses]
    exact List.append_nil _
  · rw [replacing_append_singleton, hreplaces]
    exact List.append_nil _
  · rw [refusals_append_singleton, refusal?, if_pos hrefuses, hf]
    rfl
  · rw [inForceAfter_append_singleton, if_neg (by simp [ho])]

/-- A layer without conflicts is accepted as a whole. -/
theorem accepted_eq_self {pins : List (Group × Pin)} (h : refusals start pins = []) :
    accepted start pins = pins := by
  induction pins using List.reverseRecOn with
  | nil => rfl
  | append_singleton pins a ih =>
    rw [refusals_append_singleton, List.append_eq_nil_iff, Option.toList_eq_nil_iff,
      refusal?_eq_none_iff] at h
    rw [accepted_append_singleton, ih h.1, h.2]
    rfl

/-- The version in force is the last accepted one, and the last one that replaced another. -/
theorem inForceAfter_eq {key : String} {f : InForce} (hf : start key = some f)
    (seen : List (Group × Pin)) :
    inForceAfter start seen key =
        some { f with version := (lastVersion? key (accepted start seen)).getD f.version } ∧
      inForceAfter start seen key =
        some { f with version := (lastVersion? key (replacing start seen)).getD f.version } := by
  induction seen using List.reverseRecOn with
  | nil => simp [hf]
  | append_singleton seen a ih =>
    obtain ⟨hacc, hrep⟩ := ih
    rw [inForceAfter_append_singleton, accepted_append_singleton, replacing_append_singleton]
    by_cases hk : a.2.key = key
    · -- a pin of the package: it is refused, replaces the version, or has the version in force
      subst hk
      by_cases hv : ((lastVersion? a.2.key (accepted start seen)).getD f.version) = a.2.version
      · have hv' : (lastVersion? a.2.key (replacing start seen)).getD f.version = a.2.version := by
          rw [hrep] at hacc
          rw [← hv]
          exact congrArg InForce.version (Option.some.inj hacc)
        have hnot : refuses start seen a.2 = false := by simp [refuses, hacc, hv]
        have hnot' : replaces start seen a.2 = false := by simp [replaces, hacc, hv]
        rw [hnot, hnot', hrep]
        simp [lastVersion?_singleton, hv']
      · by_cases ho : a.2.isOverride = true
        · have hnot : refuses start seen a.2 = false := by simp [refuses, ho]
          have hyes : replaces start seen a.2 = true := by simp [replaces, ho, hacc, hv]
          rw [hnot, hyes, hacc]
          simp [lastVersion?_singleton, ho]
        · have hyes : refuses start seen a.2 = true := by simp [refuses, ho, hacc, hv]
          have hnot : replaces start seen a.2 = false := by simp [replaces, ho]
          rw [hyes, hnot, if_neg (by simp [ho])]
          simpa using ⟨hacc, hrep⟩
    · -- a pin of another package
      rw [if_neg (by simp [hk]), lastVersion?_append, lastVersion?_append]
      constructor
      · rw [hacc]
        split <;> simp [lastVersion?_singleton, hk]
      · rw [hrep]
        split <;> simp [lastVersion?_singleton, hk]

/-- An accepted layer replaces a version unless all its pins of the package have the one that is in
force. -/
theorem lastVersion?_replacing_eq_none_iff {key : String} {f : InForce} (hf : start key = some f)
    {pins : List (Group × Pin)} (h : refusals start pins = []) :
    lastVersion? key (replacing start pins) = none ↔
      ∀ a ∈ pins, a.2.key = key → a.2.version = f.version := by
  induction pins using List.reverseRecOn with
  | nil => simp
  | append_singleton pins a ih =>
    rw [refusals_append_singleton, List.append_eq_nil_iff, Option.toList_eq_nil_iff,
      refusal?_eq_none_iff] at h
    obtain ⟨hpins, ha⟩ := h
    have hinForce := (inForceAfter_eq hf pins).2
    rw [replacing_append_singleton, lastVersion?_append, Option.or_eq_none_iff, ih hpins]
    simp only [List.mem_append, List.mem_singleton, or_imp, forall_and, forall_eq]
    rw [and_comm]
    refine and_congr_right fun hbefore => ?_
    -- nothing was replaced before the last pin, so it finds in force what the layer began with
    rw [(ih hpins).mpr hbefore, Option.getD_none] at hinForce
    by_cases hk : a.2.key = key
    · subst hk
      by_cases hv : f.version = a.2.version
      · have hreplaces : replaces start pins a.2 = false := by simp [replaces, hinForce, hv]
        simp [hreplaces, hv]
      · have ho : a.2.isOverride = true := by simpa [refuses, hinForce, hv] using ha
        have hreplaces : replaces start pins a.2 = true := by simp [replaces, hinForce, ho, hv]
        simp [hreplaces, lastVersion?_singleton, Ne.symm hv]
    · refine iff_of_true ?_ fun hkey => absurd hkey hk
      split <;> simp [lastVersion?_singleton, hk]

/-- What an accepted layer replaces last is what it pins last. -/
theorem lastVersion?_replacing {key : String} {f : InForce} (hf : start key = some f)
    {pins : List (Group × Pin)} (h : refusals start pins = []) {a : Group × Pin} (ha : a ∈ pins)
    (hkey : a.2.key = key) (hv : a.2.version ≠ f.version) :
    lastVersion? key (replacing start pins) = lastVersion? key pins := by
  obtain ⟨hacc, hrep⟩ := inForceAfter_eq hf pins
  rw [accepted_eq_self h] at hacc
  have hsame : (lastVersion? key pins).getD f.version =
      (lastVersion? key (replacing start pins)).getD f.version :=
    congrArg InForce.version (Option.some.inj (hacc.symm.trans hrep))
  cases hreplaced : lastVersion? key (replacing start pins) with
  | none => exact absurd ((lastVersion?_replacing_eq_none_iff hf h).mp hreplaced a ha hkey) hv
  | some version =>
    subst hkey
    obtain ⟨last, hlast⟩ := exists_lastVersion? ha
    rw [hlast, hreplaced] at hsame
    rw [hlast]
    exact congrArg some hsame.symm

end Pinfile.Merge
