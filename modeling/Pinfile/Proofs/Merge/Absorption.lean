import Pinfile.Proofs.Merge.TopLayer

/-!
# What becomes of conflicts inside the top layer

Merging compares a layer with the layers below and leaves it to validation to find the pins of one
layer that repeat each other or disagree. They are found as long as they stand in the merged
manifest. But a pin whose package the group holds already is not added: it only sets the version of
the pin that is there. So two overrides of one layer that disagree leave no trace when the layers
below have the package in both groups, and the last of them wins.

`Absorbs` lists what has to be the case for a layer to leave nothing behind that validation objects
to. The main statement is that this happens exactly then: otherwise merging fails, or validation
reports a repeated or contradicted pin of the merged manifest (`merge_reports_iff_not_absorbs`).
-/

namespace Pinfile

/-- The problem is that a package is pinned twice in a group or has two versions. -/
def Problem.isPinConflict : Problem → Bool
  | .duplicateInGroup .. => true
  | .crossGroupConflict .. => true
  | .malformedVersion .. => false
  | .multipleEditableMarkers .. => false

namespace Manifest

open Merge

/-! ## Conflicts between pins -/

/-- Validation reports a package that is pinned twice in a group or has two versions. -/
def ReportsPinConflict (policy : VersionPolicy) (m : Manifest) : Prop :=
  ∃ report, m.validate policy = .error report ∧
    ∃ problem ∈ report.problems, problem.isPinConflict = true

/-- All pins of the package have one version. -/
def AgreesOn (m : Manifest) (key : String) : Prop :=
  ∃ version, ∀ a ∈ m.pins, a.2.key = key → a.2.version = version

theorem oneVersion_iff_agreesOn {m : Manifest} : m.OneVersion ↔ ∀ key, m.AgreesOn key := by
  constructor
  · intro h key
    by_cases hpinned : ∃ a ∈ m.pins, a.2.key = key
    · obtain ⟨a, ha, rfl⟩ := hpinned
      exact ⟨a.2.version, fun c hc hkey => h c hc a ha hkey⟩
    · exact ⟨"", fun a ha hkey => absurd ⟨a, ha, hkey⟩ hpinned⟩
  · intro h a ha c hc hkey
    obtain ⟨version, hversion⟩ := h a.2.key
    rw [hversion a ha rfl, hversion c hc hkey.symm]

theorem isPinConflict_of_mem_duplicates {m : Manifest} {problem : Problem}
    (h : problem ∈ m.duplicates) : problem.isPinConflict = true := by
  obtain ⟨g, -, hg⟩ := List.mem_flatMap.mp h
  obtain ⟨pair, -, rfl⟩ := List.mem_map.mp hg
  rfl

theorem isPinConflict_of_mem_conflicts {m : Manifest} {problem : Problem}
    (h : problem ∈ m.conflicts) : problem.isPinConflict = true := by
  obtain ⟨⟨first, second⟩, -, hpair⟩ := List.mem_filterMap.mp h
  change conflictProblem? first second = some problem at hpair
  unfold conflictProblem? at hpair
  split at hpair
  · cases hpair
  · cases hpair
    rfl

theorem not_isPinConflict_of_mem_malformedVersions {policy : VersionPolicy} {m : Manifest}
    {problem : Problem} (h : problem ∈ m.malformedVersions policy) :
    problem.isPinConflict = false := by
  obtain ⟨a, -, ha⟩ := List.mem_filterMap.mp h
  unfold versionProblem? at ha
  split at ha
  · cases ha
  · cases ha
    rfl

theorem not_isPinConflict_of_mem_markerProblems {m : Manifest} {problem : Problem}
    (h : problem ∈ m.markerProblems) : problem.isPinConflict = false := by
  unfold markerProblems at h
  split at h
  · rw [List.mem_singleton] at h
    rw [h]
    rfl
  · cases h

/-- Of the passes of validation, the first two find the conflicts between pins. -/
theorem exists_isPinConflict_iff (policy : VersionPolicy) (m : Manifest) :
    (∃ problem ∈ m.problems policy, problem.isPinConflict = true) ↔
      ¬ (m.duplicates = [] ∧ m.conflicts = []) := by
  constructor
  · rintro ⟨problem, hproblem, hconflict⟩ ⟨hduplicates, hconflicts⟩
    rw [problems, hduplicates, hconflicts, List.nil_append, List.nil_append] at hproblem
    rcases List.mem_append.mp hproblem with hmalformed | hmarkers
    · rw [not_isPinConflict_of_mem_malformedVersions hmalformed] at hconflict
      cases hconflict
    · rw [not_isPinConflict_of_mem_markerProblems hmarkers] at hconflict
      cases hconflict
  · intro h
    rw [not_and_or] at h
    rcases h with hduplicates | hconflicts
    · obtain ⟨problem, hproblem⟩ := List.exists_mem_of_ne_nil _ hduplicates
      exact ⟨problem, by simp [problems, hproblem], isPinConflict_of_mem_duplicates hproblem⟩
    · obtain ⟨problem, hproblem⟩ := List.exists_mem_of_ne_nil _ hconflicts
      exact ⟨problem, by simp [problems, hproblem], isPinConflict_of_mem_conflicts hproblem⟩

theorem reportsPinConflict_iff {policy : VersionPolicy} {m : Manifest} :
    m.ReportsPinConflict policy ↔ ¬ (m.PinsOnce ∧ m.OneVersion) := by
  have hrules : (m.duplicates = [] ∧ m.conflicts = []) ↔ m.PinsOnce ∧ m.OneVersion := by
    rw [duplicates_eq_nil_iff]
    exact and_congr_right conflicts_eq_nil_iff
  rw [← hrules, ← exists_isPinConflict_iff policy m]
  constructor
  · rintro ⟨report, hreport, hproblem⟩
    rwa [Report.ofProblems_eq_error_iff.mp hreport] at hproblem
  · rintro ⟨problem, hproblem, hconflict⟩
    exact ⟨⟨m.problems policy, List.ne_nil_of_mem hproblem⟩,
      Report.ofProblems_eq_error_iff.mpr rfl, problem, hproblem, hconflict⟩

/-! ## Absorbed layers -/

/-- On top of `b`, the layer `l` leaves nothing behind that validation objects to. -/
structure Absorbs (b l : Manifest) : Prop where
  /-- No pin of the layer is refused. -/
  accepted : refusals b.inForce l.pins = []
  belowOnce : b.PinsOnce
  /-- Where the layer does not move a package, the lower manifest gives it one version. -/
  belowAgrees : ∀ key, l.Moves b key ∨ b.AgreesOn key
  /-- The layer adds no package twice to a group. -/
  newOnce : ∀ group, (b.newPins l group).Pairwise fun p q => p.key ≠ q.key
  /-- What the layer adds has the version that the layer gives to the package last. -/
  newLast : ∀ group, ∀ p ∈ b.newPins l group, lastVersion? p.key l.pins = some p.version

variable {b l r : Manifest}

theorem DistinctGroups.pinsOnce_iff {m : Manifest} (hd : m.DistinctGroups) :
    m.PinsOnce ↔ ∀ group, (pinsIn group m.pins).Pairwise fun p q => p.key ≠ q.key := by
  constructor
  · intro h group
    by_cases hgroup : ∃ g ∈ m.groups, g.key = group
    · obtain ⟨g, hg, rfl⟩ := hgroup
      rw [hd.pinsIn_key hg]
      exact h g hg
    · rw [pinsIn_eq_nil_of fun g hg hkey => hgroup ⟨g, hg, hkey⟩]
      exact List.Pairwise.nil
  · intro h g hg
    rw [← hd.pinsIn_key hg]
    exact h g.key

/-- The merged manifest repeats a package in a group when the lower one does, or the new pins do. -/
theorem pinsOnce_merge_pair_iff (hb : b.DistinctGroups) (hl : l.DistinctGroups)
    (hr : merge [b, l] = .ok r) :
    r.PinsOnce ↔ b.PinsOnce ∧
      ∀ group, (b.newPins l group).Pairwise fun p q => p.key ≠ q.key := by
  have hdistinct : r.DistinctGroups := distinctGroups_of_merge (by simp [hb, hl]) hr
  rw [hdistinct.pinsOnce_iff, hb.pinsOnce_iff, ← forall_and]
  refine forall_congr' fun group => ?_
  -- a new pin never repeats one that the group had before
  have hcross : ∀ p ∈ pinsIn group b.pins, ∀ q ∈ b.newPins l group, p.key ≠ q.key := by
    intro p hp q hq hkey
    have hnew := (List.mem_filter.mp hq).2
    rw [Bool.not_eq_true', List.any_eq_false] at hnew
    exact hnew p hp (by simpa using hkey)
  rw [pinsIn_merge_pair hb hl hr, List.pairwise_append, List.pairwise_map, List.forall_mem_map]
  simp only [key_withLast]
  rw [and_iff_left hcross]

/-- A pin of a package that the lower manifest does not have is new wherever it stands. -/
theorem mem_newPins_of_not_pinned {a : Group × Pin} (ha : a ∈ l.pins)
    (hnot : ∀ c ∈ b.pins, c.2.key ≠ a.2.key) : a.2 ∈ b.newPins l a.1.key := by
  refine List.mem_filter.mpr ⟨mem_pinsIn_iff.mpr ⟨a, ha, rfl, rfl⟩, ?_⟩
  rw [Bool.not_eq_true', List.any_eq_false]
  intro p hp hkey
  obtain ⟨c, hc, -, rfl⟩ := mem_pinsIn_iff.mp hp
  exact hnot c hc (by simpa using hkey)

/-- Where the pins of a package agree after an accepted layer, what the layer added of it has the
version that the layer gives it last. -/
theorem lastVersion?_of_agrees (hb : b.DistinctGroups) (hl : l.DistinctGroups)
    (hr : merge [b, l] = .ok r) {key version : String}
    (h : ∀ a ∈ r.pins, a.2.key = key → a.2.version = version) {group : String} {p : Pin}
    (hp : p ∈ b.newPins l group) (hkey : p.key = key) :
    lastVersion? key l.pins = some p.version := by
  have hnone := refusals_of_merge_pair hb hr
  rw [forall_merge_pair_iff hb hl hr fun q => q.key = key → q.version = version] at h
  obtain ⟨hbelow, hnew⟩ := h
  obtain ⟨a, ha, -, rfl⟩ := mem_pinsIn_iff.mp (List.mem_of_mem_filter hp)
  rw [hnew group a.2 hp hkey, ← hkey]
  obtain ⟨last, hlast⟩ := exists_lastVersion? ha
  obtain ⟨d, hd, hdkey, rfl⟩ := exists_of_lastVersion? hlast
  rw [hlast]
  refine congrArg some ?_
  by_cases hpinned : ∃ c ∈ b.pins, c.2.key = a.2.key
  · obtain ⟨c, hc, hckey⟩ := hpinned
    have hcversion := hbelow c hc (hckey.trans hkey)
    by_cases hmoves : l.Moves b c.2.key
    · -- the pin below has the last version of the layer
      rw [withLast_of_moves hnone hmoves (hckey ▸ hlast)] at hcversion
      exact hcversion
    · -- both have the version in force
      obtain ⟨f, hf, first, hfirst, hfirstKey, hv⟩ := exists_inForce hc
      have hfirstVersion := hbelow first hfirst (hfirstKey.trans (hckey.trans hkey))
      rw [withLast_of_not_moves hnone hfirst (hfirstKey ▸ hmoves)] at hfirstVersion
      rw [version_eq_of_not_moves hmoves hf hd (hdkey.trans hckey.symm), hv, hfirstVersion]
  · -- the last pin of the package in the layer is new as well
    have hnot : ∀ c ∈ b.pins, c.2.key ≠ d.2.key := fun c hc hckey =>
      hpinned ⟨c, hc, hckey.trans hdkey⟩
    exact hnew _ d.2 (mem_newPins_of_not_pinned hd hnot) (hdkey.trans hkey)

/-- The pins of a package agree after an accepted layer when they agreed below or the layer moves the
package, and what the layer adds has its last version. -/
theorem agreesOn_merge_pair_iff (hb : b.DistinctGroups) (hl : l.DistinctGroups)
    (hr : merge [b, l] = .ok r) (key : String) :
    r.AgreesOn key ↔ (l.Moves b key ∨ b.AgreesOn key) ∧
      ∀ group, ∀ p ∈ b.newPins l group, p.key = key → lastVersion? key l.pins = some p.version := by
  have hnone := refusals_of_merge_pair hb hr
  have hmerged := forall_merge_pair_iff hb hl hr
  constructor
  · rintro ⟨version, h⟩
    refine ⟨?_, fun group p hp hkey => lastVersion?_of_agrees hb hl hr h hp hkey⟩
    by_cases hmoves : l.Moves b key
    · exact Or.inl hmoves
    · refine Or.inr ⟨version, fun a ha hkey => ?_⟩
      have hversion := ((hmerged fun q => q.key = key → q.version = version).mp h).1 a ha hkey
      rwa [withLast_of_not_moves hnone ha (hkey ▸ hmoves)] at hversion
  · rintro ⟨hbelow, hnew⟩
    by_cases hmoves : l.Moves b key
    · -- everything has the last version of the layer
      obtain ⟨version, hlast⟩ := hmoves.exists_lastVersion?
      refine ⟨version, (hmerged fun q => q.key = key → q.version = version).mpr ⟨?_, ?_⟩⟩
      · intro c _ hkey
        rw [key_withLast] at hkey
        rw [withLast_of_moves hnone (hkey ▸ hmoves) (hkey ▸ hlast)]
        rfl
      · intro group p hp hkey
        rw [hnew group p hp hkey] at hlast
        exact Option.some.inj hlast
    · obtain ⟨version, hversion⟩ := hbelow.resolve_left hmoves
      by_cases hpinned : ∃ c ∈ b.pins, c.2.key = key
      · -- everything has the version in force
        refine ⟨version, (hmerged fun q => q.key = key → q.version = version).mpr ⟨?_, ?_⟩⟩
        · intro c hc hkey
          rw [key_withLast] at hkey
          rw [withLast_of_not_moves hnone hc (hkey ▸ hmoves)]
          exact hversion c hc hkey
        · intro group p hp hkey
          obtain ⟨a, ha, -, rfl⟩ := mem_pinsIn_iff.mp (List.mem_of_mem_filter hp)
          obtain ⟨c, hc, rfl⟩ := hpinned
          obtain ⟨f, hf, first, hfirst, hfirstKey, hv⟩ := exists_inForce hc
          rw [version_eq_of_not_moves hmoves hf ha hkey, hv]
          exact hversion first hfirst hfirstKey
      · -- everything is new and has the last version of the layer
        refine ⟨(lastVersion? key l.pins).getD "",
          (hmerged fun q => q.key = key → q.version = _).mpr ⟨?_, ?_⟩⟩
        · intro c hc hkey
          exact absurd ⟨c, hc, hkey⟩ hpinned
        · intro group p hp hkey
          rw [hnew group p hp hkey]
          rfl

/-- A layer is absorbed when merging it on top succeeds and leaves no package repeated in a group or
with two versions. -/
theorem absorbs_iff (hb : b.DistinctGroups) (hl : l.DistinctGroups) :
    b.Absorbs l ↔ ∃ r, merge [b, l] = .ok r ∧ r.PinsOnce ∧ r.OneVersion := by
  constructor
  · intro h
    obtain ⟨r, hr⟩ := (exists_merge_pair_iff hb).mpr h.accepted
    refine ⟨r, hr, ?_, ?_⟩
    · exact (pinsOnce_merge_pair_iff hb hl hr).mpr ⟨h.belowOnce, h.newOnce⟩
    · rw [oneVersion_iff_agreesOn]
      intro key
      refine (agreesOn_merge_pair_iff hb hl hr key).mpr ⟨h.belowAgrees key, ?_⟩
      rintro group p hp rfl
      exact h.newLast group p hp
  · rintro ⟨r, hr, honce, hversion⟩
    obtain ⟨hbelowOnce, hnewOnce⟩ := (pinsOnce_merge_pair_iff hb hl hr).mp honce
    have hagrees := fun key =>
      (agreesOn_merge_pair_iff hb hl hr key).mp (oneVersion_iff_agreesOn.mp hversion key)
    exact ⟨refusals_of_merge_pair hb hr, hbelowOnce, fun key => (hagrees key).1, hnewOnce,
      fun group p hp => (hagrees p.key).2 group p hp rfl⟩

/-- Merging a layer on top fails, or validation reports a repeated or contradicted pin of the merged
manifest, exactly when the layers below do not absorb the layer. -/
theorem merge_reports_iff_not_absorbs (policy : VersionPolicy) {ms : List Manifest} (hms : ms ≠ [])
    (hd : ∀ m ∈ ms, m.DistinctGroups) (hl : l.DistinctGroups) :
    ((∃ report, merge (ms ++ [l]) = .error report) ∨
        ∃ r, merge (ms ++ [l]) = .ok r ∧ r.ReportsPinConflict policy) ↔
      ¬ ∃ b, merge ms = .ok b ∧ b.Absorbs l := by
  constructor
  · rintro h ⟨b, hmerge, habsorbs⟩
    obtain ⟨r, hr, hrules⟩ := (absorbs_iff (distinctGroups_of_merge hd hmerge) hl).mp habsorbs
    rw [merge_append_of_ok hms hmerge, hr] at h
    rcases h with ⟨report, hreport⟩ | ⟨r', hr', hreports⟩
    · cases hreport
    · cases hr'
      exact reportsPinConflict_iff.mp hreports hrules
  · intro h
    cases hr : merge (ms ++ [l]) with
    | error report => exact Or.inl ⟨report, rfl⟩
    | ok r =>
      refine Or.inr ⟨r, rfl, reportsPinConflict_iff.mpr fun hrules => ?_⟩
      obtain ⟨b, hmerge, hpair⟩ := exists_merge_of_append hms hr
      exact h ⟨b, hmerge,
        (absorbs_iff (distinctGroups_of_merge hd hmerge) hl).mpr ⟨r, hpair, hrules⟩⟩

/-- A layer to put others on. -/
def ground : Manifest :=
  ofGroups [
    { name := "Web", entries := [.pin ⟨⟨"flask"⟩, "3.0.0", false, 2⟩] },
    { name := "Dev", entries := [.pin ⟨⟨"flask"⟩, "3.0.0", false, 5⟩] }]

/-- A layer with a package twice in a group. -/
def repeating : Manifest :=
  ofGroups [{ name := "Dev", entries := [.pin ⟨⟨"flask"⟩, "3.0.0", false, 2⟩,
    .pin ⟨⟨"jinja2"⟩, "3.1.3", false, 3⟩, .pin ⟨⟨"Jinja2"⟩, "3.1.4", false, 4⟩] }]

theorem merge_reports_repeating : ground.DistinctGroups ∧ repeating.DistinctGroups ∧
    ∃ r, merge [ground, repeating] = .ok r ∧ r.ReportsPinConflict {} := by
  have hd : ground.DistinctGroups := by decide +kernel
  have hl : repeating.DistinctGroups := by decide +kernel
  refine ⟨hd, hl, ?_⟩
  have hnot : ¬ ∃ b, merge [ground] = .ok b ∧ b.Absorbs repeating := by
    rintro ⟨b, hb, habsorbs⟩
    have hsingle : merge [ground] = .ok ground := by rfl
    obtain rfl := Except.ok.inj (hb.symm.trans hsingle)
    exact absurd (habsorbs.newOnce "dev") (by decide +kernel)
  have hreports := (merge_reports_iff_not_absorbs {} (List.cons_ne_nil ground [])
    (by simpa using hd) hl).mpr hnot
  rcases hreports with ⟨report, hreport⟩ | hreports
  · have hok : (merge [ground, repeating]).isOk = true := by rfl
    rw [show merge [ground, repeating] = .error report from hreport] at hok
    cases hok
  · exact hreports

/-- Two overrides of one layer that disagree, in groups that have the package already: merging lets
the last one win, and validation finds nothing. -/
theorem disagreement_absorbed : ∃ base layer r,
    parse "# Web\nflask==3.0.0\n\n# Dev\nflask==3.0.0\n" = .ok base ∧
    parse "# Web\nflask==3.1.0  # override\n\n# Dev\nflask==3.2.0  # override\n" = .ok layer ∧
    layer.ReportsPinConflict {} ∧ merge [base, layer] = .ok r ∧ r.validate {} = .ok () := by
  refine ⟨ground, ofGroups [
    { name := "Web", entries := [.pin ⟨⟨"flask"⟩, "3.1.0", true, 2⟩] },
    { name := "Dev", entries := [.pin ⟨⟨"flask"⟩, "3.2.0", true, 5⟩] }], _, by rfl, by rfl, ?_,
    by rfl, by rfl⟩
  exact ⟨⟨[.crossGroupConflict "flask" "Web" "3.1.0" "Dev" "3.2.0"], by simp⟩, by rfl, _,
    List.mem_singleton_self _, rfl⟩

end Manifest
end Pinfile
