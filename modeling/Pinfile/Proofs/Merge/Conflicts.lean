import Pinfile.Proofs.Merge.Ledger

/-!
# Which layers conflict

A layer is authorized by the layers below (`Authorized`) when it keeps their version of every
package or begins the package with an override. The main statement is that the merge of clean layers
succeeds exactly when each layer is authorized by those below, and that it otherwise reports one
conflict for each plain pin that differs from what is in force where it stands
(`merge_conflicts`).

What is in force below a layer is said on the merged groups as they stand at its start
(`inForceBelow`), while the walk of the layer says what its own overrides make of it.
-/

namespace Pinfile

namespace Merge

/-! ## What is in force below a layer -/

/-- What is in force for a package on top of some layers: the version that they accepted last, in
the merged group in which the package stands first. -/
def inForceBelow (lower : List Manifest) (key : String) : Option InForce :=
  ((State.ofLayers lower).firstSlot? key).bind fun slot =>
    (lastVersion? key (Ledger.ofLayers lower).pins).map fun version => ⟨key, slot.name, version⟩

theorem inForceBelow_eq {lower : List Manifest} (hclean : ∀ m ∈ lower, m.Clean) :
    inForceBelow lower = (Ledger.ofLayers lower).start := by
  funext key
  rw [inForceBelow, Ledger.start, (settled_ofLayers hclean).1.firstGroup?_eq, Option.bind_map]
  rfl

theorem conflictsOf_eq {ms : List Manifest} (hclean : ∀ m ∈ ms, m.Clean) :
    conflictsOf ms =
      (withEarlier ms).flatMap fun pair => refusals (inForceBelow pair.1) pair.2.pins := by
  rw [conflictsOf, List.flatMap_def, List.flatMap_def]
  refine congrArg List.flatten (List.map_congr_left fun pair hpair => ?_)
  obtain ⟨after, rfl⟩ := mem_withEarlier_iff.mp (show (pair.1, pair.2) ∈ _ from hpair)
  rw [inForceBelow_eq fun m hm => hclean m (List.mem_append_left _ hm)]

/-- What is in force has the version of the last pin. -/
theorem Ledger.lastVersion?_of_start {l : Ledger} {key : String} {f : InForce}
    (h : l.start key = some f) : lastVersion? key l.pins = some f.version := by
  obtain ⟨group, -, hmap⟩ := Option.bind_eq_some_iff.mp h
  obtain ⟨version, hversion, rfl⟩ := Option.map_eq_some_iff.mp hmap
  exact hversion

end Merge

namespace Manifest

/-! ## Authorized layers -/

/-- A layer may go on top of the given ones. Where it pins a package that they pin too, it keeps the
version of the highest of them, or its first pin of the package is an override. -/
def Authorized (m : Manifest) (lower : List Manifest) : Prop :=
  ∀ key below first, lastPinning? lower key = some below →
    m.pins.find? (·.2.key == key) = some first →
    (∀ b ∈ below.pins, b.2.key = key → b.2.version = first.2.version) ∨ first.2.isOverride = true

variable {lower : List Manifest} {m : Manifest}

/-- Before its first pin of a package, a layer leaves in force what is. -/
theorem inForceAfter_of_new {start : String → Option Merge.InForce} {before : List (Group × Pin)}
    {key : String} (h : ∀ a ∈ before, a.2.key ≠ key) :
    Merge.inForceAfter start before key = start key := by
  have hnone : Merge.lastVersion? key (before.filter (·.2.isOverride)) = none :=
    Merge.lastVersion?_eq_none_iff.mpr fun a ha => h a (List.mem_of_mem_filter ha)
  cases hf : start key <;> simp [Merge.inForceAfter, hf, hnone]

/-- A layer without conflicts is authorized. -/
theorem authorized_of_refusals (hclean : ∀ t ∈ lower, t.Clean)
    (hpins : (Merge.Ledger.ofLayers lower).pins = lower.flatMap pins)
    (h : Merge.refusals (Merge.Ledger.ofLayers lower).start m.pins = []) : m.Authorized lower := by
  intro key below first hbelow hfirst
  by_cases ho : first.2.isOverride = true
  · exact Or.inr ho
  apply Or.inl
  intro b hb hbkey
  obtain ⟨hkey, before, after, hsplit, hnew⟩ := List.find?_eq_some_iff_append.mp hfirst
  have hkey' : first.2.key = key := by simpa using hkey
  -- the version of the highest layer below is in force at the first pin of the package
  have hmem : below ∈ lower := by simpa using List.mem_of_find?_eq_some hbelow
  have hlast : Merge.lastVersion? key (Merge.Ledger.ofLayers lower).pins = some b.2.version := by
    rw [hpins, lastVersion?_flatMap, hbelow, Option.bind_some, ← hbkey]
    exact (hclean below hmem).lastVersion?_eq (fun _ h => h) hb
  obtain ⟨group, hstart⟩ := Merge.Ledger.exists_start hlast
  have hrefuses := Merge.refusals_eq_nil_iff.mp h (before, first)
    (mem_withEarlier_iff.mpr ⟨after, hsplit⟩)
  have hinForce : Merge.inForceAfter (Merge.Ledger.ofLayers lower).start before key =
      some ⟨key, group, b.2.version⟩ := by
    rw [inForceAfter_of_new (by simpa using hnew), hstart]
  simpa [Merge.refuses, ho, hkey', hinForce] using hrefuses

/-- A clean layer that is authorized has no conflicts. -/
theorem refusals_of_authorized (hm : m.Clean)
    (hpins : (Merge.Ledger.ofLayers lower).pins = lower.flatMap pins)
    (h : m.Authorized lower) :
    Merge.refusals (Merge.Ledger.ofLayers lower).start m.pins = [] := by
  rw [Merge.refusals_eq_nil_iff]
  rintro ⟨before, a⟩ hpair
  obtain ⟨after, hsplit⟩ := mem_withEarlier_iff.mp hpair
  have hmem : ∀ c, c ∈ before ∨ c = a → c ∈ m.pins := by
    rw [hsplit]
    rintro c (hc | rfl)
    · exact List.mem_append_left _ hc
    · simp
  have hagree : ∀ c, c ∈ before ∨ c = a → c.2.key = a.2.key → c.2.version = a.2.version :=
    fun c hc hkey => hm.oneVersion c (hmem c hc) a (hmem a (Or.inr rfl)) hkey
  by_cases ho : a.2.isOverride = true
  · simp [Merge.refuses, ho]
  cases hstart : (Merge.Ledger.ofLayers lower).start a.2.key with
  | none => simp [Merge.refuses, Merge.inForceAfter, hstart]
  | some f =>
    cases hlast : Merge.lastVersion? a.2.key (before.filter (·.2.isOverride)) with
    | some version =>
      -- an override came before, and it has the version of the pin
      obtain ⟨c, hc, hkey, rfl⟩ := Merge.exists_of_lastVersion? hlast
      have hsame := hagree c (Or.inl (List.mem_of_mem_filter hc)) hkey
      simp [Merge.refuses, Merge.inForceAfter, hstart, hlast, hsame]
    | none =>
      -- no override came before, so the version of the layers below is in force
      have hbelow := Merge.Ledger.lastVersion?_of_start hstart
      rw [hpins, lastVersion?_flatMap, Option.bind_eq_some_iff] at hbelow
      obtain ⟨below, hbelow, hversion⟩ := hbelow
      obtain ⟨b, hb, hbkey, hbversion⟩ := Merge.exists_of_lastVersion? hversion
      have hfirst : ∃ first, m.pins.find? (·.2.key == a.2.key) = some first ∧
          (first ∈ before ∨ first = a) := by
        rw [hsplit, List.find?_append, List.find?_cons_of_pos (by simp)]
        cases hc : before.find? (·.2.key == a.2.key) with
        | some c => exact ⟨c, rfl, Or.inl (List.mem_of_find?_eq_some hc)⟩
        | none => exact ⟨a, rfl, Or.inr rfl⟩
      obtain ⟨first, hfind, hwhere⟩ := hfirst
      have hkey : first.2.key = a.2.key := by simpa using List.find?_some hfind
      rcases h a.2.key below first hbelow hfind with hkeep | hoverride
      · have hsame : f.version = a.2.version := by
          rw [← hbversion, hkeep b hb hbkey, hagree first hwhere hkey]
        simp [Merge.refuses, Merge.inForceAfter, hstart, hlast, hsame]
      · rcases hwhere with hbefore | rfl
        · have hmem' : first ∈ before.filter (·.2.isOverride) :=
            List.mem_filter.mpr ⟨hbefore, hoverride⟩
          exact absurd hkey (Merge.lastVersion?_eq_none_iff.mp hlast first hmem')
        · exact absurd hoverride ho

/-- Clean layers have no conflicts exactly when each is authorized by those below it. -/
theorem conflictsOf_eq_nil_iff {ms : List Manifest} (hclean : ∀ t ∈ ms, t.Clean) :
    Merge.conflictsOf ms = [] ↔ ∀ pair ∈ withEarlier ms, pair.2.Authorized pair.1 := by
  induction ms using List.reverseRecOn with
  | nil => simp [Merge.conflictsOf]
  | append_singleton ms t ih =>
    have hbelow : ∀ u ∈ ms, u.Clean := fun u hu => hclean u (List.mem_append_left _ hu)
    rw [Merge.conflictsOf_append_singleton, List.append_eq_nil_iff, ih hbelow,
      withEarlier_append_singleton]
    have hlayer : Merge.conflictsOf ms = [] →
        (Merge.refusals (Merge.Ledger.ofLayers ms).start t.pins = [] ↔ t.Authorized ms) := by
      intro hnone
      have hpins := Merge.pins_ofLayers hnone
      exact ⟨authorized_of_refusals hbelow hpins, refusals_of_authorized (hclean t (by simp)) hpins⟩
    simp only [List.mem_append, List.mem_singleton, or_imp, forall_and, forall_eq]
    exact and_congr_right fun h => hlayer ((ih hbelow).mpr h)

/-- Merging clean layers succeeds exactly when each layer is authorized by those below it, and
otherwise reports one conflict for each plain pin that differs from what is in force. -/
theorem merge_conflicts {ms : List Manifest} (hclean : ∀ m ∈ ms, m.Clean) :
    ((∃ r, merge ms = .ok r) ↔
        ∀ lower m upper, ms = lower ++ m :: upper → m.Authorized lower) ∧
      ∀ report, merge ms = .error report →
        report.problems = (withEarlier ms).flatMap fun pair =>
          Merge.refusals (Merge.inForceBelow pair.1) pair.2.pins := by
  obtain ⟨-, hproblems⟩ := Merge.settled_ofLayers hclean
  constructor
  · have hok : (∃ r, merge ms = .ok r) ↔ Merge.conflictsOf ms = [] := by
      simp [Merge.merge_eq_ok_iff, hproblems]
    rw [hok, conflictsOf_eq_nil_iff hclean]
    constructor
    · rintro h lower m upper rfl
      exact h (lower, m) (mem_withEarlier_iff.mpr ⟨upper, rfl⟩)
    · rintro h ⟨lower, m⟩ hpair
      obtain ⟨upper, hsplit⟩ := mem_withEarlier_iff.mp hpair
      exact h lower m upper hsplit
  · intro report hreport
    rw [Merge.merge_eq_error_iff.mp hreport, hproblems, Merge.conflictsOf_eq hclean]

/-- A layer with a plain pin and an override of one package, and a layer on top of it. -/
def conflicting : List Manifest :=
  [ofGroups [{ name := "Web", entries := [.pin ⟨⟨"Flask"⟩, "3.0.0", false, 2⟩] }],
    ofGroups [
      { name := "Dev", entries := [.pin ⟨⟨"flask"⟩, "3.1.0", false, 2⟩] },
      { name := "Web", entries := [.pin ⟨⟨"flask"⟩, "3.1.0", true, 4⟩] }],
    ofGroups [{ name := "Dev", entries := [.pin ⟨⟨"FLASK"⟩, "3.2.0", false, 2⟩] }]]

theorem merge_conflicting : (∀ m ∈ conflicting, m.Clean) ∧
    ∃ report, merge conflicting = .error report ∧ report.problems =
      [.crossGroupConflict "flask" "Web" "3.0.0" "Dev" "3.1.0",
        .crossGroupConflict "FLASK" "Web" "3.1.0" "Dev" "3.2.0"] := by
  have hclean : ∀ m ∈ conflicting, m.Clean := by decide +kernel
  refine ⟨hclean, ?_⟩
  cases h : merge conflicting with
  | ok r =>
    have hnone : (merge conflicting).toOption = none := by decide +kernel
    rw [h] at hnone
    cases hnone
  | error report =>
    exact ⟨report, rfl, ((merge_conflicts hclean).2 report h).trans (by decide +kernel)⟩

end Manifest
end Pinfile
