import Pinfile.Proofs.Merge.TopLayer

/-!
# How far an override reaches

An override is meant for every pin of its package in the layers below. Whether a pin of the top layer
agrees with the layers below is decided by the first of those pins alone, and a pin that agrees with
it replaces nothing. So the only pin of a package in the top layer settles all pins of the package
except when the first pin below has its version already and a later one does not
(`sole_pin_reaches_iff`). Layers that give a package several versions can leave such a later pin
behind: merging does not compare the pins of one layer with each other.
-/

namespace Pinfile.Manifest

open Merge

variable {b l r : Manifest} {g : Group} {p : Pin}

theorem mem_iff_of_sole (hsole : l.pins.filter (·.2.key == p.key) = [(g, p)]) (a : Group × Pin) :
    (a ∈ l.pins ∧ a.2.key = p.key) ↔ a = (g, p) := by
  have hfilter : a ∈ l.pins.filter (·.2.key == p.key) ↔ a ∈ l.pins ∧ a.2.key = p.key := by
    rw [List.mem_filter, beq_iff_eq]
  rw [← hfilter, hsole, List.mem_singleton]

/-- The only pin of a package in the layer is its last. -/
theorem lastVersion?_of_sole (hsole : l.pins.filter (·.2.key == p.key) = [(g, p)]) :
    lastVersion? p.key l.pins = some p.version := by
  obtain ⟨hmem, -⟩ := (mem_iff_of_sole hsole (g, p)).mpr rfl
  refine lastVersion?_eq_of_agree (fun a ha hkey => ?_) ⟨(g, p), hmem, rfl⟩
  rw [(mem_iff_of_sole hsole a).mp ⟨ha, hkey⟩]

/-- The only pin of a package moves it when the first pin below has another version. -/
theorem moves_iff_of_sole (hsole : l.pins.filter (·.2.key == p.key) = [(g, p)]) :
    l.Moves b p.key ↔
      ∃ first, b.pins.find? (·.2.key == p.key) = some first ∧ p.version ≠ first.2.version := by
  have hmoves : ∀ version, (∃ a ∈ l.pins, a.2.key = p.key ∧ a.2.version ≠ version) ↔
      p.version ≠ version := by
    intro version
    simp only [← and_assoc, mem_iff_of_sole hsole, exists_eq_left]
  simp only [Moves, hmoves, inForce, Option.map_eq_some_iff]
  constructor
  · rintro ⟨_, ⟨first, hfirst, rfl⟩, hv⟩
    exact ⟨first, hfirst, hv⟩
  · rintro ⟨first, hfirst, hv⟩
    exact ⟨_, ⟨first, hfirst, rfl⟩, hv⟩

/-- Where a package stands once in the top layer, all its pins get that version exactly when the
first pin below does not have the version already, or all pins below have it. -/
theorem sole_pin_reaches_iff {ms : List Manifest} (hms : ms ≠ [])
    (hd : ∀ m ∈ ms, m.DistinctGroups) (hl : l.DistinctGroups)
    (hsole : l.pins.filter (·.2.key == p.key) = [(g, p)]) (hr : merge (ms ++ [l]) = .ok r) :
    ∃ b, merge ms = .ok b ∧
      ((∀ a ∈ r.pins, a.2.key = p.key → a.2.version = p.version) ↔
        ∀ first, b.pins.find? (·.2.key == p.key) = some first → first.2.version = p.version →
          ∀ a ∈ b.pins, a.2.key = p.key → a.2.version = p.version) := by
  obtain ⟨b, hmerge, hr⟩ := exists_merge_of_append hms hr
  refine ⟨b, hmerge, ?_⟩
  have hb : b.DistinctGroups := distinctGroups_of_merge hd hmerge
  have hnone := refusals_of_merge_pair hb hr
  -- the new pins have the version in any case, so only those below matter
  have hnew : ∀ group, ∀ q ∈ b.newPins l group, q.key = p.key → q.version = p.version := by
    intro group q hq hkey
    obtain ⟨a, ha, -, rfl⟩ := mem_pinsIn_iff.mp (List.mem_of_mem_filter hq)
    rw [(mem_iff_of_sole hsole a).mp ⟨ha, hkey⟩]
  rw [forall_merge_pair_iff hb hl hr fun q => q.key = p.key → q.version = p.version,
    and_iff_left hnew]
  by_cases hmoves : l.Moves b p.key
  · -- the layer moves the package, and the first pin below has another version
    refine iff_of_true ?_ ?_
    · intro a _ hkey
      rw [key_withLast] at hkey
      rw [withLast_of_moves hnone (hkey ▸ hmoves) (hkey ▸ lastVersion?_of_sole hsole)]
      rfl
    · intro first hfirst hv
      obtain ⟨first', hfirst', hv'⟩ := (moves_iff_of_sole hsole).mp hmoves
      rw [hfirst] at hfirst'
      rw [← Option.some.inj hfirst'] at hv'
      exact absurd hv.symm hv'
  · -- the layer leaves the package as it is, and the first pin below has the version
    have hbelow : ∀ a ∈ b.pins, a.2.key = p.key →
        withLast (replacing b.inForce l.pins) a.2 = a.2 := by
      intro a ha hkey
      exact withLast_of_not_moves hnone ha (hkey ▸ hmoves)
    constructor
    · intro h first _ _ a ha hkey
      have hversion := h a ha hkey
      rwa [hbelow a ha hkey] at hversion
    · intro h a ha hkey
      rw [key_withLast] at hkey
      rw [hbelow a ha hkey]
      cases hfind : b.pins.find? (·.2.key == p.key) with
      | none => exact absurd (by simpa using hkey) (List.find?_eq_none.mp hfind a ha)
      | some first =>
        refine h first hfind ?_ a ha hkey
        by_contra hv
        exact hmoves ((moves_iff_of_sole hsole).mpr ⟨first, hfind, Ne.symm hv⟩)

/-- A layer with two versions of a package. -/
def uneven : Manifest :=
  ofGroups [
    { name := "Web", entries := [.pin ⟨⟨"flask"⟩, "3.0.0", false, 2⟩] },
    { name := "Dev", entries := [.pin ⟨⟨"Flask"⟩, "3.1.0", false, 5⟩] }]

/-- An override of the package. -/
def override (version : String) : Pin := ⟨⟨"flask"⟩, version, true, 2⟩

/-- A layer with one override of the package. -/
def evening (version : String) : Manifest :=
  ofGroups [{ name := "Web", entries := [.pin (override version)] }]

/-- What the layers give together where the override replaces both versions. -/
def evened : Manifest :=
  ofGroups [
    { name := "Web", entries := [.pin ⟨⟨"flask"⟩, "3.2.0", false, 2⟩] },
    { name := "Dev", entries := [.pin ⟨⟨"Flask"⟩, "3.2.0", false, 5⟩] }]

theorem sole_pin_reaches_uneven : uneven.DistinctGroups ∧ (evening "3.2.0").DistinctGroups ∧
    merge [uneven, evening "3.2.0"] = .ok evened ∧
    ∀ a ∈ evened.pins, a.2.key = "flask" → a.2.version = "3.2.0" := by
  have hd : uneven.DistinctGroups := by decide +kernel
  have hl : (evening "3.2.0").DistinctGroups := by decide +kernel
  have hr : merge ([uneven] ++ [evening "3.2.0"]) = .ok evened := by rfl
  refine ⟨hd, hl, hr, ?_⟩
  have hsole : (evening "3.2.0").pins.filter (·.2.key == (override "3.2.0").key) =
      [(⟨"Web", 0, [.pin (override "3.2.0")]⟩, override "3.2.0")] := by rfl
  obtain ⟨b, hb, hreaches⟩ :=
    sole_pin_reaches_iff (List.cons_ne_nil _ _) (by simpa using hd) hl hsole hr
  have hbelow : b = uneven := by
    have hsingle : merge [uneven] = .ok uneven := by rfl
    exact Except.ok.inj (hb.symm.trans hsingle)
  refine hreaches.mpr fun first hfirst hv => ?_
  -- the first pin below has a version of its own
  have hfind : uneven.pins.find? (·.2.key == (override "3.2.0").key) =
      some (⟨"Web", 0, [.pin ⟨⟨"flask"⟩, "3.0.0", false, 2⟩]⟩, ⟨⟨"flask"⟩, "3.0.0", false, 2⟩) := by
    rfl
  rw [hbelow, hfind] at hfirst
  rw [← Option.some.inj hfirst] at hv
  exact absurd hv (by decide)

/-- An override with the version that the first pin has already leaves the other version in place. -/
theorem override_leaves_version : ∃ base layer r,
    parse "# Web\nflask==3.0.0\n\n# Dev\nFlask==3.1.0\n" = .ok base ∧
    parse "# Web\nflask==3.0.0  # override\n" = .ok layer ∧
    (layer.pins.filter (·.2.key == "flask")).map (fun a => (a.2.version, a.2.isOverride)) =
      [("3.0.0", true)] ∧
    merge [base, layer] = .ok r ∧ ∃ a ∈ r.pins, a.2.key = "flask" ∧ a.2.version = "3.1.0" := by
  refine ⟨uneven, evening "3.0.0", uneven, by rfl, by rfl, by rfl, by rfl, ?_⟩
  decide +kernel

end Pinfile.Manifest
