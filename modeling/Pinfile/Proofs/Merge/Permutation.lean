import Pinfile.Proofs.Merge.Conflicts
import Pinfile.Proofs.Merge.Preservation

/-!
# The order of the layers

Without overrides, clean layers can be merged exactly when they agree on the versions of all packages
(`exists_merge_iff_agreeing`). A merged manifest then states of a group, a package and a version what
some layer states (`states_merge_iff`). Neither has anything to do with the order of the layers, so
the order decides only how things are spelled and where they stand (`merge_perm`).
-/

namespace Pinfile.Manifest

open Merge

variable {ms ms' : List Manifest} {m r : Manifest}

/-- The manifest overrides nothing. -/
def Plain (m : Manifest) : Prop := ∀ a ∈ m.pins, a.2.isOverride = false

instance (m : Manifest) : Decidable m.Plain := by
  unfold Plain
  infer_instance

/-- No two pins of the layers give different versions to a package. -/
def Agreeing (ms : List Manifest) : Prop :=
  ∀ a ∈ ms.flatMap pins, ∀ b ∈ ms.flatMap pins, a.2.key = b.2.key → a.2.version = b.2.version

/-- Some group with a name of the given lowercase form pins the package in the version. -/
def States (m : Manifest) (group key version : String) : Prop :=
  ∃ p ∈ pinsIn group m.pins, p.key = key ∧ p.version = version

/-! ## When layers agree -/

theorem Agreeing.perm (h : Agreeing ms) (hperm : ms.Perm ms') : Agreeing ms' := by
  have hmem : ∀ a, a ∈ ms'.flatMap pins → a ∈ ms.flatMap pins := fun a =>
    (hperm.flatMap_right pins).mem_iff.mpr
  exact fun a ha b hb => h a (hmem a ha) b (hmem b hb)

/-- A plain layer that is authorized by layers that agree keeps their versions. -/
theorem version_eq_of_authorized (hm : m.Clean) (hplain : m.Plain) (h : Agreeing ms)
    (hauthorized : m.Authorized ms) {a b : Group × Pin} (ha : a ∈ m.pins)
    (hb : b ∈ ms.flatMap pins) (hkey : b.2.key = a.2.key) : b.2.version = a.2.version := by
  -- the highest layer with the package, and its version, which the first pin of the layer has
  obtain ⟨version, hlast⟩ := exists_lastVersion? hb
  rw [lastVersion?_flatMap, Option.bind_eq_some_iff] at hlast
  obtain ⟨below, hfind, hversion⟩ := hlast
  obtain ⟨c, hc, hckey, -⟩ := exists_of_lastVersion? hversion
  have hmem : below ∈ ms := by simpa using List.mem_of_find?_eq_some hfind
  have hfirst : (m.pins.find? (·.2.key == b.2.key)).isSome :=
    List.find?_isSome.mpr ⟨a, ha, by simpa using hkey.symm⟩
  obtain ⟨first, hfirst⟩ := Option.isSome_iff_exists.mp hfirst
  have hfirstMem := List.mem_of_find?_eq_some hfirst
  have hfirstKey : first.2.key = b.2.key := by simpa using List.find?_some hfirst
  have hsame : c.2.version = first.2.version := by
    rcases hauthorized b.2.key below first hfind hfirst with hkeep | hoverride
    · exact hkeep c hc hckey
    · rw [hplain first hfirstMem] at hoverride
      cases hoverride
  calc b.2.version = c.2.version :=
        h b hb c (List.mem_flatMap.mpr ⟨below, hmem, hc⟩) hckey.symm
    _ = first.2.version := hsame
    _ = a.2.version := hm.oneVersion first hfirstMem a ha (hfirstKey.trans hkey)

/-- A plain layer is authorized by layers that agree when it agrees with them. -/
theorem authorized_iff_agreeing (hm : m.Clean) (hplain : m.Plain) (h : Agreeing ms) :
    m.Authorized ms ↔ Agreeing (ms ++ [m]) := by
  rw [Agreeing, List.flatMap_append, List.flatMap_singleton]
  constructor
  · intro hauthorized a ha b hb hkey
    rcases List.mem_append.mp ha with ha | ha <;> rcases List.mem_append.mp hb with hb | hb
    · exact h a ha b hb hkey
    · exact version_eq_of_authorized hm hplain h hauthorized hb ha hkey
    · exact (version_eq_of_authorized hm hplain h hauthorized ha hb hkey.symm).symm
    · exact hm.oneVersion a ha b hb hkey
  · intro hagree key below first hbelow hfirst
    left
    intro b hb hkey
    have hmem : below ∈ ms := by simpa using List.mem_of_find?_eq_some hbelow
    have hfirstKey : first.2.key = key := by simpa using List.find?_some hfirst
    exact hagree b (List.mem_append_left _ (List.mem_flatMap.mpr ⟨below, hmem, hb⟩)) first
      (List.mem_append_right _ (List.mem_of_find?_eq_some hfirst)) (hkey.trans hfirstKey.symm)

/-- Plain layers are each authorized by those below exactly when they all agree. -/
theorem forall_authorized_iff_agreeing (hclean : ∀ m ∈ ms, m.Clean) (hplain : ∀ m ∈ ms, m.Plain) :
    (∀ pair ∈ withEarlier ms, pair.2.Authorized pair.1) ↔ Agreeing ms := by
  induction ms using List.reverseRecOn with
  | nil => simp [Agreeing]
  | append_singleton ms m ih =>
    simp only [List.forall_mem_append, List.forall_mem_singleton] at hclean hplain
    rw [withEarlier_append_singleton, List.forall_mem_append, List.forall_mem_singleton,
      ih hclean.1 hplain.1]
    constructor
    · rintro ⟨hbelow, hauthorized⟩
      exact (authorized_iff_agreeing hclean.2 hplain.2 hbelow).mp hauthorized
    · intro h
      have hbelow : Agreeing ms := by
        intro a ha b hb
        rw [Agreeing, List.flatMap_append] at h
        exact h a (List.mem_append_left _ ha) b (List.mem_append_left _ hb)
      exact ⟨hbelow, (authorized_iff_agreeing hclean.2 hplain.2 hbelow).mpr h⟩

/-- Plain clean layers can be merged exactly when they agree. -/
theorem exists_merge_iff_agreeing (hclean : ∀ m ∈ ms, m.Clean) (hplain : ∀ m ∈ ms, m.Plain) :
    (∃ r, merge ms = .ok r) ↔ Agreeing ms := by
  have hproblems := (settled_ofLayers hclean).2
  calc (∃ r, merge ms = .ok r) ↔ conflictsOf ms = [] := by simp [merge_eq_ok_iff, hproblems]
    _ ↔ ∀ pair ∈ withEarlier ms, pair.2.Authorized pair.1 := conflictsOf_eq_nil_iff hclean
    _ ↔ Agreeing ms := forall_authorized_iff_agreeing hclean hplain

/-! ## What agreeing layers state -/

/-- A manifest that agreeing layers are merged into states what one of them states. -/
theorem states_merge_iff (hagree : Agreeing ms) (hr : merge ms = .ok r)
    {group key version : String} :
    r.States group key version ↔ ∃ m ∈ ms, m.States group key version := by
  -- a merged pin has the version of whatever layer pins its package
  have hversion : ∀ a ∈ r.pins, ∀ n ∈ ms, ∀ b ∈ n.pins, b.2.key = a.2.key →
      b.2.version = a.2.version := by
    intro a ha n hn b hb hkey
    obtain ⟨-, m, hm, c, hc, hckey, hcversion⟩ := comesFrom_of_merge hr ha
    rw [← hcversion]
    exact hagree b (List.mem_flatMap.mpr ⟨n, hn, hb⟩) c (List.mem_flatMap.mpr ⟨m, hm, hc⟩)
      (hkey.trans hckey.symm)
  constructor
  · rintro ⟨p, hp, rfl, rfl⟩
    obtain ⟨a, ha, rfl, rfl⟩ := mem_pinsIn_iff.mp hp
    obtain ⟨⟨m, hm, q, hq, hsame⟩, -⟩ := comesFrom_of_merge hr ha
    have hkey : q.key = a.2.key := (congrArg Pin.key hsame).symm
    obtain ⟨b, hb, -, rfl⟩ := mem_pinsIn_iff.mp hq
    exact ⟨m, hm, b.2, hq, hkey, hversion a ha m hm b hb hkey⟩
  · rintro ⟨m, hm, q, hq, rfl, rfl⟩
    obtain ⟨p, hp, hkey⟩ := (pinsIn_merge_iff hr).mpr ⟨m, hm, q, hq, rfl⟩
    obtain ⟨a, ha, -, rfl⟩ := mem_pinsIn_iff.mp hp
    obtain ⟨b, hb, -, rfl⟩ := mem_pinsIn_iff.mp hq
    exact ⟨a.2, hp, hkey, (hversion a ha m hm b hb hkey.symm).symm⟩

/-- Clean layers that override nothing can be merged in every order or in none. Whatever the order,
the merged manifest states the same versions of the same packages in the same groups, and asks for
the same. -/
theorem merge_perm (hclean : ∀ m ∈ ms, m.Clean) (hplain : ∀ m ∈ ms, m.Plain)
    (hperm : ms.Perm ms') :
    ((∃ r, merge ms = .ok r) ↔ ∃ r, merge ms' = .ok r) ∧
      ∀ r r', merge ms = .ok r → merge ms' = .ok r' →
        (∀ group key version, r.States group key version ↔ r'.States group key version) ∧
          ∀ what, what ∈ r.asked ↔ what ∈ r'.asked := by
  have hok := exists_merge_iff_agreeing hclean hplain
  have hok' := exists_merge_iff_agreeing (fun m hm => hclean m (hperm.mem_iff.mpr hm))
    fun m hm => hplain m (hperm.mem_iff.mpr hm)
  refine ⟨?_, fun r r' hr hr' => ⟨fun group key version => ?_, fun what => ?_⟩⟩
  · rw [hok, hok']
    exact ⟨fun h => h.perm hperm, fun h => h.perm hperm.symm⟩
  · have hagree := hok.mp ⟨r, hr⟩
    rw [states_merge_iff hagree hr, states_merge_iff (hagree.perm hperm) hr']
    simp only [hperm.mem_iff]
  · rw [mem_asked_merge_iff hr, mem_asked_merge_iff hr']
    simp only [hperm.mem_iff]

/-- Layers that agree and spell things differently. -/
def spelled : List Manifest :=
  [ofGroups [{ name := "Web", entries := [.pin ⟨⟨"Flask"⟩, "3.0.0", false, 2⟩,
      .editable ⟨".", [], 3⟩] }],
    ofGroups [
      { name := "DEV", entries := [.pin ⟨⟨"my_lib"⟩, "1", false, 2⟩] },
      { name := "WEB", entries := [.editable ⟨".", [], 4⟩, .pin ⟨⟨"FLASK"⟩, "3.0.0", false, 5⟩] }],
    ofGroups [{ name := "dev", entries := [.pin ⟨⟨"flask"⟩, "3.0.0", false, 2⟩,
      .pin ⟨⟨"My-Lib"⟩, "1", false, 3⟩] }]]

theorem merge_spelled_reverse :
    (∀ m ∈ spelled, m.Clean) ∧ (∀ m ∈ spelled, m.Plain) ∧
      ∃ r r', merge spelled = .ok r ∧ merge spelled.reverse = .ok r' ∧
        r.groups.map Group.name = ["Web", "DEV"] ∧ r'.groups.map Group.name = ["dev", "WEB"] ∧
        (∀ group key version, r.States group key version ↔ r'.States group key version) ∧
        ∀ what, what ∈ r.asked ↔ what ∈ r'.asked := by
  have hclean : ∀ m ∈ spelled, m.Clean := by decide +kernel
  have hplain : ∀ m ∈ spelled, m.Plain := by decide +kernel
  obtain ⟨-, hsame⟩ := merge_perm hclean hplain (List.reverse_perm spelled).symm
  exact ⟨hclean, hplain, _, _, rfl, rfl, by decide +kernel, by decide +kernel, hsame _ _ rfl rfl⟩

end Pinfile.Manifest
