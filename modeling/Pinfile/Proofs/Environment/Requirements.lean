import Pinfile.Proofs.Environment.Agreement
import Pinfile.Proofs.Manifest.RoundTrip
import Pinfile.Proofs.Name

/-!
# The list of requirements as a manifest

The flat list that is printed for an installer is written in the grammar of manifests: under a
header it is a group. What the list says is `Manifest.listed`, the marker of a chosen group and then
one pin for each selected package, and what is printed is how a group of these entries is written
(`requirements_ofManifest`). They are well formed because they come from a manifest that was read, so the list
is read back as these entries, and as a valid manifest (`requirements_read_back`).

Whether the marker is listed is decided by comparing names of groups in ASCII letter case. That is
less than the comparison by which groups are chosen, but the marker is in a group of the manifest,
and the names of its groups differ in more than letter case (`sameIgnoringAsciiCase_iff_chooses`).
-/

namespace Pinfile

/-! ## What is listed -/

instance (m : Manifest) (names : List String) (g : Group) : Decidable (m.Chooses names g) :=
  inferInstanceAs (Decidable
    (if names = [] then g ∈ m.groups else ∃ name ∈ names, m.group? name = some g))

/-- The pin that asks for a package. -/
def Package.toPin (p : Package) : Pin := { name := ⟨p.name⟩, version := p.version }

/-- The entries of the list for the selected packages: the markers of the chosen groups, and a pin
for each package. -/
def Manifest.listed (m : Manifest) (names : List String) (ps : List Package) : List Entry :=
  (m.markers.filter fun a => m.Chooses names a.1).map (fun a => .editable a.2) ++
    ps.map fun p => .pin p.toPin

/-- A manifest of one group with the given entries. -/
def Manifest.single (name : String) (entries : List Entry) : Manifest :=
  .ofGroups [{ name, entries }]

@[simp] theorem Package.key_toPin (p : Package) : p.toPin.key = p.key := rfl

@[simp] theorem Package.render_toPin (p : Package) : p.toPin.render = p.requirement := by
  simp [Pin.render, Package.toPin, Package.requirement]

namespace Environment

variable {policy : VersionPolicy} {m : Manifest} {env : Environment} {names : List String}
  {gs : List PackageGroup} {ps : List Package} {entries : List Entry} {name : String}

/-! ## What is printed -/

/-- The marker's group is found among the selected groups, by its name up to ASCII letter case,
exactly when it is chosen. -/
theorem sameIgnoringAsciiCase_iff_chooses (hd : m.DistinctGroups)
    (h : (ofManifest m).selectGroups names = .ok gs) {g : Group} (hg : g ∈ m.groups) :
    (gs.any fun t => Text.sameIgnoringAsciiCase t.name g.name) = true ↔ m.Chooses names g := by
  rw [List.any_eq_true]
  constructor
  · rintro ⟨t, ht, hname⟩
    obtain ⟨g', hchosen, rfl⟩ := (mem_selectGroups_ofManifest h).mp ht
    have hkey : g'.key = g.key := Text.lowercase_eq_of_sameIgnoringAsciiCase hname
    have hfind := find?_of_pairwise hd (mem_groups_of_chooses hchosen)
    rw [hkey, find?_of_pairwise hd hg] at hfind
    rwa [Option.some.inj hfind]
  · intro hchosen
    exact ⟨g.toPackages, (mem_selectGroups_ofManifest h).mpr ⟨g, hchosen, rfl⟩, beq_self_eq_true _⟩

/-- Of the markers, there is one at most, and it is printed when its group is chosen. -/
theorem editableLine_ofManifest (hd : m.DistinctGroups) (hone : m.markers.length ≤ 1)
    (h : (ofManifest m).selectGroups names = .ok gs) :
    (ofManifest m).editableLine gs = String.join
      ((m.markers.filter fun a => m.Chooses names a.1).map fun a => a.2.render ++ "\n") := by
  unfold editableLine
  match hmarkers : m.markers, hone with
  | [], _ => simp [ofManifest, hmarkers]
  | [a], _ =>
    have heditable : (ofManifest m).editable = some ⟨a.1.name, a.2.target⟩ := by
      simp [ofManifest, hmarkers]
    have hgroup : a.1 ∈ m.groups := (Manifest.mem_markers_iff.mp (by simp [hmarkers])).1
    have hchosen := sameIgnoringAsciiCase_iff_chooses hd h hgroup
    rw [heditable]
    dsimp only
    by_cases hc : m.Chooses names a.1
    · rw [if_pos (hchosen.mpr hc), List.filter_cons_of_pos (by simpa using hc)]
      simp [Marker.render]
    · rw [if_neg (mt hchosen.mp hc), List.filter_cons_of_neg (by simpa using hc)]
      simp

/-- What is printed is how the listed entries are written. -/
theorem requirements_ofManifest (hd : m.DistinctGroups) (hone : m.markers.length ≤ 1)
    (h : (ofManifest m).selectGroups names = .ok gs) :
    (ofManifest m).requirements names = .ok
      (String.join ((m.listed names (packagesByKey gs)).map fun e => e.render ++ "\n")) := by
  rw [requirements, h]
  unfold Manifest.listed
  simp [Except.map, editableLine_ofManifest hd hone h, String.join_append, Function.comp_def,
    Entry.render]

/-- Under its header, a list of entries is written as the manifest of one group. -/
theorem render_single : (Manifest.single name entries).render =
    "# " ++ name ++ "\n" ++ String.join (entries.map fun e => e.render ++ "\n") := by
  simp [Manifest.single, Manifest.render, Group.render]

/-! ## What is read back -/

/-- Names that each go by a group of the manifest select some groups. -/
theorem exists_selectGroups_ofManifest
    (h : ∀ name ∈ names, ∃ g ∈ m.groups, g.isNamed name = true) :
    ∃ gs, (ofManifest m).selectGroups names = .ok gs := by
  have hfound : none ∉ names.map (ofManifest m).group? := by
    intro hnone
    obtain ⟨name, hname, hgroup⟩ := List.mem_map.mp hnone
    obtain ⟨g, hg, hnamed⟩ := h name hname
    rw [group?_ofManifest, Option.map_eq_none_iff, Manifest.group?, List.find?_eq_none] at hgroup
    exact hgroup g hg hnamed
  obtain ⟨ps, hps⟩ := exists_select_iff.mpr hfound
  obtain ⟨gs, hgs, -⟩ := select_eq_ok_iff.mp hps
  exact ⟨gs, hgs⟩

/-- A selected package is what some pin of the manifest asks for. -/
theorem exists_pin_of_mem_packagesByKey (h : (ofManifest m).selectGroups names = .ok gs)
    {p : Package} (hp : p ∈ packagesByKey gs) : ∃ a ∈ m.pins, a.2.toPackage = p := by
  obtain ⟨g, hg, hmem⟩ := mem_of_mem_packagesByKey hp
  obtain ⟨g', hchosen, rfl⟩ := (mem_selectGroups_ofManifest h).mp hg
  obtain ⟨a, ha, rfl⟩ := List.mem_map.mp hmem
  exact ⟨(g', a), Manifest.mem_pins_iff.mpr ⟨mem_groups_of_chooses hchosen, ha⟩, rfl⟩

/-- The listed entries of a well-formed manifest are well formed. -/
theorem wellFormed_listed (hm : m.WellFormed) (h : (ofManifest m).selectGroups names = .ok gs) :
    ∀ e ∈ m.listed names (packagesByKey gs), e.WellFormed := by
  intro e he
  rcases List.mem_append.mp he with he | he
  · obtain ⟨a, ha, rfl⟩ := List.mem_map.mp he
    obtain ⟨hg, hk⟩ := Manifest.mem_markers_iff.mp (List.mem_of_mem_filter ha)
    exact (hm.groups a.1 hg).entries _ (Manifest.mem_markers_group_iff.mp hk)
  · obtain ⟨p, hp, rfl⟩ := List.mem_map.mp he
    obtain ⟨a, ha, rfl⟩ := exists_pin_of_mem_packagesByKey h hp
    have hwell := hm.pin a ha
    exact ⟨hwell.name, hwell.version_ne, hwell.version⟩

/-- The keys of the packages that are selected from a well-formed manifest are in the order of their
bytes, and no key stands twice. -/
theorem pairwise_bytes (hm : m.WellFormed) (h : (ofManifest m).selectGroups names = .ok gs) :
    ((packagesByKey gs).map fun p => p.key.toUTF8.data.toList).Pairwise (· < ·) := by
  have hascii : ∀ p ∈ packagesByKey gs, ∀ c ∈ p.key.toList, c.toNat < 0x80 := by
    intro p hp
    obtain ⟨a, ha, rfl⟩ := exists_pin_of_mem_packagesByKey h hp
    exact PackageName.toNat_key_of_isValid (hm.pin a ha).name
  rw [List.pairwise_map]
  refine (pairwise_packagesByKey gs).imp_of_mem fun {p q} hp hq hpq => ?_
  have hlt : p.key < q.key := String.not_le.mp fun hle => hpq.2 (String.le_antisymm hpq.1 hle)
  exact Text.bytes_lt_of_ascii (hascii p hp) (hascii q hq) hlt

theorem pins_listed : (m.listed names ps).filterMap Entry.pin? = ps.map Package.toPin := by
  simp [Manifest.listed, List.filterMap_append, List.filterMap_map, Function.comp_def, Entry.pin?]

theorem markers_listed : (m.listed names ps).filterMap Entry.marker? =
    (m.markers.filter fun a => m.Chooses names a.1).map Prod.snd := by
  simp [Manifest.listed, List.filterMap_append, List.filterMap_map, Function.comp_def,
    Entry.marker?]

/-- The listed entries of a valid manifest make a valid manifest. -/
theorem valid_listed (hm : m.Valid policy) (h : (ofManifest m).selectGroups names = .ok gs) :
    (Manifest.single name (m.listed names (packagesByKey gs))).Valid policy := by
  have hdistinct : (packagesByKey gs).Pairwise fun p q => p.key ≠ q.key :=
    (pairwise_packagesByKey gs).imp And.right
  have hpins : ∀ a ∈ (Manifest.single name (m.listed names (packagesByKey gs))).pins,
      ∃ p ∈ packagesByKey gs, a.2 = p.toPin := by
    intro a ha
    obtain ⟨hg, hp⟩ := Manifest.mem_pins_iff.mp ha
    rw [List.mem_singleton.mp hg, Group.pins, pins_listed] at hp
    obtain ⟨p, hp, heq⟩ := List.mem_map.mp hp
    exact ⟨p, hp, heq.symm⟩
  refine ⟨?_, ?_, ?_, ?_⟩
  · intro g hg
    rw [List.mem_singleton.mp hg, Group.pins, pins_listed, List.pairwise_map]
    exact hdistinct
  · -- two pins of one package are the same pin
    intro a ha b hb hkey
    obtain ⟨p, hp, hap⟩ := hpins a ha
    obtain ⟨q, hq, hbq⟩ := hpins b hb
    rw [hap, hbq, Package.key_toPin, Package.key_toPin] at hkey
    have hfind := find?_of_pairwise hdistinct hp
    rw [hkey, find?_of_pairwise hdistinct hq] at hfind
    rw [hap, hbq, Option.some.inj hfind]
  · intro a ha
    obtain ⟨p, hp, hap⟩ := hpins a ha
    obtain ⟨b, hb, rfl⟩ := exists_pin_of_mem_packagesByKey h hp
    rw [hap]
    exact hm.exactVersions b hb
  · have hmarkers : (Manifest.single name (m.listed names (packagesByKey gs))).markers.length =
        (m.markers.filter fun a => m.Chooses names a.1).length := by
      simp [Manifest.single, Manifest.markers, Group.markers, markers_listed]
    rw [hmarkers]
    exact Nat.le_trans (List.length_filter_le _ _) hm.oneMarker

/-- The list for the packages that are selected from a manifest that was read is read back, under a
header, as a group of what was listed: the marker when its group is chosen, and then one pin for
each package, in the order of the bytes of the keys. What is read is valid when the manifest was. -/
theorem requirements_read_back {text : String} (hparse : Manifest.parse text = .ok m)
    (hresolve : resolve policy m = .ok env)
    (hnames : ∀ name ∈ names, ∃ g ∈ m.groups, g.isNamed name = true) :
    ∃ list ps out, env.requirements names = .ok list ∧ env.select names = .ok ps ∧
      Manifest.parse ("# X\n" ++ list) = .ok out ∧
      out.Same (.single "X" (m.listed names ps)) ∧
      (ps.map fun p => p.key.toUTF8.data.toList).Pairwise (· < ·) ∧
      out.validate policy = .ok () := by
  obtain ⟨hvalidate, rfl⟩ := resolve_eq_ok_iff.mp hresolve
  have hvalid := Manifest.problems_eq_nil_iff_valid.mp (Manifest.validate_eq_ok_iff.mp hvalidate)
  have hwell := Manifest.wellFormed_of_parse hparse
  obtain ⟨gs, hgs⟩ := exists_selectGroups_ofManifest hnames
  have hsingle : (Manifest.single "X" (m.listed names (packagesByKey gs))).WellFormed := by
    refine Manifest.wellFormed_ofGroups ?_ (List.pairwise_singleton _ _)
    intro g hg
    have hname : Text.IsTrimmedLine "X".toList := by
      have hblank : Text.isBlank 'X' = false := by decide
      show Text.IsTrimmedLine ['X']
      exact ⟨by simp, by simpa using hblank, by simpa using hblank, by simp⟩
    rw [List.mem_singleton.mp hg]
    exact ⟨hname, wellFormed_listed hwell hgs⟩
  obtain ⟨out, hout, hsame⟩ := Manifest.parse_render hsingle
  refine ⟨_, _, out, requirements_ofManifest hwell.distinct hvalid.oneMarker hgs,
    select_eq_ok_iff.mpr ⟨gs, hgs, rfl⟩, ?_, hsame, pairwise_bytes hwell hgs, ?_⟩
  · rw [← hout, render_single]
    rfl
  · rw [Manifest.validate_eq_ok_iff, Manifest.problems_eq_nil_iff_valid,
      Manifest.valid_iff_of_same hsame]
    exact valid_listed hvalid hgs

/-- A manifest with a marker in a group whose name is not ASCII. It has a package in two groups. -/
def marked : Manifest :=
  .ofGroups [
    { name := "Οδός", entries := [.pin ⟨⟨"typing_extensions"⟩, "4.12.2", false, 2⟩,
        .editable ⟨".", ["dev", "docs"], 3⟩] },
    { name := "Dev", entries := [.pin ⟨⟨"Typing.Extensions"⟩, "4.12.2", true, 6⟩,
        .pin ⟨⟨"attrs"⟩, "25.1.0", false, 7⟩] }]

/-- The marker is listed with the group that has it, and not with the other group alone. -/
theorem requirements_marked : ∃ env, resolve {} marked = .ok env ∧
    (∃ list ps out, env.requirements ["DEV", " ΟΔΌΣ"] = .ok list ∧
      env.select ["DEV", " ΟΔΌΣ"] = .ok ps ∧ Manifest.parse ("# X\n" ++ list) = .ok out ∧
      out.Same (.single "X"
        (.editable ⟨".", ["dev", "docs"], 3⟩ :: ps.map fun p => .pin p.toPin))) ∧
    ∃ list ps out, env.requirements ["dev"] = .ok list ∧ env.select ["dev"] = .ok ps ∧
      Manifest.parse ("# X\n" ++ list) = .ok out ∧
      out.Same (.single "X" (ps.map fun p => .pin p.toPin)) := by
  have hparse : Manifest.parse ("# Οδός\ntyping_extensions==4.12.2\n-e .[dev, docs]\n\n" ++
      "# Dev\nTyping.Extensions==4.12.2 # override\nattrs == 25.1.0") = .ok marked := by
    decide +kernel
  have hresolve : resolve {} marked = .ok (ofManifest marked) := by rfl
  have hboth : (marked.markers.filter fun a => marked.Chooses ["DEV", " ΟΔΌΣ"] a.1).map
      (fun a => Entry.editable a.2) = [.editable ⟨".", ["dev", "docs"], 3⟩] := by decide +kernel
  have hone : (marked.markers.filter fun a => marked.Chooses ["dev"] a.1).map
      (fun a => Entry.editable a.2) = [] := by decide +kernel
  have hnamed : ∀ name ∈ ["DEV", " ΟΔΌΣ"], ∃ g ∈ marked.groups, g.isNamed name = true := by
    decide +kernel
  have hnamed' : ∀ name ∈ ["dev"], ∃ g ∈ marked.groups, g.isNamed name = true := by
    decide +kernel
  obtain ⟨list, ps, out, hlist, hps, hout, hsame, -⟩ :=
    requirements_read_back hparse hresolve hnamed
  obtain ⟨list', ps', out', hlist', hps', hout', hsame', -⟩ :=
    requirements_read_back hparse hresolve hnamed'
  rw [Manifest.listed, hboth] at hsame
  rw [Manifest.listed, hone] at hsame'
  exact ⟨_, hresolve, ⟨list, ps, out, hlist, hps, hout, hsame⟩,
    list', ps', out', hlist', hps', hout', hsame'⟩

end Environment
end Pinfile
