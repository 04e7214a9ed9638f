import Pinfile.Manifest.Parser
import Pinfile.Proofs.Results
import Pinfile.Proofs.Text.Cutting
import Pinfile.Proofs.Validity

/-!
# Well-formed manifests

A manifest is well formed (`Manifest.WellFormed`) when its groups are numbered by position and have
different names, each a single trimmed line, and when its pins and markers are written in characters
that an entry line can hold. This does not depend on the lines that entries stand on
(`Manifest.wellFormed_iff_of_same`).

The main statement is that reading a text gives no other manifests (`Manifest.wellFormed_of_parse`).
A cursor keeps well-formed groups of different names from line to line (`Cursor.WellFormed.step`);
what a line adds is a group name or an entry, and both were checked when they were read
(`EntryLine.wellFormed_of_parseEntry`).
-/

namespace Pinfile

open Text

/-! ## The rules -/

/-- A pin of a valid package name, and of a version in the characters that versions may hold. -/
structure Pin.WellFormed (p : Pin) : Prop where
  name : PackageName.isValid p.name.text = true
  version_ne : p.version ≠ ""
  version : ∀ c ∈ p.version.toList, EntryLine.isVersionChar c = true

/-- A marker with a path that is not empty and holds no blank, no `#` and no `[`, and with valid
features. -/
structure Marker.WellFormed (m : Marker) : Prop where
  path_ne : m.path ≠ ""
  path : ∀ c ∈ m.path.toList, isBlank c = false ∧ c ≠ '#' ∧ c ≠ '['
  extras : ∀ extra ∈ m.extras, PackageName.isValid extra = true

/-- A well-formed pin or marker. -/
def Entry.WellFormed : Entry → Prop
  | .pin p => p.WellFormed
  | .editable m => m.WellFormed

/-- A group with a name that is a trimmed line, and with well-formed entries. -/
structure Group.WellFormed (g : Group) : Prop where
  name : IsTrimmedLine g.name.toList
  entries : ∀ e ∈ g.entries, e.WellFormed

/-- Groups numbered by their positions, with different names, all well formed. -/
structure Manifest.WellFormed (m : Manifest) : Prop where
  ordinals : m.groups.map Group.ordinal = List.range m.groups.length
  groups : ∀ g ∈ m.groups, g.WellFormed
  distinct : m.DistinctGroups

/-- The pins of a well-formed manifest are well formed. -/
theorem Manifest.WellFormed.pin {m : Manifest} (h : m.WellFormed) :
    ∀ a ∈ m.pins, a.2.WellFormed := by
  intro a ha
  obtain ⟨hg, hp⟩ := Manifest.mem_pins_iff.mp ha
  exact (h.groups a.1 hg).entries _ (Manifest.mem_pins_group_iff.mp hp)

/-- Whether groups have different names depends on the names alone. -/
theorem Group.pairwise_key_iff {groups : List Group} :
    (groups.Pairwise fun g h => g.key ≠ h.key) ↔
      (groups.map Group.name).Pairwise fun a b => lowercase a ≠ lowercase b := by
  rw [List.pairwise_map]
  rfl

theorem Group.WellFormed.push {g : Group} (h : g.WellFormed) {e : Entry} (he : e.WellFormed) :
    (g.push e).WellFormed := by
  refine ⟨h.name, ?_⟩
  intro t ht
  rcases List.mem_append.mp ht with ht | ht
  · exact h.entries t ht
  · obtain rfl := List.mem_singleton.mp ht
    exact he

/-! ## Lines do not matter -/

theorem Entry.wellFormed_withoutLine (e : Entry) : e.withoutLine.WellFormed ↔ e.WellFormed := by
  cases e with
  | pin p => exact ⟨fun ⟨hn, he, hv⟩ => ⟨hn, he, hv⟩, fun ⟨hn, he, hv⟩ => ⟨hn, he, hv⟩⟩
  | editable m => exact ⟨fun ⟨he, hp, hx⟩ => ⟨he, hp, hx⟩, fun ⟨he, hp, hx⟩ => ⟨he, hp, hx⟩⟩

theorem Group.wellFormed_withoutLines (g : Group) : g.withoutLines.WellFormed ↔ g.WellFormed := by
  have hentries : (∀ e ∈ g.withoutLines.entries, e.WellFormed) ↔ ∀ e ∈ g.entries, e.WellFormed := by
    simp [Group.withoutLines, Entry.wellFormed_withoutLine]
  constructor
  · intro h
    exact ⟨h.name, hentries.mp h.entries⟩
  · intro h
    exact ⟨h.name, hentries.mpr h.entries⟩

namespace Manifest

theorem wellFormed_withoutLines (m : Manifest) : m.withoutLines.WellFormed ↔ m.WellFormed := by
  have hordinals : m.withoutLines.groups.map Group.ordinal = m.groups.map Group.ordinal := by
    rw [withoutLines, List.map_map]
    rfl
  have hlength : m.withoutLines.groups.length = m.groups.length := List.length_map _
  have hgroups : (∀ g ∈ m.withoutLines.groups, g.WellFormed) ↔ ∀ g ∈ m.groups, g.WellFormed := by
    simp [withoutLines, Group.wellFormed_withoutLines]
  have hdistinct : m.withoutLines.DistinctGroups ↔ m.DistinctGroups := List.pairwise_map
  constructor
  · rintro ⟨ho, hg, hd⟩
    rw [hordinals, hlength] at ho
    exact ⟨ho, hgroups.mp hg, hdistinct.mp hd⟩
  · rintro ⟨ho, hg, hd⟩
    rw [← hordinals, ← hlength] at ho
    exact ⟨ho, hgroups.mpr hg, hdistinct.mpr hd⟩

/-- Two manifests that say the same are well formed together. -/
theorem wellFormed_iff_of_same {a b : Manifest} (h : a.Same b) : a.WellFormed ↔ b.WellFormed := by
  rw [← a.wellFormed_withoutLines, ← b.wellFormed_withoutLines, h]

end Manifest

/-! ## What an entry line gives -/

namespace EntryLine

/-- The body of a line ends before the comment. -/
theorem not_mem_cutComment (content : List Char) : '#' ∉ (cutComment content).1 := by
  unfold cutComment
  split
  · next hcut => exact fun hmem => not_mem_of_cutAt?_singleton hcut (mem_of_mem_trim hmem)
  · next hnone => exact cutAt?_singleton_eq_none_iff.mp hnone

/-- The target of a marker is a part of the body. -/
theorem mem_of_mem_target? {body target : List Char} (h : target? body = some target) {c : Char}
    (hc : c ∈ target) : c ∈ body := by
  have hpart : ∀ {start rest : List Char}, afterPrefix? start body = some rest →
      c ∈ trim rest → c ∈ body := by
    intro start rest hrest hmem
    rw [afterPrefix?_eq_some_iff.mp hrest]
    exact List.mem_append_right start (mem_of_mem_trim hmem)
  unfold target? at h
  split at h
  · next hrest =>
    rw [← Option.some.inj h] at hc
    rw [afterPrefix?_eq_some_iff.mp hrest]
    exact List.mem_append_right _ (List.mem_cons_of_mem _ (mem_of_mem_trim hc))
  · next hrest =>
    split at h
    · rw [← Option.some.inj h] at hc
      exact hpart hrest hc
    · cases h
  · split at h
    · next hrest =>
      split at h
      · rw [← Option.some.inj h] at hc
        exact hpart hrest hc
      · cases h
    · cases h

/-- The path of a target is the part of it before the first bracket. -/
theorem mem_of_splitTarget {target path : List Char} {extras : List (List Char)}
    (h : splitTarget target = .ok (path, extras)) {c : Char} (hc : c ∈ path) :
    c ∈ target ∧ c ≠ '[' := by
  unfold splitTarget at h
  split at h
  · next hnone =>
    cases h
    exact ⟨hc, fun heq => cutAt?_singleton_eq_none_iff.mp hnone (heq ▸ hc)⟩
  · next before rest hcut =>
    split at h
    · cases h
    · cases h
      have hbefore := mem_of_mem_trim hc
      refine ⟨?_, fun heq => not_mem_of_cutAt?_singleton hcut (heq ▸ hbefore)⟩
      rw [cutAt?_eq_some hcut, List.append_assoc]
      exact List.mem_append_left _ hbefore

/-- When a marker is read, and which. -/
theorem parseMarker_eq_ok_iff {line : Nat} {target : List Char} {m : Marker} :
    parseMarker line target = .ok m ↔ target ≠ [] ∧ ∃ path extras,
      splitTarget target = .ok (path, extras) ∧ path ≠ [] ∧ (∀ c ∈ path, isBlank c = false) ∧
      (∀ extra ∈ extras, PackageName.isValid (String.ofList extra) = true) ∧
      m = ⟨String.ofList path, extras.map String.ofList, line⟩ := by
  unfold parseMarker
  constructor
  · intro h
    by_cases htarget : target = []
    · subst htarget
      cases h
    rw [if_neg (by simpa using htarget)] at h
    cases hsplit : splitTarget target with
    | error fault =>
      rw [hsplit] at h
      cases h
    | ok parts =>
      obtain ⟨path, extras⟩ := parts
      rw [hsplit] at h
      simp only [bind, Except.bind, pure, Except.pure] at h
      split at h
      · cases h
      next hpath =>
      split at h
      · cases h
      next hextras =>
      have hpath' : path ≠ [] ∧ ∀ c ∈ path, isBlank c = false := by simpa using hpath
      have hextras' : ∀ extra ∈ extras, PackageName.isValid (String.ofList extra) = true := by
        simpa using hextras
      exact ⟨htarget, path, extras, rfl, hpath'.1, hpath'.2, hextras', (Except.ok.inj h).symm⟩
  · rintro ⟨htarget, path, extras, hsplit, hpath, hblank, hextras, rfl⟩
    have hp : (path.isEmpty || path.any isBlank) = false := by simpa using ⟨hpath, hblank⟩
    have hx : (extras.map String.ofList).find? (fun extra => !PackageName.isValid extra) = none := by
      simpa using hextras
    rw [if_neg (by simpa using htarget), hsplit]
    simp only [bind, Except.bind, hp, hx]
    rfl

/-- When a pin is read, and which. -/
theorem parsePin_eq_ok_iff {line : Nat} {isOverride : Bool} {body : List Char} {p : Pin} :
    parsePin line isOverride body = .ok p ↔ ∃ before after,
      cutAt? ['=', '='] body = some (before, after) ∧
      PackageName.isValid (String.ofList (trim before)) = true ∧ trim after ≠ [] ∧
      (∀ c ∈ trim after, isVersionChar c = true) ∧
      p = ⟨⟨String.ofList (trim before)⟩, String.ofList (trim after), isOverride, line⟩ := by
  unfold parsePin
  cases hcut : cutAt? ['=', '='] body with
  | none =>
    refine iff_of_false (fun h => ?_) (by simp)
    dsimp only at h
    split at h <;> cases h
  | some parts =>
    obtain ⟨before, after⟩ := parts
    dsimp only
    constructor
    · intro h
      split at h
      · cases h
      next hname =>
      split at h
      · cases h
      next hempty =>
      split at h
      · cases h
      next hversion =>
      refine ⟨before, after, rfl, by simpa using hname, by simpa using hempty, ?_, ?_⟩
      · simpa using hversion
      · exact (Except.ok.inj h).symm
    · rintro ⟨before', after', hparts, hname, hempty, hversion, rfl⟩
      obtain ⟨rfl, rfl⟩ := Prod.mk.inj (Option.some.inj hparts)
      rw [if_neg (by simp [hname]), if_neg (by simpa using hempty), if_neg (by simpa using hversion)]

theorem wellFormed_of_parseMarker {line : Nat} {target : List Char} {m : Marker}
    (h : parseMarker line target = .ok m) (hcomment : '#' ∉ target) : m.WellFormed := by
  obtain ⟨-, path, extras, hsplit, hne, hblank, hextras, rfl⟩ := parseMarker_eq_ok_iff.mp h
  refine ⟨by simpa using hne, ?_, ?_⟩
  · intro c hc
    rw [String.toList_ofList] at hc
    obtain ⟨hmem, hbracket⟩ := mem_of_splitTarget hsplit hc
    exact ⟨hblank c hc, fun heq => hcomment (heq ▸ hmem), hbracket⟩
  · intro extra hextra
    obtain ⟨cs, hcs, rfl⟩ := List.mem_map.mp hextra
    exact hextras cs hcs

theorem wellFormed_of_parsePin {line : Nat} {isOverride : Bool} {body : List Char} {p : Pin}
    (h : parsePin line isOverride body = .ok p) : p.WellFormed := by
  obtain ⟨before, after, -, hname, hne, hversion, rfl⟩ := parsePin_eq_ok_iff.mp h
  refine ⟨hname, by simpa using hne, ?_⟩
  intro c hc
  rw [String.toList_ofList] at hc
  exact hversion c hc

/-- An entry is the marker that the body is, or the pin that any other body has to be. -/
theorem parseEntry_eq_ok_iff {line : Nat} {content : List Char} {e : Entry} :
    parseEntry line content = .ok e ↔
      (∃ target m, target? (cutComment content).1 = some target ∧ parseMarker line target = .ok m ∧
        e = .editable m) ∨
      target? (cutComment content).1 = none ∧ ∃ p,
        parsePin line (marksOverride (cutComment content).2) (cutComment content).1 = .ok p ∧
          e = .pin p := by
  unfold parseEntry
  dsimp only
  cases target? (cutComment content).1 <;> simp [map_eq_ok_iff, @eq_comm _ _ e]

/-- Whatever stands on a line, an entry that is read from it is well formed. -/
theorem wellFormed_of_parseEntry {line : Nat} {content : List Char} {e : Entry}
    (h : parseEntry line content = .ok e) : e.WellFormed := by
  obtain ⟨target, m, htarget, hmarker, rfl⟩ | ⟨-, p, hpin, rfl⟩ := parseEntry_eq_ok_iff.mp h
  · exact wellFormed_of_parseMarker hmarker fun hmem =>
      not_mem_cutComment content (mem_of_mem_target? htarget hmem)
  · exact wellFormed_of_parsePin hpin

end EntryLine

/-! ## What reading keeps -/

namespace Manifest

/-- Between two lines, the groups are well formed and have different names. -/
structure Cursor.WellFormed (s : Cursor) : Prop where
  groups : ∀ g ∈ s.groups, g.WellFormed
  distinct : s.groups.Pairwise fun g h => g.key ≠ h.key

/-- The name in a header is a trimmed line, as the header is a single line. -/
theorem isTrimmedLine_of_headerName? {content name : List Char} (hline : '\n' ∉ content)
    (h : headerName? content = some name) (hne : name ≠ []) : IsTrimmedLine name := by
  unfold headerName? at h
  split at h
  · next rest =>
    rw [← Option.some.inj h] at hne ⊢
    refine ⟨hne, head?_trim _, getLast?_trim _, fun hmem => hline ?_⟩
    have hrest := (List.dropWhile_sublist (· == '#')).mem (mem_of_mem_trim hmem)
    exact List.mem_cons_of_mem _ hrest
  · cases h

/-- A name without blanks at its ends names the groups of its own lowercase form. -/
theorem isNamed_eq {name : List Char} (hname : IsTrimmedLine name) (g : Group) :
    g.isNamed (String.ofList name) = (g.key == Text.lowercase (String.ofList name)) := by
  have htrim : trimmed (String.ofList name) = String.ofList name := by
    rw [trimmed, String.toList_ofList, hname.trim_eq]
  rw [Group.isNamed, htrim]

namespace Cursor.WellFormed

variable {s s' : Cursor}

theorem openGroup (h : s.WellFormed) {name : List Char} (hname : IsTrimmedLine name) :
    (s.openGroup (String.ofList name)).WellFormed := by
  unfold Cursor.openGroup
  split
  · exact ⟨h.groups, h.distinct⟩
  · next hnone =>
    rw [List.findIdx?_eq_none_iff] at hnone
    refine ⟨?_, ?_⟩
    · intro g hg
      rcases List.mem_append.mp hg with hg | hg
      · exact h.groups g hg
      · obtain rfl := List.mem_singleton.mp hg
        refine ⟨?_, by simp⟩
        rwa [String.toList_ofList]
    · refine List.pairwise_append.mpr ⟨h.distinct, List.pairwise_singleton _ _, ?_⟩
      intro g hg t ht
      obtain rfl := List.mem_singleton.mp ht
      have hnot := hnone g hg
      rw [isNamed_eq hname] at hnot
      simpa [Group.key] using hnot

theorem push (h : s.WellFormed) (i : Nat) {e : Entry} (he : e.WellFormed) :
    (s.push i e).WellFormed := by
  have hat : ∀ j : Nat, (s.push i e).groups[j]? =
      s.groups[j]?.map fun g => if i = j then g.push e else g := by
    intro j
    exact List.getElem?_modify _ i s.groups j
  refine ⟨?_, ?_⟩
  · intro g hg
    obtain ⟨j, hj⟩ := List.mem_iff_getElem?.mp hg
    rw [hat] at hj
    obtain ⟨t, ht, rfl⟩ := Option.map_eq_some_iff.mp hj
    have hwell := h.groups t (List.mem_of_getElem? ht)
    split
    · exact hwell.push he
    · exact hwell
  · have hnames : (s.push i e).groups.map Group.name = s.groups.map Group.name := by
      apply List.ext_getElem?
      intro j
      rw [List.getElem?_map, List.getElem?_map, hat, Option.map_map]
      congr 1
      funext g
      rw [Function.comp_apply]
      split <;> rfl
    rw [Group.pairwise_key_iff, hnames]
    exact Group.pairwise_key_iff.mp h.distinct

/-- Reading a line keeps the groups well formed and their names different. -/
theorem step (h : s.WellFormed) {line : Line} (hline : '\n' ∉ line.content)
    (hstep : s.step line = .ok s') : s'.WellFormed := by
  unfold Cursor.step at hstep
  split at hstep
  · -- a blank line only closes the section
    cases hstep
    exact ⟨h.groups, h.distinct⟩
  · split at hstep
    · -- the first line of a section opens a group
      unfold Cursor.header at hstep
      split at hstep
      · cases hstep
      · cases hstep
      · next name hne hname =>
        cases hstep
        exact h.openGroup (isTrimmedLine_of_headerName? hline hname hne)
    · -- any other line is a comment or adds an entry
      unfold Cursor.body at hstep
      split at hstep
      · cases hstep
        exact h
      · split at hstep
        · next he =>
          cases hstep
          exact h.push _ (EntryLine.wellFormed_of_parseEntry he)
        · cases hstep

theorem readLines (h : s.WellFormed) {ls : List Line} (hlines : ∀ line ∈ ls, '\n' ∉ line.content)
    (hread : readLines s ls = .ok s') : s'.WellFormed := by
  induction ls generalizing s with
  | nil =>
    cases hread
    exact h
  | cons line ls ih =>
    rw [Manifest.readLines, List.foldlM_cons] at hread
    cases hstep : s.step line with
    | error fault =>
      rw [hstep] at hread
      cases hread
    | ok t =>
      rw [hstep] at hread
      exact ih (h.step (hlines line (by simp)) hstep) (fun l hl => hlines l (by simp [hl])) hread

end Cursor.WellFormed

/-- The lines of a text hold no line feed. -/
theorem not_mem_content_of_mem_lines {cs : List Char} {line : Line} (h : line ∈ lines cs) :
    '\n' ∉ line.content := by
  have hnumber : ∀ {number offset : Nat} {raws : List (List Char)},
      line ∈ numberLines number offset raws → ∃ raw ∈ raws, line.content = trim raw := by
    intro number offset raws hmem
    induction raws generalizing number offset with
    | nil => cases hmem
    | cons raw rest ih =>
      rcases List.mem_cons.mp hmem with rfl | hmem
      · exact ⟨raw, by simp, rfl⟩
      · obtain ⟨raw', hraw', hcontent⟩ := ih hmem
        exact ⟨raw', List.mem_cons_of_mem raw hraw', hcontent⟩
  obtain ⟨raw, hraw, hcontent⟩ := hnumber h
  rw [hcontent]
  exact fun hmem => not_mem_of_mem_splitOn hraw (mem_of_mem_trim hmem)

/-- Numbering groups makes a manifest of them. -/
theorem wellFormed_ofGroups {groups : List Group} (h : ∀ g ∈ groups, g.WellFormed)
    (hd : groups.Pairwise fun g h => g.key ≠ h.key) : (ofGroups groups).WellFormed := by
  refine ⟨map_ordinal_ofGroups groups, ?_, ?_⟩
  · intro g hg
    obtain ⟨i, hi, rfl⟩ := List.mem_mapIdx.mp hg
    have hwell := h groups[i] (List.getElem_mem hi)
    exact ⟨hwell.name, hwell.entries⟩
  · rw [DistinctGroups, Group.pairwise_key_iff, map_name_ofGroups]
    exact Group.pairwise_key_iff.mp hd

/-- Every manifest that is read from a text is well formed. -/
theorem wellFormed_of_parse {text : String} {m : Manifest} (h : parse text = .ok m) :
    m.WellFormed := by
  rw [parse, parseChars] at h
  cases hread : readLines {} (lines (dropMark text.toList)) with
  | error fault =>
    rw [hread] at h
    cases h
  | ok s =>
    rw [hread] at h
    cases h
    have hempty : Cursor.WellFormed {} := ⟨by simp, List.Pairwise.nil⟩
    have hs := hempty.readLines (fun _ => not_mem_content_of_mem_lines) hread
    exact wellFormed_ofGroups hs.groups hs.distinct

end Manifest
end Pinfile
