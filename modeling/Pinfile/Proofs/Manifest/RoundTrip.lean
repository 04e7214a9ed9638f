import Pinfile.Proofs.Manifest.EntryText
import Pinfile.Proofs.Manifest.Lines

/-!
# Writing a manifest and reading it back

The text of a manifest is cut into lines just where its groups and entries were written
(`Manifest.splitOn_render`), and reading the lines of a group adds that group to those read before
(`Manifest.readLines_group`). So a well-formed manifest is read back as it was written. As reading
gives only well-formed manifests, the converse holds too: the manifests that survive writing and
reading are exactly the well-formed ones (`Manifest.parse_render_iff`).
-/

namespace Pinfile

open Text

/-! ## The lines of the text -/

/-- The lines of a group as they are written, without their line feeds. -/
def Group.rawLines (g : Group) : List (List Char) :=
  ('#' :: ' ' :: g.name.toList) :: g.entries.map fun e => e.render.toList

theorem Group.toList_render (g : Group) : g.render.toList = joinLines g.rawLines := by
  have hmark : "# ".toList = ['#', ' '] := rfl
  have hfeed : "\n".toList = ['\n'] := rfl
  simp [render, rawLines, joinLines, hmark, hfeed, String.toList_join, List.flatMap_map]

/-- What a group says: its name, and its entries without their lines. -/
def Group.contents (g : Group) : String × List Entry := (g.name, g.entries.map Entry.withoutLine)

/-- The lines of a well-formed group hold no line feed. -/
theorem Group.WellFormed.not_mem_rawLines {g : Group} (h : g.WellFormed) :
    ∀ raw ∈ g.rawLines, '\n' ∉ raw := by
  intro raw hraw
  rcases List.mem_cons.mp hraw with rfl | hraw
  · simpa using h.name.oneLine
  · obtain ⟨e, he, rfl⟩ := List.mem_map.mp hraw
    exact (Entry.isTrimmedLine_render (h.entries e he)).oneLine

namespace Manifest

/-- The lines of a manifest are those of its groups, each group followed by an empty line. -/
theorem splitOn_render {m : Manifest} (h : ∀ g ∈ m.groups, g.WellFormed) (hne : m.groups ≠ []) :
    m.render.toList.splitOn '\n' = m.groups.flatMap fun g => g.rawLines ++ [[]] := by
  have hfeed : "\n".toList = ['\n'] := rfl
  rw [render, String.toList_intercalate, List.map_map, hfeed]
  generalize m.groups = groups at h hne ⊢
  induction groups with
  | nil => exact absurd rfl hne
  | cons g groups ih =>
    have hg : ∀ raw ∈ g.rawLines, '\n' ∉ raw := (h g (by simp)).not_mem_rawLines
    rw [List.map_cons, List.flatMap_cons, Function.comp_apply, Group.toList_render]
    by_cases hnil : groups = []
    · subst hnil
      have hlast := splitOn_joinLines_append hg []
      rw [List.append_nil, List.splitOn_nil] at hlast
      rw [List.map_nil, List.intercalate_singleton, hlast, List.flatMap_nil, List.append_nil]
    · -- the empty line is what stands between the line feed of the group and that of the separator
      rw [List.intercalate_cons_of_ne_nil (by simpa using hnil), List.append_assoc,
        splitOn_joinLines_append hg, List.singleton_append, List.splitOn_cons_eq_if_modifyHead,
        if_pos (by simp), ih (fun t ht => h t (by simp [ht])) hnil, List.append_assoc]
      rfl

/-! ## Reading the lines of groups -/

/-- Adding to the last group. -/
theorem push_last (groups : List Group) (g : Group) (e : Entry) :
    Cursor.push ⟨groups ++ [g], some groups.length⟩ groups.length e =
      ⟨groups ++ [g.push e], some groups.length⟩ := by
  rw [Cursor.push, modify_length_append]

/-- The line of an entry adds the entry to the last group. -/
theorem step_entry (groups : List Group) (g : Group) {e : Entry} (h : e.WellFormed)
    (number offset : Nat) :
    Cursor.step ⟨groups ++ [g], some groups.length⟩ ⟨number, offset, trim e.render.toList⟩ =
      .ok ⟨groups ++ [g.push (e.withLine number)], some groups.length⟩ := by
  have hline := Entry.isTrimmedLine_render h
  have hne : e.render.toList.isEmpty = false := by
    rw [List.isEmpty_eq_false_iff]
    exact hline.ne_nil
  rw [hline.trim_eq, Cursor.step]
  dsimp only
  rw [hne, if_neg (by decide), Cursor.body]
  dsimp only
  rw [if_neg (Entry.head?_render h), EntryLine.parseEntry_render h]
  dsimp only
  rw [push_last]

/-- The lines of entries add the entries to the last group. -/
theorem readLines_entries (groups : List Group) (g : Group) {es : List Entry}
    (h : ∀ e ∈ es, e.WellFormed) (number offset : Nat) :
    ∃ es', es'.map Entry.withoutLine = es.map Entry.withoutLine ∧
      readLines ⟨groups ++ [g], some groups.length⟩
          (numberLines number offset (es.map fun e => e.render.toList)) =
        .ok ⟨groups ++ [{ g with entries := g.entries ++ es' }], some groups.length⟩ := by
  induction es generalizing g number offset with
  | nil => exact ⟨[], rfl, by simp [readLines, numberLines, pure, Except.pure]⟩
  | cons e es ih =>
    obtain ⟨es', hes', hread⟩ := ih (g.push (e.withLine number)) (fun t ht => h t (by simp [ht]))
      (number + 1) (offset + byteSize e.render.toList + 1)
    refine ⟨e.withLine number :: es', by simp [hes'], ?_⟩
    have hstep := step_entry groups g (h e (by simp)) number
      (offset + byteSize (e.render.toList.takeWhile isBlank))
    rw [List.map_cons, numberLines, readLines, List.foldlM_cons, hstep]
    refine hread.trans ?_
    simp [Group.push]

/-- A header with a new name opens a new group. -/
theorem step_header {groups : List Group} {name : String} (h : IsTrimmedLine name.toList)
    (hnew : ∀ t ∈ groups, t.key ≠ Text.lowercase name) (number offset : Nat) :
    Cursor.step ⟨groups, none⟩ ⟨number, offset, trim ('#' :: ' ' :: name.toList)⟩ =
      .ok ⟨groups ++ [{ name := name }], some groups.length⟩ := by
  have hline : IsTrimmedLine ('#' :: ' ' :: name.toList) := by
    refine ⟨by simp, ?_, ?_, by simpa using h.oneLine⟩
    · intro c hc
      obtain rfl := Option.some.inj hc
      rfl
    · intro c hc
      rw [List.getLast?_cons_cons, List.getLast?_cons_of_ne_nil h.ne_nil] at hc
      exact h.last c hc
  have hname : headerName? ('#' :: ' ' :: name.toList) = some name.toList := by
    have hrest : (' ' :: name.toList).dropWhile (· == '#') = ' ' :: name.toList := rfl
    rw [headerName?, hrest, trim_cons_of_blank rfl h.head h.last]
  have hopen : Cursor.openGroup ⟨groups, none⟩ name =
      ⟨groups ++ [{ name := name }], some groups.length⟩ := by
    have hnone : groups.findIdx? (·.isNamed name) = none := by
      rw [List.findIdx?_eq_none_iff]
      intro t ht
      have hnamed := isNamed_eq h t
      rw [String.ofList_toList] at hnamed
      rw [hnamed]
      simpa using hnew t ht
    rw [Cursor.openGroup, hnone]
  rw [hline.trim_eq, Cursor.step]
  dsimp only
  rw [if_neg (by simp), Cursor.header]
  dsimp only
  rw [hname]
  cases hcs : name.toList with
  | nil => exact absurd hcs h.ne_nil
  | cons c cs =>
    dsimp only
    rw [← hcs, String.ofList_toList, hopen]

/-- The lines of a group with a new name add the group. -/
theorem readLines_group {groups : List Group} {g : Group} (h : g.WellFormed)
    (hnew : ∀ t ∈ groups, t.key ≠ g.key) (number offset : Nat) :
    ∃ g' : Group, g'.contents = g.contents ∧
      readLines ⟨groups, none⟩ (numberLines number offset (g.rawLines ++ [[]])) =
        .ok ⟨groups ++ [g'], none⟩ := by
  obtain ⟨es', hes', hread⟩ := readLines_entries groups { name := g.name } h.entries (number + 1)
    (offset + byteSize ('#' :: ' ' :: g.name.toList) + 1)
  have hgroup : readLines ⟨groups, none⟩ (numberLines number offset g.rawLines) =
      .ok ⟨groups ++ [{ name := g.name, entries := es' }], some groups.length⟩ := by
    rw [Group.rawLines, numberLines, readLines, List.foldlM_cons, step_header h.name hnew]
    exact hread
  refine ⟨{ name := g.name, entries := es' }, by rw [Group.contents, hes', Group.contents], ?_⟩
  rw [numberLines_append, readLines_append, hgroup]
  rfl

/-- The lines of groups with new and different names add the groups. -/
theorem readLines_groups {groups more : List Group} (h : ∀ g ∈ more, g.WellFormed)
    (hd : ((groups ++ more).map Group.key).Pairwise (· ≠ ·)) (number offset : Nat) :
    ∃ more', more'.map Group.contents = more.map Group.contents ∧
      readLines ⟨groups, none⟩
          (numberLines number offset (more.flatMap fun g => g.rawLines ++ [[]])) =
        .ok ⟨groups ++ more', none⟩ := by
  -- on the groups to come: the group just read joins those before it and keeps its name
  induction more generalizing groups number offset with
  | nil => exact ⟨[], rfl, by simp [readLines, numberLines, pure, Except.pure]⟩
  | cons g more ih =>
    have hnew : ∀ t ∈ groups, t.key ≠ g.key := by
      rw [List.map_append, List.pairwise_append] at hd
      intro t ht
      exact hd.2.2 t.key (List.mem_map_of_mem ht) g.key (by simp)
    obtain ⟨g', hg', hgroup⟩ := readLines_group (h g (by simp)) hnew number offset
    have hkey : g'.key = g.key := congrArg Text.lowercase (Prod.mk.inj hg').1
    have hd' : ((groups ++ [g'] ++ more).map Group.key).Pairwise (· ≠ ·) := by
      simpa [hkey] using hd
    obtain ⟨more', hmore', hread⟩ := ih (fun t ht => h t (by simp [ht])) hd' _ _
    refine ⟨g' :: more', by simp [hg', hmore'], ?_⟩
    rw [List.flatMap_cons, numberLines_append, readLines_append, hgroup]
    refine hread.trans ?_
    rw [List.append_assoc]
    rfl

/-! ## Writing and reading -/

/-- Numbered groups that say what the groups of a numbered manifest say make the same manifest. -/
theorem same_ofGroups {groups : List Group} {m : Manifest}
    (hcontents : groups.map Group.contents = m.groups.map Group.contents)
    (hordinals : m.groups.map Group.ordinal = List.range m.groups.length) :
    (ofGroups groups).Same m := by
  have hlength : groups.length = m.groups.length := by
    simpa using congrArg List.length hcontents
  have hgroups : (ofGroups groups).groups.map Group.withoutLines =
      m.groups.map Group.withoutLines := by
    apply List.ext_getElem (by simpa using hlength)
    intro i hi hi'
    have hi₁ : i < groups.length := by simpa using hi
    have hi₂ : i < m.groups.length := by simpa using hi'
    have hcontent : groups[i].contents = m.groups[i].contents := by
      have hat := List.getElem_of_eq hcontents (by simpa using hi₁)
      simpa using hat
    have hordinal : m.groups[i].ordinal = i := by
      have hat := List.getElem_of_eq hordinals (by simpa using hi₂)
      simpa using hat
    obtain ⟨hname, hentries⟩ := Prod.mk.inj hcontent
    simp [Group.withoutLines, hname, hentries, hordinal]
  exact congrArg Manifest.mk hgroups

/-- A text with groups begins with the mark of a header, so no byte order mark is dropped from it. -/
theorem dropMark_render {m : Manifest} (hne : m.groups ≠ []) :
    dropMark m.render.toList = m.render.toList := by
  have hhead : ∃ rest, m.render.toList = '#' :: rest := by
    rw [render, String.toList_intercalate, List.map_map]
    cases hgroups : m.groups with
    | nil => exact absurd hgroups hne
    | cons g groups =>
      rw [List.map_cons, Function.comp_apply, Group.toList_render, Group.rawLines, joinLines,
        List.flatMap_cons]
      by_cases hnil : groups = []
      · subst hnil
        rw [List.map_nil, List.intercalate_singleton]
        exact ⟨_, rfl⟩
      · rw [List.intercalate_cons_of_ne_nil (by simpa using hnil)]
        exact ⟨_, rfl⟩
  obtain ⟨rest, hrest⟩ := hhead
  have hmark : '#' ≠ byteOrderMark := by decide
  rw [hrest, dropMark, if_neg hmark]

/-- A well-formed manifest is read back as it was written. -/
theorem parse_render {m : Manifest} (h : m.WellFormed) :
    ∃ m', parse m.render = .ok m' ∧ m'.Same m := by
  by_cases hnil : m.groups = []
  · obtain ⟨groups⟩ := m
    obtain rfl : groups = [] := hnil
    exact ⟨{}, rfl, Same.refl _⟩
  · -- reading begins before the first group, with none read
    have hkeys : (([] ++ m.groups).map Group.key).Pairwise (· ≠ ·) :=
      List.pairwise_map.mpr h.distinct
    obtain ⟨groups, hcontents, hread⟩ := readLines_groups h.groups hkeys 1 0
    have hread' : readLines {} (numberLines 1 0 (m.groups.flatMap fun g => g.rawLines ++ [[]])) =
        .ok ⟨groups, none⟩ := hread
    refine ⟨ofGroups groups, ?_, same_ofGroups hcontents h.ordinals⟩
    rw [parse, dropMark_render hnil, parseChars, lines, splitOn_render h.groups hnil, hread']
    rfl

/-- A manifest is read back as it was written exactly when it is well formed; reading gives no other
manifests, so what was read from a text survives being written and read again. -/
theorem parse_render_iff :
    (∀ m : Manifest, (∃ m', parse m.render = .ok m' ∧ m'.Same m) ↔ m.WellFormed) ∧
    (∀ text m, parse text = .ok m → m.WellFormed) ∧
    ∀ text m, parse text = .ok m → ∃ m', parse m.render = .ok m' ∧ m'.Same m := by
  refine ⟨?_, ?_, ?_⟩
  · intro m
    constructor
    · rintro ⟨m', hparse, hsame⟩
      exact (wellFormed_iff_of_same hsame).mp (wellFormed_of_parse hparse)
    · exact parse_render
  · intro text m h
    exact wellFormed_of_parse h
  · intro text m h
    exact parse_render (wellFormed_of_parse h)

/-- A text that is not written the way manifests are. -/
def untidy : String :=
  "## Web\nflask == 3.0.0 # Override\n-e .[dev, docs] # local\n\n# web\n# note\njinja2==3.1.4"

theorem parse_untidy : ∃ m, parse untidy = .ok m ∧
    m.render = "# Web\nflask==3.0.0  # override\n-e .[dev,docs]\njinja2==3.1.4\n" ∧
    m.WellFormed ∧ ∃ m', parse m.render = .ok m' ∧ m'.Same m := by
  have htext : (parse untidy).toOption.map render =
      some "# Web\nflask==3.0.0  # override\n-e .[dev,docs]\njinja2==3.1.4\n" := by
    decide +kernel
  obtain ⟨-, hwell, hround⟩ := parse_render_iff
  cases h : parse untidy with
  | error fault =>
    rw [h] at htext
    cases htext
  | ok m =>
    rw [h] at htext
    exact ⟨m, rfl, Option.some.inj htext, hwell untidy m h, hround untidy m h⟩

end Manifest
end Pinfile
