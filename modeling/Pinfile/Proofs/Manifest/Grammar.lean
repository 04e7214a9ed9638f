import Pinfile.Proofs.Gathering
import Pinfile.Proofs.Manifest.Sections
import Pinfile.Proofs.Manifest.WellFormed

/-!
# What a text says

The manifest that is read from a text, said by the sections of the text alone. A text can be read
exactly when each of its sections is accepted. The groups are the different names of the sections, in
the order in which they come first and in their first spelling; and a group holds the entries of all
sections of its name, one section after the other, wherever they stand in the text
(`Manifest.parse_sections`).

Reading adds section after section to the groups that it has. It is here that the reader's search for
a group counts: it goes by lowercase forms, so a section that is added is a piece that is gathered
(`map_piece_addSection`).
-/

namespace Pinfile

open Text

/-- The number of the line an entry was read from. -/
def Entry.line : Entry → Nat
  | .pin p => p.line
  | .editable m => m.line

/-- A group with the name of a section is one that has its key. -/
theorem Section.isNamed_name (s : Section) (g : Group) : g.isNamed s.name = (g.key == s.key) := by
  have htrim : trimmed s.name = s.name := by
    rw [trimmed, name, String.toList_ofList, trim_trim]
  rw [Group.isNamed, htrim, key]

/-! ## Groups of sections -/

/-- The entries of all sections of a key, one section after the other. -/
def entriesUnder (key : String) (sections : List Section) : List Entry :=
  (sections.filter (·.key == key)).flatMap Section.entries

/-- The groups are those of the sections: one for every key, with the first of its names, and with the
entries of all of its sections. -/
structure Gathers (sections : List Section) (groups : List Group) : Prop where
  names : groups.map Group.name = firsts lowercase (sections.map Section.name)
  entries : ∀ g ∈ groups, g.entries = entriesUnder g.key sections

/-- What a section says, as a piece. -/
def Section.piece (s : Section) : Piece := ⟨s.name, s.entries⟩

theorem heldUnder_map_piece (key : String) (sections : List Section) :
    heldUnder key (sections.map Section.piece) = entriesUnder key sections := by
  rw [heldUnder, List.filter_map, List.flatMap_map]
  rfl

/-- The groups of sections are what the sections give as pieces. -/
theorem gathers_iff {sections : List Section} {groups : List Group} :
    Gathers sections groups ↔ Gathered (sections.map Section.piece) (groups.map Group.piece) := by
  have hgroups : (groups.map Group.piece).map Piece.name = groups.map Group.name := by
    rw [List.map_map]
    rfl
  have hsections : (sections.map Section.piece).map Piece.name = sections.map Section.name := by
    rw [List.map_map]
    rfl
  constructor
  · intro h
    refine ⟨by rw [hgroups, hsections, h.names], fun t ht => ?_⟩
    obtain ⟨g, hg, rfl⟩ := List.mem_map.mp ht
    rw [heldUnder_map_piece, Group.key_piece]
    exact h.entries g hg
  · intro h
    refine ⟨by rw [← hgroups, h.names, hsections], fun g hg => ?_⟩
    have hentries := h.entries g.piece (List.mem_map_of_mem hg)
    rw [heldUnder_map_piece, Group.key_piece] at hentries
    exact hentries

/-- Adding a section is gathering its piece. -/
theorem map_piece_addSection (groups : List Group) (s : Section) :
    (Manifest.addSection groups s).map Group.piece = gather (groups.map Group.piece) s.piece := by
  have hnamed : (fun g : Group => g.isNamed s.name) = (·.key == s.key) := funext s.isNamed_name
  have hfind : (groups.map Group.piece).findIdx? (·.key == s.piece.key) =
      groups.findIdx? (·.key == s.key) := by
    rw [List.findIdx?_map]
    rfl
  unfold Manifest.addSection gather
  rw [hnamed, hfind]
  cases groups.findIdx? (·.key == s.key) with
  | some i =>
    dsimp only
    have hextend : ∀ g : Group, (g.extend s.entries).piece = g.piece.extend s.piece.entries :=
      fun _ => rfl
    exact map_modify_eq hextend groups i
  | none =>
    dsimp only
    rw [List.map_append]
    rfl

/-- Adding section after section gives the groups of all of them. -/
theorem gathers_foldl (sections : List Section) :
    Gathers sections (sections.foldl Manifest.addSection []) := by
  rw [gathers_iff]
  induction sections using List.reverseRecOn with
  | nil => exact .nil
  | append_singleton sections s ih =>
    rw [List.foldl_append, List.map_append]
    simp only [List.foldl_cons, List.foldl_nil, map_piece_addSection]
    exact ih.gather s.piece

/-! ## Where an entry stands -/

theorem flatten_splitOnP {α : Type} (p : α → Bool) (as : List α) :
    (as.splitOnP p).flatten = as.filter fun a => !p a := by
  induction as with
  | nil => rfl
  | cons a as ih =>
    rw [List.splitOnP_cons_eq_if_modifyHead]
    obtain ⟨run, runs, hsplit⟩ := List.exists_cons_of_ne_nil (List.splitOnP_ne_nil p as)
    rw [hsplit] at ih ⊢
    by_cases ha : p a = true
    · simp [ha, ← ih]
    · simp [ha, ← ih]

/-- Every line of a section is a line of the text. -/
theorem mem_of_mem_body {ls : List RawLine} {s : Section} (hs : s ∈ sectionsOf ls) {l : RawLine}
    (hl : l ∈ s.body) : l ∈ ls := by
  obtain ⟨run, hrun, hof⟩ := List.mem_filterMap.mp hs
  cases run with
  | nil => cases hof
  | cons header body =>
    cases hof
    have hmem : l ∈ (ls.splitOnP RawLine.separates).flatten :=
      List.mem_flatten.mpr ⟨_, hrun, List.mem_cons_of_mem header hl⟩
    rw [flatten_splitOnP] at hmem
    exact List.mem_of_mem_filter hmem

/-- A line of a text has the number of its place among the pieces between line feeds. -/
theorem exists_of_mem_rawLines {cs : List Char} {l : RawLine} (h : l ∈ rawLines cs) :
    ∃ i, (cs.splitOn '\n')[i]? = some l.text ∧ l.number = i + 1 := by
  obtain ⟨⟨raw, number⟩, hraw, rfl⟩ := List.mem_map.mp h
  obtain ⟨i, hi⟩ := List.mem_iff_getElem?.mp hraw
  rw [List.getElem?_zipIdx, Option.map_eq_some_iff] at hi
  obtain ⟨raw', hraw', heq⟩ := hi
  obtain ⟨rfl, rfl⟩ := Prod.mk.inj heq
  exact ⟨i, hraw', Nat.add_comm 1 i⟩

/-- An entry keeps the number of the line that it is read from. -/
theorem EntryLine.line_of_parseEntry {line : Nat} {content : List Char} {e : Entry}
    (h : parseEntry line content = .ok e) : e.line = line := by
  obtain ⟨target, m, -, hmarker, rfl⟩ | ⟨-, p, hpin, rfl⟩ := parseEntry_eq_ok_iff.mp h
  · obtain ⟨-, path, extras, -, -, -, -, rfl⟩ := parseMarker_eq_ok_iff.mp hmarker
    rfl
  · obtain ⟨before, after, -, -, -, -, rfl⟩ := parsePin_eq_ok_iff.mp hpin
    rfl

/-- An entry of a section is read from a line of the text, and has its number. -/
theorem exists_of_mem_entries {cs : List Char} {s : Section} (hs : s ∈ sectionsOf (rawLines cs))
    {e : Entry} (he : e ∈ s.entries) :
    ∃ i raw, (cs.splitOn '\n')[i]? = some raw ∧ e.line = i + 1 ∧
      EntryLine.parseEntry (i + 1) (trim raw) = .ok e := by
  obtain ⟨l, hl, he⟩ := List.mem_flatMap.mp he
  obtain ⟨i, hraw, hnumber⟩ := exists_of_mem_rawLines (mem_of_mem_body hs hl)
  have hparse : EntryLine.parseEntry (i + 1) (trim l.text) = .ok e := by
    rw [← hnumber]
    unfold RawLine.entries at he
    split at he
    · cases he
    · cases hentry : EntryLine.parseEntry l.number l.content with
      | error reason =>
        rw [hentry] at he
        cases he
      | ok t =>
        rw [hentry] at he
        obtain rfl := List.mem_singleton.mp he
        exact hentry
  exact ⟨i, l.text, hraw, EntryLine.line_of_parseEntry hparse, hparse⟩

/-! ## The manifest of a text -/

namespace Manifest

/-- What is read from a text: the numbered groups of its sections, if all of these are accepted. -/
theorem parse_eq_ok_iff {text : String} {m : Manifest} :
    parse text = .ok m ↔
      (∀ s ∈ sections text, s.Accepted) ∧
        m = ofGroups ((sections text).foldl addSection []) := by
  have hends := endsWith_iff (dropMark text.toList)
  rw [parse, parseChars]
  constructor
  · intro h
    cases hread : readLines {} (lines (dropMark text.toList)) with
    | error fault =>
      rw [hread] at h
      cases h
    | ok s =>
      rw [hread] at h
      cases h
      obtain ⟨haccepted, hgroups⟩ := (hends s.groups).mp ⟨s.current, hread⟩
      exact ⟨haccepted, congrArg ofGroups hgroups⟩
  · rintro ⟨haccepted, rfl⟩
    obtain ⟨current, hread⟩ := (hends _).mpr ⟨haccepted, rfl⟩
    rw [hread]
    rfl

/-- Numbering the groups of some sections leaves them the groups of these sections. -/
theorem gathers_ofGroups {ss : List Section} {groups : List Group} (h : Gathers ss groups) :
    Gathers ss (ofGroups groups).groups := by
  refine ⟨(map_name_ofGroups groups).trans h.names, fun g hg => ?_⟩
  obtain ⟨i, hi, rfl⟩ := List.mem_mapIdx.mp hg
  exact h.entries groups[i] (List.getElem_mem hi)

/-- A text can be read exactly when each of its sections has a header with a name and holds nothing else
but comments and entries. Its groups are then the different names of the sections, numbered in the
order in which they come first and spelled as they do; a group holds the entries of all sections of its
name in the order of the text, each with the number of its own line. -/
theorem parse_sections (text : String) :
    ((∃ m, parse text = .ok m) ↔ ∀ s ∈ sections text, s.Accepted) ∧
    ∀ m, parse text = .ok m →
      m.groups.map Group.name = firsts lowercase ((sections text).map Section.name) ∧
      m.groups.map Group.ordinal = List.range m.groups.length ∧
      (∀ g ∈ m.groups, g.entries =
        ((sections text).filter fun s => lowercase s.name == lowercase g.name).flatMap
          Section.entries) ∧
      ∀ g ∈ m.groups, ∀ e ∈ g.entries, ∃ i raw,
        ((dropMark text.toList).splitOn '\n')[i]? = some raw ∧ e.line = i + 1 ∧
          EntryLine.parseEntry (i + 1) (trim raw) = .ok e := by
  constructor
  · constructor
    · rintro ⟨m, hm⟩
      exact (parse_eq_ok_iff.mp hm).1
    · intro haccepted
      exact ⟨_, parse_eq_ok_iff.mpr ⟨haccepted, rfl⟩⟩
  · intro m hm
    obtain ⟨-, rfl⟩ := parse_eq_ok_iff.mp hm
    have hgathers := gathers_ofGroups (gathers_foldl (sections text))
    refine ⟨hgathers.names, map_ordinal_ofGroups _, hgathers.entries, ?_⟩
    intro g hg e he
    rw [hgathers.entries g hg] at he
    obtain ⟨s, hs, he⟩ := List.mem_flatMap.mp he
    exact exists_of_mem_entries (List.mem_of_mem_filter hs) he

/-- A text whose second section stands between two of one group, spelled in two ways. -/
def scattered : String :=
  "\uFEFF# ΟΔΟΣ\r\nflask==3.0.0\r\n\u00A0\r\n## Dev\n-e .\n\n#οδος \n# later\njinja2==3.1.4"

theorem parse_scattered : ∃ m, parse scattered = .ok m ∧
    m.groups.map Group.name = ["ΟΔΟΣ", "Dev"] ∧
    m.groups.map Group.entries = [
      [.pin ⟨⟨"flask"⟩, "3.0.0", false, 2⟩, .pin ⟨⟨"jinja2"⟩, "3.1.4", false, 9⟩],
      [.editable ⟨".", [], 5⟩]] := by
  obtain ⟨-, hgroups⟩ := parse_sections scattered
  cases hm : parse scattered with
  | error fault =>
    have hreads : (parse scattered).toOption.isSome = true := by decide +kernel
    rw [hm] at hreads
    cases hreads
  | ok m =>
    obtain ⟨hnames, -, hentries, -⟩ := hgroups m hm
    have hnames' : m.groups.map Group.name = ["ΟΔΟΣ", "Dev"] := by
      rw [hnames]
      decide +kernel
    have hheld : m.groups.map Group.entries = (m.groups.map Group.name).map
        fun name => entriesUnder (lowercase name) (sections scattered) := by
      rw [List.map_map]
      refine List.map_congr_left fun g hg => ?_
      rw [hentries g hg, Function.comp_apply, entriesUnder]
      simp only [Section.key]
    refine ⟨m, rfl, hnames', ?_⟩
    rw [hheld, hnames']
    decide +kernel

end Manifest
end Pinfile
