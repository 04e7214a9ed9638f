import Pinfile.Manifest.Parser
import Pinfile.Proofs.Repeats
import Pinfile.Proofs.Text.Cutting

/-!
# The sections of a text

A text seen as a whole. Its lines are what stands between its line feeds, and a line of nothing but
blanks separates. The *sections* of the text are what the separating lines leave over: the runs of
other lines, as long as they can be. The first line of a section is its header, which names the group
that the entries on the section's other lines belong to.

Nothing here says in which order lines are looked at. The main statement is that the reader, which
goes from line to line with a cursor, does the same (`Manifest.endsWith_iff`): it comes to the end of
the text exactly when every section is accepted, and the groups that it ends with are those that the
sections give one after the other.
-/

namespace Pinfile

open Text

/-! ## Lines and sections -/

/-- A line as it stands in a text, with its number. -/
structure RawLine where
  number : Nat
  text : List Char
deriving DecidableEq, Repr

namespace RawLine

/-- The line without the blanks around it. -/
def content (l : RawLine) : List Char := trim l.text

/-- The line is empty or has blanks only. -/
def separates (l : RawLine) : Bool := l.text.all isBlank

/-- The line is a comment, or an entry can be read from it. -/
def Accepted (l : RawLine) : Prop :=
  l.content.head? ≠ some '#' → ∃ e, EntryLine.parseEntry l.number l.content = .ok e

/-- The entry on a line: none on a comment. -/
def entries (l : RawLine) : List Entry :=
  if l.content.head? = some '#' then []
  else (EntryLine.parseEntry l.number l.content).toOption.toList

end RawLine

/-- A header with the lines under it. -/
structure Section where
  header : RawLine
  body : List RawLine
deriving DecidableEq, Repr

namespace Section

/-- What follows the leading `#`s of the header, without the blanks around it. -/
def name (s : Section) : String := String.ofList (trim (s.header.content.dropWhile (· == '#')))

/-- What two spellings of the section's name have in common. -/
def key (s : Section) : String := lowercase s.name

/-- The entries of a section in order. -/
def entries (s : Section) : List Entry := s.body.flatMap RawLine.entries

/-- The header is one and names a group, and every other line is a comment or an entry. -/
structure Accepted (s : Section) : Prop where
  marked : s.header.content.head? = some '#'
  named : s.name ≠ ""
  body : ∀ l ∈ s.body, l.Accepted

/-- The section of some lines, if there are any. -/
def ofRun? : List RawLine → Option Section
  | [] => none
  | header :: body => some ⟨header, body⟩

end Section

/-- The lines of a text, numbered from the given number on. -/
def rawLinesFrom (number : Nat) (raws : List (List Char)) : List RawLine :=
  (raws.zipIdx number).map fun raw => ⟨raw.2, raw.1⟩

/-- The lines of a text: what stands between its line feeds. -/
def rawLines (cs : List Char) : List RawLine := rawLinesFrom 1 (cs.splitOn '\n')

/-- The sections of some lines: the runs between the lines that separate. -/
def sectionsOf (ls : List RawLine) : List Section :=
  (ls.splitOnP RawLine.separates).filterMap Section.ofRun?

/-- The sections of a text, which may have a byte order mark before it. -/
def Manifest.sections (text : String) : List Section := sectionsOf (rawLines (dropMark text.toList))

theorem rawLinesFrom_cons (number : Nat) (raw : List Char) (raws : List (List Char)) :
    rawLinesFrom number (raw :: raws) = ⟨number, raw⟩ :: rawLinesFrom (number + 1) raws := by
  rw [rawLinesFrom, List.zipIdx_cons, List.map_cons]
  rfl

/-- The lines up to the next separating one. -/
def openRun (ls : List RawLine) : List RawLine := ls.takeWhile fun l => !l.separates

/-- The lines from the next separating one on. -/
def afterRun (ls : List RawLine) : List RawLine := ls.dropWhile fun l => !l.separates

@[simp] theorem sectionsOf_nil : sectionsOf [] = [] := rfl

theorem sectionsOf_cons_of_separates {l : RawLine} (h : l.separates = true) (ls : List RawLine) :
    sectionsOf (l :: ls) = sectionsOf ls := by
  rw [sectionsOf, List.splitOnP_cons_eq_if_modifyHead, if_pos h]
  rfl

theorem exists_splitOnP_eq (ls : List RawLine) :
    ∃ runs, ls.splitOnP RawLine.separates = openRun ls :: runs ∧
      runs.filterMap Section.ofRun? = sectionsOf (afterRun ls) := by
  induction ls with
  | nil => exact ⟨[], rfl, rfl⟩
  | cons l ls ih =>
    rw [List.splitOnP_cons_eq_if_modifyHead, openRun, afterRun]
    by_cases h : l.separates = true
    · rw [if_pos h, List.takeWhile_cons_of_neg (by simp [h]), List.dropWhile_cons_of_neg (by simp [h]),
        sectionsOf_cons_of_separates h]
      exact ⟨_, rfl, rfl⟩
    · obtain ⟨runs, hsplit, hruns⟩ := ih
      rw [if_neg h, List.takeWhile_cons_of_pos (by simpa using h),
        List.dropWhile_cons_of_pos (by simpa using h), hsplit]
      exact ⟨runs, rfl, hruns⟩

/-- A line after which a section begins is its header. -/
theorem sectionsOf_cons_of_not_separates {l : RawLine} (h : ¬ l.separates = true)
    (ls : List RawLine) :
    sectionsOf (l :: ls) = ⟨l, openRun ls⟩ :: sectionsOf (afterRun ls) := by
  obtain ⟨runs, hsplit, hruns⟩ := exists_splitOnP_eq ls
  rw [sectionsOf, List.splitOnP_cons_eq_if_modifyHead, if_neg h, hsplit, ← hruns]
  rfl

/-! ## Steps of the reader -/

/-- The group with more entries at its end. -/
def Group.extend (g : Group) (es : List Entry) : Group := { g with entries := g.entries ++ es }

theorem Group.modify_extend_nil (groups : List Group) (i : Nat) :
    groups.modify i (·.extend []) = groups := by
  have hid : (fun g : Group => g.extend []) = id := by
    funext g
    simp [Group.extend]
  rw [hid, List.modify_id]

theorem Group.modify_extend_append (groups : List Group) (i : Nat) (es fs : List Entry) :
    (groups.modify i (·.extend es)).modify i (·.extend fs) =
      groups.modify i (·.extend (es ++ fs)) := by
  rw [List.modify_modify_eq]
  congr 1
  funext g
  simp [Group.extend]

namespace Manifest

/-- Reading the lines from the cursor comes to their end, with the given groups. -/
def EndsWith (s : Cursor) (ls : List Line) (groups : List Group) : Prop :=
  ∃ current, readLines s ls = .ok ⟨groups, current⟩

variable {s : Cursor} {line : Line} {ls : List Line} {groups gs : List Group} {i : Nat}

theorem endsWith_nil : EndsWith s [] gs ↔ gs = s.groups := by
  constructor
  · rintro ⟨current, h⟩
    cases h
    rfl
  · rintro rfl
    exact ⟨s.current, rfl⟩

theorem endsWith_cons_of_step {t : Cursor} (h : s.step line = .ok t) :
    EndsWith s (line :: ls) gs ↔ EndsWith t ls gs := by
  simp only [EndsWith, readLines, List.foldlM_cons, h]
  rfl

theorem not_endsWith_cons_of_step {e : SyntaxError} (h : s.step line = .error e) :
    ¬ EndsWith s (line :: ls) gs := by
  rintro ⟨current, hread⟩
  rw [readLines, List.foldlM_cons, h] at hread
  cases hread

/-- A line that separates closes the section. -/
theorem endsWith_cons_separating (h : line.content = []) :
    EndsWith s (line :: ls) gs ↔ EndsWith ⟨s.groups, none⟩ ls gs := by
  refine endsWith_cons_of_step ?_
  rw [Cursor.step, if_pos (by simp [h])]

/-- Outside a section, a line has to be a header with a name, and opens the group of that name. -/
theorem endsWith_cons_header (h : line.content ≠ []) :
    EndsWith ⟨groups, none⟩ (line :: ls) gs ↔
      line.content.head? = some '#' ∧ trim (line.content.dropWhile (· == '#')) ≠ [] ∧
        EndsWith (Cursor.openGroup ⟨groups, none⟩
          (String.ofList (trim (line.content.dropWhile (· == '#'))))) ls gs := by
  have hstep : Cursor.step ⟨groups, none⟩ line = Cursor.header ⟨groups, none⟩ line := by
    rw [Cursor.step, if_neg (by simpa using h)]
  by_cases hmark : line.content.head? = some '#'
  · obtain ⟨rest, hrest⟩ := List.head?_eq_some_iff.mp hmark
    have hname : headerName? line.content = some (trim (line.content.dropWhile (· == '#'))) := by
      rw [hrest]
      rfl
    rw [and_iff_right hmark]
    by_cases hne : trim (line.content.dropWhile (· == '#')) = []
    · refine iff_of_false (not_endsWith_cons_of_step (e := faultAt line .emptyHeader) ?_)
        fun hand => hand.1 hne
      rw [hstep, Cursor.header, hname, hne]
    · rw [and_iff_right hne]
      refine endsWith_cons_of_step ?_
      rw [hstep, Cursor.header, hname]
      split
      · next heq => cases heq
      · next heq => exact absurd (Option.some.inj heq) hne
      · next heq => rw [Option.some.inj heq]
  · refine iff_of_false (not_endsWith_cons_of_step (e := faultAt line .missingHeader) ?_)
      fun hand => hmark hand.1
    have hnone : headerName? line.content = none := by
      unfold headerName?
      split
      · next heq => exact absurd (by rw [heq]; rfl) hmark
      · rfl
    rw [hstep, Cursor.header, hnone]

/-- Inside a section, a line has to be accepted, and adds its entries to the group of the section. -/
theorem endsWith_cons_body (h : line.content ≠ []) {l : RawLine} (hnumber : line.number = l.number)
    (hcontent : line.content = l.content) :
    EndsWith ⟨groups, some i⟩ (line :: ls) gs ↔
      l.Accepted ∧ EndsWith ⟨groups.modify i (·.extend l.entries), some i⟩ ls gs := by
  have hstep : Cursor.step ⟨groups, some i⟩ line = Cursor.body ⟨groups, some i⟩ i line := by
    rw [Cursor.step, if_neg (by simpa using h)]
  by_cases hmark : line.content.head? = some '#'
  · have hmark' := hmark
    rw [hcontent] at hmark'
    have haccepted : l.Accepted := fun hne => absurd hmark' hne
    rw [and_iff_right haccepted, RawLine.entries, if_pos hmark', Group.modify_extend_nil]
    refine endsWith_cons_of_step ?_
    rw [hstep, Cursor.body, if_pos hmark]
  · have hmark' := hmark
    rw [hcontent] at hmark'
    rw [RawLine.entries, if_neg hmark']
    cases he : EntryLine.parseEntry l.number l.content with
    | error reason =>
      refine iff_of_false
        (not_endsWith_cons_of_step (e := faultAt line (.invalidEntry reason)) ?_) ?_
      · rw [hstep, Cursor.body, if_neg hmark, hnumber, hcontent, he]
      · rintro ⟨haccepted, -⟩
        obtain ⟨e, hok⟩ := haccepted hmark'
        rw [he] at hok
        cases hok
    | ok e =>
      have haccepted : l.Accepted := fun _ => ⟨e, he⟩
      rw [and_iff_right haccepted]
      refine endsWith_cons_of_step ?_
      rw [hstep, Cursor.body, if_neg hmark, hnumber, hcontent, he]
      rfl

/-! ## Reading by sections -/

/-- The groups with the entries of one more section: in the group of its name, which is a new one when
there is none. -/
def addSection (groups : List Group) (s : Section) : List Group :=
  match groups.findIdx? (·.isNamed s.name) with
  | some i => groups.modify i (·.extend s.entries)
  | none => groups ++ [{ name := s.name, entries := s.entries }]

/-- The header of a section opens a group, and adding the section's entries to it adds the section. -/
theorem exists_openGroup (groups : List Group) (s : Section) :
    ∃ opened i, Cursor.openGroup ⟨groups, none⟩ s.name = ⟨opened, some i⟩ ∧
      opened.modify i (·.extend s.entries) = addSection groups s := by
  unfold Cursor.openGroup addSection
  dsimp only
  cases groups.findIdx? (·.isNamed s.name) with
  | some i => exact ⟨groups, i, rfl, rfl⟩
  | none => exact ⟨_, _, rfl, modify_length_append _ _ _⟩

/-- The given lines are read like the sections of the raw ones. Outside a section, nothing but sections
is to come; inside one, the lines up to the next separating line still belong to it. -/
structure ReadsSections (ls : List Line) (rs : List RawLine) : Prop where
  outside : ∀ groups gs, EndsWith ⟨groups, none⟩ ls gs ↔
    (∀ s ∈ sectionsOf rs, s.Accepted) ∧ gs = (sectionsOf rs).foldl addSection groups
  inside : ∀ groups gs i, EndsWith ⟨groups, some i⟩ ls gs ↔
    (∀ l ∈ openRun rs, l.Accepted) ∧ (∀ s ∈ sectionsOf (afterRun rs), s.Accepted) ∧
      gs = (sectionsOf (afterRun rs)).foldl addSection
        (groups.modify i (·.extend ((openRun rs).flatMap RawLine.entries)))

namespace ReadsSections

variable {rs : List RawLine} {l : RawLine}

theorem nil : ReadsSections [] [] where
  outside groups gs := by simp [endsWith_nil]
  inside groups gs i := by simp [endsWith_nil, openRun, afterRun, Group.modify_extend_nil]

/-- After a separating line there is no section open, so its run has no lines. -/
theorem cons_separating (h : ReadsSections ls rs) (hcontent : line.content = [])
    (hl : l.separates = true) : ReadsSections (line :: ls) (l :: rs) := by
  have hrun : openRun (l :: rs) = [] := List.takeWhile_cons_of_neg (by simp [hl])
  have hafter : afterRun (l :: rs) = l :: rs := List.dropWhile_cons_of_neg (by simp [hl])
  constructor
  · intro groups gs
    rw [endsWith_cons_separating hcontent, h.outside, sectionsOf_cons_of_separates hl]
  · intro groups gs i
    rw [endsWith_cons_separating hcontent, h.outside, hrun, hafter, sectionsOf_cons_of_separates hl,
      List.flatMap_nil, Group.modify_extend_nil]
    simp

/-- Any other line is the header of a section, or stands in the one that is open. -/
theorem cons_other (h : ReadsSections ls rs) (hnumber : line.number = l.number)
    (hcontent : line.content = l.content) (hne : line.content ≠ []) (hl : ¬ l.separates = true) :
    ReadsSections (line :: ls) (l :: rs) := by
  constructor
  · intro groups gs
    obtain ⟨opened, i, hopen, hadd⟩ := exists_openGroup groups ⟨l, openRun rs⟩
    have haccepted : (⟨l, openRun rs⟩ : Section).Accepted ↔ l.content.head? = some '#' ∧
        trim (l.content.dropWhile (· == '#')) ≠ [] ∧ ∀ b ∈ openRun rs, b.Accepted := by
      constructor
      · intro ⟨hmarked, hnamed, hbody⟩
        exact ⟨hmarked, by simpa [Section.name] using hnamed, hbody⟩
      · intro ⟨hmarked, hnamed, hbody⟩
        exact ⟨hmarked, by simpa [Section.name] using hnamed, hbody⟩
    rw [Section.name] at hopen
    rw [endsWith_cons_header hne, hcontent, hopen, h.inside, sectionsOf_cons_of_not_separates hl,
      List.forall_mem_cons, haccepted, List.foldl_cons, ← hadd]
    simp only [and_assoc]
    rfl
  · intro groups gs i
    have hrun : openRun (l :: rs) = l :: openRun rs :=
      List.takeWhile_cons_of_pos (by simpa using hl)
    have hafter : afterRun (l :: rs) = afterRun rs := List.dropWhile_cons_of_pos (by simpa using hl)
    rw [endsWith_cons_body hne hnumber hcontent, h.inside, hrun, hafter, List.forall_mem_cons,
      List.flatMap_cons, Group.modify_extend_append, and_assoc]

end ReadsSections

theorem readsSections_numberLines (number offset : Nat) (raws : List (List Char)) :
    ReadsSections (numberLines number offset raws) (rawLinesFrom number raws) := by
  induction raws generalizing number offset with
  | nil => exact .nil
  | cons raw raws ih =>
    rw [numberLines, rawLinesFrom_cons]
    have hrest := ih (number + 1) (offset + byteSize raw + 1)
    by_cases hblank : raw.all isBlank = true
    · exact hrest.cons_separating (trim_eq_nil_iff.mpr hblank) hblank
    · exact hrest.cons_other rfl rfl (fun hnil => hblank (trim_eq_nil_iff.mp hnil)) hblank

/-- The reader comes to the end of a text exactly when it accepts every section, and ends with the
groups of the sections, one section added after the other. -/
theorem endsWith_iff (cs : List Char) (gs : List Group) :
    EndsWith {} (lines cs) gs ↔
      (∀ s ∈ sectionsOf (rawLines cs), s.Accepted) ∧
        gs = (sectionsOf (rawLines cs)).foldl addSection [] :=
  (readsSections_numberLines 1 0 (cs.splitOn '\n')).outside [] gs

end Manifest
end Pinfile
