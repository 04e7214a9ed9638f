import Pinfile.Proofs.Manifest.EntryText
import Pinfile.Proofs.Manifest.Grammar
import Pinfile.Proofs.Merge.Disjoint

/-!
# One text after another

A text is put after another with a blank line between them. The blank line ends the last section of
the first text, so the sections of the whole are those of the one and of the other
(`sectionsOf_append`), and only the numbers of the lines in the second text are other ones
(`RawLine.unnumbered`).

Reading the whole gathers all these sections, and merging what is read from the two texts gathers
the groups that each of them gives. This comes to the same (`Manifest.parse_concatenated`), as long
as the merge has no say in what is added: where the texts share no package, and no marker is
repeated.
-/

namespace Pinfile

open Text

/-! ## Entries and the numbers of their lines -/

namespace EntryLine

variable {line : Nat} {content : List Char} {e : Entry}

/-- What is read from a line with one number is read from it with any other. -/
theorem parseEntry_withLine (h : parseEntry line content = .ok e) (line' : Nat) :
    parseEntry line' content = .ok (e.withLine line') := by
  rw [parseEntry_eq_ok_iff]
  obtain ⟨target, m, htarget, hmarker, rfl⟩ | ⟨hnone, p, hpin, rfl⟩ := parseEntry_eq_ok_iff.mp h
  · obtain ⟨hne, path, extras, hsplit, hpath, hblank, hvalid, rfl⟩ :=
      parseMarker_eq_ok_iff.mp hmarker
    exact Or.inl ⟨target, _, htarget,
      parseMarker_eq_ok_iff.mpr ⟨hne, path, extras, hsplit, hpath, hblank, hvalid, rfl⟩, rfl⟩
  · obtain ⟨before, after, hcut, hname, hne, hversion, rfl⟩ := parsePin_eq_ok_iff.mp hpin
    exact Or.inr ⟨hnone, _, parsePin_eq_ok_iff.mpr ⟨before, after, hcut, hname, hne, hversion, rfl⟩,
      rfl⟩

end EntryLine

namespace RawLine

/-- The line with its number forgotten. -/
def unnumbered (l : RawLine) : RawLine := { l with number := 0 }

@[simp] theorem content_unnumbered (l : RawLine) : l.unnumbered.content = l.content := rfl

theorem accepted_unnumbered (l : RawLine) : l.unnumbered.Accepted ↔ l.Accepted := by
  constructor
  · intro h hmark
    obtain ⟨e, he⟩ := h hmark
    exact ⟨_, EntryLine.parseEntry_withLine he l.number⟩
  · intro h hmark
    obtain ⟨e, he⟩ := h hmark
    exact ⟨_, EntryLine.parseEntry_withLine he 0⟩

/-- The number of a line goes into its entry, and has no other effect on it. -/
theorem entries_unnumbered (l : RawLine) :
    l.unnumbered.entries.map Entry.withoutLine = l.entries.map Entry.withoutLine := by
  unfold entries
  rw [content_unnumbered]
  split
  · rfl
  · cases he : EntryLine.parseEntry l.number l.content with
    | ok e =>
      rw [EntryLine.parseEntry_withLine he]
      simp [Except.toOption]
    | error reason =>
      cases he' : EntryLine.parseEntry l.unnumbered.number l.content with
      | ok e =>
        rw [EntryLine.parseEntry_withLine he' l.number] at he
        cases he
      | error reason' => rfl

end RawLine

namespace Section

/-- The section with the numbers of its lines forgotten. -/
def unnumbered (s : Section) : Section := ⟨s.header.unnumbered, s.body.map RawLine.unnumbered⟩

theorem accepted_unnumbered (s : Section) : s.unnumbered.Accepted ↔ s.Accepted := by
  have hbody : (∀ l ∈ s.unnumbered.body, l.Accepted) ↔ ∀ l ∈ s.body, l.Accepted := by
    rw [unnumbered, List.forall_mem_map]
    exact forall₂_congr fun l _ => l.accepted_unnumbered
  constructor
  · intro ⟨hmarked, hnamed, hall⟩
    exact ⟨hmarked, hnamed, hbody.mp hall⟩
  · intro ⟨hmarked, hnamed, hall⟩
    exact ⟨hmarked, hnamed, hbody.mpr hall⟩

/-- Without lines, a section says the same whatever the numbers of its lines are. -/
theorem piece_unnumbered (s : Section) :
    s.unnumbered.piece.withoutLines = s.piece.withoutLines := by
  have hentries : s.unnumbered.entries.map Entry.withoutLine = s.entries.map Entry.withoutLine := by
    rw [entries, entries, List.map_flatMap, List.map_flatMap, unnumbered, List.flatMap_map]
    exact List.flatMap_congr fun l _ => l.entries_unnumbered
  exact congrArg (Piece.mk s.name) hentries

theorem map_piece_unnumbered (ss : List Section) :
    (ss.map unnumbered).map (fun s => s.piece.withoutLines) =
      (ss.map piece).map Piece.withoutLines := by
  rw [List.map_map, List.map_map]
  exact List.map_congr_left fun s _ => s.piece_unnumbered

end Section

/-! ## Sections of lines -/

theorem splitOnP_map {α β : Type} {f : α → β} {p : α → Bool} {q : β → Bool}
    (h : ∀ a, q (f a) = p a) (as : List α) :
    (as.map f).splitOnP q = (as.splitOnP p).map (List.map f) := by
  induction as with
  | nil => rfl
  | cons a as ih =>
    rw [List.map_cons, List.splitOnP_cons_eq_if_modifyHead, List.splitOnP_cons_eq_if_modifyHead, ih,
      h]
    split
    · rfl
    · cases as.splitOnP p <;> rfl

/-- The sections of lines do not depend on the numbers of the lines. -/
theorem sectionsOf_unnumbered (ls : List RawLine) :
    sectionsOf (ls.map RawLine.unnumbered) = (sectionsOf ls).map Section.unnumbered := by
  have hseparates : ∀ l : RawLine, l.unnumbered.separates = l.separates := fun _ => rfl
  rw [sectionsOf, splitOnP_map hseparates, sectionsOf, List.filterMap_map, List.map_filterMap]
  refine List.filterMap_congr fun run _ => ?_
  cases run <;> rfl

theorem map_unnumbered_rawLinesFrom (number number' : Nat) (raws : List (List Char)) :
    (rawLinesFrom number raws).map RawLine.unnumbered =
      (rawLinesFrom number' raws).map RawLine.unnumbered := by
  induction raws generalizing number number' with
  | nil => rfl
  | cons raw raws ih =>
    rw [rawLinesFrom_cons, rawLinesFrom_cons, List.map_cons, List.map_cons, ih (number + 1)]
    rfl

/-- A separating line ends the sections before it. -/
theorem sectionsOf_append {l : RawLine} (h : l.separates = true) (ls rest : List RawLine) :
    sectionsOf (ls ++ l :: rest) = sectionsOf ls ++ sectionsOf rest := by
  rw [sectionsOf, List.splitOnP_append_cons ls rest h, List.filterMap_append]
  rfl

theorem rawLinesFrom_append (number : Nat) (raws rest : List (List Char)) :
    rawLinesFrom number (raws ++ rest) =
      rawLinesFrom number raws ++ rawLinesFrom (number + raws.length) rest := by
  rw [rawLinesFrom, List.zipIdx_append, List.map_append]
  rfl

namespace Manifest

variable {a b : String} {ma mb : Manifest}

/-- Two texts with a blank line between them. -/
def concatenated (a b : String) : String := a ++ "\n\n" ++ b

/-- The mark before the first text is the one before the whole. -/
theorem dropMark_append (cs rest : List Char) :
    dropMark (cs ++ '\n' :: rest) = dropMark cs ++ '\n' :: rest := by
  cases cs with
  | nil =>
    have hfeed : '\n' ≠ byteOrderMark := by decide
    show (if '\n' = byteOrderMark then rest else '\n' :: rest) = '\n' :: rest
    rw [if_neg hfeed]
  | cons c cs =>
    rw [List.cons_append, dropMark, dropMark]
    split <;> rfl

theorem dropMark_eq_self {cs : List Char} (h : cs.head? ≠ some byteOrderMark) :
    dropMark cs = cs := by
  cases cs with
  | nil => rfl
  | cons c cs => exact if_neg fun hc => h (congrArg some hc)

/-- The sections of the whole are those of the first text, and those of the second with other
numbers of lines. -/
theorem exists_sections_concatenated (a : String) (hmark : b.toList.head? ≠ some byteOrderMark) :
    ∃ above, sections (concatenated a b) = sections a ++ above ∧
      above.map Section.unnumbered = (sections b).map Section.unnumbered := by
  have hfeeds : "\n\n".toList = ['\n', '\n'] := rfl
  have hwhole : dropMark (concatenated a b).toList =
      dropMark a.toList ++ '\n' :: ('\n' :: b.toList) := by
    rw [concatenated, String.toList_append, String.toList_append, hfeeds, ← dropMark_append,
      List.append_assoc]
    rfl
  have hcut : (dropMark (concatenated a b).toList).splitOn '\n' =
      (dropMark a.toList).splitOn '\n' ++ [] :: b.toList.splitOn '\n' := by
    rw [hwhole, List.splitOn_append_cons_self, List.splitOn_cons_eq_if_modifyHead, if_pos (by simp)]
  have hblank : ∀ number, (⟨number, []⟩ : RawLine).separates = true := fun _ => rfl
  rw [sections, rawLines, hcut, rawLinesFrom_append, rawLinesFrom_cons,
    sectionsOf_append (hblank _)]
  refine ⟨_, rfl, ?_⟩
  rw [sections, dropMark_eq_self hmark, rawLines, ← sectionsOf_unnumbered, ← sectionsOf_unnumbered,
    map_unnumbered_rawLinesFrom]

/-- What is read from a text is made of its sections. -/
theorem madeOf_of_parse {text : String} {m : Manifest} (h : parse text = .ok m) :
    m.MadeOf ((sections text).map Section.piece) := by
  obtain ⟨-, rfl⟩ := parse_eq_ok_iff.mp h
  exact madeOf_ofGroups (gathers_iff.mp (gathers_foldl (sections text)))

/-- Two texts that share no package, and where the second repeats no marker of either, are read one
after the other as what is read from them is merged. -/
theorem parse_concatenated (ha : parse a = .ok ma) (hb : parse b = .ok mb)
    (hmark : b.toList.head? ≠ some byteOrderMark)
    (hpins : ∀ x ∈ ma.pins, ∀ y ∈ mb.pins, x.2.key ≠ y.2.key)
    (hnew : ∀ x ∈ ma.markers, ∀ y ∈ mb.markers, x.2.same y.2 = false)
    (hdistinct : mb.markers.Pairwise fun x y => x.2.same y.2 = false) :
    ∃ r c, merge [ma, mb] = .ok r ∧ parse (concatenated a b) = .ok c ∧ r.Same c := by
  obtain ⟨r, hr, hmade⟩ := merge_disjoint (wellFormed_of_parse ha).distinct hpins
    (not_mem_asked_iff.mpr hnew) (nodup_asked_iff.mpr hdistinct)
  obtain ⟨above, hsections, habove⟩ := exists_sections_concatenated a hmark
  have haccepted : ∀ s ∈ above, s.Accepted := by
    have hall : ∀ s ∈ (sections b).map Section.unnumbered, s.Accepted := by
      rw [List.forall_mem_map]
      exact fun s hs => s.accepted_unnumbered.mpr ((parse_eq_ok_iff.mp hb).1 s hs)
    rw [← habove, List.forall_mem_map] at hall
    exact fun s hs => s.accepted_unnumbered.mp (hall s hs)
  obtain ⟨c, hc⟩ : ∃ c, parse (concatenated a b) = .ok c := by
    refine ⟨_, parse_eq_ok_iff.mpr ⟨?_, rfl⟩⟩
    rw [hsections, List.forall_mem_append]
    exact ⟨(parse_eq_ok_iff.mp ha).1, haccepted⟩
  -- the merge gathers in two stages what the reader gathers at once
  have hstages : r.MadeOf ((sections a).map Section.piece ++ (sections b).map Section.piece) := by
    refine ⟨(madeOf_of_parse ha).gathered.stages (madeOf_of_parse hb).gathered ?_, hmade.ordinals⟩
    rw [← List.map_append]
    exact hmade.gathered
  have hpieces : (above.map Section.piece).map Piece.withoutLines =
      ((sections b).map Section.piece).map Piece.withoutLines := by
    rw [← Section.map_piece_unnumbered, habove, Section.map_piece_unnumbered]
  have hwhole := madeOf_of_parse hc
  rw [hsections, List.map_append] at hwhole
  refine ⟨r, c, hr, hc, hstages.same hwhole ?_⟩
  rw [List.map_append, List.map_append, hpieces]

/-- A text with a byte order mark, and without a line feed at its end. -/
def firstText : String := "\uFEFF# Οδός\nflask==3.0.0\n\n# Dev\n-e ."

/-- A text that pins a package twice, has a group without entries, and continues both groups of the
other one. -/
def secondText : String :=
  "# dev\nruff==0.8.0\nRuff==0.9.0\n-e .[docs]\n\n# Empty\n\n# ΟΔΌΣ\nattrs==25.1.0"

/-- What is read from the first text. -/
def firstManifest : Manifest :=
  .ofGroups [{ name := "Οδός", entries := [.pin ⟨⟨"flask"⟩, "3.0.0", false, 2⟩] },
    { name := "Dev", entries := [.editable ⟨".", [], 5⟩] }]

/-- What is read from the second text. -/
def secondManifest : Manifest :=
  .ofGroups [{ name := "dev", entries := [.pin ⟨⟨"ruff"⟩, "0.8.0", false, 2⟩,
      .pin ⟨⟨"Ruff"⟩, "0.9.0", false, 3⟩, .editable ⟨".", ["docs"], 4⟩] },
    { name := "Empty" },
    { name := "ΟΔΌΣ", entries := [.pin ⟨⟨"attrs"⟩, "25.1.0", false, 9⟩] }]

theorem parse_twoTexts : ∃ r c, merge [firstManifest, secondManifest] = .ok r ∧
    parse (concatenated firstText secondText) = .ok c ∧ r.Same c ∧
    c.groups.map Group.name = ["Οδός", "Dev", "Empty"] := by
  have hfirst : parse firstText = .ok firstManifest := by decide +kernel
  have hsecond : parse secondText = .ok secondManifest := by decide +kernel
  obtain ⟨r, c, hr, hc, hsame⟩ := parse_concatenated hfirst hsecond (by decide)
    (by decide +kernel) (by decide +kernel) (by decide +kernel)
  have hnames : (parse (concatenated firstText secondText)).toOption.map
      (fun c => c.groups.map Group.name) = some ["Οδός", "Dev", "Empty"] := by decide +kernel
  rw [hc] at hnames
  exact ⟨r, c, hr, hc, hsame, Option.some.inj hnames⟩

end Manifest
end Pinfile
