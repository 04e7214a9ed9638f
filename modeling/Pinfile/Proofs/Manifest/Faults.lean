import Pinfile.Proofs.Manifest.LineEnds

/-!
# The fault that is reported

A text that cannot be read has a first faulty line. Reading comes to that line, because the lines above
it are in order, and goes no further. So the error tells the number of that line and takes up its
content, the lines above it can be read on their own, and nothing below it has a say
(`Manifest.parse_error_first_fault`).

Reading stops at one step, and the rest follows from there (`exists_of_readLines_error`): the error is
the fault of one line, whose number and place count the raw lines above it, whatever these hold.
-/

namespace Pinfile

open Text

/-! ## Stretches of a text -/

/-- The span takes up `content` in the text, from a character to a character: it begins after as many
bytes as stand before the content, and has as many bytes as the content. -/
def Span.Covers (span : Span) (cs content : List Char) : Prop :=
  ∃ before after, cs = before ++ content ++ after ∧ span = ⟨byteSize before, byteSize content⟩

theorem Text.size_utf8Encode (cs : List Char) : cs.utf8Encode.size = byteSize cs := by
  induction cs with
  | nil => rfl
  | cons c cs ih =>
    rw [List.utf8Encode_cons, List.utf8Encode_singleton, ByteArray.size_append,
      List.size_toByteArray, String.length_utf8EncodeChar, ih, byteSize_cons]

/-- The bytes of the stretch are those of the content. -/
theorem Span.Covers.extract {span : Span} {cs content : List Char} (h : span.Covers cs content) :
    (String.ofList cs).toUTF8.extract span.offset (span.offset + span.length) =
      (String.ofList content).toUTF8 := by
  obtain ⟨before, after, rfl, rfl⟩ := h
  simp only [String.toUTF8_eq_toByteArray, String.toByteArray_ofList, List.append_assoc,
    List.utf8Encode_append, ← size_utf8Encode]
  calc (before.utf8Encode ++ (content.utf8Encode ++ after.utf8Encode)).extract
          before.utf8Encode.size (before.utf8Encode.size + content.utf8Encode.size)
      = (content.utf8Encode ++ after.utf8Encode).extract 0 content.utf8Encode.size :=
        ByteArray.extract_append_size_add (i := 0)
    _ = content.utf8Encode := ByteArray.extract_append_eq_left rfl

theorem Span.Covers.le_byteSize {span : Span} {cs content : List Char} (h : span.Covers cs content) :
    span.offset + span.length ≤ byteSize cs := by
  obtain ⟨before, after, rfl, rfl⟩ := h
  simp only [byteSize_append]
  omega

namespace Text

theorem byteSize_pos {cs : List Char} (h : cs ≠ []) : 0 < byteSize cs := by
  cases cs with
  | nil => exact absurd rfl h
  | cons c cs =>
    have hc := c.utf8Size_pos
    rw [byteSize_cons]
    omega

/-- A line consists of the blanks before its content, the content, and what is trimmed after it. -/
theorem exists_takeWhile_append_trim (raw : List Char) :
    ∃ trail, raw = raw.takeWhile isBlank ++ trim raw ++ trail := by
  obtain ⟨trail, htrail⟩ := exists_trimEnd_append (trimStart raw)
  refine ⟨trail, ?_⟩
  rw [List.append_assoc, trim, htrail]
  exact List.takeWhile_append_dropWhile.symm

theorem trimEnd_cons_of_not_blank {c : Char} (h : isBlank c = false) (cs : List Char) :
    trimEnd (c :: cs) = c :: trimEnd cs := by
  have hself : [c].dropWhile isBlank = [c] := List.dropWhile_cons_of_neg (by simp [h])
  rw [trimEnd, trimEnd, List.reverse_cons, List.dropWhile_append, hself]
  split
  · next hempty =>
    rw [List.isEmpty_iff.mp hempty]
    rfl
  · rw [List.reverse_append]
    rfl

theorem trim_cons_of_not_blank {c : Char} (h : isBlank c = false) (cs : List Char) :
    trim (c :: cs) = c :: trimEnd cs := by
  have hstart : trimStart (c :: cs) = c :: cs := List.dropWhile_cons_of_neg (by simp [h])
  rw [trim, hstart, trimEnd_cons_of_not_blank h]

/-- The byte order mark before a text, if there is one. -/
def leadingMark : List Char → List Char
  | [] => []
  | c :: _ => if c = byteOrderMark then [c] else []

/-- Behind the same mark, a text that begins as the other one did is what is left without the mark. -/
theorem dropMark_leadingMark_append {cs ds : List Char} (hne : dropMark cs ≠ [])
    (h : ds.head? = (dropMark cs).head?) : dropMark (leadingMark cs ++ ds) = ds := by
  cases cs with
  | nil => exact absurd rfl hne
  | cons c cs =>
    by_cases hc : c = byteOrderMark
    · rw [leadingMark, if_pos hc, List.singleton_append, dropMark, if_pos hc]
    · rw [dropMark, if_neg hc] at h
      obtain ⟨rest, rfl⟩ := List.head?_eq_some_iff.mp h
      rw [leadingMark, if_neg hc, List.nil_append, dropMark, if_neg hc]

end Text

namespace Manifest

variable {s : Cursor} {line : Line} {e : SyntaxError} {raws : List (List Char)}
  {number offset : Nat}

/-! ## Where reading stops -/

/-- An error of several lines is the error of one of them, before which there are others that can be
read. -/
theorem exists_of_readLines_error (h : readLines s (numberLines number offset raws) = .error e) :
    ∃ above raw below t, raws = above ++ raw :: below ∧
      readLines s (numberLines number offset above) = .ok t ∧
      t.step (lineAt (number + above.length) (offset + byteSize (joinLines above)) raw) =
        .error e := by
  induction raws generalizing s number offset with
  | nil => cases h
  | cons raw raws ih =>
    rw [numberLines_cons, readLines_cons] at h
    cases hstep : s.step (lineAt number offset raw) with
    | error e' =>
      rw [hstep] at h
      obtain rfl := Except.error.inj h
      exact ⟨[], raw, raws, s, rfl, rfl, hstep⟩
    | ok s' =>
      rw [hstep] at h
      obtain ⟨above, raw', below, t, rfl, hread, hfault⟩ := ih h
      refine ⟨raw :: above, raw', below, t, rfl, ?_, ?_⟩
      · rw [numberLines_cons, readLines_cons, hstep]
        exact hread
      · rw [add_byteSize_joinLines, Nat.add_right_comm number] at hfault
        exact hfault

/-- Reading a text stops at a line, with an error: the lines above it can be read, and it cannot. -/
structure StopsAt (cs : List Char) (e : SyntaxError) (above : List (List Char)) (raw : List Char)
    (below : List (List Char)) : Prop where
  splits : cs.splitOn '\n' = above ++ raw :: below
  step : ∃ t, readLines {} (numberLines 1 0 above) = .ok t ∧
    t.step (lineAt (above.length + 1) (byteSize (joinLines above)) raw) = .error e

theorem readLines_lines_of_error {cs : List Char} (h : parseChars cs = .error e) :
    readLines {} (lines cs) = .error e := by
  rw [parseChars] at h
  cases hread : readLines {} (lines cs) with
  | error e' =>
    rw [hread] at h
    rw [Except.error.inj h]
  | ok t =>
    rw [hread] at h
    cases h

theorem exists_stopsAt {cs : List Char} (h : parseChars cs = .error e) :
    ∃ above raw below, StopsAt cs e above raw below := by
  obtain ⟨above, raw, below, t, hsplits, hread, hfault⟩ :=
    exists_of_readLines_error (readLines_lines_of_error h)
  rw [Nat.add_comm 1, Nat.zero_add] at hfault
  exact ⟨above, raw, below, hsplits, t, hread, hfault⟩

/-- A line of a text follows the lines before it, each with its line feed. -/
theorem joinLines_append_prefix (above : List (List Char)) (raw : List Char)
    (below : List (List Char)) :
    joinLines above ++ raw <+: ['\n'].intercalate (above ++ raw :: below) := by
  induction above with
  | nil =>
    rw [joinLines, List.flatMap_nil, List.nil_append, List.nil_append]
    cases below with
    | nil => exact ⟨[], by rw [List.append_nil, List.intercalate_singleton]⟩
    | cons next rest =>
      rw [List.intercalate_cons_of_ne_nil (by simp), List.append_assoc]
      exact List.prefix_append raw _
  | cons first above ih =>
    rw [List.cons_append, List.intercalate_cons_of_ne_nil (by simp), joinLines, List.flatMap_cons,
      List.append_assoc]
    exact (List.prefix_append_right_inj _).mpr ih

namespace StopsAt

variable {cs : List Char} {above : List (List Char)} {raw : List Char} {below : List (List Char)}

theorem exists_fault (h : StopsAt cs e above raw below) :
    trim raw ≠ [] ∧ ∃ fault,
      e = faultAt (lineAt (above.length + 1) (byteSize (joinLines above)) raw) fault := by
  obtain ⟨t, -, hfault⟩ := h.step
  exact exists_faultAt_of_step hfault

theorem line_eq (h : StopsAt cs e above raw below) : e.line = above.length + 1 := by
  obtain ⟨-, fault, rfl⟩ := h.exists_fault
  rfl

/-- The error takes up the content of the line. -/
theorem span_eq (h : StopsAt cs e above raw below) :
    e.span = ⟨byteSize (joinLines above ++ raw.takeWhile isBlank), byteSize (trim raw)⟩ := by
  obtain ⟨-, fault, rfl⟩ := h.exists_fault
  rw [byteSize_append]
  rfl

theorem not_mem (h : StopsAt cs e above raw below) :
    (∀ piece ∈ above, '\n' ∉ piece) ∧ '\n' ∉ raw := by
  have hpiece : ∀ piece ∈ above ++ raw :: below, '\n' ∉ piece := fun piece hmem =>
    not_mem_of_mem_splitOn (h.splits ▸ hmem)
  exact ⟨fun piece hmem => hpiece piece (by simp [hmem]), hpiece raw (by simp)⟩

theorem isPrefix (h : StopsAt cs e above raw below) : joinLines above ++ raw <+: cs := by
  have hprefix := joinLines_append_prefix above raw below
  rwa [← h.splits, List.intercalate_splitOn] at hprefix

theorem covers (h : StopsAt cs e above raw below) : e.span.Covers cs (trim raw) := by
  obtain ⟨after, rfl⟩ := h.isPrefix
  obtain ⟨trail, hraw⟩ := exists_takeWhile_append_trim raw
  refine ⟨joinLines above ++ raw.takeWhile isBlank, trail ++ after, ?_, h.span_eq⟩
  conv_lhs => rw [hraw]
  simp only [List.append_assoc]

/-- The error stays within the line. -/
theorem span_le (h : StopsAt cs e above raw below) :
    byteSize (joinLines above) ≤ e.span.offset ∧
      e.span.offset + e.span.length ≤ byteSize (joinLines above ++ raw) := by
  obtain ⟨trail, hraw⟩ := exists_takeWhile_append_trim raw
  have hsize := congrArg byteSize hraw
  rw [byteSize_append, byteSize_append] at hsize
  rw [h.span_eq]
  simp only [byteSize_append]
  omega

/-- What the text begins with, from the lines above to the line itself, is not empty. -/
theorem head?_append (h : StopsAt cs e above raw below) (rest : List Char) :
    (joinLines above ++ raw ++ rest).head? = cs.head? ∧ cs ≠ [] := by
  have hne : joinLines above ++ raw ≠ [] := by
    intro hnil
    rw [(List.append_eq_nil_iff.mp hnil).2] at h
    exact h.exists_fault.1 rfl
  obtain ⟨after, rfl⟩ := h.isPrefix
  refine ⟨?_, fun hnil => hne (List.append_eq_nil_iff.mp hnil).1⟩
  rw [List.head?_append_of_ne_nil _ hne, List.head?_append_of_ne_nil _ hne]

/-- The lines above can be read on their own: after them there is one more line, which is empty. -/
theorem exists_parseChars_above (h : StopsAt cs e above raw below) :
    ∃ m, parseChars (joinLines above) = .ok m := by
  obtain ⟨t, hread, -⟩ := h.step
  have hsplit := splitOn_joinLines_append h.not_mem.1 []
  rw [List.append_nil, List.splitOn_nil] at hsplit
  refine ⟨ofGroups t.groups, ?_⟩
  rw [parseChars, lines, hsplit, numberLines_append, readLines_append, hread]
  rfl

/-- Whatever follows the line, reading stops there. -/
theorem parseChars_append (h : StopsAt cs e above raw below) (rest : List Char) :
    parseChars (joinLines above ++ raw ++ '\n' :: rest) = .error e := by
  obtain ⟨t, hread, hfault⟩ := h.step
  have hsplit := splitOn_joinLines_append h.not_mem.1 (raw ++ '\n' :: rest)
  rw [List.splitOn_append_cons_self_of_not_mem h.not_mem.2] at hsplit
  rw [parseChars, lines, List.append_assoc, hsplit, numberLines_append, readLines_append, hread,
    Nat.add_comm 1, Nat.zero_add, numberLines_cons]
  dsimp only [Except.bind]
  rw [readLines_cons, hfault]
  rfl

end StopsAt

/-! ## Marks before a line -/

/-- A byte order mark is no blank and begins no header. -/
theorem step_of_mark (groups : List Group) (number offset : Nat) (raw : List Char) :
    Cursor.step ⟨groups, none⟩ (lineAt number offset (byteOrderMark :: raw)) =
      .error (faultAt (lineAt number offset (byteOrderMark :: raw)) .missingHeader) := by
  have hcontent := trim_cons_of_not_blank (c := byteOrderMark) rfl raw
  have hstep : Cursor.step ⟨groups, none⟩ (lineAt number offset (byteOrderMark :: raw)) =
      Cursor.header ⟨groups, none⟩ (lineAt number offset (byteOrderMark :: raw)) := by
    rw [Cursor.step, if_neg (by simp [lineAt, hcontent])]
  have hname : headerName? (lineAt number offset (byteOrderMark :: raw)).content = none := by
    rw [lineAt, hcontent]
    rfl
  rw [hstep, Cursor.header, hname]

/-- A text with a byte order mark before it is refused for its first line. -/
theorem parseChars_mark {cs raw : List Char} {raws : List (List Char)}
    (h : cs.splitOn '\n' = raw :: raws) :
    parseChars (byteOrderMark :: cs) =
      .error (faultAt (lineAt 1 0 (byteOrderMark :: raw)) .missingHeader) := by
  have hsplit : (byteOrderMark :: cs).splitOn '\n' = (byteOrderMark :: raw) :: raws := by
    rw [List.splitOn_cons_eq_if_modifyHead, if_neg (by decide), h, List.modifyHead_cons]
  rw [parseChars, lines, hsplit, numberLines_cons, readLines_cons, step_of_mark]
  rfl

/-- A byte order mark makes a difference to the error of a text. -/
theorem parseChars_mark_ne {cs : List Char} (h : parseChars cs = .error e) :
    parseChars (byteOrderMark :: cs) ≠ .error e := by
  intro hmark
  obtain ⟨above, raw, below, hstops⟩ := exists_stopsAt h
  obtain ⟨first, others, hfirst⟩ := List.exists_cons_of_ne_nil (List.splitOn_ne_nil '\n' cs)
  rw [parseChars_mark hfirst] at hmark
  have herror := Except.error.inj hmark
  -- both errors would be on the first line, which would have no blanks before its content
  obtain rfl : above = [] := by
    apply List.eq_nil_of_length_eq_zero
    have hline := hstops.line_eq
    rw [← herror] at hline
    exact (Nat.succ.inj hline).symm
  obtain rfl : first = raw := (List.cons.inj (hfirst.symm.trans hstops.splits)).1
  have hspan := hstops.span_eq
  rw [← herror] at hspan
  obtain ⟨hoffset, hlength⟩ := Span.mk.inj hspan
  have hlead : first.takeWhile isBlank = [] := by
    by_contra hne
    have hpos := byteSize_pos hne
    have hzero : byteSize (first.takeWhile isBlank) = 0 := hoffset.symm
    omega
  have htrim : trim first = trimEnd first := by
    have hstart : trimStart first = first := by
      have hcut := List.takeWhile_append_dropWhile (p := isBlank) (l := first)
      rwa [hlead] at hcut
    rw [trim, hstart]
  rw [htrim, lineAt, trim_cons_of_not_blank rfl, byteSize_cons] at hlength
  have hsize := byteOrderMark.utf8Size_pos
  omega

/-- Lines that can be read have no byte order mark before them. -/
theorem dropMark_joinLines {above : List (List Char)} {t : Cursor}
    (h : readLines {} (numberLines number offset above) = .ok t) :
    dropMark (joinLines above) = joinLines above := by
  cases above with
  | nil => rfl
  | cons first above =>
    rw [numberLines_cons, readLines_cons] at h
    rw [joinLines, List.flatMap_cons]
    cases first with
    | nil => rfl
    | cons c first =>
      by_cases hc : c = byteOrderMark
      · subst hc
        rw [step_of_mark] at h
        cases h
      · exact if_neg hc

/-! ## The error of a text -/

/-- A text that cannot be read is refused for the first of its lines that is faulty. The error has the
number of that line and takes up the line's content, which is not empty; the lines above it are read
without an error; and with anything else below it the text is refused with the same error. -/
theorem parse_error_first_fault {text : String} (h : parse text = .error e) :
    ∃ above raw below, (dropMark text.toList).splitOn '\n' = above ++ raw :: below ∧
      e.line = above.length + 1 ∧
      0 < e.span.length ∧
      e.span.offset + e.span.length ≤ byteSize (dropMark text.toList) ∧
      e.span.Covers (dropMark text.toList) (trim raw) ∧
      byteSize (joinLines above) ≤ e.span.offset ∧
      e.span.offset + e.span.length ≤ byteSize (joinLines above ++ raw) ∧
      (∃ m, parse (String.ofList (joinLines above)) = .ok m) ∧
      ∀ rest, parse (String.ofList
        (leadingMark text.toList ++ (joinLines above ++ raw ++ '\n' :: rest))) = .error e := by
  rw [parse] at h
  obtain ⟨above, raw, below, hstops⟩ := exists_stopsAt h
  have hlength : 0 < e.span.length := by
    rw [hstops.span_eq]
    exact byteSize_pos hstops.exists_fault.1
  obtain ⟨habove, hraw⟩ := hstops.span_le
  refine ⟨above, raw, below, hstops.splits, hstops.line_eq, hlength, hstops.covers.le_byteSize,
    hstops.covers, habove, hraw, ?_, fun rest => ?_⟩
  · obtain ⟨t, hread, -⟩ := hstops.step
    rw [parse, String.toList_ofList, dropMark_joinLines hread]
    exact hstops.exists_parseChars_above
  · obtain ⟨hhead, hne⟩ := hstops.head?_append ('\n' :: rest)
    rw [parse, String.toList_ofList, dropMark_leadingMark_append hne hhead]
    exact hstops.parseChars_append rest

/-- A text with a byte order mark, wide blanks and carriage returns, whose fifth line gives a range of
versions. -/
def ranged : String :=
  "\uFEFF# É\r\n\u3000flask==3.0.0\r\n\u00A0\n#Dev\n\u2003ruff>=0.8 \r\nx==1"

theorem parse_ranged :
    let e : SyntaxError := ⟨.invalidEntry (.notExact "ruff>=0.8"), 5, ⟨34, 9⟩⟩
    parse ranged = .error e ∧
      e.span.Covers (dropMark ranged.toList) "ruff>=0.8".toList ∧
      (∃ m, parse "# É\r\n\u3000flask==3.0.0\r\n\u00A0\n#Dev\n" = .ok m) ∧
      ∀ rest, parse (String.ofList
        ("\uFEFF# É\r\n\u3000flask==3.0.0\r\n\u00A0\n#Dev\n\u2003ruff>=0.8 \r\n".toList ++ rest)) =
          .error e := by
  intro e
  have h : parse ranged = .error e := by decide +kernel
  obtain ⟨above, raw, below, hsplits, hline, -, -, hcovers, -, -, hreads, hrefused⟩ :=
    parse_error_first_fault h
  have hlines : (dropMark ranged.toList).splitOn '\n' =
      ["# É\r".toList, "\u3000flask==3.0.0\r".toList, "\u00A0".toList, "#Dev".toList] ++
        ["\u2003ruff>=0.8 \r".toList, "x==1".toList] := by decide +kernel
  obtain ⟨habove, hrest⟩ := List.append_inj (hsplits.symm.trans hlines) (Nat.succ.inj hline).symm
  have hraw : raw = "\u2003ruff>=0.8 \r".toList := (List.cons.inj hrest).1
  have hcontent : trim raw = "ruff>=0.8".toList := by
    rw [hraw]
    decide +kernel
  have htext : String.ofList (joinLines above) =
      "# É\r\n\u3000flask==3.0.0\r\n\u00A0\n#Dev\n" := by
    rw [habove]
    decide +kernel
  have hstart : leadingMark ranged.toList ++ (joinLines above ++ raw ++ ['\n']) =
      "\uFEFF# É\r\n\u3000flask==3.0.0\r\n\u00A0\n#Dev\n\u2003ruff>=0.8 \r\n".toList := by
    rw [habove, hraw]
    decide +kernel
  rw [hcontent] at hcovers
  rw [htext] at hreads
  refine ⟨h, hcovers, hreads, fun rest => ?_⟩
  rw [← hstart]
  simpa only [List.append_assoc, List.singleton_append] using hrefused rest

end Manifest
end Pinfile
