import Pinfile.Operation.Source
import Pinfile.Proofs.Manifest.Faults

/-!
# Errors shown in the text of a file

The text of a file is parsed without its byte order mark, and an error is shown in that text. Parsing
passes over a byte order mark as well, so of two marks both are gone. A text that does not begin with two
marks is read as the parser reads it, and the stretch that is shown is the content of the faulty line. A
text that does begin with two is not read alike: the parser refuses its first line for the second mark
(`readsAlike_iff`).
-/

namespace Pinfile

open Text

/-- The characters begin with two byte order marks. -/
def Text.DoublyMarked (cs : List Char) : Prop := [byteOrderMark, byteOrderMark] <+: cs

/-- Where there are no two marks, none is left after the first. -/
theorem Text.dropMark_dropMark {cs : List Char} (h : ¬ DoublyMarked cs) :
    dropMark (dropMark cs) = dropMark cs := by
  cases cs with
  | nil => rfl
  | cons c cs =>
    by_cases hc : c = byteOrderMark
    · rw [dropMark, if_pos hc]
      cases cs with
      | nil => rfl
      | cons d cs =>
        apply if_neg
        rintro rfl
        exact h ⟨cs, by rw [hc]; rfl⟩
    · have hkept : dropMark (c :: cs) = c :: cs := if_neg hc
      rw [hkept, hkept]

namespace Operation

variable {p : Path} {text : String}

/-- The text of a file is read as the parser reads it, with the same manifest or the same error. The
error is shown in a text in which its span takes up the bytes of the faulty line's content. -/
structure ReadsAlike (p : Path) (text : String) : Prop where
  result : (parseShown p text).mapError ShownError.error = Manifest.parse text
  shown : ∀ r, parseShown p text = .error r →
    r.path = p ∧
      ∃ above raw below, r.text.toList.splitOn '\n' = above ++ raw :: below ∧
        r.error.line = above.length + 1 ∧
        r.text.toUTF8.extract r.error.span.offset (r.error.span.offset + r.error.span.length) =
          (String.ofList (trim raw)).toUTF8

/-- The error is that of the text without both marks. -/
theorem mapError_parseShown (p : Path) (text : String) :
    (parseShown p text).mapError ShownError.error =
      Manifest.parseChars (dropMark (dropMark text.toList)) := by
  rw [parseShown, Manifest.parse, shownText, String.toList_ofList]
  cases Manifest.parseChars (dropMark (dropMark text.toList)) <;> rfl

theorem parseShown_eq_error_iff {r : ShownError} :
    parseShown p text = .error r ↔
      r.path = p ∧ r.text = shownText text ∧ Manifest.parse (shownText text) = .error r.error := by
  unfold parseShown
  cases Manifest.parse (shownText text) with
  | ok m =>
    simp [Except.mapError]
  | error e =>
    constructor
    · intro h
      obtain rfl := Except.error.inj h
      exact ⟨rfl, rfl, rfl⟩
    · rintro ⟨hpath, htext, herror⟩
      obtain rfl := Except.error.inj herror
      rw [← hpath, ← htext]
      rfl

/-- The text of a file is read as the parser reads it unless it begins with two byte order marks. -/
theorem readsAlike_iff (p : Path) (text : String) :
    ReadsAlike p text ↔ ¬ DoublyMarked text.toList := by
  constructor
  · rintro ⟨hresult, -⟩ ⟨rest, hmarks⟩
    rw [mapError_parseShown, Manifest.parse, ← hmarks] at hresult
    have hread : Manifest.parseChars rest = Manifest.parseChars (byteOrderMark :: rest) := hresult
    obtain ⟨first, others, hfirst⟩ := List.exists_cons_of_ne_nil (List.splitOn_ne_nil '\n' rest)
    have hrefused := Manifest.parseChars_mark hfirst
    exact Manifest.parseChars_mark_ne (hread.trans hrefused) hrefused
  · intro hmarks
    have hdrop := dropMark_dropMark hmarks
    refine ⟨?_, ?_⟩
    · rw [mapError_parseShown, hdrop, Manifest.parse]
    · intro r hr
      obtain ⟨hpath, htext, herror⟩ := parseShown_eq_error_iff.mp hr
      rw [Manifest.parse, shownText, String.toList_ofList, hdrop] at herror
      obtain ⟨above, raw, below, hstops⟩ := Manifest.exists_stopsAt herror
      refine ⟨hpath, above, raw, below, ?_, hstops.line_eq, ?_⟩
      · rw [htext, shownText, String.toList_ofList]
        exact hstops.splits
      · rw [htext, shownText]
        exact hstops.covers.extract

/-- Behind two marks a manifest is read that the parser refuses. -/
theorem parseShown_two_marks :
    let p := Path.ofText "requirements.txt"
    let text := "\uFEFF\uFEFF# A\nx==1.0.0\n"
    (∃ m, parseShown p text = .ok m) ∧
      Manifest.parse text = .error ⟨.missingHeader, 1, ⟨0, 6⟩⟩ ∧
      ¬ ReadsAlike p text := by
  intro p text
  have hparse : Manifest.parse text = .error ⟨.missingHeader, 1, ⟨0, 6⟩⟩ := by decide +kernel
  have hread : (parseShown p text).toOption.isSome = true := by decide +kernel
  obtain ⟨m, hm⟩ : ∃ m, parseShown p text = .ok m := by
    cases h : parseShown p text with
    | ok m => exact ⟨m, rfl⟩
    | error e => rw [h] at hread; cases hread
  refine ⟨⟨m, hm⟩, hparse, fun hreads => ?_⟩
  have hresult := hreads.result
  rw [hm, hparse] at hresult
  cases hresult

end Operation
end Pinfile
