import Mathlib.Data.List.TakeWhile
import Pinfile.Json.Reader
import Pinfile.Proofs.Text.Numerals

/-!
# Reading strings, numbers and words

A value without brackets is read back from its text, whatever follows it. A string carries its own
end, so nothing is asked of the text after it: its closing quotation mark is the first one that is not
part of an escape (`string?_quote`). A number ends with the first character that no number has, so
the text after it must not go on with one (`scalar?_number`).
-/

namespace Pinfile.Json

/-! ## Strings -/

/-- The characters that do not stand for themselves inside quotation marks. -/
def NeedsEscape (c : Char) : Prop := c = '"' ∨ c = '\\' ∨ c.toNat < 0x20

/-- Only a quotation mark, a backslash and a character below U+0020 are escaped. -/
theorem escape_of_not_needsEscape {c : Char} (h : ¬ NeedsEscape c) : escape c = [c] := by
  obtain ⟨hquote, hbackslash, hcontrol⟩ : c ≠ '"' ∧ c ≠ '\\' ∧ ¬ c.toNat < 0x20 := by
    simpa [NeedsEscape] using h
  rw [escape, if_neg hquote, if_neg hbackslash, if_neg (by omega), if_neg (by omega), if_neg (by omega),
    if_neg (by omega), if_neg (by omega), if_neg hcontrol]

/-- The number in an escape is that of the character. -/
theorem escapedUnit?_digits {c : Char} (h : c.toNat < 0x20) (rest : List Char) :
    escapedUnit? ('0' :: '0' :: Text.Hex.lower (c.toNat / 16) :: Text.Hex.lower (c.toNat % 16) ::
      rest) = some (c, rest) := by
  have hzero : Text.Hex.value? '0' = some 0 := rfl
  have hunit : unit? ('0' :: '0' :: Text.Hex.lower (c.toNat / 16) ::
      Text.Hex.lower (c.toNat % 16) :: rest) = some (c.toNat, rest) := by
    simp only [unit?, hzero, Text.Hex.value?_lower _ (show c.toNat / 16 < 16 by omega),
      Text.Hex.value?_lower _ (show c.toNat % 16 < 16 by omega), Option.bind_eq_bind,
      Option.bind_some]
    rw [show ((0 * 16 + 0) * 16 + c.toNat / 16) * 16 + c.toNat % 16 = c.toNat by omega]
    rfl
  rw [escapedUnit?, hunit]
  simp only [Option.bind_eq_bind, Option.bind_some]
  rw [if_neg (by omega), if_neg (by omega), Char.ofNat_toNat]
  rfl

/-- A control character with a letter of its own is read back from the letter. -/
theorem exists_short_escape {c d : Char} {n : Nat} (hn : c.toNat = n)
    (hread : ∀ rest, escaped? (d :: rest) = some (Char.ofNat n, rest)) :
    ∃ body, ['\\', d] = '\\' :: body ∧ ∀ rest, escaped? (body ++ rest) = some (c, rest) := by
  have hchar : Char.ofNat n = c := by rw [← hn, Char.ofNat_toNat]
  exact ⟨[d], rfl, fun rest => by rw [← hchar]; exact hread rest⟩

/-- An escape begins with a backslash, and what follows is read as the character. -/
theorem escaped?_of_needsEscape {c : Char} (h : NeedsEscape c) :
    ∃ body, escape c = '\\' :: body ∧ ∀ rest, escaped? (body ++ rest) = some (c, rest) := by
  unfold escape
  by_cases hquote : c = '"'
  · exact ⟨_, if_pos hquote, fun rest => by rw [hquote]; rfl⟩
  rw [if_neg hquote]
  by_cases hbackslash : c = '\\'
  · exact ⟨_, if_pos hbackslash, fun rest => by rw [hbackslash]; rfl⟩
  rw [if_neg hbackslash]
  have hcontrol : c.toNat < 0x20 := by
    rcases h with h | h | h
    · exact absurd h hquote
    · exact absurd h hbackslash
    · exact h
  split
  · next hn => exact exists_short_escape hn fun _ => rfl
  split
  · next hn => exact exists_short_escape hn fun _ => rfl
  split
  · next hn => exact exists_short_escape hn fun _ => rfl
  split
  · next hn => exact exists_short_escape hn fun _ => rfl
  split
  · next hn => exact exists_short_escape hn fun _ => rfl
  exact ⟨_, rfl, fun rest => escapedUnit?_digits hcontrol rest⟩

/-- The characters that have an escape are those that need one. -/
theorem escape_ne_self_iff (c : Char) : escape c ≠ [c] ↔ NeedsEscape c := by
  constructor
  · intro hne
    by_contra h
    exact hne (escape_of_not_needsEscape h)
  · intro h hself
    obtain ⟨body, hbody, hread⟩ := escaped?_of_needsEscape h
    -- an escape of one character would be a backslash that nothing follows
    obtain ⟨rfl, rfl⟩ := List.cons.inj (hbody.symm.trans hself)
    exact absurd (hread []) (by simp [escaped?])

theorem stringBody?_escape (c : Char) (rest : List Char) :
    stringBody? (escape c ++ rest) = (stringBody? rest).map fun (body, rest) => (c :: body, rest) := by
  by_cases h : NeedsEscape c
  · obtain ⟨body, hbody, hread⟩ := escaped?_of_needsEscape h
    have hlength : rest.length < ('\\' :: (body ++ rest)).length := by
      simp only [List.length_cons, List.length_append]
      omega
    rw [hbody, List.cons_append, stringBody?, if_neg (by decide), if_pos rfl, hread rest]
    exact if_pos hlength
  · rw [escape_of_not_needsEscape h, List.singleton_append, stringBody?]
    obtain ⟨hquote, hbackslash, hcontrol⟩ : c ≠ '"' ∧ c ≠ '\\' ∧ ¬ c.toNat < 0x20 := by
      simpa [NeedsEscape] using h
    rw [if_neg hquote, if_neg hbackslash, if_neg hcontrol]

/-- An escaped text is read up to the quotation mark behind it. -/
theorem stringBody?_escaped (cs rest : List Char) :
    stringBody? (cs.flatMap escape ++ '"' :: rest) = some (cs, rest) := by
  induction cs with
  | nil =>
    rw [List.flatMap_nil, List.nil_append, stringBody?, if_pos rfl]
  | cons c cs ih => rw [List.flatMap_cons, List.append_assoc, stringBody?_escape, ih, Option.map_some]

/-- A text in quotation marks is read back. -/
theorem string?_quote (s : String) (rest : List Char) : string? (quote s ++ rest) = some (s, rest) := by
  rw [quote, List.cons_append, List.append_assoc, List.singleton_append, string?, stringBody?_escaped]
  simp only [Option.map_some, String.ofList_toList]

/-! ## Numbers -/

/-- No number goes on with the text. -/
def EndsNumber (rest : List Char) : Prop := ∀ c ∈ rest.head?, isNumberChar c = false

theorem takeWhile_isNumberChar {cs rest : List Char} (h : ∀ c ∈ cs, isNumberChar c = true)
    (hrest : EndsNumber rest) :
    (cs ++ rest).takeWhile isNumberChar = cs ∧ (cs ++ rest).dropWhile isNumberChar = rest := by
  have hstop : rest.takeWhile isNumberChar = [] ∧ rest.dropWhile isNumberChar = rest := by
    cases rest with
    | nil => exact ⟨rfl, rfl⟩
    | cons c rest =>
      have hc : isNumberChar c = false := hrest c rfl
      simp [hc]
  rw [List.takeWhile_append_of_pos h, List.dropWhile_append_of_pos h, hstop.1, hstop.2]
  exact ⟨List.append_nil cs, rfl⟩

theorem isNumberChar_of_isDigit {c : Char} (h : c.isDigit = true) : isNumberChar c = true := by
  simp [isNumberChar, h]

/-! ### Literals have the characters of numbers -/

theorem isNumberChar_of_isExponent {cs : List Char} (h : isExponent cs = true) :
    ∀ c ∈ cs, isNumberChar c = true := by
  cases cs with
  | nil => simp
  | cons e cs =>
    simp only [isExponent, Bool.and_eq_true, Bool.or_eq_true, beq_iff_eq] at h
    obtain ⟨⟨he, -⟩, hdigits⟩ := h
    have hfirst : isNumberChar e = true := by rcases he with rfl | rfl <;> rfl
    refine List.forall_mem_cons.mpr ⟨hfirst, ?_⟩
    rw [List.all_eq_true] at hdigits
    split at hdigits
    · exact List.forall_mem_cons.mpr ⟨rfl, fun c hc => isNumberChar_of_isDigit (hdigits c hc)⟩
    · exact List.forall_mem_cons.mpr ⟨rfl, fun c hc => isNumberChar_of_isDigit (hdigits c hc)⟩
    · exact fun c hc => isNumberChar_of_isDigit (hdigits c hc)

/-- A text is made of the characters of numbers if what follows its digits is. -/
theorem isNumberChar_of_dropWhile {cs : List Char}
    (h : ∀ c ∈ cs.dropWhile Char.isDigit, isNumberChar c = true) :
    ∀ c ∈ cs, isNumberChar c = true := by
  intro c hc
  rw [← List.takeWhile_append_dropWhile (p := Char.isDigit) (l := cs), List.mem_append] at hc
  rcases hc with hc | hc
  · exact isNumberChar_of_isDigit (List.mem_takeWhile_imp hc)
  · exact h c hc

theorem isNumberChar_of_isFraction {cs : List Char} (h : isFraction cs = true) :
    ∀ c ∈ cs, isNumberChar c = true := by
  unfold isFraction at h
  split at h
  · next cs =>
    rw [Bool.and_eq_true] at h
    have hdigits := isNumberChar_of_dropWhile (isNumberChar_of_isExponent h.2)
    exact List.forall_mem_cons.mpr ⟨rfl, hdigits⟩
  · exact isNumberChar_of_isExponent h

theorem isNumberChar_of_isUnsigned {cs : List Char} (h : isUnsigned cs = true) :
    ∀ c ∈ cs, isNumberChar c = true := by
  unfold isUnsigned at h
  split at h
  · exact List.forall_mem_cons.mpr ⟨rfl, isNumberChar_of_isFraction h⟩
  · rw [Bool.and_eq_true] at h
    exact isNumberChar_of_dropWhile (isNumberChar_of_isFraction h.2)

theorem isNumberChar_of_isNumber {cs : List Char} (h : isNumber cs = true) :
    ∀ c ∈ cs, isNumberChar c = true := by
  unfold isNumber at h
  split at h
  · exact List.forall_mem_cons.mpr ⟨rfl, isNumberChar_of_isUnsigned h⟩
  · exact isNumberChar_of_isUnsigned h

/-- A number literal begins with a character of numbers. -/
theorem exists_cons_of_isNumber {cs : List Char} (h : isNumber cs = true) :
    ∃ c rest, cs = c :: rest ∧ isNumberChar c = true := by
  cases cs with
  | nil => exact absurd h (by decide)
  | cons c rest => exact ⟨c, rest, rfl, isNumberChar_of_isNumber h c List.mem_cons_self⟩

theorem ne_of_isNumberChar {c d : Char} (h : isNumberChar c = true) (hd : isNumberChar d = false) :
    c ≠ d := by
  rintro rfl
  rw [h] at hd
  cases hd

/-- The text of a count is a number literal. -/
theorem isNumber_repr (n : Nat) : isNumber n.repr.toList = true := by
  have h := Text.isNumeral_toDigits n
  rw [Nat.toList_repr]
  generalize Nat.toDigits 10 n = cs at h
  have hdigits : ∀ c ∈ cs, c.isDigit = true := fun c hc => Text.isDigit_iff.mpr (h.digits c hc)
  have hunsigned : isUnsigned cs = true := by
    unfold isUnsigned
    split
    · next rest =>
      obtain rfl : rest = [] := List.tail_eq_of_cons_eq (h.leadingZero rfl)
      rfl
    · rw [List.takeWhile_eq_self_iff.mpr hdigits, List.dropWhile_eq_nil_iff.mpr hdigits]
      simp [h.ne_nil, isFraction, isExponent]
  unfold isNumber
  split
  · exact absurd (hdigits '-' List.mem_cons_self) (by decide)
  · exact hunsigned

/-! ## Words and numbers -/

theorem scalar?_null (rest : List Char) : scalar? ("null".toList ++ rest) = some (.null, rest) := rfl

theorem scalar?_true (rest : List Char) : scalar? ("true".toList ++ rest) = some (.bool true, rest) :=
  rfl

theorem scalar?_false (rest : List Char) :
    scalar? ("false".toList ++ rest) = some (.bool false, rest) := rfl

/-- A number literal is read back where no number goes on. -/
theorem scalar?_number {literal : String} (h : isNumber literal.toList = true) {rest : List Char}
    (hrest : EndsNumber rest) :
    scalar? (literal.toList ++ rest) = some (.number literal, rest) := by
  obtain ⟨htake, hdrop⟩ := takeWhile_isNumberChar (isNumberChar_of_isNumber h) hrest
  obtain ⟨c, cs, hcs, hc⟩ := exists_cons_of_isNumber h
  -- no word begins with a character of numbers
  have hword {d : Char} {word : List Char} (hd : isNumberChar d = false) :
      (d :: word).isPrefixOf? (literal.toList ++ rest) = none := by
    have hne : (d == c) = false := beq_eq_false_iff_ne.mpr (ne_of_isNumberChar hc hd).symm
    rw [hcs, List.cons_append, List.isPrefixOf?, hne]
    rfl
  unfold scalar?
  rw [show "null".toList = 'n' :: "ull".toList from rfl, hword rfl,
    show "true".toList = 't' :: "rue".toList from rfl, hword rfl,
    show "false".toList = 'f' :: "alse".toList from rfl, hword rfl]
  simp only [htake, hdrop, h, String.ofList_toList, if_true]

end Pinfile.Json
