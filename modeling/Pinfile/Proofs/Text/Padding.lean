import Pinfile.Proofs.Text.Cutting
import Pinfile.Proofs.Text.LetterCase

/-!
# Blanks around lowercase forms

The lowercase form of a text without the blanks around it is the lowercase form of the text, without
the blanks around that (`trim_lowerWords`). A blank is its own lowercase form, and no other character
has a form with a blank in it. What a capital sigma becomes is not changed either by blanks at the
ends of the text: a blank has no case and is not case-ignorable, so it ends a word as the end of the
text does.
-/

namespace Pinfile.Text

variable {b c : Char} {bs cs : List Char}

/-! ## The blanks one by one -/

/-- The code points of the blanks. -/
def blankPoints : List Nat :=
  [0x09, 0x0A, 0x0B, 0x0C, 0x0D, 0x20, 0x85, 0xA0, 0x1680, 0x2000, 0x2001, 0x2002, 0x2003, 0x2004,
   0x2005, 0x2006, 0x2007, 0x2008, 0x2009, 0x200A, 0x2028, 0x2029, 0x202F, 0x205F, 0x3000]

theorem isBlank_iff_mem : isBlank c = true ↔ c.toNat ∈ blankPoints := by
  simp only [isBlank, blankPoints, Bool.or_eq_true, Bool.and_eq_true, decide_eq_true_eq,
    beq_iff_eq, List.mem_cons, List.not_mem_nil, or_false]
  omega

theorem mem_of_isBlank_ofNat {n : Nat} (h : isBlank (Char.ofNat n) = true) : n ∈ blankPoints := by
  rw [isBlank_iff_mem] at h
  by_cases hn : n.isValidChar
  · rwa [Char.ofNat, dif_pos hn] at h
  · rw [Char.ofNat, dif_neg hn] at h
    exact absurd h (by decide)

/-- What holds of the blanks one by one holds of a blank. -/
theorem of_blankPoints {P : Char → Prop} (h : ∀ n ∈ blankPoints, P (Char.ofNat n))
    (hc : isBlank c = true) : P c := by
  have hpoint := h c.toNat (isBlank_iff_mem.mp hc)
  rwa [Char.ofNat_toNat] at hpoint

theorem lowerChar_of_blank (h : isBlank c = true) : lowerChar c = [c] :=
  of_blankPoints (P := fun c => lowerChar c = [c]) (by decide +kernel) h

theorem not_cased_of_blank (h : isBlank c = true) : inRanges casedRanges c.toNat = false :=
  of_blankPoints (P := fun c => inRanges casedRanges c.toNat = false) (by decide +kernel) h

theorem not_caseIgnorable_of_blank (h : isBlank c = true) :
    inRanges caseIgnorableRanges c.toNat = false :=
  of_blankPoints (P := fun c => inRanges caseIgnorableRanges c.toNat = false) (by decide +kernel) h

/-! ## The form of a character -/

/-- No run moves a letter onto a blank. -/
theorem isBlank_apply {run : CaseRun} (hrun : run ∈ lowercaseRuns) {n : Nat}
    (h : run.holds n = true) : isBlank (Char.ofNat (run.apply n)) = false := by
  have hclear : ∀ run ∈ lowercaseRuns, ∀ n ∈ blankPoints,
      n < run.image ∨ run.image + (run.last - run.first) < n := by decide +kernel
  simp only [CaseRun.holds, Bool.and_eq_true, decide_eq_true_eq] at h
  rw [Bool.eq_false_iff]
  intro hblank
  have hoff := hclear run hrun _ (mem_of_isBlank_ofNat hblank)
  simp only [CaseRun.apply] at hoff
  omega

theorem lowerChar_ne_nil (c : Char) : lowerChar c ≠ [] := by
  unfold lowerChar
  split
  · simp
  · split
    · simp
    · split <;> simp

/-- The form of a blank is blank, and the form of any other character has no blank in it. -/
theorem isBlank_of_mem_lowerChar {d : Char} (h : d ∈ lowerChar c) : isBlank d = isBlank c := by
  by_cases hc : isBlank c = true
  · rw [lowerChar_of_blank hc, List.mem_singleton] at h
    rw [h]
  · rw [Bool.not_eq_true] at hc
    rw [hc]
    unfold lowerChar at h
    split at h
    · rw [List.mem_singleton] at h
      rw [h, eq_of_toLower isBlank (by decide +kernel) c, hc]
    · split at h
      · rcases List.mem_cons.mp h with rfl | h
        · rfl
        · rw [List.mem_singleton.mp h]
          rfl
      · split at h
        · next run hrun =>
          rw [List.mem_singleton] at h
          rw [h]
          exact isBlank_apply (List.mem_of_find?_eq_some hrun) (by simpa using List.find?_some hrun)
        · rw [List.mem_singleton.mp h, hc]

/-- What stands for a character is never empty, and is blank exactly where the character is. -/
theorem exists_lowerAfter_cons (before : List Char) (c : Char) (cs : List Char) :
    ∃ form, form ≠ [] ∧ (∀ d ∈ form, isBlank d = isBlank c) ∧
      lowerAfter before (c :: cs) = form ++ lowerAfter (c :: before) cs := by
  by_cases hc : c = 'Σ'
  · refine ⟨[if endsWord before cs then 'ς' else 'σ'], by simp, ?_, ?_⟩
    · intro d hd
      rw [List.mem_singleton] at hd
      subst hc hd
      split <;> rfl
    · rw [lowerAfter, if_pos hc]
  · refine ⟨lowerChar c, lowerChar_ne_nil c, fun d => isBlank_of_mem_lowerChar, ?_⟩
    rw [lowerAfter, if_neg hc]

/-! ## Words end at blanks -/

/-- No letter is reached beyond a blank. -/
theorem reachesCased_append_cons (hb : isBlank b = true) (cs ds : List Char) :
    reachesCased (cs ++ b :: ds) = reachesCased cs := by
  induction cs with
  | nil => simp [reachesCased, not_caseIgnorable_of_blank hb, not_cased_of_blank hb]
  | cons c cs ih =>
    by_cases hc : inRanges caseIgnorableRanges c.toNat = true
    · simpa [reachesCased, hc] using ih
    · simp [reachesCased, hc]

theorem reachesCased_append (hbs : IsBlank bs) (cs : List Char) :
    reachesCased (cs ++ bs) = reachesCased cs := by
  cases bs with
  | nil => rw [List.append_nil]
  | cons b bs => exact reachesCased_append_cons (hbs b (by simp)) cs bs

theorem endsWord_append_left (hbs : IsBlank bs) (before after : List Char) :
    endsWord (before ++ bs) after = endsWord before after := by
  rw [endsWord, endsWord, reachesCased_append hbs]

theorem endsWord_append_right (hbs : IsBlank bs) (before after : List Char) :
    endsWord before (after ++ bs) = endsWord before after := by
  rw [endsWord, endsWord, reachesCased_append hbs]

/-- What stands before a blank makes no difference to the form of what follows it. -/
theorem lowerAfter_append_blank (hbs : IsBlank bs) (before cs : List Char) :
    lowerAfter (before ++ bs) cs = lowerAfter before cs := by
  induction cs generalizing before with
  | nil => rfl
  | cons c cs ih =>
    have hrest := ih (c :: before)
    rw [List.cons_append] at hrest
    rw [lowerAfter, lowerAfter, endsWord_append_left hbs, hrest]

/-- Blanks are their own form. -/
theorem lowerAfter_blank_append (hbs : IsBlank bs) (before cs : List Char) :
    lowerAfter before (bs ++ cs) = bs ++ lowerAfter (bs.reverse ++ before) cs := by
  induction bs generalizing before with
  | nil => rfl
  | cons b bs ih =>
    have hb : isBlank b = true := hbs b (by simp)
    have hsigma : b ≠ 'Σ' := by
      rintro rfl
      exact absurd hb (by decide)
    rw [List.cons_append, lowerAfter, if_neg hsigma, lowerChar_of_blank hb,
      ih fun d hd => hbs d (by simp [hd])]
    simp

theorem lowerAfter_append (hbs : IsBlank bs) (before cs : List Char) :
    lowerAfter before (cs ++ bs) = lowerAfter before cs ++ bs := by
  induction cs generalizing before with
  | nil => simpa [lowerAfter] using lowerAfter_blank_append hbs before []
  | cons c cs ih =>
    rw [List.cons_append, lowerAfter, lowerAfter, endsWord_append_right hbs, ih, List.append_assoc]

/-- Blanks around a text stand around its form. -/
theorem lowerWords_padded {left right : List Char} (hl : IsBlank left) (hr : IsBlank right)
    (cs : List Char) : lowerWords (left ++ cs ++ right) = left ++ lowerWords cs ++ right := by
  have hbefore : lowerAfter (left.reverse ++ []) cs = lowerAfter [] cs :=
    lowerAfter_append_blank (fun c hc => hl c (by simpa using hc)) [] cs
  rw [lowerWords, lowerAfter_append hr, lowerAfter_blank_append hl, hbefore]
  rfl

/-! ## Trimming and lowercase forms -/

/-- A text is what trimming leaves, with blanks around it. -/
theorem exists_padded_trim (cs : List Char) :
    ∃ left right, IsBlank left ∧ IsBlank right ∧ cs = left ++ trim cs ++ right := by
  refine ⟨cs.takeWhile isBlank, ((trimStart cs).reverse.takeWhile isBlank).reverse, ?_, ?_, ?_⟩
  · exact fun c hc => List.mem_takeWhile_imp hc
  · exact fun c hc => List.mem_takeWhile_imp (List.mem_reverse.mp hc)
  · have hend : trim cs ++ ((trimStart cs).reverse.takeWhile isBlank).reverse = trimStart cs := by
      rw [trim, trimEnd, ← List.reverse_append, List.takeWhile_append_dropWhile,
        List.reverse_reverse]
    rw [List.append_assoc, hend, trimStart, List.takeWhile_append_dropWhile]

/-- Blanks after a text are trimmed with its own. -/
theorem trim_append_blank {right : List Char} (hr : IsBlank right) (cs : List Char) :
    trim (cs ++ right) = trim cs := by
  unfold trim trimStart
  rw [List.dropWhile_append]
  split
  · next hnil =>
    rw [List.isEmpty_iff] at hnil
    rw [hnil, List.dropWhile_eq_nil_iff.mpr hr]
  · rw [trimEnd, trimEnd, List.reverse_append,
      List.dropWhile_append_of_pos fun c hc => hr c (List.mem_reverse.mp hc)]

/-- Blanks before a text are trimmed with its own. -/
theorem trim_blank_append {left : List Char} (hl : IsBlank left) (cs : List Char) :
    trim (left ++ cs) = trim cs := by
  have hstart : trimStart (left ++ cs) = trimStart cs := List.dropWhile_append_of_pos hl
  rw [trim, hstart, ← trim]

/-- Blanks around a text are trimmed with its own. -/
theorem trim_padded {left right : List Char} (hl : IsBlank left) (hr : IsBlank right)
    (cs : List Char) : trim (left ++ cs ++ right) = trim cs := by
  rw [List.append_assoc, trim_blank_append hl, trim_append_blank hr]

/-- The first part of a text without blanks at its ends has blanks at its own end only. -/
theorem exists_append_blank {cs ds : List Char} (h : trim (cs ++ ds) = cs ++ ds) :
    ∃ blanks, IsBlank blanks ∧ cs = trim cs ++ blanks := by
  obtain ⟨left, right, hleft, hright, hcs⟩ := exists_padded_trim cs
  cases left with
  | nil => exact ⟨right, hright, hcs⟩
  | cons b left =>
    have hb := head?_trim (cs ++ ds) b (by rw [h, hcs]; rfl)
    rw [hleft b List.mem_cons_self] at hb
    cases hb

/-- The last part of a text without blanks at its ends has blanks at its own start only. -/
theorem exists_blank_append {cs ds : List Char} (h : trim (cs ++ ds) = cs ++ ds) :
    ∃ blanks, IsBlank blanks ∧ ds = blanks ++ trim ds := by
  obtain ⟨left, right, hleft, hright, hds⟩ := exists_padded_trim ds
  rcases List.eq_nil_or_concat right with rfl | ⟨right, b, rfl⟩
  · exact ⟨left, hleft, by rwa [List.append_nil] at hds⟩
  · rw [List.concat_eq_append] at hright hds
    have hlast : (cs ++ ds).getLast? = some b := by
      rw [hds, ← List.append_assoc, ← List.append_assoc, List.getLast?_concat]
    have hb := getLast?_trim (cs ++ ds) b (by rw [h, hlast]; rfl)
    rw [hright b (by simp)] at hb
    cases hb

theorem head?_lowerAfter (before : List Char) (h : ∀ c ∈ cs.head?, isBlank c = false) :
    ∀ d ∈ (lowerAfter before cs).head?, isBlank d = false := by
  cases cs with
  | nil => simp [lowerAfter]
  | cons c cs =>
    obtain ⟨form, hne, hblank, heq⟩ := exists_lowerAfter_cons before c cs
    intro d hd
    rw [heq, List.head?_append_of_ne_nil _ hne] at hd
    rw [hblank d (List.mem_of_mem_head? hd)]
    exact h c rfl

theorem lowerAfter_eq_nil_iff {before : List Char} : lowerAfter before cs = [] ↔ cs = [] := by
  cases cs with
  | nil => simp [lowerAfter]
  | cons c cs =>
    obtain ⟨form, hne, -, heq⟩ := exists_lowerAfter_cons before c cs
    simp [heq, hne]

theorem getLast?_lowerAfter (before : List Char) (h : ∀ c ∈ cs.getLast?, isBlank c = false) :
    ∀ d ∈ (lowerAfter before cs).getLast?, isBlank d = false := by
  induction cs generalizing before with
  | nil => simp [lowerAfter]
  | cons c cs ih =>
    obtain ⟨form, hne, hblank, heq⟩ := exists_lowerAfter_cons before c cs
    intro d hd
    cases cs with
    | nil =>
      rw [heq, lowerAfter, List.append_nil] at hd
      rw [hblank d (List.mem_of_getLast? hd)]
      exact h c rfl
    | cons next rest =>
      have hrest : lowerAfter (c :: before) (next :: rest) ≠ [] := by
        simp [lowerAfter_eq_nil_iff]
      rw [heq, List.getLast?_append_of_ne_nil _ hrest] at hd
      exact ih (c :: before) (by simpa using h) d hd

/-- Trimming and taking the lowercase form can be done in either order. -/
theorem trim_lowerWords (cs : List Char) : trim (lowerWords cs) = lowerWords (trim cs) := by
  obtain ⟨left, right, hleft, hright, hcs⟩ := exists_padded_trim cs
  have hform : lowerWords cs = left ++ lowerWords (trim cs) ++ right := by
    rw [← lowerWords_padded hleft hright, ← hcs]
  rw [hform, trim_padded hleft hright]
  exact trim_eq_self (head?_lowerAfter [] (head?_trim cs)) (getLast?_lowerAfter [] (getLast?_trim cs))

/-- The lowercase form without the blanks around it depends on the lowercase form alone. -/
theorem lowercase_trimmed (s : String) : lowercase (trimmed s) = trimmed (lowercase s) := by
  simp only [lowercase, trimmed, String.toList_ofList, trim_lowerWords]

/-- Blanks around a name are trimmed with its own. -/
theorem trimmed_padded {left right : List Char} (hl : IsBlank left) (hr : IsBlank right)
    (s : String) : trimmed (String.ofList (left ++ s.toList ++ right)) = trimmed s := by
  rw [trimmed, trimmed, String.toList_ofList, trim_padded hl hr]

end Pinfile.Text
