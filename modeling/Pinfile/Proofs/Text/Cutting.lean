import Mathlib.Data.List.Basic
import Mathlib.Data.List.TakeWhile
import Pinfile.Text.Blank

/-!
# Laws of cutting and splitting

What the ways of cutting a text keep and lose. Cutting at a mark gives back the text around its first
place (`cutAt?_eq_some`, `cutAt?_append`), and a mark of one character is found exactly when the
character stands in the text (`cutAt?_singleton_eq_none_iff`). Trimming only drops blanks at the ends
(`mem_of_mem_trim`, `trim_cons_of_blank`). A line has no line feed (`not_mem_of_mem_splitOn`).
-/

namespace Pinfile.Text

/-! ## Beginnings and endings -/

theorem afterPrefix?_eq_some_iff {start cs rest : List Char} :
    afterPrefix? start cs = some rest ↔ cs = start ++ rest := by
  rw [afterPrefix?, List.isPrefixOf?_eq_some_iff_append_eq]
  exact eq_comm

theorem beforeSuffix?_eq_some_iff {final cs rest : List Char} :
    beforeSuffix? final cs = some rest ↔ cs = rest ++ final := by
  rw [beforeSuffix?, Option.map_eq_some_iff]
  constructor
  · rintro ⟨back, hback, rfl⟩
    rw [afterPrefix?_eq_some_iff, List.reverse_eq_iff] at hback
    simpa using hback
  · rintro rfl
    refine ⟨rest.reverse, ?_, List.reverse_reverse rest⟩
    rw [afterPrefix?_eq_some_iff, List.reverse_append]

theorem afterPrefix?_cons_of_ne {c d : Char} {start cs : List Char} (h : c ≠ d) :
    afterPrefix? (c :: start) (d :: cs) = none := by
  cases hrest : afterPrefix? (c :: start) (d :: cs) with
  | none => rfl
  | some rest =>
    rw [afterPrefix?_eq_some_iff, List.cons_append] at hrest
    exact absurd (List.cons.inj hrest).1.symm h

/-- A text is put together in one way from a part of some kind of characters and a part that does not
go on with one. -/
theorem append_inj_of_head {p : Char → Bool} {as bs cs ds : List Char} (ha : ∀ x ∈ as, p x = true)
    (hb : ∀ x ∈ bs.head?, p x = false) (hc : ∀ x ∈ cs, p x = true)
    (hd : ∀ x ∈ ds.head?, p x = false) (h : as ++ bs = cs ++ ds) : as = cs ∧ bs = ds := by
  have hnone : ∀ es : List Char, (∀ x ∈ es.head?, p x = false) → es.takeWhile p = [] := by
    intro es he
    cases es with
    | nil => rfl
    | cons e es => rw [List.takeWhile_cons_of_neg (by simp [he e rfl])]
  have htake := congrArg (List.takeWhile p) h
  rw [List.takeWhile_append_of_pos ha, List.takeWhile_append_of_pos hc, hnone bs hb, hnone ds hd,
    List.append_nil, List.append_nil] at htake
  subst htake
  exact ⟨rfl, List.append_cancel_left h⟩

/-! ## Cutting at a mark -/

/-- The mark stands between the two parts of a text that was cut at it. -/
theorem cutAt?_eq_some {mark cs before rest : List Char}
    (h : cutAt? mark cs = some (before, rest)) : cs = before ++ mark ++ rest := by
  induction cs generalizing before with
  | nil =>
    obtain ⟨_, hrest, hpair⟩ := Option.map_eq_some_iff.mp h
    obtain ⟨rfl, rfl⟩ := Prod.mk.inj hpair
    exact afterPrefix?_eq_some_iff.mp hrest
  | cons c cs ih =>
    unfold cutAt? at h
    split at h
    · next hrest =>
      obtain ⟨rfl, rfl⟩ := Prod.mk.inj (Option.some.inj h)
      exact afterPrefix?_eq_some_iff.mp hrest
    · obtain ⟨⟨early, late⟩, hcut, hpair⟩ := Option.map_eq_some_iff.mp h
      obtain ⟨rfl, rfl⟩ := Prod.mk.inj hpair
      rw [ih hcut]
      simp

/-- A text is cut at a mark whose first character does not come before it. -/
theorem cutAt?_append {c : Char} {before : List Char} (h : c ∉ before) (mark rest : List Char) :
    cutAt? (c :: mark) (before ++ (c :: mark ++ rest)) = some (before, rest) := by
  induction before with
  | nil =>
    have hprefix : afterPrefix? (c :: mark) (c :: mark ++ rest) = some rest :=
      afterPrefix?_eq_some_iff.mpr rfl
    rw [List.nil_append, List.cons_append, cutAt?, ← List.cons_append, hprefix]
  | cons d before ih =>
    have hne : c ≠ d := fun heq => h (by simp [heq])
    have hmem : c ∉ before := fun hmem => h (List.mem_cons_of_mem d hmem)
    rw [List.cons_append, cutAt?, afterPrefix?_cons_of_ne hne, ih hmem]
    rfl

/-- A mark of one character is not found when the character does not stand in the text. -/
theorem cutAt?_singleton_eq_none_iff {c : Char} {cs : List Char} :
    cutAt? [c] cs = none ↔ c ∉ cs := by
  constructor
  · intro h hmem
    obtain ⟨before, after, rfl, hnew⟩ := List.eq_append_cons_of_mem hmem
    have hcut := cutAt?_append hnew [] after
    rw [List.singleton_append, h] at hcut
    cases hcut
  · intro h
    cases hcut : cutAt? [c] cs with
    | none => rfl
    | some parts =>
      have hcs : cs = parts.1 ++ [c] ++ parts.2 := cutAt?_eq_some hcut
      exact absurd (by simp [hcs]) h

/-- What comes before a mark of one character does not hold it. -/
theorem not_mem_of_cutAt?_singleton {c : Char} {cs before rest : List Char}
    (h : cutAt? [c] cs = some (before, rest)) : c ∉ before := by
  intro hmem
  -- otherwise the text would be cut at an earlier place
  obtain ⟨early, late, rfl, hnew⟩ := List.eq_append_cons_of_mem hmem
  have hcs := cutAt?_eq_some h
  rw [List.append_assoc, List.append_assoc, List.cons_append] at hcs
  have hcut := cutAt?_append hnew [] (late ++ ([c] ++ rest))
  rw [List.singleton_append, ← hcs, h] at hcut
  have hbefore := congrArg Prod.fst (Option.some.inj hcut)
  simp at hbefore

/-! ## Trimming -/

theorem mem_of_mem_trimStart {cs : List Char} {c : Char} (h : c ∈ trimStart cs) : c ∈ cs :=
  (List.dropWhile_sublist isBlank).mem h

theorem mem_of_mem_trimEnd {cs : List Char} {c : Char} (h : c ∈ trimEnd cs) : c ∈ cs := by
  obtain ⟨rest, hrest⟩ := exists_trimEnd_append cs
  rw [← hrest]
  exact List.mem_append_left rest h

/-- Trimming adds no character. -/
theorem mem_of_mem_trim {cs : List Char} {c : Char} (h : c ∈ trim cs) : c ∈ cs :=
  mem_of_mem_trimStart (mem_of_mem_trimEnd h)

/-- Nothing is left of the texts that are blank. -/
theorem trim_eq_nil_iff {cs : List Char} : trim cs = [] ↔ cs.all isBlank = true := by
  rw [List.all_eq_true]
  constructor
  · intro h
    rw [trim, trimEnd, List.reverse_eq_nil_iff, List.dropWhile_eq_nil_iff] at h
    by_contra hsome
    -- otherwise what is trimmed at the end begins with a character that is not blank
    cases hstart : trimStart cs with
    | nil => exact hsome (List.dropWhile_eq_nil_iff.mp hstart)
    | cons c rest =>
      have hc := head?_dropWhile_false (p := isBlank) cs c (by rw [← trimStart, hstart]; rfl)
      rw [h c (by simp [hstart])] at hc
      cases hc
  · intro h
    have hstart : trimStart cs = [] := List.dropWhile_eq_nil_iff.mpr h
    rw [trim, hstart]
    rfl

/-- One blank before a text without blanks at its ends is trimmed. -/
theorem trim_cons_of_blank {b : Char} (hb : isBlank b = true) {cs : List Char}
    (hs : ∀ c ∈ cs.head?, isBlank c = false) (he : ∀ c ∈ cs.getLast?, isBlank c = false) :
    trim (b :: cs) = cs := by
  have hstart : trimStart (b :: cs) = trimStart cs := by
    rw [trimStart, trimStart, List.dropWhile_cons_of_pos hb]
  rw [trim, hstart]
  exact trim_eq_self hs he

/-- A single line that is not empty and has no blank at either end. -/
structure IsTrimmedLine (cs : List Char) : Prop where
  ne_nil : cs ≠ []
  head : ∀ c ∈ cs.head?, isBlank c = false
  last : ∀ c ∈ cs.getLast?, isBlank c = false
  oneLine : '\n' ∉ cs

theorem IsTrimmedLine.trim_eq {cs : List Char} (h : IsTrimmedLine cs) : trim cs = cs :=
  trim_eq_self h.head h.last

/-! ## Splitting -/

/-- No piece of a text that was split at a character holds that character. -/
theorem not_mem_of_mem_splitOn {a : Char} {cs piece : List Char} (h : piece ∈ cs.splitOn a) :
    a ∉ piece := by
  induction cs generalizing piece with
  | nil =>
    rw [List.splitOn_nil, List.mem_singleton] at h
    simp [h]
  | cons c cs ih =>
    rw [List.splitOn_cons_eq_if_modifyHead] at h
    split at h
    · rcases List.mem_cons.mp h with rfl | h
      · simp
      · exact ih h
    · next hc =>
      cases hsplit : cs.splitOn a with
      | nil => exact absurd hsplit (List.splitOn_ne_nil a cs)
      | cons first others =>
        rw [hsplit, List.modifyHead_cons] at h
        rw [hsplit] at ih
        rcases List.mem_cons.mp h with rfl | h
        · rw [List.mem_cons, not_or]
          exact ⟨fun heq => hc (by simp [heq]), ih (by simp)⟩
        · exact ih (List.mem_cons_of_mem first h)

/-- A joined text is made of the separator and the pieces. -/
theorem mem_of_mem_intercalate {sep : List Char} {pieces : List (List Char)} {c : Char}
    (h : c ∈ sep.intercalate pieces) : c ∈ sep ∨ ∃ piece ∈ pieces, c ∈ piece := by
  induction pieces with
  | nil => simp at h
  | cons piece pieces ih =>
    by_cases hnil : pieces = []
    · subst hnil
      rw [List.intercalate_singleton] at h
      exact Or.inr ⟨piece, by simp, h⟩
    · rw [List.intercalate_cons_of_ne_nil hnil, List.mem_append, List.mem_append] at h
      rcases h with (h | h) | h
      · exact Or.inr ⟨piece, by simp, h⟩
      · exact Or.inl h
      · rcases ih h with h | ⟨other, hother, hc⟩
        · exact Or.inl h
        · exact Or.inr ⟨other, List.mem_cons_of_mem piece hother, hc⟩

end Pinfile.Text
