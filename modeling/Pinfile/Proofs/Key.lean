import Mathlib.Data.List.SplitBy
import Pinfile.Proofs.Name
import Pinfile.Proofs.Text.Lowered

/-!
# Keys are canonical

A spelling is cut into its maximal runs of separators and of other characters (`PackageName.runs`). A
key has one `-` for each run of separators and the lowercase forms of the characters of the other runs
(`toList_normalize`), so it is cut in the same places as the spelling (`runs_normalize`). Two
consequences are that a key is its own key, and that two spellings have one key exactly when their runs
agree one by one.

The reader of keys walks along the characters and carries a flag. It is followed along a list of runs
that alternate (`Alternating`), where the flag only says whether a run of separators has begun.
-/

namespace Pinfile.PackageName

/-! ## Runs -/

/-- The two characters go into one run: both are separators, or neither is. -/
def joins (c d : Char) : Bool := isSeparator c == isSeparator d

/-- The maximal runs of separators and of other characters, in order. -/
def runs (cs : List Char) : List (List Char) := cs.splitBy joins

/-- What a run is in a key. -/
def runKey (run : List Char) : List Char :=
  if run.all isSeparator then ['-'] else Text.lowerEach run

/-- Runs that are not empty, of separators and of other characters by turns. The first run, if there
is one, is of separators when `separators` is true. -/
inductive Alternating : Bool → List (List Char) → Prop
  | nil (separators : Bool) : Alternating separators []
  | cons {separators : Bool} {run : List Char} {rest : List (List Char)} : run ≠ [] →
      (∀ c ∈ run, isSeparator c = separators) → Alternating (!separators) rest →
      Alternating separators (run :: rest)

namespace Alternating

variable {separators : Bool} {rs : List (List Char)}

/-- Runs begin with a character of their first kind. -/
theorem head?_flatten (h : Alternating separators rs) :
    ∀ c ∈ rs.flatten.head?, isSeparator c = separators := by
  cases h with
  | nil => simp
  | cons hne hrun _ =>
    intro c hc
    rw [List.flatten_cons, List.head?_append_of_ne_nil _ hne] at hc
    exact hrun c (List.mem_of_mem_head? hc)

/-- A list of characters can be cut into alternating runs. -/
theorem exists_flatten_eq (cs : List Char) :
    ∃ separators rs, Alternating separators rs ∧ rs.flatten = cs := by
  induction cs with
  | nil => exact ⟨true, [], .nil true, rfl⟩
  | cons c cs ih =>
    obtain ⟨separators, rs, h, rfl⟩ := ih
    by_cases hc : isSeparator c = separators
    · -- the character goes in front of the first run
      cases h with
      | nil => exact ⟨separators, [[c]], .cons (by simp) (by simpa using hc) (.nil _), rfl⟩
      | @cons _ run rest hne hrun hrest =>
        refine ⟨separators, (c :: run) :: rest, .cons (by simp) ?_ hrest, rfl⟩
        exact List.forall_mem_cons.mpr ⟨hc, hrun⟩
    · have hc' : isSeparator c = !separators := Bool.eq_not.mpr hc
      refine ⟨!separators, [c] :: rs, .cons (by simp) (by simpa using hc') ?_, rfl⟩
      rwa [Bool.not_not]

/-- A text is cut into alternating runs in one way. -/
theorem runs_flatten (h : Alternating separators rs) : runs rs.flatten = rs := by
  induction h with
  | nil => rfl
  | @cons separators run rest hne hrun hrest ih =>
    have hone : run.splitBy joins = [run] := by
      refine List.splitBy_of_isChain hne (List.Pairwise.isChain ?_)
      refine List.pairwise_of_forall_mem_list fun c hc d hd => ?_
      simp [joins, hrun c hc, hrun d hd]
    have hcut : ∀ c ∈ run.getLast?, ∀ d ∈ rest.flatten.head?, joins c d = false := by
      intro c hc d hd
      simp [joins, hrun c (List.mem_of_mem_getLast? hc), hrest.head?_flatten d hd]
    rw [List.flatten_cons, runs, List.splitBy_append hcut, hone, ← runs, ih]
    rfl

end Alternating

/-- The runs of a text are the one way to cut it into alternating runs. -/
theorem runs_eq_iff {cs : List Char} {rs : List (List Char)} :
    runs cs = rs ↔ (∃ separators, Alternating separators rs) ∧ rs.flatten = cs := by
  constructor
  · rintro rfl
    obtain ⟨separators, rs, h, rfl⟩ := Alternating.exists_flatten_eq cs
    rw [h.runs_flatten]
    exact ⟨⟨separators, h⟩, rfl⟩
  · rintro ⟨⟨separators, h⟩, rfl⟩
    exact h.runs_flatten

/-! ## The key of a run -/

theorem isSeparator_of_mem_lowerChar {c d : Char} (hc : isSeparator c = false)
    (hd : d ∈ Text.lowerChar c) : isSeparator d = false := by
  rcases Text.eq_or_lt_of_mem_lowerChar hd with rfl | hlt
  · exact hc
  · rw [← Bool.not_eq_true]
    simp only [isSeparator, Bool.or_eq_true, beq_iff_eq]
    rintro ((rfl | rfl) | rfl) <;> revert hlt <;> decide

theorem runKey_of_separators {run : List Char} (h : ∀ c ∈ run, isSeparator c = true) :
    runKey run = ['-'] := by
  rw [runKey, if_pos (List.all_eq_true.mpr h)]

theorem runKey_of_word {run : List Char} (hne : run ≠ []) (h : ∀ c ∈ run, isSeparator c = false) :
    runKey run = Text.lowerEach run := by
  refine if_neg fun hall => ?_
  obtain ⟨c, hc⟩ := List.exists_mem_of_ne_nil run hne
  have hsep := List.all_eq_true.mp hall c hc
  rw [h c hc] at hsep
  cases hsep

theorem lowerEach_ne_nil {cs : List Char} (h : cs ≠ []) : Text.lowerEach cs ≠ [] := by
  obtain ⟨c, hc⟩ := List.exists_mem_of_ne_nil cs h
  obtain ⟨d, hd⟩ := List.exists_mem_of_ne_nil _ (Text.lowerChar_ne_nil c)
  exact List.ne_nil_of_mem (List.mem_flatMap.mpr ⟨c, hc, hd⟩)

theorem isSeparator_of_mem_lowerEach {cs : List Char} (h : ∀ c ∈ cs, isSeparator c = false) :
    ∀ d ∈ Text.lowerEach cs, isSeparator d = false := by
  intro d hd
  obtain ⟨c, hc, hd⟩ := List.mem_flatMap.mp hd
  exact isSeparator_of_mem_lowerChar (h c hc) hd

/-- The key of a run is a run of the same kind, and its own key. -/
theorem runKey_spec {separators : Bool} {run : List Char} (hne : run ≠ [])
    (h : ∀ c ∈ run, isSeparator c = separators) :
    runKey run ≠ [] ∧ (∀ d ∈ runKey run, isSeparator d = separators) ∧
      runKey (runKey run) = runKey run := by
  cases separators with
  | true =>
    rw [runKey_of_separators h]
    exact ⟨by simp, by simp [isSeparator], rfl⟩
  | false =>
    have hlower := isSeparator_of_mem_lowerEach h
    rw [runKey_of_word hne h]
    refine ⟨lowerEach_ne_nil hne, hlower, ?_⟩
    rw [runKey_of_word (lowerEach_ne_nil hne) hlower, Text.lowerEach_lowerEach]

namespace Alternating

variable {separators : Bool} {rs : List (List Char)}

theorem map_runKey (h : Alternating separators rs) : Alternating separators (rs.map runKey) := by
  induction h with
  | nil => exact .nil _
  | cons hne hrun _ ih =>
    obtain ⟨hne', hrun', -⟩ := runKey_spec hne hrun
    exact .cons hne' hrun' ih

theorem map_runKey_map_runKey (h : Alternating separators rs) :
    (rs.map runKey).map runKey = rs.map runKey := by
  induction h with
  | nil => rfl
  | cons hne hrun _ ih =>
    rw [List.map_cons, List.map_cons, ih, (runKey_spec hne hrun).2.2]

end Alternating

/-! ## Reading a spelling along its runs -/

/-- Within a run of separators nothing more is written. -/
theorem keyChars_separators {run : List Char} (h : ∀ c ∈ run, isSeparator c = true)
    (rest : List Char) : keyChars true (run ++ rest) = keyChars true rest := by
  induction run with
  | nil => rfl
  | cons c run ih =>
    rw [List.cons_append, keyChars, if_pos (h c (by simp)), if_pos rfl,
      ih fun d hd => h d (List.mem_cons_of_mem c hd)]

/-- A run of other characters is written in lowercase, and ends any run of separators. -/
theorem keyChars_word {run : List Char} (hne : run ≠ []) (h : ∀ c ∈ run, isSeparator c = false)
    (inRun : Bool) (rest : List Char) :
    keyChars inRun (run ++ rest) = Text.lowerEach run ++ keyChars false rest := by
  induction run generalizing inRun with
  | nil => exact absurd rfl hne
  | cons c run ih =>
    have hc : isSeparator c = false := h c (by simp)
    rw [List.cons_append, keyChars, if_neg (by simp [hc]), Text.lowerEach, List.flatMap_cons,
      List.append_assoc]
    congr 1
    by_cases hrun : run = []
    · rw [hrun]
      rfl
    · exact ih hrun (fun d hd => h d (List.mem_cons_of_mem c hd)) false

/-- The key of alternating runs is made of their keys. That a run of separators has begun already
makes no difference to runs that begin with other characters. -/
theorem Alternating.keyChars_flatten {separators : Bool} {rs : List (List Char)}
    (h : Alternating separators rs) :
    keyChars false rs.flatten = rs.flatMap runKey ∧
      (separators = false → keyChars true rs.flatten = rs.flatMap runKey) := by
  induction h with
  | nil => exact ⟨rfl, fun _ => rfl⟩
  | @cons separators run rest hne hrun hrest ih =>
    rw [List.flatten_cons, List.flatMap_cons]
    cases separators with
    | true =>
      refine ⟨?_, fun hfalse => by cases hfalse⟩
      obtain ⟨c, run, rfl⟩ := List.exists_cons_of_ne_nil hne
      rw [runKey_of_separators hrun, List.cons_append, keyChars, if_pos (hrun c (by simp)),
        if_neg (by simp), keyChars_separators fun d hd => hrun d (List.mem_cons_of_mem c hd),
        ih.2 rfl]
      rfl
    | false =>
      rw [runKey_of_word hne hrun, keyChars_word hne hrun, keyChars_word hne hrun, ih.1]
      exact ⟨rfl, fun _ => rfl⟩

/-- A key is made of the keys of the runs of its spelling. -/
theorem toList_normalize (s : String) :
    (normalize s).toList = (runs s.toList).flatMap runKey := by
  obtain ⟨separators, rs, h, hflatten⟩ := Alternating.exists_flatten_eq s.toList
  rw [normalize, String.toList_ofList, ← hflatten, h.runs_flatten, h.keyChars_flatten.1]

/-- The runs of a key are the keys of the runs of its spelling. -/
theorem runs_normalize (s : String) : runs (normalize s).toList = (runs s.toList).map runKey := by
  obtain ⟨⟨separators, h⟩, -⟩ := runs_eq_iff.mp (Eq.refl (runs s.toList))
  rw [toList_normalize, List.flatMap_def, h.map_runKey.runs_flatten]

theorem normalize_normalize (s : String) : normalize (normalize s) = normalize s := by
  obtain ⟨⟨separators, h⟩, -⟩ := runs_eq_iff.mp (Eq.refl (runs s.toList))
  apply String.toList_injective
  rw [toList_normalize, runs_normalize, List.flatMap_def, h.map_runKey_map_runKey, toList_normalize,
    List.flatMap_def]

/-- Two spellings have one key exactly when the keys of their runs agree one by one. -/
theorem normalize_eq_iff {a b : String} :
    normalize a = normalize b ↔ (runs a.toList).map runKey = (runs b.toList).map runKey := by
  constructor
  · intro h
    rw [← runs_normalize, ← runs_normalize, h]
  · intro h
    apply String.toList_injective
    rw [toList_normalize, toList_normalize, List.flatMap_def, List.flatMap_def, h]

/-! ## The characters of a key -/

theorem not_mem_normalize {c : Char} (hc : isSeparator c = true) (hne : c ≠ '-') (s : String) :
    c ∉ (normalize s).toList := by
  rw [normalize, String.toList_ofList]
  intro hmem
  rcases mem_keyChars hmem with heq | ⟨d, -, hd, hmem⟩
  · exact hne heq
  · rw [isSeparator_of_mem_lowerChar hd hmem] at hc
    cases hc

/-- A separator of a key stands between characters that are none. -/
theorem isChain_keyChars (inRun : Bool) (cs : List Char) :
    (keyChars inRun cs).IsChain (fun c d => isSeparator c = false ∨ isSeparator d = false) ∧
      (inRun = true → ∀ d ∈ (keyChars inRun cs).head?, isSeparator d = false) := by
  induction cs generalizing inRun with
  | nil => exact ⟨.nil, by simp [keyChars]⟩
  | cons c cs ih =>
    obtain ⟨hchain, hhead⟩ := ih true
    by_cases hc : isSeparator c = true
    · rw [keyChars, if_pos hc]
      cases inRun with
      | true => exact ⟨hchain, fun _ => hhead rfl⟩
      | false =>
        refine ⟨List.isChain_cons.mpr ⟨fun d hd => Or.inr (hhead rfl d hd), hchain⟩, ?_⟩
        simp
    · have hlower : ∀ d ∈ Text.lowerChar c, isSeparator d = false := fun d hd =>
        isSeparator_of_mem_lowerChar (by simpa using hc) hd
      rw [keyChars, if_neg hc]
      constructor
      · refine List.isChain_append.mpr ⟨List.Pairwise.isChain ?_, (ih false).1, fun d hd _ _ => ?_⟩
        · exact List.pairwise_of_forall_mem_list fun d hd _ _ => Or.inl (hlower d hd)
        · exact Or.inl (hlower d (List.mem_of_mem_getLast? hd))
      · intro _ d hd
        rw [List.head?_append_of_ne_nil _ (Text.lowerChar_ne_nil c)] at hd
        exact hlower d (List.mem_of_mem_head? hd)

theorem not_isInfix_normalize (s : String) : ¬ ['-', '-'] <:+: (normalize s).toList := by
  rw [normalize, String.toList_ofList]
  rintro ⟨before, after, happend⟩
  rw [List.append_assoc] at happend
  have hchain := (isChain_keyChars false s.toList).1
  have hadjacent := List.isChain_iff_forall_rel_of_append_cons_cons.mp hchain happend.symm
  revert hadjacent
  simp [isSeparator]

/-! ## Keys of valid names -/

/-- The form of a letter or digit is a letter or digit. -/
theorem lowerChar_of_isAlphanum {c : Char} (hc : c.isAlphanum = true) :
    Text.lowerChar c = [c.toLower] ∧ c.toLower.isAlphanum = true := by
  have hrange := range_of_isAlphanum hc
  refine ⟨Text.lowerChar_ascii (by omega), ?_⟩
  rw [Text.eq_of_toLower Char.isAlphanum (by decide +kernel), hc]

theorem isSeparator_of_isAlphanum {c : Char} (hc : c.isAlphanum = true) : isSeparator c = false := by
  rw [← Bool.not_eq_true]
  simp only [isSeparator, Bool.or_eq_true, beq_iff_eq]
  rintro ((rfl | rfl) | rfl) <;> revert hc <;> decide

/-- A character at the end that is no separator ends the key with its form. -/
theorem keyChars_append_singleton {c : Char} (hc : isSeparator c = false) (inRun : Bool)
    (cs : List Char) : keyChars inRun (cs ++ [c]) = keyChars inRun cs ++ Text.lowerChar c := by
  induction cs generalizing inRun with
  | nil => simp [keyChars, hc]
  | cons d cs ih =>
    rw [List.cons_append, keyChars, keyChars]
    split
    · split
      · exact ih true
      · rw [ih true, List.cons_append]
    · rw [ih false, List.append_assoc]

theorem isNameChar_of_mem_keyChars {inRun : Bool} {cs : List Char}
    (h : ∀ c ∈ cs, isNameChar c = true) : ∀ d ∈ keyChars inRun cs, isNameChar d = true := by
  intro d hd
  rcases mem_keyChars hd with rfl | ⟨c, hc, hsep, hd⟩
  · rfl
  · have halnum : c.isAlphanum = true := by
      simpa [isNameChar, hsep] using h c hc
    obtain ⟨hform, hlower⟩ := lowerChar_of_isAlphanum halnum
    rw [hform, List.mem_singleton] at hd
    rw [hd]
    exact isNameChar_of_isAlphanum hlower

theorem IsName.keyChars {cs : List Char} (h : IsName cs) : IsName (keyChars false cs) := by
  cases h with
  | @single c h =>
    obtain ⟨hform, hlower⟩ := lowerChar_of_isAlphanum h
    rw [PackageName.keyChars, if_neg (by simp [isSeparator_of_isAlphanum h]), hform]
    exact .single hlower
  | @ends first last inner hfirst hinner hlast =>
    obtain ⟨hform, hlower⟩ := lowerChar_of_isAlphanum hfirst
    obtain ⟨hform', hlower'⟩ := lowerChar_of_isAlphanum hlast
    rw [PackageName.keyChars, if_neg (by simp [isSeparator_of_isAlphanum hfirst]), hform,
      keyChars_append_singleton (isSeparator_of_isAlphanum hlast), hform']
    exact .ends hlower (isNameChar_of_mem_keyChars hinner) hlower'

/-- The key of a valid name is a valid name. -/
theorem isValid_normalize {s : String} (h : isValid s = true) : isValid (normalize s) = true := by
  rw [← String.ofList_toList (s := s), isValid_ofList_iff] at h
  exact isValid_ofList_iff.mpr h.keyChars

/-! ## All keys -/

/-- A key is the text with every maximal run of separators replaced by one `-` and every other character
by its lowercase form. It has no other separators, no two of them together, and is its own key. Two
names are the same package exactly when their runs agree one by one, and the key of a valid name is a
valid name. -/
theorem key_canonical :
    (∀ cs rs, runs cs = rs ↔ (∃ separators, Alternating separators rs) ∧ rs.flatten = cs) ∧
    (∀ s, (normalize s).toList = (runs s.toList).flatMap runKey) ∧
    (∀ s, '_' ∉ (normalize s).toList ∧ '.' ∉ (normalize s).toList ∧
      ¬ ['-', '-'] <:+: (normalize s).toList ∧ normalize (normalize s) = normalize s) ∧
    (∀ a b : PackageName, same a b = true ↔
      (runs a.text.toList).map runKey = (runs b.text.toList).map runKey) ∧
    ∀ s, isValid s = true → isValid (normalize s) = true := by
  refine ⟨fun cs rs => runs_eq_iff, toList_normalize, fun s => ⟨?_, ?_, ?_, ?_⟩, fun a b => ?_,
    fun s hs => ?_⟩
  · exact not_mem_normalize rfl (by decide) s
  · exact not_mem_normalize rfl (by decide) s
  · exact not_isInfix_normalize s
  · exact normalize_normalize s
  · exact (same_iff a b).trans normalize_eq_iff
  · exact isValid_normalize hs

theorem key_canonical_spellings :
    isValid "Zope.-_Interface" = true ∧ isValid (normalize "Zope.-_Interface") = true ∧
      same ⟨"_ΟΔΟΣ..K"⟩ ⟨"-οδοσ.K"⟩ = true := by
  obtain ⟨-, -, -, hsame, hvalid⟩ := key_canonical
  exact ⟨by decide, hvalid "Zope.-_Interface" (by decide),
    (hsame ⟨"_ΟΔΟΣ..K"⟩ ⟨"-οδοσ.K"⟩).mpr (by decide +kernel)⟩

end Pinfile.PackageName
