import Pinfile.Proofs.Text.LetterCase

/-!
# Lowercase forms are lowercase

The lowercase form of a character is its own lowercase form (`lowerChar_of_mem_lowerChar`), so a text
that was put in lowercase character by character stays as it is (`lowerEach_lowerEach`). This is a
property of the table: no form that one of its runs gives is a letter of another run. Two runs are told
apart by where they lie, or by the parity of their code points when they overlap.

A form differs from its character only where it lies beyond the capital letters and the punctuation
of ASCII (`eq_or_lt_of_mem_lowerChar`).
-/

namespace Pinfile.Text

/-! ## The runs of the table -/

/-- The forms that the run `a` gives are no letters of the run `b`. -/
def CaseRun.avoids (a b : CaseRun) : Bool :=
  Nat.blt b.last a.image || Nat.blt (a.image + (a.last - a.first)) b.first ||
    (Nat.beq b.step 2 && Nat.beq ((a.image + b.first) % 2) 1 &&
      (Nat.beq a.step 2 || Nat.beq a.first a.last))

theorem avoids_lowercaseRuns : (lowercaseRuns.all fun a => lowercaseRuns.all a.avoids) = true := by
  decide +kernel

/-- The forms that runs give are characters beyond the capital letters and punctuation of ASCII, and
are not the capital letter that has two characters in lowercase. -/
theorem image_lowercaseRuns : ∀ run ∈ lowercaseRuns, 0x5F < run.image ∧
    (run.image + (run.last - run.first) < 0x130 ∨ 0x130 < run.image) ∧
    (run.image + (run.last - run.first) < 0xD800 ∨
      0xDFFF < run.image ∧ run.image + (run.last - run.first) < 0x110000) := by
  decide +kernel

variable {run other : CaseRun} {n : Nat}

theorem CaseRun.apply_bounds (h : run.holds n = true) :
    run.image ≤ run.apply n ∧ run.apply n ≤ run.image + (run.last - run.first) := by
  simp only [holds, Bool.and_eq_true, decide_eq_true_eq] at h
  rw [apply]
  omega

theorem CaseRun.holds_apply (havoids : run.avoids other = true) (h : run.holds n = true) :
    other.holds (run.apply n) = false := by
  have hbounds := apply_bounds h
  simp only [avoids, Bool.or_eq_true, Bool.and_eq_true, Nat.blt_eq, Nat.beq_eq] at havoids
  simp only [holds, Bool.and_eq_true, decide_eq_true_eq, beq_iff_eq] at h
  rw [← Bool.not_eq_true]
  simp only [holds, Bool.and_eq_true, decide_eq_true_eq, beq_iff_eq]
  rintro ⟨⟨hfirst, hlast⟩, hstep⟩
  rcases havoids with (hbefore | hafter) | ⟨⟨htwo, hodd⟩, heven | hsingle⟩
  · omega
  · omega
  · -- every form is as far from `other.first` as the first one, which is odd
    rw [htwo] at hstep
    rw [heven] at h
    rw [apply] at hstep hfirst
    omega
  · rw [htwo] at hstep
    rw [apply] at hstep hfirst
    omega

/-- No form is a letter of a run. -/
theorem find?_apply (hrun : run ∈ lowercaseRuns) (h : run.holds n = true) :
    lowercaseRuns.find? (·.holds (run.apply n)) = none := by
  rw [List.find?_eq_none]
  intro other hother
  have havoids := List.all_eq_true.mp (List.all_eq_true.mp avoids_lowercaseRuns run hrun) other hother
  simp [CaseRun.holds_apply havoids h]

/-! ## The form of a character -/

variable {c d : Char}

/-- A character beyond the capital letters of ASCII is no capital letter of ASCII. -/
theorem toLower_of_lt (h : 0x5F < c.toNat) : c.toLower = c := by
  refine toLower_eq_self fun hmem => ?_
  obtain ⟨i, hi, rfl⟩ := List.mem_map.mp hmem
  have hall : ∀ i < 26, ¬ 0x5F < (Char.ofNat (65 + i)).toNat := by decide
  exact hall i (List.mem_range.mp hi) h

theorem toNat_apply (hrun : run ∈ lowercaseRuns) (h : run.holds n = true) :
    (Char.ofNat (run.apply n)).toNat = run.apply n := by
  obtain ⟨-, -, hvalid⟩ := image_lowercaseRuns run hrun
  obtain ⟨hlow, hhigh⟩ := CaseRun.apply_bounds h
  have hchar : (run.apply n).isValidChar := by
    unfold Nat.isValidChar
    omega
  rw [Char.ofNat, dif_pos hchar]
  rfl

/-- The form of a letter of a run is its own form. -/
theorem lowerChar_apply (hrun : run ∈ lowercaseRuns) (h : run.holds n = true) :
    lowerChar (Char.ofNat (run.apply n)) = [Char.ofNat (run.apply n)] := by
  obtain ⟨hlow, hdotted, -⟩ := image_lowercaseRuns run hrun
  have hbounds := CaseRun.apply_bounds h
  have htoNat := toNat_apply hrun h
  unfold lowerChar
  split
  · rw [toLower_of_lt (by omega)]
  · rw [if_neg (by omega), htoNat, find?_apply hrun h]

theorem lowerChar_of_runs (hascii : ¬ c.toNat < 0x80) (hdotted : ¬ c.toNat = 0x130) :
    lowerChar c = (lowercaseRuns.find? (·.holds c.toNat)).elim [c]
      fun run => [Char.ofNat (run.apply c.toNat)] := by
  rw [lowerChar, if_neg hascii, if_neg hdotted]
  cases lowercaseRuns.find? (·.holds c.toNat) <;> rfl

/-- A character is its own form, or its form lies beyond the capital letters and the punctuation of
ASCII and is its own form. -/
theorem lowerChar_cases (h : d ∈ lowerChar c) :
    d = c ∧ lowerChar c = [c] ∨ 0x5F < d.toNat ∧ lowerChar d = [d] := by
  by_cases hascii : c.toNat < 0x80
  · rw [lowerChar_ascii hascii, List.mem_singleton] at h
    subst h
    by_cases hc : c ∈ capitals
    · have hall : (capitals.all fun c =>
          decide (0x5F < c.toLower.toNat) && lowerChar c.toLower == [c.toLower]) = true := by
        decide +kernel
      have hform := List.all_eq_true.mp hall c hc
      rw [Bool.and_eq_true, decide_eq_true_eq, beq_iff_eq] at hform
      exact Or.inr hform
    · have hself := toLower_eq_self hc
      exact Or.inl ⟨hself, by rw [lowerChar_ascii hascii, hself]⟩
  · by_cases hdotted : c.toNat = 0x130
    · rw [lowerChar, if_neg hascii, if_pos hdotted] at h
      simp only [List.mem_cons, List.not_mem_nil, or_false] at h
      rcases h with rfl | rfl
      · exact Or.inr (by decide +kernel)
      · exact Or.inr (by decide +kernel)
    · rw [lowerChar_of_runs hascii hdotted] at h ⊢
      cases hfind : lowercaseRuns.find? (·.holds c.toNat) with
      | none =>
        rw [hfind] at h
        exact Or.inl ⟨List.mem_singleton.mp h, rfl⟩
      | some run =>
        rw [hfind] at h
        obtain rfl := List.mem_singleton.mp h
        have hrun := List.mem_of_find?_eq_some hfind
        have hholds : run.holds c.toNat = true := by simpa using List.find?_some hfind
        refine Or.inr ⟨?_, lowerChar_apply hrun hholds⟩
        rw [toNat_apply hrun hholds]
        exact Nat.lt_of_lt_of_le (image_lowercaseRuns run hrun).1 (CaseRun.apply_bounds hholds).1

/-- The lowercase form of a character is its own lowercase form. -/
theorem lowerChar_of_mem_lowerChar (h : d ∈ lowerChar c) : lowerChar d = [d] := by
  rcases lowerChar_cases h with ⟨rfl, hself⟩ | ⟨-, hself⟩ <;> exact hself

theorem eq_or_lt_of_mem_lowerChar (h : d ∈ lowerChar c) : d = c ∨ 0x5F < d.toNat := by
  rcases lowerChar_cases h with ⟨heq, -⟩ | ⟨hlt, -⟩
  · exact Or.inl heq
  · exact Or.inr hlt

/-- A text in lowercase stays as it is when it is put in lowercase. -/
theorem lowerEach_lowerEach (cs : List Char) : lowerEach (lowerEach cs) = lowerEach cs := by
  have hself : ∀ d ∈ lowerEach cs, lowerChar d = [d] := by
    intro d hd
    obtain ⟨c, -, hd⟩ := List.mem_flatMap.mp hd
    exact lowerChar_of_mem_lowerChar hd
  generalize lowerEach cs = ds at hself ⊢
  induction ds with
  | nil => rfl
  | cons d ds ih =>
    rw [lowerEach, List.flatMap_cons, hself d (by simp), ← lowerEach,
      ih fun x hx => hself x (List.mem_cons_of_mem d hx)]
    rfl

end Pinfile.Text
