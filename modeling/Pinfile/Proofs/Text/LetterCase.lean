import Pinfile.Text.Lowercase

/-!
# ASCII letters in lowercase forms

Texts that differ in the case of ASCII letters alone have one lowercase form
(`lowercase_eq_of_sameIgnoringAsciiCase`). This is clear for the characters one by one. The form of a
capital sigma depends on its neighbours as well, but only on whether they have case, and a letter has
case in both of its forms.

The converse does not hold: letters outside ASCII have lowercase forms too, and some of these are
ASCII letters.
-/

namespace Pinfile.Text

/-- The capital letters of ASCII. -/
def capitals : List Char := (List.range 26).map fun i => Char.ofNat (65 + i)

/-- `Char.toLower` changes nothing but the capital letters of ASCII. -/
theorem toLower_eq_self {c : Char} (h : c ∉ capitals) : c.toLower = c := by
  refine dif_neg fun hrange => h (List.mem_map.mpr ⟨c.toNat - 65, ?_, ?_⟩)
  · have hlast : c.toNat ≤ 90 := hrange.2
    rw [List.mem_range]
    omega
  · have hfirst : 65 ≤ c.toNat := hrange.1
    rw [Nat.add_sub_cancel' hfirst, Char.ofNat_toNat]

/-- A function that does not tell a capital letter from its small letter does not see
`Char.toLower`. -/
theorem eq_of_toLower {β : Type} (f : Char → β)
    (h : capitals.map (fun c => f c.toLower) = capitals.map f) (c : Char) : f c.toLower = f c := by
  by_cases hc : c ∈ capitals
  · exact List.map_inj_left.mp h c hc
  · rw [toLower_eq_self hc]

theorem lowerChar_toLower (c : Char) : lowerChar c.toLower = lowerChar c :=
  eq_of_toLower lowerChar (by decide +kernel) c

theorem inRanges_cased_toLower (c : Char) :
    inRanges casedRanges c.toLower.toNat = inRanges casedRanges c.toNat :=
  eq_of_toLower (fun c => inRanges casedRanges c.toNat) (by decide +kernel) c

theorem inRanges_caseIgnorable_toLower (c : Char) :
    inRanges caseIgnorableRanges c.toLower.toNat = inRanges caseIgnorableRanges c.toNat :=
  eq_of_toLower (fun c => inRanges caseIgnorableRanges c.toNat) (by decide +kernel) c

theorem toLower_eq_sigma_iff (c : Char) : c.toLower = 'Σ' ↔ c = 'Σ' := by
  have h := eq_of_toLower (fun c => decide (c = 'Σ')) (by decide +kernel) c
  exact decide_eq_decide.mp h

theorem reachesCased_map_toLower (cs : List Char) :
    reachesCased (cs.map Char.toLower) = reachesCased cs := by
  have hcomp : ((fun c : Char => inRanges caseIgnorableRanges c.toNat) ∘ Char.toLower) =
      fun c => inRanges caseIgnorableRanges c.toNat := funext inRanges_caseIgnorable_toLower
  unfold reachesCased
  rw [List.dropWhile_map, hcomp]
  cases cs.dropWhile fun c => inRanges caseIgnorableRanges c.toNat with
  | nil => rfl
  | cons c _ => exact inRanges_cased_toLower c

theorem endsWord_map_toLower (before after : List Char) :
    endsWord (before.map Char.toLower) (after.map Char.toLower) = endsWord before after := by
  rw [endsWord, endsWord, reachesCased_map_toLower, reachesCased_map_toLower]

theorem lowerAfter_map_toLower (before cs : List Char) :
    lowerAfter (before.map Char.toLower) (cs.map Char.toLower) = lowerAfter before cs := by
  -- on the rest of the text, because a sigma also looks at what was read before it
  induction cs generalizing before with
  | nil => rfl
  | cons c cs ih =>
    have hnext := ih (c :: before)
    rw [List.map_cons] at hnext
    simp only [List.map_cons, lowerAfter, toLower_eq_sigma_iff, endsWord_map_toLower,
      lowerChar_toLower, hnext]

/-- The case of ASCII letters makes no difference to the lowercase form of a text. -/
theorem lowerWords_map_toLower (cs : List Char) :
    lowerWords (cs.map Char.toLower) = lowerWords cs := lowerAfter_map_toLower [] cs

/-- Texts that are the same up to the case of ASCII letters have one lowercase form. -/
theorem lowercase_eq_of_sameIgnoringAsciiCase {a b : String}
    (h : sameIgnoringAsciiCase a b = true) : lowercase a = lowercase b := by
  have hmap : a.toList.map Char.toLower = b.toList.map Char.toLower := beq_iff_eq.mp h
  rw [lowercase, lowercase, ← lowerWords_map_toLower a.toList, hmap, lowerWords_map_toLower]

/-- On ASCII texts the lowercase forms say no more than that. -/
theorem sameIgnoringAsciiCase_of_ascii {a b : String} (ha : ∀ c ∈ a.toList, c.toNat < 0x80)
    (hb : ∀ c ∈ b.toList, c.toNat < 0x80) (h : lowercase a = lowercase b) :
    sameIgnoringAsciiCase a b = true := by
  rw [lowercase, lowercase, lowerWords_ascii ha, lowerWords_ascii hb] at h
  exact beq_iff_eq.mpr (String.ofList_injective h)

example : lowercase "\u212A" = lowercase "k" ∧ sameIgnoringAsciiCase "\u212A" "k" = false := by
  decide +kernel

end Pinfile.Text
