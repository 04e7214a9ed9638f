import Pinfile.Text.CaseTable

/-!
# Lowercase forms

Two lowercase forms of a text are in use, and they differ. `lowerEach` replaces every character by
its own lowercase form. `lowerWords` does the same except for the capital sigma, whose lowercase
form depends on its neighbours: at the end of a word it is `ς` and elsewhere `σ`. Package names are
compared by the first form, group names by the second. A third comparison,
`sameIgnoringAsciiCase`, looks at the ASCII letters alone.

On ASCII text the two forms agree with `Char.toLower` (`lowerEach_ascii`, `lowerWords_ascii`).
-/

namespace Pinfile.Text

/-- The lowercase form of one character. Only `İ` has a form of two characters, `i` and a combining
dot above. -/
def lowerChar (c : Char) : List Char :=
  if c.toNat < 0x80 then [c.toLower]
  else if c.toNat = 0x130 then ['i', Char.ofNat 0x307]
  else
    match lowercaseRuns.find? (·.holds c.toNat) with
    | some run => [Char.ofNat (run.apply c.toNat)]
    | none => [c]

/-- Every character replaced by its own lowercase form. -/
def lowerEach (cs : List Char) : List Char := cs.flatMap lowerChar

/-- The first of the characters that is not case-ignorable has case. -/
def reachesCased (cs : List Char) : Bool :=
  match cs.dropWhile (fun c => inRanges caseIgnorableRanges c.toNat) with
  | [] => false
  | c :: _ => inRanges casedRanges c.toNat

/-- A capital sigma ends its word when a cased letter comes before it and none after it.
The text before it is given backwards. -/
def endsWord (before after : List Char) : Bool := reachesCased before && !reachesCased after

/-- `lowerWords` of a text that continues another one, given backwards. -/
def lowerAfter (before : List Char) : List Char → List Char
  | [] => []
  | c :: cs =>
    (if c = 'Σ' then [if endsWord before cs then 'ς' else 'σ'] else lowerChar c) ++
      lowerAfter (c :: before) cs

/-- The text in lowercase, where a capital sigma that ends a word becomes `ς`. -/
def lowerWords (cs : List Char) : List Char := lowerAfter [] cs

/-- `lowerWords` on strings. -/
def lowercase (s : String) : String := String.ofList (lowerWords s.toList)

/-- The two texts are equal once the ASCII letters of both are in lowercase. -/
def sameIgnoringAsciiCase (a b : String) : Bool :=
  a.toList.map Char.toLower == b.toList.map Char.toLower

theorem lowerChar_ascii {c : Char} (h : c.toNat < 0x80) : lowerChar c = [c.toLower] := by
  simp [lowerChar, h]

/-- On ASCII text `lowerEach` is `Char.toLower` on every character. -/
theorem lowerEach_ascii {cs : List Char} (h : ∀ c ∈ cs, c.toNat < 0x80) :
    lowerEach cs = cs.map Char.toLower := by
  induction cs with
  | nil => rfl
  | cons c cs ih =>
    rw [lowerEach, List.flatMap_cons, lowerChar_ascii (h c (by simp)), ← lowerEach,
      ih fun d hd => h d (by simp [hd])]
    rfl

theorem lowerAfter_ascii {before cs : List Char} (h : ∀ c ∈ cs, c.toNat < 0x80) :
    lowerAfter before cs = cs.map Char.toLower := by
  induction cs generalizing before with
  | nil => rfl
  | cons c cs ih =>
    have hc : c.toNat < 0x80 := h c (by simp)
    have hs : c ≠ 'Σ' := by rintro rfl; exact absurd hc (by decide)
    simp [lowerAfter, hs, lowerChar_ascii hc, ih fun d hd => h d (by simp [hd])]

/-- On ASCII text `lowerWords` is `Char.toLower` on every character. -/
theorem lowerWords_ascii {cs : List Char} (h : ∀ c ∈ cs, c.toNat < 0x80) :
    lowerWords cs = cs.map Char.toLower := lowerAfter_ascii h

example : lowerWords "ΟΔΟΣ".toList = "οδος".toList := by decide +kernel
example : lowerEach "ΟΔΟΣ".toList = "οδοσ".toList := by decide +kernel
example : (lowerWords "İ".toList).length = 2 := by decide +kernel

end Pinfile.Text
