import Mathlib.Data.List.Basic
import Mathlib.Data.List.Induction
import Pinfile.Text.Digits

/-!
# Numerals

A number is written in one way only. `IsNumeral` says which texts are written numbers: decimal
digits of ASCII, at least one, and no zero before other digits. The main statement is that these are
the texts of the numbers, and that reading one gives the number it is the text of
(`isNumeral_iff`).

The empty text and the texts with leading zeros stand for numbers too, as `ofDigits` reads them. So
it is the form that makes a written number unique, and the proof goes by it: without its last digit,
a numeral of several digits is again one.
-/

namespace Pinfile.Text

/-- A text of decimal digits in the form in which numbers are written. -/
structure IsNumeral (cs : List Char) : Prop where
  ne_nil : cs ≠ []
  digits : ∀ c ∈ cs, '0' ≤ c ∧ c ≤ '9'
  /-- A zero stands first in no other numeral than its own. -/
  leadingZero : cs.head? = some '0' → cs = ['0']

theorem isDigit_iff {c : Char} : c.isDigit = true ↔ '0' ≤ c ∧ c ≤ '9' := by
  rw [Char.isDigit, Bool.and_eq_true, decide_eq_true_iff, decide_eq_true_iff]
  rfl

theorem toNat_of_digit {c : Char} (h : '0' ≤ c ∧ c ≤ '9') : 48 ≤ c.toNat ∧ c.toNat ≤ 57 := by
  obtain ⟨hfirst, hlast⟩ := h
  exact ⟨UInt32.le_iff_toNat_le.mp hfirst, UInt32.le_iff_toNat_le.mp hlast⟩

/-- A digit is the one of its value. -/
theorem digitChar_of_digit {c : Char} (h : '0' ≤ c ∧ c ≤ '9') :
    Nat.digitChar (c.toNat - '0'.toNat) = c := by
  have hrange := toNat_of_digit h
  have hzero : '0'.toNat = 48 := rfl
  apply Char.toNat_inj.mp
  rw [hzero, Nat.toNat_digitChar_of_lt_ten (by omega)]
  omega

/-- The text of a number begins with a zero for zero alone. -/
theorem head?_toDigits {n : Nat} (hn : 0 < n) : (Nat.toDigits 10 n).head? ≠ some '0' := by
  induction n using Nat.strongRecOn with
  | ind n ih =>
    rw [Nat.toDigits_eq_if (by omega)]
    split
    · next hlt =>
      intro hhead
      have hvalue : n.digitChar.toNat = 48 := by
        rw [Option.some.inj hhead]
        rfl
      rw [Nat.toNat_digitChar_of_lt_ten hlt] at hvalue
      omega
    · next hge =>
      rw [List.head?_append_of_ne_nil _ Nat.toDigits_ne_nil]
      exact ih (n / 10) (by omega) (by omega)

/-- What a number is written as is a numeral. -/
theorem isNumeral_toDigits (n : Nat) : IsNumeral (Nat.toDigits 10 n) where
  ne_nil := Nat.toDigits_ne_nil
  digits _ hc := isDigit_iff.mp (Nat.isDigit_of_mem_toDigits (by omega) (by omega) hc)
  leadingZero h := by
    by_cases hn : 0 < n
    · exact absurd h (head?_toDigits hn)
    · obtain rfl : n = 0 := by omega
      rfl

/-- A numeral without its last digit is a numeral of a number above zero, if anything is left. -/
theorem IsNumeral.dropLast {cs : List Char} {c : Char} (h : IsNumeral (cs ++ [c])) (hne : cs ≠ []) :
    IsNumeral cs ∧ cs.head? ≠ some '0' := by
  have hhead : cs.head? ≠ some '0' := by
    intro hzero
    have hsingle := h.leadingZero (by rw [List.head?_append_of_ne_nil _ hne, hzero])
    have hlength := congrArg List.length hsingle
    have hpos := List.length_pos_iff.mpr hne
    simp only [List.length_append, List.length_cons, List.length_nil] at hlength
    omega
  refine ⟨⟨hne, fun d hd => h.digits d (List.mem_append_left _ hd), fun hzero => ?_⟩, hhead⟩
  exact absurd hzero hhead

/-- A numeral is the text of the number that it stands for. -/
theorem IsNumeral.toDigits_ofDigits {cs : List Char} (h : IsNumeral cs) :
    Nat.toDigits 10 (ofDigits cs) = cs := by
  induction cs using List.reverseRecOn with
  | nil => exact absurd rfl h.ne_nil
  | append_singleton cs c ih =>
    have hc : '0' ≤ c ∧ c ≤ '9' := h.digits c (by simp)
    have hvalue : c.toNat - '0'.toNat < 10 := by
      have hrange := toNat_of_digit hc
      have hzero : '0'.toNat = 48 := rfl
      omega
    have hlast : Nat.toDigits 10 (c.toNat - '0'.toNat) = [c] := by
      rw [Nat.toDigits_of_lt_base hvalue, digitChar_of_digit hc]
    rw [ofDigits_append_singleton]
    by_cases hne : cs = []
    · subst hne
      simpa using hlast
    · obtain ⟨hcs, hhead⟩ := h.dropLast hne
      -- the digits before the last stand for a number above zero, as its text does not begin with 0
      have hpos : 0 < ofDigits cs := by
        by_contra hzero
        have hnil := ih hcs
        rw [show ofDigits cs = 0 by omega] at hnil
        exact hhead (by rw [← hnil]; rfl)
      rw [← Nat.toDigits_append_toDigits (by omega) hpos hvalue, ih hcs, hlast]

/-- The numerals are what the numbers are written as, each as one numeral. -/
theorem isNumeral_iff {cs : List Char} {n : Nat} :
    IsNumeral cs ∧ ofDigits cs = n ↔ n.repr.toList = cs := by
  constructor
  · rintro ⟨h, rfl⟩
    rw [Nat.toList_repr, h.toDigits_ofDigits]
  · rintro rfl
    rw [ofDigits_repr, Nat.toList_repr]
    exact ⟨isNumeral_toDigits n, rfl⟩

end Pinfile.Text
