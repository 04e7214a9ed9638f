import Pinfile.Proofs.Text.Cutting
import Pinfile.Toml.Reader

/-!
# What a line says

Its first characters tell what a line is: a header of an element or of a table, a line with nothing but
a comment, or a pair. There is one lemma for each of these (`readStatement_of_element`,
`readStatement_of_table`, `readStatement_of_blank`, `readStatement_of_pair`). The two headers differ only
in their brackets and in what they are made into, so both are cases of `readHeader`.
-/

namespace Pinfile.Toml

variable {cs rest more close : List Char} {c : Char} {key : List String}

/-- Reads a header after its opening brackets. -/
def readHeader (make : List String → Header) (close cs : List Char) :
    Option (Statement × List Char) :=
  (readKey maxDepth cs).bind fun (key, rest) =>
    (Text.afterPrefix? close rest).map fun rest => (.header (make key), rest)

/-- A key before the closing brackets makes a header. -/
theorem readHeader_of_readKey (make : List String → Header)
    (h : readKey maxDepth cs = some (key, close ++ rest)) :
    readHeader make close cs = some (.header (make key), rest) := by
  have hclose : Text.afterPrefix? close (close ++ rest) = some rest :=
    Text.afterPrefix?_eq_some_iff.mpr rfl
  rw [readHeader, h, Option.bind_some]
  dsimp only
  rw [hclose]
  rfl

/-- Nothing else makes one. -/
theorem readHeader_eq_none (make : List String → Header)
    (h : ∀ key rest, readKey maxDepth cs ≠ some (key, close ++ rest)) :
    readHeader make close cs = none := by
  unfold readHeader
  cases hkey : readKey maxDepth cs with
  | none => rfl
  | some r =>
    obtain ⟨key, more⟩ := r
    cases hclose : Text.afterPrefix? close more with
    | none =>
      rw [Option.bind_some]
      dsimp only
      rw [hclose]
      rfl
    | some rest =>
      rw [Text.afterPrefix?_eq_some_iff.mp hclose] at hkey
      exact absurd hkey (h key rest)

theorem readStatement_of_element (h : skipGap cs = '[' :: '[' :: rest) :
    readStatement cs = readHeader .element [']', ']'] rest := by
  rw [readStatement, h]
  split
  · next heq => cases heq
  · next heq => cases heq
  · next heq => cases heq
  · next heq => cases heq
  · next heq =>
    obtain rfl := (List.cons.inj (List.cons.inj heq).2).2
    split
    · next key more hkey => exact (readHeader_of_readKey .element hkey).symm
    · next hnone => exact (readHeader_eq_none .element hnone).symm
  · next hdouble heq => exact absurd (List.cons.inj heq).2.symm (hdouble rest)
  · next hdouble _ => exact absurd rfl (hdouble rest)

theorem readStatement_of_table (h : skipGap cs = '[' :: rest) (hrest : ∀ more, rest ≠ '[' :: more) :
    readStatement cs = readHeader .table [']'] rest := by
  rw [readStatement, h]
  split
  · next heq => cases heq
  · next heq => cases heq
  · next heq => cases heq
  · next heq => cases heq
  · next heq => exact absurd (List.cons.inj heq).2 (hrest _)
  · next heq =>
    obtain rfl := (List.cons.inj heq).2
    split
    · next key more hkey => exact (readHeader_of_readKey .table hkey).symm
    · next hnone => exact (readHeader_eq_none .table hnone).symm
  · next hbracket => exact absurd rfl (hbracket rest)

theorem readStatement_of_blank (h : ∀ c ∈ (skipGap cs).head?, c = '#' ∨ c = '\n' ∨ c = '\r') :
    readStatement cs = some (.blank, skipGap cs) := by
  rw [readStatement]
  generalize skipGap cs = as at h ⊢
  cases as with
  | nil => rfl
  | cons c as => rcases h c rfl with rfl | rfl | rfl <;> rfl

theorem readStatement_of_pair (h : skipGap cs = c :: more)
    (hblank : ¬ (c = '#' ∨ c = '\n' ∨ c = '\r')) (hbracket : c ≠ '[') :
    readStatement cs = (readPair (readValue maxDepth) (c :: more)).map
      fun ((key, v), rest) => (.pair key v, rest) := by
  rw [readStatement, h]
  split
  · next heq => cases heq
  · next heq => exact absurd (Or.inl (List.cons.inj heq).1) hblank
  · next heq => exact absurd (Or.inr (Or.inl (List.cons.inj heq).1)) hblank
  · next heq => exact absurd (Or.inr (Or.inr (List.cons.inj heq).1)) hblank
  · next heq => exact absurd (List.cons.inj heq).1 hbracket
  · next heq => exact absurd (List.cons.inj heq).1 hbracket
  · rfl

end Pinfile.Toml
