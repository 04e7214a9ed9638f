import Pinfile.Manifest.Parser
import Pinfile.Proofs.Text.Cutting

/-!
# Lines in a row

A text is read line by line. The lines are numbered, and each has its place in the text, so what is read
of a line depends on the lines before it by their number and their size (`numberLines_append`). An error
is one of the line that is read (`exists_faultAt_of_step`).
-/

namespace Pinfile

open Text

namespace Text

/-- Lines in a row, each with its line feed. -/
def joinLines (raws : List (List Char)) : List Char := raws.flatMap (· ++ ['\n'])

/-- Splitting a text that begins with whole lines gives those lines first. -/
theorem splitOn_joinLines_append {raws : List (List Char)} (h : ∀ raw ∈ raws, '\n' ∉ raw)
    (rest : List Char) : (joinLines raws ++ rest).splitOn '\n' = raws ++ rest.splitOn '\n' := by
  induction raws with
  | nil => rfl
  | cons raw raws ih =>
    have hraw : '\n' ∉ raw := h raw (by simp)
    rw [joinLines, List.flatMap_cons, List.append_assoc, List.append_assoc, List.singleton_append,
      List.splitOn_append_cons_self_of_not_mem hraw, List.cons_append]
    exact congrArg (raw :: ·) (ih fun r hr => h r (by simp [hr]))

theorem add_byteSize_joinLines (offset : Nat) (raw : List Char) (raws : List (List Char)) :
    offset + byteSize raw + 1 + byteSize (joinLines raws) =
      offset + byteSize (joinLines (raw :: raws)) := by
  have hcons : byteSize (joinLines (raw :: raws)) = byteSize raw + 1 + byteSize (joinLines raws) := by
    rw [joinLines, List.flatMap_cons, byteSize_append, byteSize_append]
    rfl
  omega

end Text

namespace Manifest

variable {s : Cursor} {line : Line} {e : SyntaxError}

/-! ## Numbered lines -/

/-- The line of a raw line that begins at the offset. -/
def lineAt (number offset : Nat) (raw : List Char) : Line :=
  ⟨number, offset + byteSize (raw.takeWhile isBlank), trim raw⟩

theorem numberLines_cons (number offset : Nat) (raw : List Char) (raws : List (List Char)) :
    numberLines number offset (raw :: raws) =
      lineAt number offset raw :: numberLines (number + 1) (offset + byteSize raw + 1) raws := rfl

theorem numberLines_append (number offset : Nat) (raws more : List (List Char)) :
    numberLines number offset (raws ++ more) =
      numberLines number offset raws ++
        numberLines (number + raws.length) (offset + byteSize (joinLines raws)) more := by
  induction raws generalizing number offset with
  | nil => rfl
  | cons raw raws ih =>
    rw [List.cons_append, numberLines_cons, numberLines_cons, ih, add_byteSize_joinLines,
      Nat.add_right_comm number]
    rfl

/-! ## Reading lines -/

theorem readLines_cons (s : Cursor) (line : Line) (ls : List Line) :
    readLines s (line :: ls) = (s.step line).bind fun s => readLines s ls := rfl

/-- A line that cannot be read is not blank, and the error is about its content. -/
theorem exists_faultAt_of_step (h : s.step line = .error e) :
    line.content ≠ [] ∧ ∃ fault, e = faultAt line fault := by
  unfold Cursor.step at h
  split at h
  · cases h
  · next hne =>
    refine ⟨by simpa using hne, ?_⟩
    split at h
    · unfold Cursor.header at h
      split at h <;> cases h <;> exact ⟨_, rfl⟩
    · unfold Cursor.body at h
      split at h
      · cases h
      · split at h <;> cases h
        exact ⟨_, rfl⟩

/-- An error has the number of the line that is read. -/
theorem line_of_step (h : s.step line = .error e) : e.line = line.number := by
  obtain ⟨-, fault, rfl⟩ := exists_faultAt_of_step h
  rfl

end Manifest
end Pinfile
