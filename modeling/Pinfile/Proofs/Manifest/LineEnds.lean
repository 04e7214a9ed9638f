import Pinfile.Proofs.Manifest.Lines
import Pinfile.Proofs.Text.LineEnds

/-!
# Manifests do not depend on their line ends

Reading a manifest and reading the text with joined line ends give the same manifest, with the same
line numbers, or the same error (`parse_joined`). Only the place of an error in the text differs, by
one byte for each carriage return that was taken away before its line.
-/

namespace Pinfile

open Text

/-- The error, so many bytes later in the text. -/
def SyntaxError.movedBy (e : SyntaxError) (n : Nat) : SyntaxError :=
  { e with span := { e.span with offset := e.span.offset + n } }

/-- The error, with nothing said about its place but the line and the length. -/
def SyntaxError.unplaced (e : SyntaxError) : SyntaxError :=
  { e with span := { e.span with offset := 0 } }

@[simp] theorem SyntaxError.unplaced_movedBy (e : SyntaxError) (n : Nat) :
    (e.movedBy n).unplaced = e.unplaced := rfl

namespace Manifest

variable {s : Cursor} {line : Line} {e : SyntaxError}

/-! ## One line -/

/-- A line further on is read in the same way. -/
theorem step_moved (s : Cursor) (line : Line) (n : Nat) :
    s.step { line with offset := line.offset + n } = (s.step line).mapError (·.movedBy n) := by
  unfold Cursor.step
  split
  · rfl
  · split
    · unfold Cursor.header
      dsimp only
      split <;> rfl
    · unfold Cursor.body
      dsimp only
      split
      · rfl
      · split <;> rfl

theorem trim_dropReturn (raw : List Char) : trim (dropReturn raw) = trim raw := by
  have hblank : IsBlank (if endsInReturn raw then ['\r'] else []) := by
    split
    · simp [IsBlank, isBlank]
    · simp [IsBlank]
  have hnone : IsBlank [] := by simp [IsBlank]
  have htrim := trim_padded hnone hblank (dropReturn raw)
  rw [List.nil_append, ← dropReturn_append] at htrim
  exact htrim.symm

/-- The blanks before a line that is not blank are the same without its carriage return. -/
theorem takeWhile_dropReturn {raw : List Char} (h : trim raw ≠ []) :
    (dropReturn raw).takeWhile isBlank = raw.takeWhile isBlank := by
  conv_rhs => rw [dropReturn_append raw, List.takeWhile_append]
  refine (if_neg fun hall => h ?_).symm
  have hself := (List.takeWhile_prefix isBlank).eq_of_length hall
  rw [← trim_dropReturn, trim_eq_nil_iff, List.all_eq_true]
  exact List.takeWhile_eq_self_iff.mp hself

theorem byteSize_dropReturn (raw : List Char) :
    byteSize raw = byteSize (dropReturn raw) + if endsInReturn raw then 1 else 0 := by
  conv_lhs => rw [dropReturn_append raw, byteSize_append]
  split <;> rfl

/-- A line is read as it is without its carriage return. -/
theorem step_dropReturn (s : Cursor) (number offset n : Nat) (raw : List Char) :
    s.step (lineAt number (offset + n) raw) =
      (s.step (lineAt number offset (dropReturn raw))).mapError (·.movedBy n) := by
  by_cases hblank : trim raw = []
  · simp [lineAt, Cursor.step, trim_dropReturn, hblank, Except.mapError]
  · rw [← step_moved, lineAt, lineAt, trim_dropReturn, takeWhile_dropReturn hblank,
      Nat.add_right_comm]

/-! ## All lines -/

/-- An error is one of the lines that are read. -/
theorem le_line_of_readLines {number offset : Nat} {raws : List (List Char)}
    (h : readLines s (numberLines number offset raws) = .error e) : number ≤ e.line := by
  induction raws generalizing s number offset with
  | nil => cases h
  | cons raw raws ih =>
    rw [numberLines_cons, readLines_cons] at h
    cases hstep : s.step (lineAt number offset raw) with
    | error e' =>
      rw [hstep] at h
      obtain rfl := Except.error.inj h
      rw [line_of_step hstep]
      rfl
    | ok s' =>
      rw [hstep] at h
      have hle := ih h
      omega

/-- The carriage returns before a line, counted from a line on. -/
def returnsFrom (number : Nat) (raws : List (List Char)) (line : Nat) : Nat :=
  (raws.take (line - number)).countP endsInReturn

theorem returnsFrom_self (number : Nat) (raws : List (List Char)) :
    returnsFrom number raws number = 0 := by
  rw [returnsFrom, Nat.sub_self, List.take_zero, List.countP_nil]

theorem returnsFrom_cons {number l : Nat} (h : number + 1 ≤ l) (raw : List Char)
    (raws : List (List Char)) :
    returnsFrom number (raw :: raws) l =
      (if endsInReturn raw then 1 else 0) + returnsFrom (number + 1) raws l := by
  have hsub : l - number = l - (number + 1) + 1 := by omega
  rw [returnsFrom, returnsFrom, hsub, List.take_succ_cons, List.countP_cons, Nat.add_comm]

/-- Lines are read as they are without their carriage returns. An error was as many bytes further on as
there were carriage returns before it. -/
theorem readLines_dropReturns (s : Cursor) (number offset n : Nat) (raws : List (List Char)) :
    readLines s (numberLines number (offset + n) raws) =
      (readLines s (numberLines number offset (dropReturns raws))).mapError fun e =>
        e.movedBy (n + returnsFrom number raws e.line) := by
  induction raws generalizing s number offset n with
  | nil => rfl
  | cons raw raws ih =>
    cases raws with
    | nil =>
      -- no line feed follows the last line, so it keeps its carriage return
      have hmoved : s.step (lineAt number (offset + n) raw) =
          (s.step (lineAt number offset raw)).mapError (·.movedBy n) := by
        rw [← step_moved, lineAt, lineAt, Nat.add_right_comm]
      rw [dropReturns, numberLines_cons, numberLines_cons, readLines_cons, readLines_cons, hmoved]
      cases hstep : s.step (lineAt number offset raw) with
      | error e =>
        have hline : e.line = number := line_of_step hstep
        dsimp only [Except.bind, Except.mapError]
        rw [hline, returnsFrom_self, Nat.add_zero]
      | ok s' => rfl
    | cons next rest =>
      have hsize : offset + n + byteSize raw + 1 = offset + byteSize (dropReturn raw) + 1 +
          (n + if endsInReturn raw then 1 else 0) := by
        rw [byteSize_dropReturn raw]
        omega
      rw [dropReturns, numberLines_cons number, numberLines_cons number, readLines_cons,
        readLines_cons, step_dropReturn, hsize]
      cases hstep : s.step (lineAt number offset (dropReturn raw)) with
      | error e =>
        have hline : e.line = number := line_of_step hstep
        dsimp only [Except.bind, Except.mapError]
        rw [hline, returnsFrom_self, Nat.add_zero]
      | ok s' =>
        -- an error further down is one of a later line, which has this line's carriage return before it
        dsimp only [Except.bind, Except.mapError]
        rw [ih]
        cases hrest : readLines s' (numberLines (number + 1)
            (offset + byteSize (dropReturn raw) + 1) (dropReturns (next :: rest))) with
        | error e =>
          dsimp only [Except.mapError]
          rw [returnsFrom_cons (le_line_of_readLines hrest), Nat.add_assoc]
        | ok s'' => rfl

/-! ## The whole text -/

/-- Joining the line ends of a text changes nothing of its manifest, and nothing of its error but the
place, which was further on by the carriage returns before its line. -/
theorem parse_joined (text : String) :
    parse text = (parse (joined text)).mapError fun e =>
      e.movedBy (returnsBefore e.line text.toList) := by
  unfold parse parseChars lines
  rw [toList_joined, dropMark_joinLineEnds, splitOn_joinLineEnds]
  have hlines := readLines_dropReturns {} 1 0 0 ((dropMark text.toList).splitOn '\n')
  rw [Nat.zero_add] at hlines
  rw [hlines]
  cases readLines {} (numberLines 1 0 (dropReturns ((dropMark text.toList).splitOn '\n'))) with
  | error e =>
    dsimp only [Except.map, Except.mapError]
    rw [Nat.zero_add, ← returnsBefore_dropMark]
    rfl
  | ok s => rfl

/-- Texts with the same joined form have the same manifest, or the same error up to its place. -/
theorem parse_eq_of_joined_eq {s t : String} (h : joined s = joined t) :
    (parse s).mapError SyntaxError.unplaced = (parse t).mapError SyntaxError.unplaced := by
  rw [parse_joined s, parse_joined t, h]
  cases parse (joined t) with
  | error e => simp [Except.mapError]
  | ok m => rfl

end Manifest
end Pinfile
