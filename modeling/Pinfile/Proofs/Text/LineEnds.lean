import Pinfile.Proofs.Text.Padding

/-!
# Line ends

A line may end in a line feed alone or in a carriage return and a line feed. Joining the line ends
takes the carriage returns away; widening some of them puts carriage returns where there were none,
and is undone by joining (`joinLineEnds_widenLineEnds`). The lines of the joined text are the lines of
the text, each but the last without the carriage return at its end (`splitOn_joinLineEnds`).

Joining looks at the text once: of several carriage returns before a line feed the last one goes.
-/

namespace Pinfile.Text

/-- `joinLineEnds` on strings. -/
def joined (s : String) : String := String.ofList (joinLineEnds s.toList)

@[simp] theorem toList_joined (s : String) : (joined s).toList = joinLineEnds s.toList := by
  rw [joined, String.toList_ofList]

/-! ## Widening -/

/-- The text, which begins at a position of some other text and, if so said, after a carriage return
there, with a carriage return before each line feed that has none and whose position is picked. -/
def widenFrom (pick : Nat → Bool) (position : Nat) (returned : Bool) : List Char → List Char
  | [] => []
  | c :: cs =>
    if c = '\n' ∧ returned = false ∧ pick position = true then
      '\r' :: '\n' :: widenFrom pick (position + 1) false cs
    else c :: widenFrom pick (position + 1) (c == '\r') cs

/-- The text with a carriage return before the picked ones of the line feeds that have none. -/
def widenLineEnds (pick : Nat → Bool) (cs : List Char) : List Char := widenFrom pick 0 false cs

/-- `widenLineEnds` on strings. -/
def widened (pick : Nat → Bool) (s : String) : String := String.ofList (widenLineEnds pick s.toList)

variable {pick : Nat → Bool} {position : Nat} {returned : Bool} {cs : List Char}

@[simp] theorem toList_widened (pick : Nat → Bool) (s : String) :
    (widened pick s).toList = widenLineEnds pick s.toList := by
  rw [widened, String.toList_ofList]

/-- After a carriage return nothing is put before a line feed. -/
theorem head?_widenFrom_returned (pick : Nat → Bool) (position : Nat) (cs : List Char) :
    (widenFrom pick position true cs).head? = cs.head? := by
  cases cs with
  | nil => rfl
  | cons c cs => rw [widenFrom, if_neg (by simp), List.head?_cons, List.head?_cons]

theorem joinLineEnds_widenFrom (pick : Nat → Bool) (position : Nat) (returned : Bool)
    (cs : List Char) : joinLineEnds (widenFrom pick position returned cs) = joinLineEnds cs := by
  induction cs generalizing position returned with
  | nil => rfl
  | cons c cs ih =>
    unfold widenFrom
    split
    · next hwiden =>
      obtain ⟨rfl, -, -⟩ := hwiden
      rw [joinLineEnds, if_pos (by simp), joinLineEnds, joinLineEnds, ih, if_neg (by simp),
        if_neg (by simp)]
    · by_cases hc : c = '\r'
      · subst hc
        rw [joinLineEnds, joinLineEnds, ih, beq_self_eq_true, head?_widenFrom_returned]
      · rw [joinLineEnds, joinLineEnds, ih, if_neg (by simp [hc]), if_neg (by simp [hc])]

/-- Joining undoes widening. -/
theorem joinLineEnds_widenLineEnds (pick : Nat → Bool) (cs : List Char) :
    joinLineEnds (widenLineEnds pick cs) = joinLineEnds cs := joinLineEnds_widenFrom pick 0 false cs

theorem joined_widened (pick : Nat → Bool) (s : String) : joined (widened pick s) = joined s := by
  rw [joined, toList_widened, joinLineEnds_widenLineEnds, joined]

/-! ## Joining, line by line -/

/-- The line ends in a carriage return. -/
def endsInReturn (raw : List Char) : Bool := raw.getLast? == some '\r'

/-- The line without the carriage return that it ends in. -/
def dropReturn (raw : List Char) : List Char := if endsInReturn raw then raw.dropLast else raw

/-- The lines, each but the last without the carriage return that it ends in. -/
def dropReturns : List (List Char) → List (List Char)
  | [] => []
  | [last] => [last]
  | raw :: next :: rest => dropReturn raw :: dropReturns (next :: rest)

/-- The number of carriage returns before line feeds, in the lines before the one with the number. -/
def returnsBefore (number : Nat) (cs : List Char) : Nat :=
  ((cs.splitOn '\n').take (number - 1)).countP endsInReturn

/-- What a line has after itself without its carriage return. -/
theorem dropReturn_append (raw : List Char) :
    raw = dropReturn raw ++ if endsInReturn raw then ['\r'] else [] := by
  unfold dropReturn
  split
  · next hends =>
    have hlast : raw.getLast? = some '\r' := by simpa [endsInReturn] using hends
    exact (List.dropLast_append_getLast? '\r' hlast).symm
  · rw [List.append_nil]

theorem joinLineEnds_cons_of_ne {c : Char} (h : c ≠ '\r') (cs : List Char) :
    joinLineEnds (c :: cs) = c :: joinLineEnds cs := by
  rw [joinLineEnds, if_neg (by simp [h])]

theorem joinLineEnds_return_lineFeed (cs : List Char) :
    joinLineEnds ('\r' :: '\n' :: cs) = '\n' :: joinLineEnds cs := by
  rw [joinLineEnds, if_pos ⟨rfl, rfl⟩, joinLineEnds_cons_of_ne (by decide)]

theorem joinLineEnds_cons_cons {c d : Char} (h : d ≠ '\n') (cs : List Char) :
    joinLineEnds (c :: d :: cs) = c :: joinLineEnds (d :: cs) := by
  rw [joinLineEnds, if_neg (by simp [h])]

theorem dropReturn_cons_cons (c d : Char) (cs : List Char) :
    dropReturn (c :: d :: cs) = c :: dropReturn (d :: cs) := by
  simp only [dropReturn, endsInReturn, List.getLast?_cons_cons, List.dropLast_cons_cons]
  exact (apply_ite (c :: ·) _ _ _).symm

/-- The line before a line feed loses the carriage return that it ends in. -/
theorem joinLineEnds_append_lineFeed {raw : List Char} (h : '\n' ∉ raw) (rest : List Char) :
    joinLineEnds (raw ++ '\n' :: rest) = dropReturn raw ++ '\n' :: joinLineEnds rest := by
  induction raw with
  | nil => exact joinLineEnds_cons_of_ne (by decide) rest
  | cons c raw ih =>
    rw [List.mem_cons, not_or] at h
    cases raw with
    | nil =>
      by_cases hc : c = '\r'
      · subst hc
        exact joinLineEnds_return_lineFeed rest
      · have hkept : dropReturn [c] = [c] := if_neg (by simp [endsInReturn, hc])
        rw [hkept]
        exact (joinLineEnds_cons_of_ne hc _).trans (congrArg (c :: ·) (ih h.2))
    | cons d raw =>
      have hd : d ≠ '\n' := fun hd => h.2 (by simp [hd])
      rw [List.cons_append, List.cons_append, joinLineEnds_cons_cons hd, dropReturn_cons_cons,
        ← List.cons_append, ih h.2, List.cons_append]

/-- The last line stays as it is. -/
theorem joinLineEnds_of_not_mem {raw : List Char} (h : '\n' ∉ raw) : joinLineEnds raw = raw := by
  induction raw with
  | nil => rfl
  | cons c raw ih =>
    rw [List.mem_cons, not_or] at h
    have hhead : raw.head? ≠ some '\n' := fun hhead => h.2 (List.mem_of_head? hhead)
    rw [joinLineEnds, if_neg (by simp [hhead]), ih h.2]

theorem not_mem_dropReturn {raw : List Char} (h : '\n' ∉ raw) : '\n' ∉ dropReturn raw := by
  unfold dropReturn
  split
  · exact fun hmem => h ((List.dropLast_sublist raw).mem hmem)
  · exact h

theorem splitOn_joinLineEnds_intercalate {raws : List (List Char)} (hne : raws ≠ [])
    (h : ∀ raw ∈ raws, '\n' ∉ raw) :
    (joinLineEnds (['\n'].intercalate raws)).splitOn '\n' = dropReturns raws := by
  induction raws with
  | nil => exact absurd rfl hne
  | cons raw raws ih =>
    have hraw : '\n' ∉ raw := h raw (by simp)
    cases raws with
    | nil =>
      rw [List.intercalate_singleton, joinLineEnds_of_not_mem hraw,
        List.splitOn_eq_singleton hraw, dropReturns]
    | cons next rest =>
      rw [List.intercalate_cons_of_ne_nil (by simp), List.append_assoc, List.singleton_append,
        joinLineEnds_append_lineFeed hraw,
        List.splitOn_append_cons_self_of_not_mem (not_mem_dropReturn hraw),
        ih (by simp) fun raw hmem => h raw (by simp [hmem]), dropReturns]

/-- The lines of a joined text. -/
theorem splitOn_joinLineEnds (cs : List Char) :
    (joinLineEnds cs).splitOn '\n' = dropReturns (cs.splitOn '\n') := by
  have hlines := splitOn_joinLineEnds_intercalate (List.splitOn_ne_nil '\n' cs)
    fun raw hraw => not_mem_of_mem_splitOn hraw
  rwa [List.intercalate_splitOn] at hlines

/-! ## The byte order mark -/

/-- A byte order mark is no part of a line end. -/
theorem dropMark_joinLineEnds (cs : List Char) :
    dropMark (joinLineEnds cs) = joinLineEnds (dropMark cs) := by
  cases cs with
  | nil => rfl
  | cons c cs =>
    by_cases hend : c = '\r' ∧ cs.head? = some '\n'
    · obtain ⟨rfl, hhead⟩ := hend
      obtain ⟨rest, rfl⟩ := List.head?_eq_some_iff.mp hhead
      have hmark : dropMark ('\r' :: '\n' :: rest) = '\r' :: '\n' :: rest := rfl
      rw [hmark, joinLineEnds_return_lineFeed]
      rfl
    · have hkeep : joinLineEnds (c :: cs) = c :: joinLineEnds cs := if_neg hend
      rw [hkeep, dropMark, dropMark]
      split
      · rfl
      · exact hkeep.symm

/-- Nor is it the end of a line. -/
theorem returnsBefore_dropMark (number : Nat) (cs : List Char) :
    returnsBefore number (dropMark cs) = returnsBefore number cs := by
  cases cs with
  | nil => rfl
  | cons c cs =>
    by_cases hc : c = byteOrderMark
    · subst hc
      obtain ⟨raw, raws, hraws⟩ := List.exists_cons_of_ne_nil (List.splitOn_ne_nil '\n' cs)
      have hsplit : (byteOrderMark :: cs).splitOn '\n' = (byteOrderMark :: raw) :: raws := by
        rw [List.splitOn_cons_eq_if_modifyHead, if_neg (by decide), hraws, List.modifyHead_cons]
      have hends : endsInReturn (byteOrderMark :: raw) = endsInReturn raw := by
        cases raw <;> rfl
      rw [dropMark, if_pos rfl, returnsBefore, returnsBefore, hsplit, hraws]
      cases number - 1 with
      | zero => rfl
      | succ n =>
        rw [List.take_succ_cons, List.take_succ_cons, List.countP_cons, List.countP_cons, hends]
    · rw [dropMark, if_neg hc]

end Pinfile.Text
