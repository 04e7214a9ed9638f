/-!
# Blank characters, trimming and lines

Text is worked on as a list of characters. A character is *blank* when Unicode gives it the
property White_Space; trimming removes the blank characters at both ends and nothing else. Only a
line feed ends a line, so a carriage return is just one more blank at the end of its line.
Positions and lengths in a text are counted in UTF-8 bytes (`byteSize`).

The main statements are that trimming leaves no blank at either end (`head?_trim`, `getLast?_trim`)
and that trimming twice is trimming once (`trim_trim`).
-/

namespace Pinfile.Text

/-- The characters with the Unicode property White_Space. -/
def isBlank (c : Char) : Bool :=
  let n := c.toNat
  (0x09 ≤ n && n ≤ 0x0D) || n == 0x20 || n == 0x85 || n == 0xA0 || n == 0x1680 ||
    (0x2000 ≤ n && n ≤ 0x200A) || n == 0x2028 || n == 0x2029 || n == 0x202F || n == 0x205F ||
    n == 0x3000

/-! ## Trimming -/

/-- The text without its leading blanks. -/
def trimStart (cs : List Char) : List Char := cs.dropWhile isBlank

/-- The text without its trailing blanks. -/
def trimEnd (cs : List Char) : List Char := (cs.reverse.dropWhile isBlank).reverse

/-- The text without the blanks at its two ends. -/
def trim (cs : List Char) : List Char := trimEnd (trimStart cs)

/-- `trim` on strings. -/
def trimmed (s : String) : String := String.ofList (trim s.toList)

/-- A text all of whose characters are blank. -/
def IsBlank (cs : List Char) : Prop := ∀ c ∈ cs, isBlank c = true

@[simp] theorem trim_nil : trim [] = [] := rfl

theorem dropWhile_eq_self {α : Type} {p : α → Bool} {cs : List α}
    (h : ∀ c ∈ cs.head?, p c = false) : cs.dropWhile p = cs := by
  cases cs with
  | nil => rfl
  | cons c cs => simp [h c (by simp)]

/-- The library's `List.head?_dropWhile_not`, for a character that is given. -/
theorem head?_dropWhile_false {α : Type} {p : α → Bool} (cs : List α) :
    ∀ c ∈ (cs.dropWhile p).head?, p c = false := by
  intro c hc
  have hhead := List.head?_dropWhile_not p cs
  rw [Option.mem_def.mp hc] at hhead
  exact hhead

/-- No blank stands at the end of a text whose end was trimmed. -/
theorem getLast?_trimEnd (cs : List Char) : ∀ c ∈ (trimEnd cs).getLast?, isBlank c = false := by
  intro c hc
  rw [trimEnd, List.getLast?_reverse] at hc
  exact head?_dropWhile_false _ c hc

/-- What `trimEnd` drops is the tail of the text. -/
theorem exists_trimEnd_append (cs : List Char) : ∃ rest, trimEnd cs ++ rest = cs := by
  refine ⟨(cs.reverse.takeWhile isBlank).reverse, ?_⟩
  rw [trimEnd, ← List.reverse_append, List.takeWhile_append_dropWhile, List.reverse_reverse]

/-- No blank stands at the start of a trimmed text. -/
theorem head?_trim (cs : List Char) : ∀ c ∈ (trim cs).head?, isBlank c = false := by
  intro c hc
  obtain ⟨rest, hrest⟩ := exists_trimEnd_append (trimStart cs)
  refine head?_dropWhile_false cs c ?_
  change c ∈ (trimStart cs).head?
  rw [← hrest]
  cases h : trimEnd (trimStart cs) with
  | nil => simp [trim, h] at hc
  | cons a as => simpa [trim, h] using hc

/-- No blank stands at the end of a trimmed text. -/
theorem getLast?_trim (cs : List Char) : ∀ c ∈ (trim cs).getLast?, isBlank c = false :=
  getLast?_trimEnd _

/-- A text with no blank at either end is its own trimming. -/
theorem trim_eq_self {cs : List Char} (hs : ∀ c ∈ cs.head?, isBlank c = false)
    (he : ∀ c ∈ cs.getLast?, isBlank c = false) : trim cs = cs := by
  rw [trim, trimStart, dropWhile_eq_self hs, trimEnd, dropWhile_eq_self, List.reverse_reverse]
  intro c hc
  exact he c (by simpa using hc)

/-- Trimming twice is trimming once. -/
@[simp] theorem trim_trim (cs : List Char) : trim (trim cs) = trim cs :=
  trim_eq_self (head?_trim cs) (getLast?_trim cs)

/-! ## Byte counts -/

/-- The number of UTF-8 bytes of a text. -/
def byteSize : List Char → Nat
  | [] => 0
  | c :: cs => c.utf8Size + byteSize cs

@[simp] theorem byteSize_nil : byteSize [] = 0 := rfl

@[simp] theorem byteSize_cons (c : Char) (cs : List Char) :
    byteSize (c :: cs) = c.utf8Size + byteSize cs := rfl

@[simp] theorem byteSize_append (cs ds : List Char) :
    byteSize (cs ++ ds) = byteSize cs + byteSize ds := by
  induction cs with
  | nil => simp
  | cons c cs ih => rw [List.cons_append, byteSize_cons, byteSize_cons, ih, Nat.add_assoc]

/-! ## Cutting a text at a given text -/

/-- The text after the given beginning, or `none` when it begins otherwise. -/
def afterPrefix? (start cs : List Char) : Option (List Char) := start.isPrefixOf? cs

/-- The text cut at the first place where `mark` stands: what comes before it and what comes after
it, or `none` when `mark` stands nowhere. -/
def cutAt? (mark : List Char) : List Char → Option (List Char × List Char)
  | [] => (afterPrefix? mark []).map fun rest => ([], rest)
  | c :: cs =>
    match afterPrefix? mark (c :: cs) with
    | some rest => some ([], rest)
    | none => (cutAt? mark cs).map fun (before, rest) => (c :: before, rest)

/-- The text up to the given ending, or `none` when it ends otherwise. -/
def beforeSuffix? (final cs : List Char) : Option (List Char) :=
  (afterPrefix? final.reverse cs.reverse).map List.reverse

/-! ## Lines -/

/-- The byte order mark, which may stand before the first line of a file. -/
def byteOrderMark : Char := Char.ofNat 0xFEFF

/-- The text without one leading byte order mark. -/
def dropMark : List Char → List Char
  | [] => []
  | c :: cs => if c = byteOrderMark then cs else c :: cs

/-- One line of a text: its number from 1 on, its content without the blanks around it, and the
byte offset in the text at which the content begins. -/
structure Line where
  number : Nat
  offset : Nat
  content : List Char
deriving DecidableEq, Repr

/-- Numbers the given raw lines, the first of which is line `number` and begins at byte `offset`.
Each line feed between two raw lines is one byte. -/
def numberLines (number offset : Nat) : List (List Char) → List Line
  | [] => []
  | raw :: rest =>
    ⟨number, offset + byteSize (raw.takeWhile isBlank), trim raw⟩ ::
      numberLines (number + 1) (offset + byteSize raw + 1) rest

/-- The lines of a text, cut at its line feeds. -/
def lines (cs : List Char) : List Line := numberLines 1 0 (cs.splitOn '\n')

@[simp] theorem length_numberLines (number offset : Nat) (raws : List (List Char)) :
    (numberLines number offset raws).length = raws.length := by
  induction raws generalizing number offset with
  | nil => rfl
  | cons raw rest ih => simp [numberLines, ih]

/-- The text with every carriage return that stands before a line feed removed. -/
def joinLineEnds : List Char → List Char
  | [] => []
  | c :: cs =>
    if c = '\r' ∧ cs.head? = some '\n' then joinLineEnds cs else c :: joinLineEnds cs

example : joinLineEnds "a\r\nb\r\r\n".toList = "a\nb\r\n".toList := by decide
example : trimmed " \t# A\r\n" = "# A" := by decide
example : (lines "é\n x".toList).map Line.offset = [0, 4] := by decide

end Pinfile.Text
