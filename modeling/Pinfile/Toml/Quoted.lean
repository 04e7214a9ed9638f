import Pinfile.Text.Digits

/-!
# Quoted texts of TOML

A text has four written forms: in one or in three double quotes, where a backslash escapes, and in
one or in three single quotes, where nothing does. The forms with three quotes may run over several
lines; a line feed right after the opening quotes is not part of the text.

`write` takes the plainest form that holds the text: one double quote, one single quote, three
double quotes, three single quotes, each if nothing in the text had to be escaped in it; and at last
double quotes with escapes, three of them when the text has several lines.
-/

namespace Pinfile.Toml.Quoted

/-! ## Characters -/

/-- The characters that may stand unescaped in every form: all but the control characters, of which
the tab alone may. -/
def isPlain (c : Char) : Bool := c == '\t' || (0x20 ≤ c.toNat && c.toNat != 0x7F)

/-- The control characters that have to be escaped wherever they stand. -/
def isCode (c : Char) : Bool := (c.toNat < 0x20 && c != '\t' && c != '\n') || c.toNat == 0x7F

/-! ## Writing -/

/-- The length of the longest run of a character, when a run of length `current` comes right before
the text. -/
def longestRunFrom (q : Char) (current : Nat) : List Char → Nat
  | [] => current
  | c :: cs =>
    if c = q then longestRunFrom q (current + 1) cs else max current (longestRunFrom q 0 cs)

/-- The length of the longest run of a character. -/
def longestRun (q : Char) (cs : List Char) : Nat := longestRunFrom q 0 cs

/-- A character that is no line feed or quote as it stands inside double quotes. -/
def escape (c : Char) : List Char :=
  if c.toNat = 0x08 then ['\\', 'b']
  else if c = '\t' then ['\\', 't']
  else if c.toNat = 0x0C then ['\\', 'f']
  else if c = '\r' then ['\\', 'r']
  else if c = '\\' then ['\\', '\\']
  else if isCode c then
    ['\\', 'u', '0', '0', Text.Hex.upper (c.toNat / 16), Text.Hex.upper (c.toNat % 16)]
  else [c]

/-- A character as it stands inside one double quote. -/
def escapeShort (c : Char) : List Char :=
  if c = '\n' then ['\\', 'n'] else if c = '"' then ['\\', '"'] else escape c

/-- The text as it stands inside three double quotes. Every third quote of a run is escaped; `run`
quotes come right before the text. -/
def escapeLong (run : Nat) : List Char → List Char
  | [] => []
  | c :: cs =>
    if c = '"' then
      if run = 2 then '\\' :: '"' :: escapeLong 0 cs else '"' :: escapeLong (run + 1) cs
    else if c = '\n' then '\n' :: escapeLong 0 cs
    else escape c ++ escapeLong 0 cs

/-- The three quotes that open or close a long form. -/
def fence (q : Char) : List Char := [q, q, q]

/-- The line feed after the opening quotes of a long form, which only a text of several lines
has. -/
def opening (cs : List Char) : List Char := if cs.contains '\n' then ['\n'] else []

/-- The text in one double quote. -/
def shortDouble (cs : List Char) : List Char := '"' :: (cs.flatMap escapeShort ++ ['"'])

/-- The text in one single quote. -/
def shortSingle (cs : List Char) : List Char := '\'' :: (cs ++ ['\''])

/-- The text in three double quotes. -/
def longDouble (cs : List Char) : List Char :=
  fence '"' ++ (opening cs ++ (escapeLong 0 cs ++ fence '"'))

/-- The text in three single quotes. -/
def longSingle (cs : List Char) : List Char :=
  fence '\'' ++ (opening cs ++ (cs ++ fence '\''))

/-- The written form of a text. -/
def write (cs : List Char) : List Char :=
  let codes := cs.any isCode
  let severalLines := cs.contains '\n'
  let backslash := cs.contains '\\'
  if !codes && !backslash && longestRun '"' cs == 0 && !severalLines then shortDouble cs
  else if !codes && longestRun '\'' cs == 0 && !severalLines then shortSingle cs
  else if !codes && !backslash && longestRun '"' cs ≤ 2 then longDouble cs
  else if !codes && longestRun '\'' cs ≤ 2 then longSingle cs
  else if severalLines then longDouble cs
  else shortDouble cs

/-! ## Reading -/

/-- The character of an escape, from what follows the backslash, and the number of characters that
the escape takes up after it. -/
def escaped? : List Char → Option (Char × Nat)
  | [] => none
  | c :: cs =>
    match c with
    | 'b' => some (Char.ofNat 0x08, 1)
    | 't' => some ('\t', 1)
    | 'n' => some ('\n', 1)
    | 'f' => some (Char.ofNat 0x0C, 1)
    | 'r' => some ('\r', 1)
    | '"' => some ('"', 1)
    | '\\' => some ('\\', 1)
    | 'u' => (coded? 4 cs).map fun d => (d, 5)
    | 'U' => (coded? 8 cs).map fun d => (d, 9)
    | _ => none
where
  /-- The character whose number is given by exactly so many hexadecimal digits. -/
  coded? (count : Nat) (cs : List Char) : Option Char :=
    let digits := cs.take count
    if digits.length = count then
      (Text.Hex.number? digits).bind fun n => if n.isValidChar then some (Char.ofNat n) else none
    else none

/-- Reads the rest of a text in one double quote. -/
def readShortDouble (cs : List Char) : Option (List Char × List Char) :=
  match cs with
  | [] => none
  | c :: cs =>
    if c = '"' then some ([], cs)
    else if c = '\\' then
      match escaped? cs with
      | none => none
      | some (d, n) => (readShortDouble (cs.drop n)).map fun (text, rest) => (d :: text, rest)
    else if isPlain c then (readShortDouble cs).map fun (text, rest) => (c :: text, rest)
    else none
termination_by cs.length

/-- Reads the rest of a text in one single quote. -/
def readShortSingle : List Char → Option (List Char × List Char)
  | [] => none
  | c :: cs =>
    if c = '\'' then some ([], cs)
    else if isPlain c then (readShortSingle cs).map fun (text, rest) => (c :: text, rest)
    else none

/-- What follows the line end at the beginning of the text. -/
def afterLineEnd? : List Char → Option (List Char)
  | '\n' :: rest => some rest
  | '\r' :: '\n' :: rest => some rest
  | _ => none

/-- The text without the line ends, spaces and tabs at its beginning. -/
def skipBlankLines : List Char → List Char
  | ' ' :: rest => skipBlankLines rest
  | '\t' :: rest => skipBlankLines rest
  | '\n' :: rest => skipBlankLines rest
  | '\r' :: '\n' :: rest => skipBlankLines rest
  | cs => cs

theorem length_skipBlankLines_le (cs : List Char) : (skipBlankLines cs).length ≤ cs.length := by
  fun_induction skipBlankLines cs <;> simp only [List.length_cons, Nat.le_refl] <;> omega

/-- What follows a backslash at the end of a line: the blank lines after it, and the blanks before
the next text, are left out. `none` when the line does not end. -/
def afterFold? (cs : List Char) : Option (List Char) :=
  (afterLineEnd? (cs.dropWhile fun c => c == ' ' || c == '\t')).map skipBlankLines

theorem length_afterLineEnd?_lt {cs rest : List Char} (h : afterLineEnd? cs = some rest) :
    rest.length < cs.length := by
  unfold afterLineEnd? at h
  split at h <;> simp at h <;> subst h <;> simp only [List.length_cons] <;> omega

theorem length_afterFold?_lt {cs rest : List Char} (h : afterFold? cs = some rest) :
    rest.length < cs.length := by
  simp only [afterFold?, Option.map_eq_some_iff] at h
  obtain ⟨more, hmore, rfl⟩ := h
  have h1 := length_skipBlankLines_le more
  have h2 := length_afterLineEnd?_lt hmore
  have h3 := (cs.dropWhile_sublist fun c => c == ' ' || c == '\t').length_le
  omega

/-- Ends a long form after three of its quotes. Up to two more quotes may follow directly: then the
text itself ends with that many, and the closing quotes are the last three. -/
def closeLong (q : Char) (cs : List Char) : List Char × List Char :=
  match cs with
  | a :: b :: rest =>
    if a = q then if b = q then ([q, q], rest) else ([q], b :: rest) else ([], cs)
  | [a] => if a = q then ([q], []) else ([], cs)
  | [] => ([], [])

/-- The text begins with the closing quotes of a long form. -/
def closes (q : Char) (cs : List Char) : Bool := (fence q).isPrefixOf cs

/-- Reads the rest of a text in three double quotes. -/
def readLongDouble (cs : List Char) : Option (List Char × List Char) :=
  if closes '"' cs then some (closeLong '"' (cs.drop 3))
  else
    match cs with
    | [] => none
    | c :: more =>
      if c = '\\' then
        match h : afterFold? more with
        | some after =>
          have := length_afterFold?_lt h
          readLongDouble after
        | none =>
          match escaped? more with
          | none => none
          | some (d, n) => (readLongDouble (more.drop n)).map fun (text, rest) => (d :: text, rest)
      else
        match h : afterLineEnd? (c :: more) with
        | some after =>
          have := length_afterLineEnd?_lt h
          (readLongDouble after).map fun (text, rest) => ('\n' :: text, rest)
        | none =>
          if isPlain c then (readLongDouble more).map fun (text, rest) => (c :: text, rest)
          else none
termination_by cs.length
decreasing_by all_goals (simp only [List.length_cons, List.length_drop] at *; omega)

/-- Reads the rest of a text in three single quotes. -/
def readLongSingle (cs : List Char) : Option (List Char × List Char) :=
  if closes '\'' cs then some (closeLong '\'' (cs.drop 3))
  else
    match cs with
    | [] => none
    | c :: more =>
      match h : afterLineEnd? (c :: more) with
      | some after =>
        have := length_afterLineEnd?_lt h
        (readLongSingle after).map fun (text, rest) => ('\n' :: text, rest)
      | none =>
        if isPlain c then (readLongSingle more).map fun (text, rest) => (c :: text, rest)
        else none
termination_by cs.length
decreasing_by all_goals (simp only [List.length_cons] at *; omega)

/-- The text after the opening quotes of a long form, without a line end right after them. -/
def afterOpening (cs : List Char) : List Char := (afterLineEnd? cs).getD cs

/-- Reads a quoted text in one quote, as it may stand in a key. -/
def readShort : List Char → Option (List Char × List Char)
  | '"' :: cs => readShortDouble cs
  | '\'' :: cs => readShortSingle cs
  | _ => none

/-- Reads a quoted text. -/
def read (cs : List Char) : Option (List Char × List Char) :=
  if closes '"' cs then readLongDouble (afterOpening (cs.drop 3))
  else if closes '\'' cs then readLongSingle (afterOpening (cs.drop 3))
  else readShort cs

example : write "a".toList = "\"a\"".toList := by decide +kernel
example : write "a\"b".toList = "'a\"b'".toList := by decide +kernel
example : write "a\nb".toList = "\"\"\"\na\nb\"\"\"".toList := by decide +kernel
example : read (write "'\"\"\"'\r\n".toList) = some ("'\"\"\"'\r\n".toList, []) := by decide +kernel
example : read "\"\"\"\"a\\\n  b\"\"\"\"\",".toList = some ("\"ab\"\"".toList, [',']) := by
  decide +kernel
example : read "\"\\ud800\"".toList = none := by decide +kernel

end Pinfile.Toml.Quoted
