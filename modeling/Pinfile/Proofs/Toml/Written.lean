import Pinfile.Proofs.Toml.Quoting
import Pinfile.Proofs.Toml.Statements

/-!
# Written documents are read

How the reader takes apart a document in the plain layout that records are written in: keys without
quotes, quoted texts and empty arrays for values, headers of arrays of tables, one thing on a line.

What a text says is told of the text alone: it `Says` some statements when it is read as those, whatever
lines follow. So the statements of a document are those of its parts, one after the other
(`Says.append`, `Says.flatMap`), and so are its sections (`sections_append`). In the root table the
tables of an array stand under one key (`Entries.listed`), where each header adds one more
(`addElement_listed`), and headers below it change the last (`atPath_listed`).
-/

namespace Pinfile.Toml

variable {cs ds rest : List Char} {name : List Char} {room : Nat}

/-! ## Keys -/

/-- The text goes on with something else than a character of a key without quotes. -/
def EndsKey (rest : List Char) : Prop := ∀ c ∈ rest.head?, isBareChar c = false

/-- A key that needs no quotes. -/
structure IsBare (name : List Char) : Prop where
  ne_nil : name ≠ []
  chars : ∀ c ∈ name, isBareChar c = true

instance (name : List Char) : Decidable (IsBare name) :=
  decidable_of_iff (name ≠ [] ∧ name.all isBareChar = true)
    ⟨fun h => ⟨h.1, List.all_eq_true.mp h.2⟩, fun h => ⟨h.ne_nil, List.all_eq_true.mpr h.chars⟩⟩

theorem IsBare.exists_cons (h : IsBare name) : ∃ c more, name = c :: more ∧ isBareChar c = true := by
  cases name with
  | nil => exact absurd rfl h.ne_nil
  | cons c more => exact ⟨c, more, rfl, h.chars c (by simp)⟩

/-- A character of a key without quotes begins nothing else. -/
theorem ne_of_isBareChar {c d : Char} (h : isBareChar c = true) (hd : isBareChar d = false) :
    c ≠ d := by
  rintro rfl
  rw [h] at hd
  cases hd

theorem IsBare.skipGap_append (h : IsBare name) (rest : List Char) :
    skipGap (name ++ rest) = name ++ rest := by
  obtain ⟨c, more, rfl, hc⟩ := h.exists_cons
  have hgap : isGap c = false := by
    simp [isGap, ne_of_isBareChar hc (d := ' ') (by decide),
      ne_of_isBareChar hc (d := '\t') (by decide)]
  exact List.dropWhile_cons_of_neg (by simp [hgap])

theorem readKeyPart_append (h : IsBare name) (hrest : EndsKey rest) :
    readKeyPart (name ++ rest) = some (String.ofList name, rest) := by
  have htake : (name ++ rest).takeWhile isBareChar = name := by
    rw [List.takeWhile_append_of_pos h.chars]
    cases rest with
    | nil => simp
    | cons c rest => simp [hrest c rfl]
  have hdrop : (name ++ rest).dropWhile isBareChar = rest := by
    rw [List.dropWhile_append_of_pos h.chars]
    exact Text.dropWhile_eq_self hrest
  have hquoted : Quoted.readShort (name ++ rest) = none := by
    obtain ⟨c, more, rfl, hc⟩ := h.exists_cons
    have hd := ne_of_isBareChar hc (d := '"') (by decide)
    have hs := ne_of_isBareChar hc (d := '\'') (by decide)
    unfold Quoted.readShort
    split
    · next heq => exact absurd (List.cons.inj heq).1 hd
    · next heq => exact absurd (List.cons.inj heq).1 hs
    · rfl
  rw [readKeyPart, hquoted]
  dsimp only
  rw [htake, hdrop, if_neg (by simpa using h.ne_nil)]

/-- The last part of a key. -/
theorem readKey_append (h : IsBare name) (hrest : EndsKey rest)
    (hdot : ∀ c ∈ (skipGap rest).head?, c ≠ '.') :
    readKey (room + 1) (name ++ rest) = some ([String.ofList name], skipGap rest) := by
  rw [readKey, h.skipGap_append, readKeyPart_append h hrest]
  dsimp only
  split
  · next heq => exact absurd rfl (hdot '.' (by rw [heq]; rfl))
  · rfl

/-- A part of a key before a dot. -/
theorem readKey_append_dot (h : IsBare name) (rest : List Char) :
    readKey (room + 1) (name ++ '.' :: rest) =
      (readKey room rest).map fun (parts, rest) => (String.ofList name :: parts, rest) := by
  rw [readKey, h.skipGap_append, readKeyPart_append h (by rintro c ⟨⟩; rfl)]
  rfl

/-! ## Values -/

/-- The text begins a value: no blank comes first. -/
def BeginsValue (value : List Char) : Prop := ∃ c more, value = c :: more ∧ isGap c = false

theorem BeginsValue.skipGap_append {value : List Char} (h : BeginsValue value) (rest : List Char) :
    skipGap (value ++ rest) = value ++ rest := by
  obtain ⟨c, more, rfl, hc⟩ := h
  exact List.dropWhile_cons_of_neg (by simp [hc])

theorem exists_write_eq_cons (cs : List Char) :
    ∃ c more, Quoted.write cs = c :: more ∧ (c = '"' ∨ c = '\'') := by
  unfold Quoted.write
  dsimp only
  split_ifs
  · exact ⟨'"', _, rfl, Or.inl rfl⟩
  · exact ⟨'\'', _, rfl, Or.inr rfl⟩
  · exact ⟨'"', _, rfl, Or.inl rfl⟩
  · exact ⟨'\'', _, rfl, Or.inr rfl⟩
  · exact ⟨'"', _, rfl, Or.inl rfl⟩
  · exact ⟨'"', _, rfl, Or.inl rfl⟩

theorem beginsValue_write (cs : List Char) : BeginsValue (Quoted.write cs) := by
  obtain ⟨c, more, hwrite, rfl | rfl⟩ := exists_write_eq_cons cs
  · exact ⟨_, _, hwrite, rfl⟩
  · exact ⟨_, _, hwrite, rfl⟩

/-- A quoted text is read as a string. -/
theorem readValue_write (hrest : Quoted.NoQuote rest) (cs : List Char) :
    readValue room (Quoted.write cs ++ rest) = some (.string (String.ofList cs), rest) := by
  have hread := Quoted.read_write hrest cs
  obtain ⟨c, more, hwrite, hc⟩ := exists_write_eq_cons cs
  rw [hwrite, List.cons_append] at hread ⊢
  rcases hc with rfl | rfl
  · rw [readValue, if_pos (Or.inl rfl), hread]
    · rfl
    · decide
    · decide
  · rw [readValue, if_pos (Or.inr rfl), hread]
    · rfl
    · decide
    · decide

/-- The empty array. -/
theorem readValue_emptyArray (rest : List Char) :
    readValue (room + 1) ('[' :: ']' :: rest) = some (.array .bracket [], rest) := by
  have hskip : skipLines (']' :: rest) = ']' :: rest := by
    rw [skipLines]
    rfl
  have hitems : readItems (readValue room) (']' :: rest) = some ([], rest) := by
    rw [readItems, hskip]
    rfl
  rw [readValue, hitems]
  rfl

/-! ## Lines -/

/-- A line that begins with a key without quotes is a pair. -/
theorem readStatement_append (h : IsBare name) (rest : List Char) :
    readStatement (name ++ rest) = (readPair (readValue maxDepth) (name ++ rest)).map
      fun ((key, v), rest) => (.pair key v, rest) := by
  have hgap := h.skipGap_append rest
  obtain ⟨c, more, rfl, hc⟩ := h.exists_cons
  have hne : ∀ d, isBareChar d = false → c ≠ d := fun d => ne_of_isBareChar hc
  refine readStatement_of_pair hgap ?_ (hne '[' rfl)
  rintro (hcomment | hfeed | hreturn)
  · exact hne '#' rfl hcomment
  · exact hne '\n' rfl hfeed
  · exact hne '\r' rfl hreturn

/-- A key and a value on a line of their own are a pair. -/
theorem readLine_pair {value : List Char} {v : Value} (hname : IsBare name)
    (hvalue : BeginsValue value)
    (hread : readValue maxDepth (value ++ '\n' :: rest) = some (v, '\n' :: rest)) :
    readLine (name ++ (" = ".toList ++ (value ++ '\n' :: rest))) =
      some (.pair [String.ofList name] v, rest) := by
  have hkey : readKey maxDepth (name ++ (" = ".toList ++ (value ++ '\n' :: rest))) =
      some ([String.ofList name], '=' :: ' ' :: (value ++ '\n' :: rest)) :=
    readKey_append hname (by rintro c ⟨⟩; rfl) (by rintro c ⟨⟩; decide)
  have hgap : skipGap (' ' :: (value ++ '\n' :: rest)) = value ++ '\n' :: rest :=
    (List.dropWhile_cons_of_pos rfl).trans (hvalue.skipGap_append _)
  have hpair : readPair (readValue maxDepth) (name ++ (" = ".toList ++ (value ++ '\n' :: rest))) =
      some (([String.ofList name], v), '\n' :: rest) := by
    rw [readPair, hkey]
    show Option.map _ (readValue maxDepth (skipGap (' ' :: _))) = _
    rw [hgap, hread]
    rfl
  have hstatement : readStatement (name ++ (" = ".toList ++ (value ++ '\n' :: rest))) =
      some (.pair [String.ofList name] v, '\n' :: rest) := by
    rw [readStatement_append hname, hpair]
    rfl
  rw [readLine, hstatement]
  rfl

/-- A header of an array of tables. -/
theorem readLine_element {header : List Char} {key : List String}
    (h : ∀ rest, readKey maxDepth (header ++ ']' :: rest) = some (key, ']' :: rest))
    (rest : List Char) :
    readLine ('[' :: '[' :: (header ++ ']' :: ']' :: '\n' :: rest)) =
      some (.header (.element key), rest) := by
  have hstatement : readStatement ('[' :: '[' :: (header ++ ']' :: ']' :: '\n' :: rest)) =
      some (.header (.element key), '\n' :: rest) := by
    rw [readStatement_of_element rfl]
    exact readHeader_of_readKey .element (h (']' :: '\n' :: rest))
  rw [readLine, hstatement]
  rfl

theorem readLine_lineFeed (rest : List Char) : readLine ('\n' :: rest) = some (.blank, rest) := rfl

/-! ## Texts of whole lines -/

/-- The text says the statements: it is read as them, whatever lines come after it. -/
def Says (cs : List Char) (ss : List Statement) : Prop :=
  ∀ rest, readLines (cs ++ rest) = (readLines rest).map (ss ++ ·)

namespace Says

variable {ss ts : List Statement} {s : Statement}

theorem nil : Says [] [] := by
  intro rest
  cases h : readLines rest <;> simp [h]

theorem append (h : Says cs ss) (h' : Says ds ts) : Says (cs ++ ds) (ss ++ ts) := by
  intro rest
  rw [List.append_assoc, h, h']
  cases readLines rest <;> simp

theorem flatMap {α : Type} {f : α → List Char} {g : α → List Statement} (h : ∀ a, Says (f a) (g a))
    (as : List α) : Says (as.flatMap f) (as.flatMap g) := by
  induction as with
  | nil => exact nil
  | cons a as ih => exact (h a).append ih

/-- A line says its statement. -/
theorem of_readLine (hne : cs ≠ []) (h : ∀ rest, readLine (cs ++ rest) = some (s, rest)) :
    Says cs [s] := by
  intro rest
  have hshort : rest.length < (cs ++ rest).length := by
    have := List.length_pos_iff.mpr hne
    rw [List.length_append]
    omega
  rw [readLines, if_neg (by simp [hne]), h]
  dsimp only
  rw [if_pos hshort]
  rfl

/-- A text that says statements is read as those, when nothing follows. -/
theorem readLines_eq (h : Says cs ss) : readLines cs = some ss := by
  have hall := h []
  rw [List.append_nil] at hall
  rw [hall, readLines, if_pos List.isEmpty_nil, Option.map_some, List.append_nil]

end Says

/-! ## Sections -/

/-- Lines that begin with a header make sections of their own. -/
theorem sections_append {ts : List Statement} (h : (sections ts).1 = []) (ss : List Statement) :
    sections (ss ++ ts) = ((sections ss).1, (sections ss).2 ++ (sections ts).2) := by
  induction ss with
  | nil => exact Prod.ext h rfl
  | cons s ss ih => cases s <;> simp [sections, ih]

theorem sections_flatMap {α : Type} {f : α → List Statement} (h : ∀ a, (sections (f a)).1 = [])
    (as : List α) :
    sections (as.flatMap f) = ([], as.flatMap fun a => (sections (f a)).2) := by
  induction as with
  | nil => rfl
  | cons a as ih => rw [List.flatMap_cons, sections_append (by rw [ih]), ih, h, List.flatMap_cons]

theorem addSections_append (root : Entries) (hs more : List (Header × List (List String × Value))) :
    addSections root (hs ++ more) = (addSections root hs).bind fun root => addSections root more := by
  induction hs generalizing root with
  | nil => rfl
  | cons h hs ih =>
    obtain ⟨h, pairs⟩ := h
    rw [List.cons_append, addSections, addSections, Option.bind_assoc]
    exact congrArg _ (funext ih)

namespace Entries

/-! ## Arrays of tables -/

variable {entries below : Entries} {key : String} {items : List Value} {v w : Value}

theorem value?_append_self (h : entries.value? key = none) :
    value? (entries ++ [(key, v)]) key = some v := by
  rw [value?_append_of_none h]
  simp [value?]

/-- The value of the last key is replaced. -/
theorem replace_append_self (h : entries.value? key = none) :
    replace (entries ++ [(key, v)]) key w = entries ++ [(key, w)] := by
  have hkeep : ∀ e ∈ entries, (if e.1 == key then (key, w) else e) = e := by
    intro e he
    have hne : key ≠ e.1 := by simpa using List.lookup_eq_none_iff.mp h e he
    rw [if_neg (by simp [Ne.symm hne])]
  rw [replace, List.map_append, List.map_congr_left hkeep]
  simp

/-- The tables of an array, under the key of the array. A document without any such table does not
have the key. -/
def listed (key : String) (items : List Value) : Entries :=
  if items.isEmpty then [] else [(key, .array .headers items)]

theorem listed_append_singleton (key : String) (items : List Value) (v : Value) :
    listed key (items ++ [v]) = [(key, .array .headers (items ++ [v]))] := by
  simp [listed]

/-- An element goes to the end of its array, and the first one begins it. -/
theorem addElement_listed {pairs : List (List String × Value)} (h : entries.value? key = none)
    (hpairs : addPairs [] pairs = some below) :
    addElement key pairs (entries ++ listed key items) =
      some (entries ++ listed key (items ++ [.table .header below])) := by
  rw [listed_append_singleton, listed]
  cases items with
  | nil =>
    rw [if_pos List.isEmpty_nil, List.append_nil, addElement, h, hpairs]
    rfl
  | cons item items =>
    rw [if_neg (by simp), addElement, value?_append_self h]
    simp only [hpairs, Option.map_some, replace_append_self h]

/-- What lies below an array of tables is changed in its last element. -/
theorem atPath_listed {f : Entries → Option Entries} (h : entries.value? key = none)
    {changed : Entries} (hf : f below = some changed) :
    atPath f [key] (entries ++ listed key (items ++ [.table .header below])) =
      some (entries ++ listed key (items ++ [.table .header changed])) := by
  rw [listed_append_singleton, listed_append_singleton, atPath, value?_append_self h]
  simp [updateLast, atPath, hf, replace_append_self h]

end Entries
end Pinfile.Toml
