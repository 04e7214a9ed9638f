/-!
# TOML values

The values of a TOML document as far as a reader of records needs them: of floats and date-times
only their kind is kept. Tables and arrays remember how they came to be, because that decides
whether a later line of the document may add to them.

The second part of the module adds lines to a table. A pair `a.b.c = v` goes down through tables
that only exist because other lines lie below them, and makes the tables that are missing. A header
`[a.b]` goes down through every table that is no value of a pair; `[[a.b]]` begins another element
of the array it names. Both go down into the last element of an array of tables.

The third part reads records, which have named fields. A record is written as a table, whose other
keys are passed over; an array gives the fields by position, and its further items are passed over as
well. A date-time is a record that has none of the fields. Every other value is no record.
-/

namespace Pinfile.Toml

/-- How a table came to be. -/
inductive TableOrigin where
  /-- The value of a pair, in braces. -/
  | inline
  /-- A table with a header of its own. -/
  | header
  /-- A table that only the headers of its parts name. -/
  | implied
  /-- A table that only dotted keys name. -/
  | dotted
deriving DecidableEq, Repr

/-- How an array came to be. -/
inductive ArrayOrigin where
  /-- The value of a pair, in brackets. -/
  | bracket
  /-- An array of tables, each with a header of its own. -/
  | headers
deriving DecidableEq, Repr

/-- A TOML value. -/
inductive Value where
  | string (text : String)
  | integer (n : Int)
  | float
  | boolean (b : Bool)
  | dateTime
  | array (origin : ArrayOrigin) (items : List Value)
  | table (origin : TableOrigin) (entries : List (String × Value))
deriving Repr

/-- The entries of a table. -/
abbrev Entries := List (String × Value)

namespace Entries

/-- The value of a key. -/
def value? (entries : Entries) (key : String) : Option Value := entries.lookup key

/-- The table with another value for a key that it has. -/
def replace (entries : Entries) (key : String) (v : Value) : Entries :=
  entries.map fun e => if e.1 == key then (key, v) else e

/-- The table with one more key, or `none` when it has the key already. -/
def addNew (entries : Entries) (key : String) (v : Value) : Option Entries :=
  match entries.value? key with
  | none => some (entries ++ [(key, v)])
  | some _ => none

/-- Changes the last element of an array of tables. -/
def updateLast (f : Entries → Option Entries) (items : List Value) : Option (List Value) :=
  match items.getLast? with
  | some (.table origin entries) =>
    (f entries).map fun entries => items.dropLast ++ [.table origin entries]
  | _ => none

/-! ## Pairs -/

/-- The tables that a dotted key names, around the value of its last part. -/
def nest (last : String) (v : Value) : List String → Value
  | [] => .table .dotted [(last, v)]
  | key :: path => .table .dotted [(key, nest last v path)]

/-- Adds a pair whose key has the given parts before its last one. A table that is there already has
to be one that dotted keys made, except that the way may pass through implied tables and arrays of
tables on its way to such a table. -/
def addPair (last : String) (v : Value) : List String → Entries → Option Entries
  | [], entries => entries.addNew last v
  | key :: path, entries =>
    match entries.value? key with
    | none => some (entries ++ [(key, nest last v path)])
    | some (.table .dotted below) =>
      (addPair last v path below).map fun below => entries.replace key (.table .dotted below)
    | some (.table .implied below) =>
      if path.isEmpty then none
      else (addPair last v path below).map fun below => entries.replace key (.table .implied below)
    | some (.array .headers items) =>
      if path.isEmpty then none
      else
        (updateLast (addPair last v path) items).map fun items =>
          entries.replace key (.array .headers items)
    | some _ => none

/-- Adds pairs, each given by its key and its value. -/
def addPairs (entries : Entries) : List (List String × Value) → Option Entries
  | [] => some entries
  | (key, v) :: rest =>
    match key.getLast? with
    | none => none
    | some last => (addPair last v key.dropLast entries).bind fun entries => addPairs entries rest

/-! ## Headers -/

/-- Changes the table that the path leads to. The tables that are missing on the way are made. -/
def atPath (f : Entries → Option Entries) : List String → Entries → Option Entries
  | [], entries => f entries
  | key :: path, entries =>
    match entries.value? key with
    | none => (atPath f path []).map fun below => entries ++ [(key, .table .implied below)]
    | some (.table .inline _) => none
    | some (.table origin below) =>
      (atPath f path below).map fun below => entries.replace key (.table origin below)
    | some (.array .headers items) =>
      (updateLast (atPath f path) items).map fun items =>
        entries.replace key (.array .headers items)
    | some _ => none

/-- Adds the table of a header with its pairs. A table may be there already when only the headers of
its parts named it. -/
def addTable (key : String) (pairs : List (List String × Value)) (entries : Entries) :
    Option Entries :=
  match entries.value? key with
  | none => (addPairs [] pairs).map fun below => entries ++ [(key, .table .header below)]
  | some (.table .implied below) =>
    (addPairs below pairs).map fun below => entries.replace key (.table .header below)
  | some _ => none

/-- Adds an element with its pairs to an array of tables. -/
def addElement (key : String) (pairs : List (List String × Value)) (entries : Entries) :
    Option Entries :=
  match entries.value? key with
  | none =>
    (addPairs [] pairs).map fun below =>
      entries ++ [(key, .array .headers [.table .header below])]
  | some (.array .headers items) =>
    (addPairs [] pairs).map fun below =>
      entries.replace key (.array .headers (items ++ [.table .header below]))
  | some _ => none

/-! ## Small laws -/

theorem value?_append_of_none {entries : Entries} {key k : String} {v : Value}
    (h : entries.value? key = none) : value? (entries ++ [(k, v)]) key = value? [(k, v)] key := by
  simp only [value?] at h ⊢
  induction entries with
  | nil => rfl
  | cons e rest ih =>
    obtain ⟨k', v'⟩ := e
    rw [List.cons_append, List.lookup_cons]
    rw [List.lookup_cons] at h
    cases hk : key == k' with
    | true => simp [hk] at h
    | false =>
      simp only [hk] at h
      exact ih h

end Entries

/-! ## Records -/

namespace Value

/-- The text of a string. -/
def asString? : Value → Option String
  | string text => some text
  | _ => none

/-- The truth value of a boolean. -/
def asBool? : Value → Option Bool
  | boolean b => some b
  | _ => none

/-- The items of an array. -/
def asItems? : Value → Option (List Value)
  | array _ items => some items
  | _ => none

/-- The items of an array, each read by the given reader. -/
def asList? {α : Type} (read : Value → Option α) (v : Value) : Option (List α) :=
  v.asItems?.bind fun items => items.mapM read

/-- The values of the named fields of a record, `none` for the absent ones. -/
def fields? (names : List String) : Value → Option (List (Option Value))
  | table _ entries => some (names.map fun name => Entries.value? entries name)
  | array _ items => some ((List.range names.length).map fun i => items[i]?)
  | dateTime => some (names.map fun _ => none)
  | _ => none

/-- Reads a field that may be absent. -/
def optional {α : Type} (read : Value → Option α) (default : α) : Option Value → Option α
  | none => some default
  | some v => read v

@[simp] theorem asString?_string (s : String) : (string s).asString? = some s := rfl

@[simp] theorem optional_none {α : Type} (read : Value → Option α) (default : α) :
    optional read default none = some default := rfl

@[simp] theorem optional_some {α : Type} (read : Value → Option α) (default : α) (v : Value) :
    optional read default (some v) = read v := rfl

end Value
end Pinfile.Toml
