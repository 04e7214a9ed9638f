import Pinfile.Manifest.Basic
import Pinfile.Json.Reader
import Pinfile.Text.Digits

/-!
# Manifests as JSON

A manifest is an object of its groups, a group an object of its name, ordinal and entries, and an
entry an object whose member `kind` tells pins from markers. Lines are not written. Reading is
generous in two ways: unknown members are passed over, and an object may be given as the list of its
members' values in order. It is strict in everything else: a missing member, a value of another
type, an ordinal that is not below `2 ^ 64` or an unknown kind makes the whole value unreadable.
Nothing about the names, versions or ordinals is checked.
-/

namespace Pinfile

namespace Json

/-! ## Typed access -/

/-- The text of a string value. -/
def asString? : Json → Option String
  | .string text => some text
  | _ => none

/-- The truth value of a boolean. -/
def asBool? : Json → Option Bool
  | .bool b => some b
  | _ => none

/-- The items of an array. -/
def asItems? : Json → Option (List Json)
  | .array items => some items
  | _ => none

/-- The least number that a count cannot hold. -/
def countBound : Nat := UInt64.size

/-- The value of a number literal that is a count: digits alone, below `2 ^ 64`. -/
def asCount? : Json → Option Nat
  | .number literal =>
    let digits := literal.toList
    if !digits.isEmpty && digits.all Char.isDigit && Text.ofDigits digits < countBound then
      some (Text.ofDigits digits)
    else none
  | _ => none

/-- Reads every item of an array with the given reader. -/
def asList? {α : Type} (read : Json → Option α) (value : Json) : Option (List α) :=
  value.asItems?.bind fun items => items.mapM read

/-- The values of the named members of an object, `none` for the absent ones. A list stands for an
object that has its items, in order, as the values of the first names. -/
def fields? (names : List String) : Json → Option (List (Option Json))
  | .object members => some (names.map (member? members))
  | .array items =>
    if items.length ≤ names.length then
      some (items.map some ++ List.replicate (names.length - items.length) none)
    else none
  | _ => none

/-- Reads a member that may be absent. -/
def optional {α : Type} (read : Json → Option α) (default : α) : Option Json → Option α
  | none => some default
  | some value => read value

end Json

/-! ## Writing -/

/-- An entry as JSON. -/
def Entry.toJson : Entry → Json
  | .pin p => .object [("kind", .string "pin"), ("name", .string p.name.text),
      ("version", .string p.version), ("override", .bool p.isOverride)]
  | .editable m => .object [("kind", .string "editable"), ("path", .string m.path),
      ("extras", .array (m.extras.map .string))]

/-- A group as JSON. -/
def Group.toJson (g : Group) : Json :=
  .object [("name", .string g.name), ("ordinal", .ofNat g.ordinal),
    ("entries", .array (g.entries.map Entry.toJson))]

/-- A manifest as JSON. -/
def Manifest.toJson (m : Manifest) : Json := .object [("groups", .array (m.groups.map Group.toJson))]

/-! ## Reading -/

/-- Reads the members of a pin. -/
def Pin.ofFields? : List (Option Json) → Option Pin
  | [some name, some version, isOverride] => do
    let name ← name.asString?
    let version ← version.asString?
    let isOverride ← Json.optional Json.asBool? false isOverride
    return { name := ⟨name⟩, version, isOverride }
  | _ => none

/-- Reads the members of a marker. -/
def Marker.ofFields? : List (Option Json) → Option Marker
  | [some path, extras] => do
    let path ← path.asString?
    let extras ← Json.optional (Json.asList? Json.asString?) [] extras
    return { path, extras }
  | _ => none

/-- Reads an entry of the given kind from what holds its other members. -/
def Entry.ofKind? (kind : String) (rest : Json) : Option Entry :=
  if kind = "pin" then
    ((rest.fields? ["name", "version", "override"]).bind Pin.ofFields?).map .pin
  else if kind = "editable" then
    ((rest.fields? ["path", "extras"]).bind Marker.ofFields?).map .editable
  else none

/-- Reads an entry. -/
def Entry.ofJson? (value : Json) : Option Entry :=
  match value with
  | .object members => do
    let kind ← (← Json.member? members "kind").asString?
    ofKind? kind value
  | .array (kind :: rest) => do ofKind? (← kind.asString?) (.array rest)
  | _ => none

/-- Reads a group. -/
def Group.ofJson? (value : Json) : Option Group := do
  match ← value.fields? ["name", "ordinal", "entries"] with
  | [some name, some ordinal, some entries] =>
    let name ← name.asString?
    let ordinal ← ordinal.asCount?
    let entries ← entries.asList? Entry.ofJson?
    return { name, ordinal, entries }
  | _ => none

/-- Reads a manifest. -/
def Manifest.ofJson? (value : Json) : Option Manifest := do
  match ← value.fields? ["groups"] with
  | [some groups] => return ⟨← groups.asList? Group.ofJson?⟩
  | _ => none

/-! ## Small laws -/

@[simp] theorem Json.asString?_string (s : String) : (Json.string s).asString? = some s := rfl

@[simp] theorem Json.asBool?_bool (b : Bool) : (Json.bool b).asBool? = some b := rfl

/-- A list of readable items is read as a whole. -/
theorem Json.asList?_array_map {α β : Type} {read : Json → Option β} {write : α → Json}
    {result : α → β} {as : List α} (h : ∀ a ∈ as, read (write a) = some (result a)) :
    (Json.array (as.map write)).asList? read = some (as.map result) := by
  change (as.map write).mapM read = _
  induction as with
  | nil => rfl
  | cons a as ih =>
    obtain ⟨ha, has⟩ := List.forall_mem_cons.mp h
    rw [List.map_cons, List.mapM_cons, ha, ih has]
    rfl

/-- An entry is read back from its JSON, without its line. -/
@[simp] theorem Entry.ofJson?_toJson (e : Entry) : Entry.ofJson? e.toJson = some e.withoutLine := by
  cases e with
  | pin p => rfl
  | editable m =>
    have h : (Json.array (m.extras.map Json.string)).asList? Json.asString? = some m.extras := by
      have := Json.asList?_array_map fun s (_ : s ∈ m.extras) => Json.asString?_string s
      simpa using this
    simp [Entry.toJson, Entry.ofJson?, Entry.ofKind?, Json.member?, Json.fields?, Marker.ofFields?,
      Json.optional, h, Entry.withoutLine]

example : (Entry.ofJson? (.array [.string "pin", .string "x", .string "1"])) =
    some (.pin ⟨⟨"x"⟩, "1", false, 0⟩) := by decide +kernel

end Pinfile
