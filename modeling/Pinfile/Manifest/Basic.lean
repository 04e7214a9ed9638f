import Pinfile.Name
import Pinfile.Text.Blank

/-!
# Manifests

A manifest is a list of named groups. A group holds entries in the order of the text: *pins*, each
fixing one package to one version, and *markers*, each asking that the project at some path be
installed in editable form. The number of the line an entry was read from is kept for messages and
is no part of what the manifest says: `Manifest.Same` compares manifests without it.
-/

namespace Pinfile

/-- A package fixed to a version. An override may replace the version of an earlier layer. -/
structure Pin where
  name : PackageName
  version : String
  isOverride : Bool := false
  /-- The line the pin was read from, or 0. -/
  line : Nat := 0
deriving DecidableEq, Repr

/-- A path to be installed in editable form, with the optional features to be installed. -/
structure Marker where
  path : String
  extras : List String := []
  /-- The line the marker was read from, or 0. -/
  line : Nat := 0
deriving DecidableEq, Repr

/-- One line of a group that is no comment. -/
inductive Entry where
  | pin (pin : Pin)
  | editable (marker : Marker)
deriving DecidableEq, Repr

/-- A named group. Its ordinal is meant to be its position in the manifest. -/
structure Group where
  name : String
  ordinal : Nat := 0
  entries : List Entry := []
deriving DecidableEq, Repr

/-- A list of named groups. -/
structure Manifest where
  groups : List Group := []
deriving DecidableEq, Repr, Inhabited

/-! ## Pins, markers and entries -/

/-- The key of the package that is pinned. -/
def Pin.key (p : Pin) : String := p.name.key

/-- Two markers ask for the same thing, whatever lines they stand on. -/
def Marker.same (a b : Marker) : Bool := a.path == b.path && a.extras == b.extras

/-- The path with its features in brackets. -/
def Marker.target (m : Marker) : String :=
  if m.extras.isEmpty then m.path else m.path ++ "[" ++ String.intercalate "," m.extras ++ "]"

/-- The pin of an entry, if it is one. -/
def Entry.pin? : Entry → Option Pin
  | .pin p => some p
  | .editable _ => none

/-- The marker of an entry, if it is one. -/
def Entry.marker? : Entry → Option Marker
  | .pin _ => none
  | .editable m => some m

/-! ## Groups -/

namespace Group

/-- The pins of a group in order. -/
def pins (g : Group) : List Pin := g.entries.filterMap Entry.pin?

/-- The markers of a group in order. -/
def markers (g : Group) : List Marker := g.entries.filterMap Entry.marker?

/-- What two spellings of one group name have in common. -/
def key (g : Group) : String := Text.lowercase g.name

/-- Whether the name, without the blanks around it, names the group up to letter case. -/
def isNamed (g : Group) (name : String) : Bool := g.key == Text.lowercase (Text.trimmed name)

/-- The group with one more entry at its end. -/
def push (g : Group) (e : Entry) : Group := { g with entries := g.entries ++ [e] }

@[simp] theorem name_push (g : Group) (e : Entry) : (g.push e).name = g.name := rfl

@[simp] theorem entries_push (g : Group) (e : Entry) :
    (g.push e).entries = g.entries ++ [e] := rfl

end Group

/-! ## Manifests -/

namespace Manifest

/-- The manifest with the given groups, each numbered by its position. -/
def ofGroups (groups : List Group) : Manifest :=
  ⟨groups.mapIdx fun i g => { g with ordinal := i }⟩

/-- The first group that goes by the name. -/
def group? (m : Manifest) (name : String) : Option Group := m.groups.find? (·.isNamed name)

/-- Every pin in order, with its group. -/
def pins (m : Manifest) : List (Group × Pin) :=
  m.groups.flatMap fun g => g.pins.map fun p => (g, p)

/-- Every marker in order, with its group. -/
def markers (m : Manifest) : List (Group × Marker) :=
  m.groups.flatMap fun g => g.markers.map fun k => (g, k)

/-- The number of pins. -/
def pinCount (m : Manifest) : Nat := m.pins.length

@[simp] theorem groups_ofGroups (groups : List Group) :
    (ofGroups groups).groups = groups.mapIdx fun i g => { g with ordinal := i } := rfl

theorem map_name_ofGroups (groups : List Group) :
    (ofGroups groups).groups.map Group.name = groups.map Group.name := by
  rw [groups_ofGroups]
  refine List.ext_getElem (by simp) fun i hi hi' => ?_
  simp

theorem map_ordinal_ofGroups (groups : List Group) :
    (ofGroups groups).groups.map Group.ordinal = List.range (ofGroups groups).groups.length := by
  rw [groups_ofGroups]
  refine List.ext_getElem (by simp) fun i hi hi' => ?_
  simp

end Manifest

/-! ## Equality up to lines -/

/-- The entry with its line forgotten. -/
def Entry.withoutLine : Entry → Entry
  | .pin p => .pin { p with line := 0 }
  | .editable m => .editable { m with line := 0 }

/-- The group with the lines of its entries forgotten. -/
def Group.withoutLines (g : Group) : Group :=
  { g with entries := g.entries.map Entry.withoutLine }

/-- The manifest with the lines of its entries forgotten. -/
def Manifest.withoutLines (m : Manifest) : Manifest := ⟨m.groups.map Group.withoutLines⟩

/-- Two manifests say the same: they agree in everything but the lines of their entries. -/
def Manifest.Same (a b : Manifest) : Prop := a.withoutLines = b.withoutLines

instance (a b : Manifest) : Decidable (a.Same b) :=
  inferInstanceAs (Decidable (a.withoutLines = b.withoutLines))

theorem Manifest.Same.refl (m : Manifest) : m.Same m := rfl

theorem Manifest.Same.symm {a b : Manifest} (h : a.Same b) : b.Same a := Eq.symm h

theorem Manifest.Same.trans {a b c : Manifest} (h : a.Same b) (h' : b.Same c) : a.Same c :=
  Eq.trans h h'

/-- Markers are the same exactly when they are equal up to their lines. -/
theorem Marker.same_iff (a b : Marker) :
    a.same b = true ↔ ({ a with line := 0 } : Marker) = { b with line := 0 } := by
  simp [Marker.same]

end Pinfile
