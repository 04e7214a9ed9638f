import Pinfile.Manifest.Basic
import Pinfile.Problem
import Pinfile.Repeats

/-!
# Layers of manifests

Manifests are merged from the lowest layer to the highest. The lowest is taken as it is. A group of
a higher layer goes to the first merged group of the same name up to letter case, or to a new group
at the end. A marker is added unless the same marker stands somewhere already. A pin is compared
with the version that is *in force* for its package, which is the version that the layers below have
left with the package's first pin:

* an equal version, or a package that no lower layer pins, is accepted;
* a pin marked as an override replaces the version of every pin of its package in the lower layers,
  and its version is in force from then on;
* any other pin is a conflict and is dropped.

An accepted pin is added unless the lower layers have already put its package into the group. What
the current layer has added itself is not looked at: two pins of one layer that disagree are left
for validation to find. Merging goes on after a conflict, so all conflicts are reported together.

Every merged group therefore keeps apart the entries of the layers below and those that the current
layer has added; a layer changes nothing but the versions of the former (`Slot.shape_retarget`).
-/

namespace Pinfile

/-! ## Entries up to their versions -/

/-- The pin with another version. -/
def Pin.withVersion (p : Pin) (version : String) : Pin := { p with version }

/-- The entry, with the given version if it pins the package with the given key. -/
def Entry.retarget (key version : String) : Entry → Entry
  | .pin p => .pin (if p.key = key then p.withVersion version else p)
  | .editable m => .editable m

/-- The entry pins the package with the given key. -/
def Entry.pinsKey (key : String) (e : Entry) : Bool :=
  match e with
  | .pin p => p.key == key
  | .editable _ => false

/-- The entry is a marker that asks for the same as `m`. -/
def Entry.isMarkerLike (m : Marker) (e : Entry) : Bool :=
  match e with
  | .pin _ => false
  | .editable k => k.same m

/-- The entry without the version, if it is a pin. -/
def Entry.shape : Entry → Entry
  | .pin p => .pin (p.withVersion "")
  | .editable m => .editable m

@[simp] theorem Pin.key_withVersion (p : Pin) (version : String) :
    (p.withVersion version).key = p.key := rfl

@[simp] theorem Entry.shape_retarget (key version : String) (e : Entry) :
    (e.retarget key version).shape = e.shape := by
  cases e with
  | pin p =>
    simp only [Entry.retarget]
    split <;> rfl
  | editable m => rfl

@[simp] theorem Entry.pinsKey_retarget (k key version : String) (e : Entry) :
    (e.retarget key version).pinsKey k = e.pinsKey k := by
  cases e with
  | pin p =>
    simp only [Entry.retarget, Entry.pinsKey]
    split <;> rfl
  | editable m => rfl

namespace Merge

/-! ## The state of a merge -/

/-- A merged group, with the entries that the layers below have left apart from those that the
current layer has added. -/
structure Slot where
  name : String
  prior : List Entry := []
  added : List Entry := []
deriving DecidableEq, Repr

namespace Slot

/-- All entries of the group in order. -/
def entries (s : Slot) : List Entry := s.prior ++ s.added

/-- The group once the current layer is done. -/
def settle (s : Slot) : Slot := ⟨s.name, s.entries, []⟩

/-- What two spellings of the group's name have in common. -/
def key (s : Slot) : String := Text.lowercase s.name

/-- The group with one more entry of the current layer. -/
def push (s : Slot) (e : Entry) : Slot := { s with added := s.added ++ [e] }

/-- The layers below have put the package into the group. -/
def hasPrior (s : Slot) (key : String) : Bool := s.prior.any (·.pinsKey key)

/-- Gives every pin of the package in the layers below the version. -/
def retarget (key version : String) (s : Slot) : Slot :=
  { s with prior := s.prior.map (·.retarget key version) }

/-- The pins of the layers below, each with the name of the group. -/
def priorPins (s : Slot) : List (String × Pin) :=
  (s.prior.filterMap Entry.pin?).map fun p => (s.name, p)

/-- The group as a group of a manifest. -/
def toGroup (s : Slot) : Group := { name := s.name, entries := s.entries }

/-- The merged group that a group of the lowest layer begins. -/
def ofGroup (g : Group) : Slot := { name := g.name, prior := g.entries }

@[simp] theorem name_retarget (key version : String) (s : Slot) :
    (s.retarget key version).name = s.name := rfl

@[simp] theorem added_retarget (key version : String) (s : Slot) :
    (s.retarget key version).added = s.added := rfl

/-- An override changes nothing but versions. -/
@[simp] theorem shape_retarget (key version : String) (s : Slot) :
    (s.retarget key version).prior.map Entry.shape = s.prior.map Entry.shape := by
  simp [retarget, Function.comp_def]

@[simp] theorem hasPrior_retarget (k key version : String) (s : Slot) :
    (s.retarget key version).hasPrior k = s.hasPrior k := by
  simp [retarget, hasPrior, Function.comp_def]

@[simp] theorem entries_settle (s : Slot) : s.settle.entries = s.entries := by
  simp [settle, entries]

end Slot

/-- The version in force for a package, and the group in which the package stands first. -/
structure InForce where
  key : String
  group : String
  version : String
deriving DecidableEq, Repr

/-- Where a merge stands: the merged groups, what is in force for the current layer, and the
conflicts found so far. -/
structure State where
  slots : List Slot := []
  inForce : List InForce := []
  problems : List Problem := []
deriving DecidableEq, Repr

/-! ## One entry -/

namespace State

/-- What is in force for the package with the given key. -/
def inForce? (s : State) (key : String) : Option InForce := s.inForce.find? (·.key == key)

/-- Changes the group at the given position. -/
def modifySlot (s : State) (i : Nat) (f : Slot → Slot) : State :=
  { s with slots := s.slots.modify i f }

/-- Gives a package the version in all lower layers and puts that version in force. -/
def retarget (s : State) (key version : String) : State :=
  { s with
    slots := s.slots.map (Slot.retarget key version)
    inForce := s.inForce.map fun f => if f.key = key then { f with version } else f }

/-- Adds a pin to the group at the given position, unless the lower layers have already put its
package there. -/
def place (s : State) (i : Nat) (p : Pin) : State :=
  s.modifySlot i fun slot => if slot.hasPrior p.key then slot else slot.push (.pin p)

/-- The conflict of a pin with what is in force. -/
def conflict (earlier : InForce) (group : String) (p : Pin) : Problem :=
  .crossGroupConflict p.name.text earlier.group earlier.version group p.version

/-- Adds a conflict. -/
def report (s : State) (problem : Problem) : State :=
  { s with problems := s.problems ++ [problem] }

/-- Merges a pin that the current layer has in the named group into the group at position `i`. -/
def addPin (s : State) (i : Nat) (group : String) (p : Pin) : State :=
  match s.inForce? p.key with
  | none => s.place i p
  | some earlier =>
    if earlier.version = p.version then s.place i p
    else if p.isOverride then (s.retarget p.key p.version).place i p
    else s.report (conflict earlier group p)

/-- Some merged group holds a marker that asks for the same. -/
def hasMarker (s : State) (m : Marker) : Bool :=
  s.slots.any fun slot => slot.entries.any (·.isMarkerLike m)

/-- Merges a marker into the group at position `i`. -/
def addMarker (s : State) (i : Nat) (m : Marker) : State :=
  if s.hasMarker m then s else s.modifySlot i (·.push (.editable m))

/-- Merges an entry that the current layer has in the named group into the group at position
`i`. -/
def addEntry (i : Nat) (group : String) (s : State) : Entry → State
  | .pin p => s.addPin i group p
  | .editable m => s.addMarker i m

/-! ## Groups and layers -/

/-- The position of the group that goes by the name. It is a new group when there is none. -/
def openSlot (s : State) (name : String) : State × Nat :=
  match s.slots.findIdx? fun slot => slot.key == Text.lowercase name with
  | some i => (s, i)
  | none => ({ s with slots := s.slots ++ [{ name }] }, s.slots.length)

/-- Merges a group of the current layer. -/
def addGroup (s : State) (g : Group) : State :=
  let (s, i) := s.openSlot g.name
  g.entries.foldl (addEntry i g.name) s

/-- What is in force for the layer above the given groups: the first pin of every package. -/
def indexPrior (slots : List Slot) : List InForce :=
  (firsts (fun owned => owned.2.key) (slots.flatMap Slot.priorPins)).map fun (group, p) =>
    ⟨p.key, group, p.version⟩

/-- Makes the layers merged so far the lower layers of the next one. -/
def nextLayer (s : State) : State :=
  let slots := s.slots.map Slot.settle
  { s with slots, inForce := indexPrior slots }

/-- Merges a layer on top of those merged so far. -/
def addLayer (s : State) (layer : Manifest) : State := layer.groups.foldl addGroup s.nextLayer

/-- The lowest layer alone. -/
def ofBase (base : Manifest) : State := { slots := base.groups.map Slot.ofGroup }

/-- The merged manifest, or all conflicts. -/
def finish (s : State) : Except Report Manifest :=
  (Report.ofProblems s.problems).map fun _ => Manifest.ofGroups (s.slots.map Slot.toGroup)

end State
end Merge

/-- Merges manifests, the lowest layer first. -/
def Manifest.merge : List Manifest → Except Report Manifest
  | [] => .ok {}
  | base :: layers => (layers.foldl Merge.State.addLayer (.ofBase base)).finish

namespace Merge.State

/-! ## Small laws -/

@[simp] theorem problems_place (s : State) (i : Nat) (p : Pin) :
    (s.place i p).problems = s.problems := rfl

@[simp] theorem inForce_place (s : State) (i : Nat) (p : Pin) :
    (s.place i p).inForce = s.inForce := rfl

@[simp] theorem length_slots_retarget (s : State) (key version : String) :
    (s.retarget key version).slots.length = s.slots.length := by simp [retarget]

@[simp] theorem length_slots_modifySlot (s : State) (i : Nat) (f : Slot → Slot) :
    (s.modifySlot i f).slots.length = s.slots.length := by simp [modifySlot]

/-- Merging an entry adds no group. -/
@[simp] theorem length_slots_addEntry (i : Nat) (group : String) (s : State) (e : Entry) :
    (s.addEntry i group e).slots.length = s.slots.length := by
  cases e with
  | pin p =>
    simp only [addEntry, addPin]
    split
    · simp [place]
    · split
      · simp [place]
      · split <;> simp [place, report]
  | editable m =>
    simp only [addEntry, addMarker]
    split <;> simp

end Merge.State
end Pinfile
