import Pinfile.Validate
import Pinfile.Json.Basic

/-!
# Resolved environments

The environment of a valid manifest lists the packages of every group and the one path that is
installed in editable form, if there is one. Groups are selected by name, up to letter case and the
blanks around the name; no name at all selects every group. A selection yields one package for every
key, in the order of the keys, or the first name that no group goes by.

Two views of a selection are printed: a flat list of requirements, and a tree that keeps the groups
apart.
-/

namespace Pinfile

/-- A package with the version to install. -/
structure Package where
  name : String
  version : String
deriving DecidableEq, Repr

/-- The packages of a group in order. -/
structure PackageGroup where
  name : String
  packages : List Package := []
deriving DecidableEq, Repr

/-- A path that is installed in editable form, from the named group. -/
structure EditableInstall where
  group : String
  target : String
deriving DecidableEq, Repr

/-- What is to be installed, group by group. -/
structure Environment where
  editable : Option EditableInstall := none
  groups : List PackageGroup := []
deriving DecidableEq, Repr, Inhabited

/-- A name that no group goes by, with the names of the groups there are. -/
structure UnknownGroup where
  name : String
  available : List String
deriving DecidableEq, Repr

/-- The wording of an unknown group. -/
def UnknownGroup.message (e : UnknownGroup) : String :=
  "unknown group '" ++ e.name ++ "' (available: " ++ String.intercalate ", " e.available ++ ")"

/-- What all spellings of a package have in common. -/
def Package.key (p : Package) : String := PackageName.normalize p.name

/-- The line that asks for a package. -/
def Package.requirement (p : Package) : String := p.name ++ "==" ++ p.version

/-- The package that a pin asks for. -/
def Pin.toPackage (p : Pin) : Package := ⟨p.name.text, p.version⟩

@[simp] theorem Pin.key_toPackage (p : Pin) : p.toPackage.key = p.key := rfl

/-- The packages that a group asks for. -/
def Group.toPackages (g : Group) : PackageGroup := ⟨g.name, g.pins.map Pin.toPackage⟩

/-- The name goes for the group, up to letter case and the blanks around the name. -/
def PackageGroup.isNamed (g : PackageGroup) (name : String) : Bool :=
  Text.lowercase g.name == Text.lowercase (Text.trimmed name)

namespace Environment

/-! ## From a manifest -/

/-- What a manifest asks for. The first marker counts. -/
def ofManifest (m : Manifest) : Environment where
  editable := m.markers.head?.map fun (g, k) => ⟨g.name, k.target⟩
  groups := m.groups.map Group.toPackages

/-- The environment of a valid manifest, or every problem of any other. -/
def resolve (policy : VersionPolicy) (m : Manifest) : Except Report Environment :=
  (m.validate policy).map fun _ => ofManifest m

/-- The number of packages, each counted in every group that has it. -/
def packageCount (env : Environment) : Nat := (env.groups.flatMap PackageGroup.packages).length

/-! ## Selecting groups -/

/-- The first group that goes by the name. -/
def group? (env : Environment) (name : String) : Option PackageGroup :=
  env.groups.find? (·.isNamed name)

/-- The group that goes by the name, or the complaint that there is none. -/
def groupNamed (env : Environment) (name : String) : Except UnknownGroup PackageGroup :=
  match env.group? name with
  | some g => .ok g
  | none => .error ⟨name, env.groups.map PackageGroup.name⟩

/-- The groups that go by the names, in the order of the names; all groups when there are no
names. -/
def selectGroups (env : Environment) (names : List String) :
    Except UnknownGroup (List PackageGroup) :=
  if names.isEmpty then .ok env.groups else names.mapM env.groupNamed

/-- One package for every key, the first of its key, in the order of the keys. -/
def packagesByKey (groups : List PackageGroup) : List Package :=
  (firsts Package.key (groups.flatMap PackageGroup.packages)).mergeSort
    fun a b => decide (a.key ≤ b.key)

/-- The packages of the selected groups, one for every key, in the order of the keys. -/
def select (env : Environment) (names : List String) : Except UnknownGroup (List Package) :=
  (env.selectGroups names).map packagesByKey

/-- The line that asks for the editable install, when its group is among the given ones. Here the
names of groups are compared in ASCII letter case alone. -/
def editableLine (env : Environment) (groups : List PackageGroup) : String :=
  match env.editable with
  | some e =>
    if groups.any fun g => Text.sameIgnoringAsciiCase g.name e.group then
      "-e " ++ e.target ++ "\n"
    else ""
  | none => ""

/-- The selected groups as a flat list of requirements. -/
def requirements (env : Environment) (names : List String) : Except UnknownGroup String :=
  (env.selectGroups names).map fun groups =>
    env.editableLine groups ++
      String.join ((packagesByKey groups).map fun p => p.requirement ++ "\n")

/-! ## Keeping some groups -/

/-- One of the names, without the blanks around it, is the group's name up to ASCII letter case. -/
def keeps (names : List String) (g : PackageGroup) : Bool :=
  names.any fun name => Text.sameIgnoringAsciiCase (Text.trimmed name) g.name

/-- The part of the environment that has the groups with the given names. -/
def restrict (env : Environment) (names : List String) : Environment where
  editable := env.editable.filter fun e =>
    (env.groups.filter (keeps names)).any fun g => g.name == e.group
  groups := env.groups.filter (keeps names)

/-- Keeps the named groups in their order, and all groups when there are no names. Every name has to
go for a group. -/
def filterGroups (env : Environment) (names : List String) : Except UnknownGroup Environment :=
  if names.isEmpty then .ok env else (env.select names).map fun _ => env.restrict names

/-! ## The tree -/

/-- The lines under the name of a group. -/
def treeItems (env : Environment) (g : PackageGroup) : List String :=
  (match env.editable with
    | some e => if e.group = g.name then ["-e " ++ e.target] else []
    | none => []) ++ g.packages.map fun p => p.name ++ " " ++ p.version

/-- The items as branches of a tree; the last one closes it. -/
def branches : List String → String
  | [] => ""
  | [item] => "└── " ++ item ++ "\n"
  | item :: rest => "├── " ++ item ++ "\n" ++ branches rest

/-- A group with its items under it. -/
def treeOfGroup (env : Environment) (g : PackageGroup) : String :=
  let items := env.treeItems g
  g.name ++ "\n" ++ branches (if items.isEmpty then ["(empty)"] else items)

/-- The environment as a tree for every group. -/
def tree (env : Environment) : String := String.join (env.groups.map env.treeOfGroup)

end Environment

/-! ## JSON -/

/-- A package as JSON. -/
def Package.toJson (p : Package) : Json :=
  .object [("name", .string p.name), ("version", .string p.version)]

/-- A group of packages as JSON. -/
def PackageGroup.toJson (g : PackageGroup) : Json :=
  .object [("name", .string g.name), ("packages", .array (g.packages.map Package.toJson))]

/-- An editable install as JSON. -/
def EditableInstall.toJson (e : EditableInstall) : Json :=
  .object [("group", .string e.group), ("target", .string e.target)]

/-- An environment as JSON. -/
def Environment.toJson (env : Environment) : Json :=
  .object [("editable", env.editable.elim .null EditableInstall.toJson),
    ("groups", .array (env.groups.map PackageGroup.toJson))]

namespace Environment

/-! ## Small laws -/

/-- A manifest that resolves is valid, and its environment is what it asks for. -/
theorem resolve_eq_ok_iff {policy : VersionPolicy} {m : Manifest} {env : Environment} :
    resolve policy m = .ok env ↔ m.validate policy = .ok () ∧ ofManifest m = env := by
  unfold resolve
  cases m.validate policy <;> simp [Except.map]

/-- A name that is found names the group found. -/
theorem isNamed_of_group? {env : Environment} {name : String} {g : PackageGroup}
    (h : env.group? name = some g) : g ∈ env.groups ∧ g.isNamed name = true := by
  unfold group? at h
  exact ⟨List.mem_of_find?_eq_some h, by simpa using List.find?_some h⟩

/-- A restricted environment has only groups of the environment. -/
theorem mem_restrict {env : Environment} {names : List String} {g : PackageGroup} :
    g ∈ (env.restrict names).groups ↔ g ∈ env.groups ∧ keeps names g = true := by
  simp [restrict]

/-- The packages of a selection are packages of its groups. -/
theorem mem_of_mem_packagesByKey {groups : List PackageGroup} {p : Package}
    (h : p ∈ packagesByKey groups) : ∃ g ∈ groups, p ∈ g.packages := by
  rw [packagesByKey, List.mem_mergeSort] at h
  simpa using mem_of_mem_firstsAfter h

example : branches ["a", "b"] = "├── a\n└── b\n" := by decide +kernel

end Environment
end Pinfile
