import Pinfile.Lockfile
import Pinfile.Proofs.Toml.Written

/-!
# Written lockfiles are read

A lockfile is read from its text as it was: every name, version and path comes back character by
character, and so do the order of the groups and of their packages (`ofToml?_toToml`).

The proof goes through the stages of reading. The text says one statement a line (`says_toChars`);
the statements fall into the plain fields and one section for each header (`sections_statements`);
the sections build the root table, group by group (`addSections_groups`); and the record is read off
that table (`ofEntries?_entries`). An array without items is a pair, one with items is a row of
headers, so a table holds it in two ways (`arrayOf`).
-/

namespace Pinfile.Lockfile

open Toml Toml.Entries

/-! ## What the lines say -/

/-- The statement of a field. -/
def fieldStatement (name value : String) : Statement := .pair [name] (.string value)

/-- The statement of a field that is an empty array. -/
def emptyStatement (name : String) : Statement := .pair [name] (.array .bracket [])

/-- The statements of a package. -/
def packageStatements (p : Package) : List Statement :=
  [.blank, .header (.element ["group", "package"]), fieldStatement "name" p.name,
    fieldStatement "version" p.version]

/-- The statements of a group. -/
def groupStatements (g : PackageGroup) : List Statement :=
  [.blank, .header (.element ["group"]), fieldStatement "name" g.name] ++
    if g.packages.isEmpty then [emptyStatement "package"] else g.packages.flatMap packageStatements

/-- The statements of the plain fields. -/
def fieldStatements (lock : Lockfile) : List Statement :=
  [fieldStatement "source" lock.source, fieldStatement "checksum" lock.checksum] ++
    lock.editable.elim [] fun target => [fieldStatement "editable" target]

/-- The statements of a lockfile. -/
def statements (lock : Lockfile) : List Statement :=
  lock.fieldStatements ++
    if lock.groups.isEmpty then [emptyStatement "group"] else lock.groups.flatMap groupStatements

theorem says_fieldLine {name : String} (h : IsBare name.toList) (value : String) :
    Says (fieldLine name value) [fieldStatement name value] := by
  refine .of_readLine (by simp [fieldLine]) fun rest => ?_
  have hvalue : readValue maxDepth (Quoted.write value.toList ++ '\n' :: rest) =
      some (.string (String.ofList value.toList), '\n' :: rest) :=
    readValue_write (by rintro c ⟨⟩; decide) value.toList
  have hread := readLine_pair h (beginsValue_write value.toList) hvalue
  simpa [fieldLine, fieldStatement] using hread

theorem says_emptyLine {name : String} (h : IsBare name.toList) :
    Says (emptyLine name) [emptyStatement name] := by
  refine .of_readLine (by simp [emptyLine]) fun rest => ?_
  have hvalue : readValue maxDepth (['[', ']'] ++ '\n' :: rest) =
      some (.array .bracket [], '\n' :: rest) := readValue_emptyArray ('\n' :: rest)
  have hread := readLine_pair h ⟨'[', _, rfl, rfl⟩ hvalue
  simpa [emptyLine, emptyStatement] using hread

theorem says_lineFeed : Says ['\n'] [.blank] := .of_readLine (by simp) readLine_lineFeed

/-- The last part of the key in a header. -/
theorem readKey_bracket {room : Nat} {name : List Char} (h : IsBare name) (rest : List Char) :
    readKey (room + 1) (name ++ ']' :: rest) = some ([String.ofList name], ']' :: rest) :=
  readKey_append h (by rintro c ⟨⟩; rfl) (by rintro c ⟨⟩; decide)

theorem says_groupHeader : Says "[[group]]\n".toList [.header (.element ["group"])] := by
  have hkey : ∀ rest, readKey maxDepth ("group".toList ++ ']' :: rest) =
      some (["group"], ']' :: rest) := readKey_bracket (by decide)
  exact .of_readLine (by decide) (readLine_element hkey)

theorem says_packageHeader :
    Says "[[group.package]]\n".toList [.header (.element ["group", "package"])] := by
  have hkey : ∀ rest, readKey maxDepth ("group.package".toList ++ ']' :: rest) =
      some (["group", "package"], ']' :: rest) := by
    intro rest
    have hlast : readKey 78 ("package".toList ++ ']' :: rest) = some (["package"], ']' :: rest) :=
      readKey_bracket (by decide) rest
    show readKey (78 + 1) ("group".toList ++ '.' :: ("package".toList ++ ']' :: rest)) = _
    rw [readKey_append_dot (by decide), hlast]
    rfl
  exact .of_readLine (by decide) (readLine_element hkey)

theorem says_packageLines (p : Package) : Says (packageLines p) (packageStatements p) :=
  ((says_lineFeed.append says_packageHeader).append (says_fieldLine (by decide) p.name)).append
    (says_fieldLine (by decide) p.version)

theorem says_groupLines (g : PackageGroup) : Says (groupLines g) (groupStatements g) := by
  refine ((says_lineFeed.append says_groupHeader).append
    (says_fieldLine (by decide) g.name)).append ?_
  split
  · exact says_emptyLine (by decide)
  · exact .flatMap says_packageLines g.packages

/-- A written lockfile says the statements of the lockfile. -/
theorem says_toChars (lock : Lockfile) : Says lock.toChars lock.statements := by
  have heditable : Says (lock.editable.elim [] (fieldLine "editable"))
      (lock.editable.elim [] fun target => [fieldStatement "editable" target]) := by
    cases lock.editable with
    | none => exact .nil
    | some target => exact says_fieldLine (by decide) target
  refine (((says_fieldLine (by decide) lock.source).append
    (says_fieldLine (by decide) lock.checksum)).append heditable).append ?_
  split
  · exact says_emptyLine (by decide)
  · exact .flatMap says_groupLines lock.groups

/-! ## The sections -/

/-- A section of the document: its header and the pairs under it. -/
abbrev Section := Header × List (List String × Value)

/-- The section of a package. -/
def packageSection (p : Package) : Section :=
  (.element ["group", "package"], [(["name"], .string p.name), (["version"], .string p.version)])

/-- The pairs under the header of a group. -/
def groupPairs (g : PackageGroup) : List (List String × Value) :=
  (["name"], .string g.name) :: if g.packages.isEmpty then [(["package"], .array .bracket [])] else []

/-- The sections of a group. -/
def groupSections (g : PackageGroup) : List Section :=
  (.element ["group"], groupPairs g) :: g.packages.map packageSection

/-- The pairs before the first header. -/
def rootPairs (lock : Lockfile) : List (List String × Value) :=
  [(["source"], .string lock.source), (["checksum"], .string lock.checksum)] ++
    (lock.editable.elim [] fun target => [(["editable"], .string target)]) ++
    if lock.groups.isEmpty then [(["group"], .array .bracket [])] else []

theorem sections_packages (ps : List Package) :
    sections (ps.flatMap packageStatements) = ([], ps.map packageSection) := by
  rw [sections_flatMap fun p => rfl, List.map_eq_flatMap]
  rfl

theorem sections_groupStatements (g : PackageGroup) :
    sections (groupStatements g) = ([], groupSections g) := by
  cases hps : g.packages with
  | nil => simp [groupStatements, groupSections, groupPairs, hps, sections, fieldStatement,
      emptyStatement]
  | cons p ps => simp [groupStatements, groupSections, groupPairs, hps, sections, fieldStatement,
      -List.flatMap_cons, sections_packages]

theorem sections_groups (gs : List PackageGroup) :
    sections (gs.flatMap groupStatements) = ([], gs.flatMap groupSections) := by
  rw [sections_flatMap fun g => by rw [sections_groupStatements]]
  simp only [sections_groupStatements]

theorem sections_statements (lock : Lockfile) :
    sections lock.statements = (lock.rootPairs, lock.groups.flatMap groupSections) := by
  obtain ⟨source, checksum, editable, groups⟩ := lock
  cases editable <;> cases groups <;>
    simp [statements, fieldStatements, rootPairs, sections, fieldStatement, emptyStatement,
      -List.flatMap_cons, sections_groups]

/-! ## The root table -/

/-- An array: the value of a pair when it is empty, and otherwise a row of headers. -/
def arrayOf (items : List Value) : Value :=
  .array (if items.isEmpty then .bracket else .headers) items

/-- The table of a package. -/
def packageValue (p : Package) : Value :=
  .table .header [("name", .string p.name), ("version", .string p.version)]

/-- The table of a group. -/
def groupValue (g : PackageGroup) : Value :=
  .table .header [("name", .string g.name), ("package", arrayOf (g.packages.map packageValue))]

/-- The fields before the groups. -/
def fieldEntries (lock : Lockfile) : Entries :=
  [("source", .string lock.source), ("checksum", .string lock.checksum)] ++
    lock.editable.elim [] fun target => [("editable", .string target)]

/-- The root table of a lockfile. -/
def entries (lock : Lockfile) : Entries :=
  lock.fieldEntries ++ [("group", arrayOf (lock.groups.map groupValue))]

section Building

variable {fields : Entries} {items : List Value}

/-- A package goes to the end of the last group. -/
theorem addSection_package (hfields : fields.value? "group" = none) {below : Entries}
    (hbelow : below.value? "package" = none) (done : List Value) (p : Package) :
    addSection
        (fields ++ listed "group" (items ++ [.table .header (below ++ listed "package" done)]))
        (packageSection p).1 (packageSection p).2 =
      some (fields ++ listed "group"
        (items ++ [.table .header (below ++ listed "package" (done ++ [packageValue p]))])) := by
  have hadd : addElement "package" (packageSection p).2 (below ++ listed "package" done) =
      some (below ++ listed "package" (done ++ [packageValue p])) := addElement_listed hbelow rfl
  exact atPath_listed hfields hadd

theorem addSections_packages (hfields : fields.value? "group" = none) {below : Entries}
    (hbelow : below.value? "package" = none) (done : List Value) (ps : List Package) :
    addSections
        (fields ++ listed "group" (items ++ [.table .header (below ++ listed "package" done)]))
        (ps.map packageSection) =
      some (fields ++ listed "group"
        (items ++ [.table .header (below ++ listed "package" (done ++ ps.map packageValue))])) := by
  induction ps generalizing done with
  | nil => simp [addSections]
  | cons p ps ih =>
    rw [List.map_cons, addSections, addSection_package hfields hbelow, Option.bind_some, ih,
      List.append_assoc]
    rfl

/-- A group goes to the end of the root table, with all of its packages. -/
theorem addSections_group (hfields : fields.value? "group" = none) (g : PackageGroup) :
    addSections (fields ++ listed "group" items) (groupSections g) =
      some (fields ++ listed "group" (items ++ [groupValue g])) := by
  obtain ⟨name, ps⟩ := g
  cases ps with
  | nil =>
    have hadd : addElement "group" (groupPairs ⟨name, []⟩) (fields ++ listed "group" items) =
        some (fields ++ listed "group" (items ++ [groupValue ⟨name, []⟩])) :=
      addElement_listed hfields rfl
    show Option.bind (addElement "group" _ _) _ = _
    rw [hadd]
    rfl
  | cons p ps =>
    -- the header leaves a group with nothing but its name; its packages fill it
    have hadd : addElement "group" (groupPairs ⟨name, p :: ps⟩) (fields ++ listed "group" items) =
        some (fields ++ listed "group"
          (items ++ [.table .header ([("name", .string name)] ++ listed "package" [])])) :=
      addElement_listed hfields rfl
    show Option.bind (addElement "group" _ _) _ = _
    rw [hadd, Option.bind_some, addSections_packages hfields rfl]
    rfl

theorem addSections_groups (hfields : fields.value? "group" = none) (gs : List PackageGroup) :
    addSections (fields ++ listed "group" items) (gs.flatMap groupSections) =
      some (fields ++ listed "group" (items ++ gs.map groupValue)) := by
  induction gs generalizing items with
  | nil => simp [addSections]
  | cons g gs ih =>
    rw [List.flatMap_cons, addSections_append, addSections_group hfields, Option.bind_some, ih,
      List.append_assoc]
    rfl

end Building

theorem value?_fieldEntries (lock : Lockfile) : lock.fieldEntries.value? "group" = none := by
  obtain ⟨source, checksum, editable, groups⟩ := lock
  cases editable <;> rfl

/-- The lines of a lockfile build its root table. -/
theorem assemble_statements (lock : Lockfile) : assemble lock.statements = some lock.entries := by
  rw [assemble, sections_statements]
  obtain ⟨source, checksum, editable, groups⟩ := lock
  cases hgroups : groups with
  | nil => cases editable <;> rfl
  | cons g gs =>
    have hroot : addPairs [] (rootPairs ⟨source, checksum, editable, g :: gs⟩) =
        some (fieldEntries ⟨source, checksum, editable, g :: gs⟩ ++ listed "group" []) := by
      cases editable <;> rfl
    dsimp only
    rw [hroot, Option.bind_some, addSections_groups (value?_fieldEntries _)]
    rfl

/-! ## The record -/

theorem asList?_arrayOf {α : Type} {read : Value → Option α} {f : α → Value}
    (h : ∀ a, read (f a) = some a) (as : List α) : (arrayOf (as.map f)).asList? read = some as := by
  show (as.map f).mapM read = some as
  rw [List.mapM_map, show read ∘ f = pure from funext h, List.mapM_pure, List.map_id']
  rfl

theorem readPackage_packageValue (p : Package) : readPackage (packageValue p) = some p := rfl

theorem readGroup_groupValue (g : PackageGroup) : readGroup (groupValue g) = some g := by
  have hpackages := asList?_arrayOf readPackage_packageValue g.packages
  show (Option.bind (Value.asList? readPackage (arrayOf _)) fun packages => some _) = _
  rw [hpackages]
  rfl

/-- The record is read off its root table. -/
theorem ofEntries?_entries (lock : Lockfile) : ofEntries? lock.entries = some lock := by
  have hgroups := asList?_arrayOf readGroup_groupValue lock.groups
  obtain ⟨source, checksum, editable, groups⟩ := lock
  cases editable with
  | none =>
    show (Option.bind (Value.asList? readGroup (arrayOf _)) fun groups => some _) = _
    rw [hgroups]
    rfl
  | some target =>
    show (Option.bind (Value.asList? readGroup (arrayOf _)) fun groups => some _) = _
    rw [hgroups]
    rfl

/-- A lockfile is read from its text. -/
theorem ofToml?_toToml (lock : Lockfile) : ofToml? lock.toToml = some lock := by
  have hmark : Text.dropMark lock.toChars = lock.toChars := rfl
  rw [ofToml?, read?, toToml, String.toList_ofList, hmark, (says_toChars lock).readLines_eq,
    Option.bind_some, assemble_statements, Option.bind_some, ofEntries?_entries]

end Pinfile.Lockfile
