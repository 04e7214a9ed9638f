import Pinfile.Manifest.Basic

/-!
# The text of a manifest

A group is a `# name` line followed by one line for each entry; a blank line stands between groups.
A pin is written `name==version`, with `  # override` after it when it is one, and a marker
`-e path[extra,extra]`. Lines of comments and the spelling of the markers in the text that a
manifest was read from are not kept.
-/

namespace Pinfile

/-- The line of a pin. -/
def Pin.render (p : Pin) : String :=
  p.name.text ++ "==" ++ p.version ++ (if p.isOverride then "  # override" else "")

/-- The line of a marker. -/
def Marker.render (m : Marker) : String := "-e " ++ m.target

/-- The line of an entry. -/
def Entry.render : Entry → String
  | .pin p => p.render
  | .editable m => m.render

/-- The lines of a group. -/
def Group.render (g : Group) : String :=
  "# " ++ g.name ++ "\n" ++ String.join (g.entries.map fun e => e.render ++ "\n")

/-- The text of a manifest. -/
def Manifest.render (m : Manifest) : String :=
  String.intercalate "\n" (m.groups.map Group.render)

@[simp] theorem Manifest.render_nil : ({} : Manifest).render = "" := rfl

@[simp] theorem Entry.render_withoutLine (e : Entry) : e.withoutLine.render = e.render := by
  cases e <;> rfl

@[simp] theorem Group.render_withoutLines (g : Group) : g.withoutLines.render = g.render := by
  simp [Group.render, Group.withoutLines, Function.comp_def]

/-- The text of a manifest does not tell on which lines its entries stood. -/
theorem Manifest.render_eq_of_same {a b : Manifest} (h : a.Same b) : a.render = b.render := by
  have key : ∀ m : Manifest, m.withoutLines.render = m.render := fun m => by
    simp [Manifest.render, Manifest.withoutLines, Function.comp_def]
  rw [← key a, ← key b, h]

end Pinfile
