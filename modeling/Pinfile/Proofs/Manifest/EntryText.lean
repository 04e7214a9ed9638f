import Pinfile.Manifest.Printer
import Pinfile.Proofs.Manifest.EntryGrammar

/-!
# Entries that are written and read back

A well-formed entry is written on one trimmed line that is no comment (`Entry.isTrimmedLine_render`,
`Entry.head?_render`), and reading that line gives the entry again (`EntryLine.parseEntry_render`).

The line has a form. A pin is written with no blanks beside the mark, and perhaps with a comment
(`Pin.toList_render`); a marker is written with the short option, and with a list if there are features
(`Marker.toList_render`). So what is read from the line follows from the grammar, once it is known
that the body of the line is all of it before the comment: names, versions and paths hold no `#`.
-/

namespace Pinfile

open Text EntryLine

/-! ## Pins -/

namespace Pin

variable {p : Pin}

namespace WellFormed

/-- The pin with nothing beside the mark. -/
def form (h : p.WellFormed) : PinForm where
  name := p.name.text.toList
  left := []
  right := []
  version := p.version.toList
  isName := PackageName.isValid_ofList_iff.mp (by rw [String.ofList_toList]; exact h.name)
  blank_left _ hc := absurd hc List.not_mem_nil
  blank_right _ hc := absurd hc List.not_mem_nil
  version_ne hnil := h.version_ne (String.toList_eq_nil_iff.mp hnil)
  isVersion := h.version

theorem pin_form (h : p.WellFormed) (line : Nat) :
    h.form.pin p.isOverride line = { p with line } := by
  rw [PinForm.pin, form, String.ofList_toList, String.ofList_toList]

/-- A character that neither names nor versions hold stands nowhere before the comment. -/
theorem not_mem_text (h : p.WellFormed) {c : Char} (hname : PackageName.isNameChar c = false)
    (hversion : isVersionChar c = false) (hne : c ≠ '=') : c ∉ h.form.text := by
  intro hmem
  rcases List.mem_append.mp hmem with hmem | hmem
  · rw [h.form.isName.isNameChar c hmem] at hname
    cases hname
  · rcases List.mem_cons.mp hmem with rfl | hmem
    · exact hne rfl
    rcases List.mem_cons.mp hmem with rfl | hmem
    · exact hne rfl
    rw [h.form.isVersion c hmem] at hversion
    cases hversion

end WellFormed

theorem toList_render (h : p.WellFormed) :
    p.render.toList = h.form.text ++ if p.isOverride then "  # override".toList else [] := by
  have hmark : "==".toList = ['=', '='] := rfl
  unfold render PinForm.text WellFormed.form
  split
  · simp [hmark]
  · simp [hmark]

theorem isTrimmedLine_render (h : p.WellFormed) : IsTrimmedLine p.render.toList := by
  obtain ⟨c, rest, htext, -⟩ := h.form.exists_text_eq
  have hne : h.form.text ≠ [] := by simp [htext]
  have hfeed : '\n' ∉ h.form.text := h.not_mem_text (by decide) (by decide) (by decide)
  rw [toList_render h]
  refine ⟨List.append_ne_nil_of_left_ne_nil hne _, ?_, ?_, ?_⟩
  · rw [List.head?_append_of_ne_nil _ hne]
    exact h.form.head?_text
  · split
    · have hlast : "  # override".toList.getLast? = some 'e' := rfl
      rw [List.getLast?_append_of_ne_nil _ (by decide), hlast]
      intro d hd
      obtain rfl := Option.some.inj hd
      rfl
    · rw [List.append_nil]
      exact h.form.getLast?_text
  · split
    · rw [List.mem_append, not_or]
      exact ⟨hfeed, by decide⟩
    · rwa [List.append_nil]

theorem head?_render (h : p.WellFormed) : p.render.toList.head? ≠ some '#' := by
  obtain ⟨c, rest, htext, halnum⟩ := h.form.exists_text_eq
  rw [toList_render h, htext]
  intro heq
  obtain rfl := Option.some.inj heq
  exact absurd halnum (by decide)

/-- The comment of a pin's line says whether the pin is an override. -/
theorem body_render (h : p.WellFormed) : body p.render.toList = h.form.text ∧
    marksOverride ((comment? p.render.toList).map trim) = p.isOverride := by
  have hhash : '#' ∉ h.form.text := h.not_mem_text (by decide) (by decide) (by decide)
  have htrim : trim h.form.text = h.form.text := trim_eq_self h.form.head?_text h.form.getLast?_text
  rw [toList_render h]
  cases p.isOverride with
  | false =>
    obtain ⟨hbody, hcomment⟩ := body_of_not_mem hhash
    rw [if_neg Bool.false_ne_true, List.append_nil, hbody, hcomment]
    exact ⟨htrim, rfl⟩
  | true =>
    -- the two blanks before the mark go to the body, the one after it to the comment
    have hblank : IsBlank [' ', ' '] := List.all_eq_true.mp rfl
    have hbefore : '#' ∉ h.form.text ++ [' ', ' '] := by simpa using hhash
    obtain ⟨hbody, hcomment⟩ := body_append hbefore " override".toList
    have htext : h.form.text ++ "  # override".toList =
        (h.form.text ++ [' ', ' ']) ++ '#' :: " override".toList := by
      rw [List.append_assoc]
      rfl
    rw [if_pos rfl, htext, hbody, hcomment, trim_append_blank hblank]
    exact ⟨htrim, by decide +kernel⟩

end Pin

/-! ## Markers -/

namespace Marker

variable {m : Marker}

namespace WellFormed

theorem isName (h : m.WellFormed) : ∀ cs ∈ m.extras.map String.toList, PackageName.IsName cs := by
  intro cs hcs
  obtain ⟨s, hs, rfl⟩ := List.mem_map.mp hcs
  refine PackageName.isValid_ofList_iff.mp ?_
  rw [String.ofList_toList]
  exact h.extras s hs

/-- The features with nothing but commas between them. -/
def list (h : m.WellFormed) (hx : m.extras ≠ []) : ExtrasForm where
  gap := []
  items := m.extras.map String.toList
  blank_gap _ hc := absurd hc List.not_mem_nil
  items_ne := by simpa using hx
  noComma item hitem hmem := absurd ((h.isName item hitem).isNameChar ',' hmem) (by decide)
  isName item hitem _ := by
    rw [(h.isName item hitem).trim_eq]
    exact h.isName item hitem

/-- The marker with the short option, and with a list if there are features. -/
def form (h : m.WellFormed) : MarkerForm where
  opening := .short
  lead := [' ']
  path := m.path.toList
  list? := if hx : m.extras = [] then none else some (h.list hx)
  blank_lead := List.all_eq_true.mp rfl
  lead_ne _ := List.cons_ne_nil _ _
  path_ne hnil := h.path_ne (String.toList_eq_nil_iff.mp hnil)
  isPath c hc := ⟨(h.path c hc).1, (h.path c hc).2.2⟩

theorem extras_form (h : m.WellFormed) : h.form.extras = m.extras.map String.toList := by
  unfold MarkerForm.extras form
  by_cases hx : m.extras = []
  · simp [hx]
  · -- no feature is blank, and none has blanks around it
    have htrim : (m.extras.map String.toList).map trim = m.extras.map String.toList :=
      (List.map_congr_left fun cs hcs => (h.isName cs hcs).trim_eq).trans (List.map_id _)
    rw [dif_neg hx, Option.elim_some, ExtrasForm.extras, list, htrim, List.filter_eq_self]
    intro cs hcs
    obtain ⟨c, rest, rfl, -⟩ := (h.isName cs hcs).exists_cons
    rfl

theorem marker_form (h : m.WellFormed) (line : Nat) : h.form.marker line = { m with line } := by
  have hid : String.ofList ∘ String.toList = id := funext fun s => String.ofList_toList
  rw [MarkerForm.marker, h.extras_form, List.map_map, hid, List.map_id, form, String.ofList_toList]

/-- A character of the line is one of the path, one of a feature or the option, or a mark. -/
theorem not_mem_text (h : m.WellFormed) {c : Char} (hpath : c ∉ m.path.toList)
    (hname : PackageName.isNameChar c = false) (hmark : c ∉ [' ', '[', ',', ']']) :
    c ∉ h.form.text := by
  simp only [List.mem_cons, List.not_mem_nil, or_false, not_or] at hmark
  obtain ⟨hblank, hopen, hcomma, hclose⟩ := hmark
  have hspelled : ∀ cs : List Char, (∀ d ∈ cs, PackageName.isNameChar d = true) → c ∉ cs := by
    intro cs hcs hmem
    rw [hcs c hmem] at hname
    cases hname
  have hinner : c ∉ [','].intercalate (m.extras.map String.toList) := by
    intro hmem
    rcases mem_of_mem_intercalate hmem with hsep | ⟨cs, hcs, hmem⟩
    · exact hcomma (List.mem_singleton.mp hsep)
    · exact hspelled cs (h.isName cs hcs).isNameChar hmem
  have htail : c ∉ h.form.tail := by
    unfold MarkerForm.tail form
    by_cases hx : m.extras = []
    · simp [hx]
    · simp [hx, ExtrasForm.text, list, hopen, hinner, hclose]
  intro hmem
  rcases List.mem_append.mp hmem with hoption | hmem
  · exact hspelled shortOption (List.all_eq_true.mp rfl) hoption
  rcases List.mem_append.mp hmem with hlead | hmem
  · exact hblank (List.mem_singleton.mp hlead)
  rcases List.mem_append.mp hmem with hmem | hmem
  · exact hpath hmem
  · exact htail hmem

end WellFormed

theorem toList_render (h : m.WellFormed) : m.render.toList = h.form.text := by
  have hoption : "-e ".toList = shortOption ++ [' '] := rfl
  have hopen : "[".toList = ['['] := rfl
  have hclose : "]".toList = [']'] := rfl
  have hcomma : ",".toList = [','] := rfl
  rw [render, String.toList_append, hoption, List.append_assoc]
  unfold MarkerForm.text MarkerForm.target MarkerForm.tail WellFormed.form target
  by_cases hx : m.extras = []
  · simp [hx, Opening.text]
  · simp [hx, Opening.text, ExtrasForm.text, WellFormed.list, hopen, hclose, hcomma,
      String.toList_intercalate]

theorem isTrimmedLine_render (h : m.WellFormed) : IsTrimmedLine m.render.toList := by
  have hfeed : '\n' ∉ h.form.text :=
    h.not_mem_text (fun hmem => absurd (h.path '\n' hmem).1 (by decide)) (by decide) (by decide)
  rw [toList_render h]
  exact ⟨List.cons_ne_nil _ _, head?_cons rfl, h.form.getLast?_text, hfeed⟩

/-- The line of a marker has no comment. -/
theorem body_render (h : m.WellFormed) : body m.render.toList = h.form.text := by
  have hhash : '#' ∉ h.form.text :=
    h.not_mem_text (fun hmem => (h.path '#' hmem).2.1 rfl) (by decide) (by decide)
  have htrim := (isTrimmedLine_render h).trim_eq
  rw [toList_render h] at htrim ⊢
  rw [(body_of_not_mem hhash).1, htrim]

end Marker

/-! ## Entries -/

/-- The entry as it is read from the given line. -/
def Entry.withLine (line : Nat) : Entry → Entry
  | .pin p => .pin { p with line }
  | .editable m => .editable { m with line }

@[simp] theorem Entry.withoutLine_withLine (line : Nat) (e : Entry) :
    (e.withLine line).withoutLine = e.withoutLine := by
  cases e <;> rfl

/-- An entry is written on a single trimmed line. -/
theorem Entry.isTrimmedLine_render {e : Entry} (h : e.WellFormed) :
    IsTrimmedLine e.render.toList := by
  cases e with
  | pin p => exact Pin.isTrimmedLine_render h
  | editable m => exact Marker.isTrimmedLine_render h

/-- No entry is written like a comment. -/
theorem Entry.head?_render {e : Entry} (h : e.WellFormed) : e.render.toList.head? ≠ some '#' := by
  cases e with
  | pin p => exact Pin.head?_render h
  | editable m =>
    rw [Entry.render, Marker.toList_render h]
    intro heq
    exact absurd (Option.some.inj heq) (by decide)

/-- Reading the line of a well-formed entry gives the entry again. -/
theorem EntryLine.parseEntry_render {e : Entry} (h : e.WellFormed) (line : Nat) :
    parseEntry line e.render.toList = .ok (e.withLine line) := by
  have htrim := (Entry.isTrimmedLine_render h).trim_eq
  cases e with
  | pin p =>
    obtain ⟨hbody, hoverride⟩ := Pin.body_render h
    refine (parseEntry_eq_pin_iff htrim).mpr ⟨h.form, hbody.symm, ?_⟩
    change _ = h.form.pin (marksOverride ((comment? p.render.toList).map trim)) line
    rw [hoverride, h.pin_form]
  | editable m =>
    exact (parseEntry_eq_editable_iff htrim).mpr
      ⟨h.form, (Marker.body_render h).symm, (h.marker_form line).symm⟩

end Pinfile
