import Pinfile.Manifest.EntryLine
import Pinfile.Proofs.Text.Padding

/-!
# The forms of entries

What the body of an entry line may be, said without the reader. A *form* is one way to put a body
together from its parts: a pin from a name and a version (`PinForm`), a marker from an option, a path
and perhaps a bracketed list (`MarkerForm`). A form carries what its parts have to be.

No text has two forms (`PinForm.eq_of_text_eq`, `MarkerForm.eq_of_text_eq`,
`PinForm.text_ne_text`). This is so because each part ends where a character stands that the part
cannot hold (`append_inj_of_head`).
-/

namespace Pinfile

open Text

/-! ## The characters of names and versions -/

/-- The letters and digits of ASCII. -/
theorem range_of_isAlphanum {c : Char} (h : c.isAlphanum = true) :
    ((65 ≤ c.toNat ∧ c.toNat ≤ 90) ∨ (97 ≤ c.toNat ∧ c.toNat ≤ 122)) ∨
      (48 ≤ c.toNat ∧ c.toNat ≤ 57) := by
  change ((decide ('A'.val ≤ c.val ∧ c.val ≤ 'Z'.val) ||
      (decide ('a'.val ≤ c.val) && decide (c.val ≤ 'z'.val))) ||
    (decide ('0'.val ≤ c.val) && decide (c.val ≤ '9'.val))) = true at h
  simp only [Bool.or_eq_true, Bool.and_eq_true, decide_eq_true_eq, UInt32.le_iff_toNat_le] at h
  exact h

theorem isBlank_of_isAlphanum {c : Char} (h : c.isAlphanum = true) : isBlank c = false := by
  have hrange := range_of_isAlphanum h
  simp only [isBlank, Bool.or_eq_false_iff, Bool.and_eq_false_iff, decide_eq_false_iff_not,
    beq_eq_false_iff_ne]
  omega

/-- A character of a version is no blank. -/
theorem isBlank_of_isVersionChar {c : Char} (h : EntryLine.isVersionChar c = true) :
    isBlank c = false := by
  simp only [EntryLine.isVersionChar, Bool.or_eq_true, beq_iff_eq] at h
  rcases h with (((((h | rfl) | rfl) | rfl) | rfl) | rfl) | rfl
  · exact isBlank_of_isAlphanum h
  all_goals decide

/-! ## Names -/

namespace PackageName

/-- What a valid name is made of. -/
theorem isValid_iff {s : String} : isValid s = true ↔ s.toList ≠ [] ∧
    (∀ c ∈ s.toList.head?, c.isAlphanum = true) ∧ (∀ c ∈ s.toList.getLast?, c.isAlphanum = true) ∧
    ∀ c ∈ s.toList, isNameChar c = true := by
  unfold isValid
  cases hs : s.toList with
  | nil => simp
  | cons c cs =>
    have hlast : (c :: cs).getLast? = some ((c :: cs).getLast (by simp)) :=
      List.getLast?_eq_some_getLast (by simp)
    rw [hlast]
    simp [and_assoc]

/-- A letter or digit alone, or two of them with letters, digits and separators between them. -/
inductive IsName : List Char → Prop where
  | single {c : Char} (h : c.isAlphanum = true) : IsName [c]
  | ends {first last : Char} {inner : List Char} (hfirst : first.isAlphanum = true)
      (hinner : ∀ c ∈ inner, isNameChar c = true) (hlast : last.isAlphanum = true) :
      IsName (first :: (inner ++ [last]))

theorem isNameChar_of_isAlphanum {c : Char} (h : c.isAlphanum = true) : isNameChar c = true := by
  rw [isNameChar, h, Bool.true_or]

theorem isBlank_of_isNameChar {c : Char} (h : isNameChar c = true) : isBlank c = false := by
  simp only [isNameChar, isSeparator, Bool.or_eq_true, beq_iff_eq] at h
  rcases h with h | (rfl | rfl) | rfl
  · exact isBlank_of_isAlphanum h
  all_goals decide

/-- The valid names are those of the grammar. -/
theorem isValid_ofList_iff {cs : List Char} : isValid (String.ofList cs) = true ↔ IsName cs := by
  rw [isValid_iff, String.toList_ofList]
  constructor
  · rintro ⟨hne, hfirst, hlast, hchars⟩
    cases cs with
    | nil => exact absurd rfl hne
    | cons first rest =>
      replace hfirst := hfirst first rfl
      rcases List.eq_nil_or_concat rest with rfl | ⟨inner, last, rfl⟩
      · exact .single hfirst
      · rw [List.concat_eq_append, ← List.cons_append] at hlast hchars
        rw [List.concat_eq_append]
        refine .ends hfirst (fun c hc => hchars c ?_) (hlast last List.getLast?_concat)
        exact List.mem_append_left _ (List.mem_cons_of_mem first hc)
  · intro h
    cases h with
    | single h => simp [h, isNameChar_of_isAlphanum h]
    | @ends first last inner hfirst hinner hlast =>
      refine ⟨by simp, by simpa using hfirst, ?_, ?_⟩
      · rw [← List.cons_append, List.getLast?_concat]
        simpa using hlast
      · simp only [List.mem_cons, List.mem_append, List.not_mem_nil, or_false]
        rintro c (rfl | hc | rfl)
        · exact isNameChar_of_isAlphanum hfirst
        · exact hinner c hc
        · exact isNameChar_of_isAlphanum hlast

namespace IsName

variable {cs : List Char}

theorem isNameChar (h : IsName cs) : ∀ c ∈ cs, PackageName.isNameChar c = true := by
  obtain ⟨-, -, -, hchars⟩ := isValid_iff.mp (isValid_ofList_iff.mpr h)
  rwa [String.toList_ofList] at hchars

theorem isBlank (h : IsName cs) : ∀ c ∈ cs, Text.isBlank c = false := fun c hc =>
  isBlank_of_isNameChar (h.isNameChar c hc)

theorem exists_cons (h : IsName cs) : ∃ c rest, cs = c :: rest ∧ c.isAlphanum = true := by
  cases h with
  | single h => exact ⟨_, _, rfl, h⟩
  | ends hfirst _ _ => exact ⟨_, _, rfl, hfirst⟩

theorem trim_eq (h : IsName cs) : trim cs = cs :=
  trim_eq_self (fun c hc => h.isBlank c (List.mem_of_mem_head? hc))
    fun c hc => h.isBlank c (List.mem_of_mem_getLast? hc)

end IsName
end PackageName

namespace EntryLine

open PackageName (IsName isValid_ofList_iff)

/-! ## Where parts end -/

section Ends

variable {p : Char → Bool} {blanks cs : List Char}

/-- A text goes on with its first character. -/
theorem head?_cons {c : Char} (hc : p c = false) : ∀ x ∈ (c :: cs).head?, p x = false := by
  intro x hx
  rwa [← Option.some.inj hx]

/-- A text with blanks before it, or with none, goes on with a blank or as the text itself does. -/
theorem head?_blank_append (hb : IsBlank blanks) (hblank : ∀ c, isBlank c = true → p c = false)
    (hcs : ∀ c ∈ cs.head?, p c = false) : ∀ c ∈ (blanks ++ cs).head?, p c = false := by
  cases blanks with
  | nil => exact hcs
  | cons b blanks => exact head?_cons (hblank b (hb b List.mem_cons_self))

end Ends

/-! ## Pins -/

/-- A pin as it is written: a name and a version at the two sides of the mark, perhaps with blanks
between. -/
@[ext] structure PinForm where
  name : List Char
  left : List Char
  right : List Char
  version : List Char
  isName : IsName name
  blank_left : IsBlank left
  blank_right : IsBlank right
  version_ne : version ≠ []
  isVersion : ∀ c ∈ version, isVersionChar c = true

namespace PinForm

/-- The body of the line. -/
def text (f : PinForm) : List Char := f.name ++ (f.left ++ '=' :: '=' :: (f.right ++ f.version))

/-- The pin that is written. -/
def pin (f : PinForm) (isOverride : Bool) (line : Nat) : Pin :=
  ⟨⟨String.ofList f.name⟩, String.ofList f.version, isOverride, line⟩

theorem isBlank_version (f : PinForm) : ∀ c ∈ f.version, isBlank c = false := fun c hc =>
  isBlank_of_isVersionChar (f.isVersion c hc)

theorem trim_version (f : PinForm) : trim f.version = f.version :=
  trim_eq_self (fun c hc => f.isBlank_version c (List.mem_of_mem_head? hc))
    fun c hc => f.isBlank_version c (List.mem_of_mem_getLast? hc)

/-- A pin begins with a letter or a digit. -/
theorem exists_text_eq (f : PinForm) : ∃ c rest, f.text = c :: rest ∧ c.isAlphanum = true := by
  obtain ⟨c, rest, hname, halnum⟩ := f.isName.exists_cons
  refine ⟨c, rest ++ (f.left ++ '=' :: '=' :: (f.right ++ f.version)), ?_, halnum⟩
  rw [text, hname]
  rfl

theorem head?_text (f : PinForm) : ∀ c ∈ f.text.head?, isBlank c = false := by
  obtain ⟨c, rest, htext, halnum⟩ := f.exists_text_eq
  rw [htext]
  exact head?_cons (isBlank_of_isAlphanum halnum)

/-- A pin ends with its version. -/
theorem getLast?_text (f : PinForm) : ∀ c ∈ f.text.getLast?, isBlank c = false := by
  intro c hc
  rw [text, List.getLast?_append_of_ne_nil _ (by simp), List.getLast?_append_of_ne_nil _ (by simp),
    List.getLast?_cons_cons, List.getLast?_cons_of_ne_nil (by simp [f.version_ne]),
    List.getLast?_append_of_ne_nil _ f.version_ne] at hc
  exact f.isBlank_version c (List.mem_of_mem_getLast? hc)

/-- A text is a pin in one way. -/
theorem eq_of_text_eq {f g : PinForm} (h : f.text = g.text) : f = g := by
  -- a name ends at a blank or the mark, blanks end at the mark or at a version
  have hname : ∀ f : PinForm, ∀ c ∈ (f.left ++ '=' :: '=' :: (f.right ++ f.version)).head?,
      PackageName.isNameChar c = false := by
    intro f
    refine head?_blank_append f.blank_left (fun c hc => ?_) (head?_cons (by decide))
    rw [← Bool.not_eq_true]
    intro hname
    rw [PackageName.isBlank_of_isNameChar hname] at hc
    cases hc
  have hversion : ∀ f : PinForm, ∀ c ∈ f.version.head?, isBlank c = false := fun f c hc =>
    f.isBlank_version c (List.mem_of_mem_head? hc)
  obtain ⟨hname, hrest⟩ :=
    append_inj_of_head f.isName.isNameChar (hname f) g.isName.isNameChar (hname g) h
  obtain ⟨hleft, hrest⟩ :=
    append_inj_of_head f.blank_left (head?_cons rfl) g.blank_left (head?_cons rfl) hrest
  rw [List.cons.injEq, List.cons.injEq] at hrest
  obtain ⟨hright, hversion⟩ :=
    append_inj_of_head f.blank_right (hversion f) g.blank_right (hversion g) hrest.2.2
  exact PinForm.ext hname hleft hright hversion

end PinForm

/-! ## Bracketed lists -/

/-- A bracketed list as it is written: items between commas, perhaps with blanks before the bracket.
An item is a name with blanks around it, or blank. -/
@[ext] structure ExtrasForm where
  gap : List Char
  items : List (List Char)
  blank_gap : IsBlank gap
  items_ne : items ≠ []
  noComma : ∀ item ∈ items, ',' ∉ item
  isName : ∀ item ∈ items, trim item ≠ [] → IsName (trim item)

namespace ExtrasForm

def text (f : ExtrasForm) : List Char := f.gap ++ '[' :: ([','].intercalate f.items ++ [']'])

/-- The features that are listed. -/
def extras (f : ExtrasForm) : List (List Char) :=
  (f.items.map trim).filter fun item => !item.isEmpty

/-- A text is a list in one way. -/
theorem eq_of_text_eq {f g : ExtrasForm} (h : f.text = g.text) : f = g := by
  obtain ⟨hgap, hrest⟩ :=
    append_inj_of_head f.blank_gap (head?_cons rfl) g.blank_gap (head?_cons rfl) h
  have hinner : [','].intercalate f.items = [','].intercalate g.items :=
    List.append_cancel_right (List.cons.inj hrest).2
  have hitems := congrArg (List.splitOn ',') hinner
  rw [List.splitOn_intercalate ',' f.noComma f.items_ne,
    List.splitOn_intercalate ',' g.noComma g.items_ne] at hitems
  exact ExtrasForm.ext hgap hitems

/-- A text is a list or no list in one way. -/
theorem eq_of_elim_eq {f? g? : Option ExtrasForm} (h : f?.elim [] text = g?.elim [] text) :
    f? = g? := by
  have hne : ∀ f : ExtrasForm, f.text ≠ [] := fun f => by simp [text]
  cases f? with
  | none =>
    cases g? with
    | none => rfl
    | some g => exact absurd h.symm (hne g)
  | some f =>
    cases g? with
    | none => exact absurd h (hne f)
    | some g => rw [eq_of_text_eq h]

theorem isName_of_mem_extras {f : ExtrasForm} {extra : List Char} (h : extra ∈ f.extras) :
    IsName extra := by
  obtain ⟨hmem, hne⟩ := List.mem_filter.mp h
  obtain ⟨item, hitem, rfl⟩ := List.mem_map.mp hmem
  exact f.isName item hitem (by simpa using hne)

end ExtrasForm

/-! ## Markers -/

/-- The ways to begin a marker: an option, or the long option joined to what it asks for. -/
inductive Opening where
  | short
  | long
  | joined
deriving DecidableEq, Repr

namespace Opening

def text : Opening → List Char
  | short => shortOption
  | long => longOption
  | joined => longOption ++ ['=']

theorem exists_text_eq (o : Opening) : ∃ rest, o.text = '-' :: rest := by
  cases o <;> exact ⟨_, rfl⟩

/-- A text begins a marker in one way. -/
theorem eq_of_append_eq {o o' : Opening} {rest rest' : List Char}
    (hrest : o ≠ joined → ∃ b more, rest = b :: more ∧ isBlank b = true)
    (hrest' : o' ≠ joined → ∃ b more, rest' = b :: more ∧ isBlank b = true)
    (h : o.text ++ rest = o'.text ++ rest') : o = o' ∧ rest = rest' := by
  -- the short option differs from the long one, and a blank from the equals sign
  have hshort : shortOption = ['-', 'e'] := rfl
  have hlong : longOption = '-' :: '-' :: "editable".toList := rfl
  cases o <;> cases o' <;> try exact ⟨rfl, List.append_cancel_left h⟩
  · simp [text, hshort, hlong] at h
  · simp [text, hshort, hlong] at h
  · simp [text, hshort, hlong] at h
  · obtain ⟨b, more, rfl, hb⟩ := hrest (by simp)
    rw [text, text, List.append_assoc] at h
    rw [(List.cons.inj (List.append_cancel_left h)).1] at hb
    cases hb
  · simp [text, hshort, hlong] at h
  · obtain ⟨b, more, rfl, hb⟩ := hrest' (by simp)
    rw [text, text, List.append_assoc] at h
    rw [← (List.cons.inj (List.append_cancel_left h)).1] at hb
    cases hb

end Opening

/-- A marker as it is written: an option, blanks, a path and perhaps a bracketed list. -/
@[ext] structure MarkerForm where
  opening : Opening
  lead : List Char
  path : List Char
  list? : Option ExtrasForm
  blank_lead : IsBlank lead
  lead_ne : opening ≠ .joined → lead ≠ []
  path_ne : path ≠ []
  isPath : ∀ c ∈ path, isBlank c = false ∧ c ≠ '['

namespace MarkerForm

/-- What comes after the path. -/
def tail (f : MarkerForm) : List Char := f.list?.elim [] ExtrasForm.text

/-- What the marker asks for. -/
def target (f : MarkerForm) : List Char := f.path ++ f.tail

/-- The body of the line. -/
def text (f : MarkerForm) : List Char := f.opening.text ++ (f.lead ++ f.target)

/-- The features of the marker. -/
def extras (f : MarkerForm) : List (List Char) := f.list?.elim [] ExtrasForm.extras

/-- The marker that is written. -/
def marker (f : MarkerForm) (line : Nat) : Marker :=
  ⟨String.ofList f.path, f.extras.map String.ofList, line⟩

theorem head?_target (f : MarkerForm) : ∀ c ∈ f.target.head?, isBlank c = false := by
  intro c hc
  rw [target, List.head?_append_of_ne_nil _ f.path_ne] at hc
  exact (f.isPath c (List.mem_of_mem_head? hc)).1

theorem getLast?_target (f : MarkerForm) : ∀ c ∈ f.target.getLast?, isBlank c = false := by
  intro c hc
  unfold target tail at hc
  cases hlist : f.list? with
  | none =>
    rw [hlist, Option.elim_none, List.append_nil] at hc
    exact (f.isPath c (List.mem_of_mem_getLast? hc)).1
  | some list =>
    rw [hlist, Option.elim_some, ExtrasForm.text, ← List.cons_append, ← List.append_assoc,
      ← List.append_assoc, List.getLast?_concat] at hc
    obtain rfl := Option.some.inj hc
    rfl

theorem target_ne (f : MarkerForm) : f.target ≠ [] := List.append_ne_nil_of_left_ne_nil f.path_ne _

theorem getLast?_text (f : MarkerForm) : ∀ c ∈ f.text.getLast?, isBlank c = false := by
  rw [text, ← List.append_assoc, List.getLast?_append_of_ne_nil _ f.target_ne]
  exact f.getLast?_target

theorem exists_lead_eq (f : MarkerForm) (h : f.opening ≠ .joined) :
    ∃ b more, f.lead ++ f.target = b :: more ∧ isBlank b = true := by
  cases hlead : f.lead with
  | nil => exact absurd hlead (f.lead_ne h)
  | cons b lead => exact ⟨b, lead ++ f.target, rfl, f.blank_lead b (by simp [hlead])⟩

/-- A text is a marker in one way. -/
theorem eq_of_text_eq {f g : MarkerForm} (h : f.text = g.text) : f = g := by
  -- a path ends at a blank, at a bracket or with the text
  have hpath : ∀ f : MarkerForm, ∀ c ∈ f.path, (!isBlank c && c != '[') = true := by
    intro f c hc
    simpa using f.isPath c hc
  have htail : ∀ f : MarkerForm, ∀ c ∈ f.tail.head?, (!isBlank c && c != '[') = false := by
    intro f
    unfold tail
    cases f.list? with
    | none => simp
    | some list =>
      refine head?_blank_append list.blank_gap (fun c hc => ?_) (head?_cons rfl)
      rw [hc]
      rfl
  obtain ⟨hopening, hrest⟩ := Opening.eq_of_append_eq f.exists_lead_eq g.exists_lead_eq h
  obtain ⟨hlead, hrest⟩ :=
    append_inj_of_head f.blank_lead f.head?_target g.blank_lead g.head?_target hrest
  obtain ⟨hpath, hrest⟩ := append_inj_of_head (hpath f) (htail f) (hpath g) (htail g) hrest
  exact MarkerForm.ext hopening hlead hpath (ExtrasForm.eq_of_elim_eq hrest)

theorem trim_lead_target (f : MarkerForm) : trim (f.lead ++ f.target) = f.target := by
  rw [trim_blank_append f.blank_lead, trim_eq_self f.head?_target f.getLast?_target]

theorem isName_of_mem_extras {f : MarkerForm} {extra : List Char} (h : extra ∈ f.extras) :
    IsName extra := by
  unfold extras at h
  cases hlist : f.list? with
  | none =>
    rw [hlist] at h
    cases h
  | some list =>
    rw [hlist] at h
    exact list.isName_of_mem_extras h

end MarkerForm

/-- No text is both a pin and a marker. -/
theorem PinForm.text_ne_text (f : PinForm) (g : MarkerForm) : f.text ≠ g.text := by
  obtain ⟨c, rest, hpin, halnum⟩ := f.exists_text_eq
  obtain ⟨more, hopening⟩ := g.opening.exists_text_eq
  rw [MarkerForm.text, hpin, hopening]
  intro h
  rw [(List.cons.inj h).1] at halnum
  exact absurd halnum (by decide)

end EntryLine
end Pinfile
