import Pinfile.Proofs.Json.Scalars

/-!
# Layouts are read back

A value may be laid out with blanks before the items of a bracket, before its closing bracket and after
the colons of its members (`Laid`). Both layouts that are written are of this kind: the compact one
without any blanks, and the pretty one with line feeds and indentation. Reading takes every one of them
back (`parse?_of_laid`).

The proof goes by the layout. What a bracket holds is read by one loop, so there is one lemma about
items with commas between them, which asks of the reader of the items that it reads each of them back
(`bracketed_commas`); for an array that is the reader of values, for an object that of members.
-/

namespace Pinfile.Json

/-! ## Blanks -/

/-- The characters that stand between the parts of a value. -/
def isGapChar (c : Char) : Bool := c == ' ' || c == '\t' || c == '\n' || c == '\r'

/-- A text of blanks. -/
def IsGap (cs : List Char) : Prop := ∀ c ∈ cs, isGapChar c = true

theorem isGap_nil : IsGap [] := fun _ h => nomatch h

theorem isGap_space : IsGap [' '] := List.forall_mem_singleton.mpr rfl

theorem isGap_newLine (indent : Nat) : IsGap (newLine indent) := by
  refine List.forall_mem_cons.mpr ⟨rfl, fun c hc => ?_⟩
  rw [(List.mem_replicate.mp hc).2]
  rfl

theorem skipBlanks_gap {gap : List Char} (h : IsGap gap) (cs : List Char) :
    skipBlanks (gap ++ cs) = skipBlanks cs := List.dropWhile_append_of_pos h

theorem skipBlanks_cons {c : Char} (h : isGapChar c = false) (cs : List Char) :
    skipBlanks (c :: cs) = c :: cs := List.dropWhile_cons_of_neg (by simpa [isGapChar] using h)

/-- A value is read from behind the blanks before it. -/
theorem value?_gap {gap : List Char} (h : IsGap gap) (room : Nat) (cs : List Char) :
    value? room (gap ++ cs) = value? room cs := by
  cases room with
  | zero => rfl
  | succ room => rw [value?, value?, skipBlanks_gap h]

theorem isNumberChar_of_isGapChar {c : Char} (h : isGapChar c = true) : isNumberChar c = false := by
  simp only [isGapChar, Bool.or_eq_true, beq_iff_eq] at h
  rcases h with ((rfl | rfl) | rfl) | rfl <;> rfl

theorem isGapChar_of_isNumberChar {c : Char} (h : isNumberChar c = true) : isGapChar c = false := by
  by_contra hgap
  rw [isNumberChar_of_isGapChar (by simpa using hgap)] at h
  cases h

/-- No number goes on with blanks, nor with what no number goes on with behind them. -/
theorem endsNumber_gap {gap rest : List Char} (h : IsGap gap) (hrest : EndsNumber rest) :
    EndsNumber (gap ++ rest) := by
  cases gap with
  | nil => exact hrest
  | cons c gap =>
    rintro _ ⟨⟩
    exact isNumberChar_of_isGapChar (h c List.mem_cons_self)

theorem endsNumber_cons {c : Char} (h : isNumberChar c = false) (cs : List Char) :
    EndsNumber (c :: cs) := by
  rintro _ ⟨⟩
  exact h

/-! ## Items with commas between them -/

/-- The texts with commas between them. -/
def commas : List (List Char) → List Char
  | [] => []
  | text :: rest => text ++ rest.flatMap (',' :: ·)

theorem length_le_commas {texts : List (List Char)} {text : List Char} (h : text ∈ texts) :
    text.length ≤ (commas texts).length := by
  cases texts with
  | nil => cases h
  | cons first rest =>
    rw [commas, List.length_append]
    rcases List.mem_cons.mp h with rfl | h
    · exact Nat.le_add_right ..
    · have hsub : (',' :: text).Sublist (rest.flatMap (',' :: ·)) :=
        List.sublist_flatten_of_mem (List.mem_map_of_mem h)
      have hlength := hsub.length_le
      rw [List.length_cons] at hlength
      omega

section Items

variable {α : Type} {read : List Char → Option (α × List Char)} {close : Char} {after : List Char}

/-- Items that are read one by one are read together, up to the closing bracket. -/
theorem separated_commas (hclose : close = ']' ∨ close = '\x7d') (hafter : IsGap after)
    {first : α × List Char} {items : List (α × List Char)}
    (hread : ∀ x ∈ first :: items, ∀ rest, EndsNumber rest → read (x.2 ++ rest) = some (x.1, rest))
    (rest : List Char) :
    separated close read (commas ((first :: items).map Prod.snd) ++ (after ++ close :: rest)) =
      some ((first :: items).map Prod.fst, rest) := by
  have hends : EndsNumber (after ++ close :: rest) := by
    refine endsNumber_gap hafter (endsNumber_cons ?_ rest)
    rcases hclose with rfl | rfl <;> rfl
  have hskip : skipBlanks (after ++ close :: rest) = close :: rest := by
    rw [skipBlanks_gap hafter, skipBlanks_cons]
    rcases hclose with rfl | rfl <;> rfl
  have hcomma : ',' ≠ close := by rcases hclose with rfl | rfl <;> decide
  induction items generalizing first with
  | nil =>
    have hfirst := hread first List.mem_cons_self _ hends
    rw [List.map_singleton, commas, List.flatMap_nil, List.append_nil, separated, hfirst]
    simp only [hskip, if_true]
    rfl
  | cons second items ih =>
    obtain ⟨hfirst, hitems⟩ := List.forall_mem_cons.mp hread
    have hsplit : commas ((first :: second :: items).map Prod.snd) ++ (after ++ close :: rest) =
        first.2 ++ ',' :: (commas ((second :: items).map Prod.snd) ++ (after ++ close :: rest)) := by
      simp [commas]
    rw [hsplit, separated, hfirst _ (endsNumber_cons rfl _)]
    simp only [skipBlanks_cons (c := ',') rfl]
    have hlength : (commas ((second :: items).map Prod.snd) ++ (after ++ close :: rest)).length <
        (first.2 ++ ',' :: (commas ((second :: items).map Prod.snd) ++
          (after ++ close :: rest))).length := by
      simp only [List.length_append, List.length_cons]
      omega
    rw [if_neg hcomma, if_pos ⟨trivial, hlength⟩, ih hitems]
    rfl

/-- What a bracket holds is read, when no item begins with the closing bracket. -/
theorem bracketed_commas (hclose : close = ']' ∨ close = '\x7d') (hafter : IsGap after)
    {items : List (α × List Char)}
    (hhead : ∀ x ∈ items, ∃ gap c cs, x.2 = gap ++ c :: cs ∧ IsGap gap ∧ isGapChar c = false ∧
      c ≠ close)
    (hread : ∀ x ∈ items, ∀ rest, EndsNumber rest → read (x.2 ++ rest) = some (x.1, rest))
    (rest : List Char) :
    bracketed close read (commas (items.map Prod.snd) ++ (after ++ close :: rest)) =
      some (items.map Prod.fst, rest) := by
  cases items with
  | nil =>
    have hgap : isGapChar close = false := by rcases hclose with rfl | rfl <;> rfl
    rw [List.map_nil, commas, List.nil_append, bracketed, skipBlanks_gap hafter, skipBlanks_cons hgap]
    exact if_pos rfl
  | cons first items =>
    obtain ⟨gap, c, cs, hfirst, hbefore, hc, hne⟩ := hhead first List.mem_cons_self
    have hskip : skipBlanks (commas ((first :: items).map Prod.snd) ++ (after ++ close :: rest)) =
        c :: (cs ++ ((items.map Prod.snd).flatMap (',' :: ·) ++ (after ++ close :: rest))) := by
      rw [List.map_cons, commas, hfirst, List.append_assoc, List.append_assoc, skipBlanks_gap hbefore,
        List.cons_append, skipBlanks_cons hc]
    rw [bracketed, hskip]
    simp only [if_neg hne]
    exact separated_commas hclose hafter hread rest

end Items

/-! ## Layouts -/

/-- A member whose value has the given text, with blanks before its name and after its colon. -/
def laidMember (before gap : List Char) (x : (String × Json) × List Char) : List Char :=
  before ++ (quote x.1.1 ++ ':' :: (gap ++ x.2))

/-- The text lays the value out, with blanks before the items of a bracket, before its closing bracket
and after colons. Those of one bracket are the same at each item. -/
inductive Laid : Json → List Char → Prop
  | null : Laid .null "null".toList
  | boolTrue : Laid (.bool true) "true".toList
  | boolFalse : Laid (.bool false) "false".toList
  | number {literal : String} : isNumber literal.toList = true → Laid (.number literal) literal.toList
  | string (text : String) : Laid (.string text) (quote text)
  | array {before after : List Char} (items : List (Json × List Char)) :
      IsGap before → IsGap after → (∀ x ∈ items, Laid x.1 x.2) →
      Laid (.array (items.map Prod.fst))
        ('[' :: (commas (items.map fun x => before ++ x.2) ++ (after ++ [']'])))
  | object {before after gap : List Char} (members : List ((String × Json) × List Char)) :
      IsGap before → IsGap after → IsGap gap → (∀ x ∈ members, Laid x.1.2 x.2) →
      Laid (.object (members.map Prod.fst))
        ('\x7b' :: (commas (members.map (laidMember before gap)) ++ (after ++ ['\x7d'])))

/-- The first character of a value is neither a blank nor a closing bracket. -/
theorem Laid.exists_cons {v : Json} {cs : List Char} (h : Laid v cs) :
    ∃ c rest, cs = c :: rest ∧ isGapChar c = false ∧ c ≠ ']' := by
  cases h with
  | null => exact ⟨_, _, rfl, rfl, by decide⟩
  | boolTrue => exact ⟨_, _, rfl, rfl, by decide⟩
  | boolFalse => exact ⟨_, _, rfl, rfl, by decide⟩
  | number hnumber =>
    obtain ⟨c, rest, hcons, hc⟩ := exists_cons_of_isNumber hnumber
    exact ⟨c, rest, hcons, isGapChar_of_isNumberChar hc, ne_of_isNumberChar hc rfl⟩
  | string text => exact ⟨_, _, rfl, rfl, by decide⟩
  | array items hbefore hafter hitems => exact ⟨_, _, rfl, rfl, by decide⟩
  | object members hbefore hafter hgap hmembers => exact ⟨_, _, rfl, rfl, by decide⟩

/-- A value that begins with no bracket and no quotation mark is a word or a number. -/
theorem value?_scalar {c : Char} (hgap : isGapChar c = false) (harray : c ≠ '[') (hobject : c ≠ '\x7b')
    (hstring : c ≠ '"') (room : Nat) (cs : List Char) :
    value? (room + 1) (c :: cs) = scalar? (c :: cs) := by
  rw [value?, skipBlanks_cons hgap]
  split
  · next heq => exact absurd (List.cons.inj heq).1 harray
  · next heq => exact absurd (List.cons.inj heq).1 hobject
  · next heq => exact absurd (List.cons.inj heq).1 hstring
  · rfl

theorem value?_number {literal : String} (h : isNumber literal.toList = true) {rest : List Char}
    (hrest : EndsNumber rest) (room : Nat) :
    value? (room + 1) (literal.toList ++ rest) = some (.number literal, rest) := by
  obtain ⟨c, cs, hcons, hc⟩ := exists_cons_of_isNumber h
  rw [← scalar?_number h hrest, hcons, List.cons_append]
  exact value?_scalar (isGapChar_of_isNumberChar hc) (ne_of_isNumberChar hc rfl)
    (ne_of_isNumberChar hc rfl) (ne_of_isNumberChar hc rfl) room _

theorem value?_string (room : Nat) (text : String) (rest : List Char) :
    value? (room + 1) (quote text ++ rest) = some (.string text, rest) := by
  change (string? (quote text ++ rest)).map (fun read => (Json.string read.1, read.2)) = _
  rw [string?_quote]
  rfl

/-- An array is read when its items are. -/
theorem value?_array {before after : List Char} (hbefore : IsGap before) (hafter : IsGap after)
    {items : List (Json × List Char)} (hitems : ∀ x ∈ items, Laid x.1 x.2) {room : Nat}
    (hread : ∀ x ∈ items, ∀ rest, EndsNumber rest → value? room (x.2 ++ rest) = some (x.1, rest))
    (rest : List Char) :
    value? (room + 1) ('[' :: (commas (items.map fun x => before ++ x.2) ++ (after ++ ']' :: rest))) =
      some (.array (items.map Prod.fst), rest) := by
  let texts := items.map fun x => (x.1, before ++ x.2)
  have hhead : ∀ x ∈ texts, ∃ gap c cs, x.2 = gap ++ c :: cs ∧ IsGap gap ∧ isGapChar c = false ∧
      c ≠ ']' := by
    refine List.forall_mem_map.mpr fun x hx => ?_
    obtain ⟨c, cs, hcons, hc⟩ := (hitems x hx).exists_cons
    exact ⟨before, c, cs, by rw [hcons], hbefore, hc⟩
  have hread : ∀ x ∈ texts, ∀ rest, EndsNumber rest →
      value? room (x.2 ++ rest) = some (x.1, rest) := by
    refine List.forall_mem_map.mpr fun x hx rest hrest => ?_
    rw [List.append_assoc, value?_gap hbefore]
    exact hread x hx rest hrest
  have hbracketed := bracketed_commas (Or.inl rfl) hafter hhead hread rest
  simp only [texts, List.map_map, Function.comp_def] at hbracketed
  exact congrArg (Option.map fun read => (Json.array read.1, read.2)) hbracketed

/-- A member is read when its value is. -/
theorem namedMember_laidMember {before gap : List Char} (hbefore : IsGap before) (hgap : IsGap gap)
    {room : Nat} {x : (String × Json) × List Char} {rest : List Char}
    (hread : value? room (x.2 ++ rest) = some (x.1.2, rest)) :
    namedMember (value? room) (laidMember before gap x ++ rest) = some (x.1, rest) := by
  have hname : string? (skipBlanks (laidMember before gap x ++ rest)) =
      some (x.1.1, ':' :: (gap ++ (x.2 ++ rest))) := by
    rw [laidMember, List.append_assoc, skipBlanks_gap hbefore, ← string?_quote x.1.1]
    simp only [List.append_assoc, List.cons_append]
    rfl
  rw [namedMember, hname]
  simp only [Option.bind_eq_bind, Option.bind_some, skipBlanks_cons (c := ':') rfl, value?_gap hgap,
    hread]
  rfl

/-- An object is read when the values of its members are. -/
theorem value?_object {before after gap : List Char} (hbefore : IsGap before) (hafter : IsGap after)
    (hgap : IsGap gap) {members : List ((String × Json) × List Char)} {room : Nat}
    (hread : ∀ x ∈ members, ∀ rest, EndsNumber rest →
      value? room (x.2 ++ rest) = some (x.1.2, rest))
    (rest : List Char) :
    value? (room + 1) ('\x7b' :: (commas (members.map (laidMember before gap)) ++
        (after ++ '\x7d' :: rest))) =
      some (.object (members.map Prod.fst), rest) := by
  let texts := members.map fun x => (x.1, laidMember before gap x)
  have hhead : ∀ x ∈ texts, ∃ gap c cs, x.2 = gap ++ c :: cs ∧ IsGap gap ∧ isGapChar c = false ∧
      c ≠ '\x7d' :=
    List.forall_mem_map.mpr fun x _ => ⟨before, '"', _, rfl, hbefore, rfl, by decide⟩
  have hread : ∀ x ∈ texts, ∀ rest, EndsNumber rest →
      namedMember (value? room) (x.2 ++ rest) = some (x.1, rest) :=
    List.forall_mem_map.mpr fun x hx rest hrest =>
      namedMember_laidMember hbefore hgap (hread x hx rest hrest)
  have hbracketed := bracketed_commas (Or.inr rfl) hafter hhead hread rest
  simp only [texts, List.map_map, Function.comp_def] at hbracketed
  exact congrArg (Option.map fun read => (Json.object read.1, read.2)) hbracketed

/-- A laid out value is read back, if no number goes on behind it. -/
theorem Laid.value?_append {v : Json} {cs : List Char} (h : Laid v cs) :
    ∀ room, cs.length ≤ room → ∀ rest, EndsNumber rest →
      value? (room + 1) (cs ++ rest) = some (v, rest) := by
  -- by the layout; a bracket leaves room for the values in it, whose texts are shorter
  induction h with
  | null =>
    intro room _ rest _
    exact (value?_scalar rfl (by decide) (by decide) (by decide) room _).trans (scalar?_null rest)
  | boolTrue =>
    intro room _ rest _
    exact (value?_scalar rfl (by decide) (by decide) (by decide) room _).trans (scalar?_true rest)
  | boolFalse =>
    intro room _ rest _
    exact (value?_scalar rfl (by decide) (by decide) (by decide) room _).trans (scalar?_false rest)
  | number hnumber => exact fun room _ rest hrest => value?_number hnumber hrest room
  | string text => exact fun room _ rest _ => value?_string room text rest
  | @array before after items hbefore hafter hitems ih =>
    intro room hroom rest _
    rw [List.length_cons, List.length_append] at hroom
    obtain ⟨room, rfl⟩ := Nat.exists_eq_succ_of_ne_zero (show room ≠ 0 by omega)
    have hlength : ∀ x ∈ items, x.2.length ≤ room := by
      intro x hx
      have hle := length_le_commas (List.mem_map_of_mem (f := fun x => before ++ x.2) hx)
      rw [List.length_append] at hle
      omega
    rw [List.cons_append, List.append_assoc, List.append_assoc]
    exact value?_array hbefore hafter hitems (fun x hx => ih x hx room (hlength x hx)) rest
  | @object before after gap members hbefore hafter hgap hmembers ih =>
    intro room hroom rest _
    rw [List.length_cons, List.length_append] at hroom
    obtain ⟨room, rfl⟩ := Nat.exists_eq_succ_of_ne_zero (show room ≠ 0 by omega)
    have hlength : ∀ x ∈ members, x.2.length ≤ room := by
      intro x hx
      have hle := length_le_commas (List.mem_map_of_mem (f := laidMember before gap) hx)
      simp only [laidMember, List.length_append, List.length_cons] at hle
      omega
    rw [List.cons_append, List.append_assoc, List.append_assoc]
    exact value?_object hbefore hafter hgap (fun x hx => ih x hx room (hlength x hx)) rest

/-- A text that lays a value out, between blanks, is read as the value. -/
theorem parse?_of_laid {v : Json} {cs left right : List Char} (h : Laid v cs) (hleft : IsGap left)
    (hright : IsGap right) : parse? (String.ofList (left ++ (cs ++ right))) = some v := by
  have hends : EndsNumber (right ++ []) := endsNumber_gap hright fun _ h => nomatch h
  have hskip : skipBlanks (right ++ []) = [] := skipBlanks_gap hright []
  rw [List.append_nil] at hends hskip
  have hlength : cs.length ≤ (left ++ (cs ++ right)).length := by
    simp only [List.length_append]
    omega
  rw [parse?, String.toList_ofList, value?_gap hleft, h.value?_append _ hlength right hends]
  simp only [hskip, List.isEmpty_nil, if_true]

/-! ## The layouts that are written -/

/-- Every number in the value is a number literal. -/
inductive WellFormed : Json → Prop
  | null : WellFormed .null
  | bool (b : Bool) : WellFormed (.bool b)
  | number {literal : String} : isNumber literal.toList = true → WellFormed (.number literal)
  | string (text : String) : WellFormed (.string text)
  | array {items : List Json} : (∀ v ∈ items, WellFormed v) → WellFormed (.array items)
  | object {members : List (String × Json)} : (∀ m ∈ members, WellFormed m.2) →
      WellFormed (.object members)

/-- What is written with commas from the second item on is the texts of the items with commas between
them. -/
theorem eq_commas {α : Type} {write : List α → List Char} {text : α → List Char}
    (hnil : write [] = []) (hone : ∀ a, write [a] = text a)
    (hmore : ∀ a b rest, write (a :: b :: rest) = text a ++ ',' :: write (b :: rest)) (as : List α) :
    write as = commas (as.map text) := by
  induction as with
  | nil => exact hnil
  | cons a as ih =>
    cases as with
    | nil => rw [hone, List.map_singleton, commas, List.flatMap_nil, List.append_nil]
    | cons b rest =>
      rw [hmore, ih]
      rfl

theorem compactItems_eq (items : List Json) : compactItems items = commas (items.map compactChars) :=
  eq_commas rfl (fun _ => by rw [compactItems]) (fun _ _ _ => by simp [compactItems]) items

theorem compactMembers_eq (members : List (String × Json)) :
    compactMembers members = commas (members.map fun m => laidMember [] [] (m, m.2.compactChars)) :=
  eq_commas rfl (fun _ => by simp [compactMembers, laidMember])
    (fun _ _ _ => by simp [compactMembers, laidMember]) members

theorem WellFormed.laid_compactChars {v : Json} (h : v.WellFormed) : Laid v v.compactChars := by
  induction h with
  | null => exact .null
  | bool b => cases b; exacts [.boolFalse, .boolTrue]
  | number h => exact .number h
  | string text => exact .string text
  | @array items hitems ih =>
    have hlaid := Laid.array (items.map fun v => (v, v.compactChars)) isGap_nil isGap_nil
      (List.forall_mem_map.mpr ih)
    simpa [compactChars, compactItems_eq, Function.comp_def] using hlaid
  | @object members hmembers ih =>
    have hlaid := Laid.object (members.map fun m => (m, m.2.compactChars)) isGap_nil isGap_nil
      isGap_nil (List.forall_mem_map.mpr ih)
    simpa [compactChars, compactMembers_eq, Function.comp_def] using hlaid

theorem prettyItems_eq (indent : Nat) (items : List Json) :
    prettyItems indent items = commas (items.map fun v => newLine indent ++ v.prettyChars indent) :=
  eq_commas rfl (fun _ => by rw [prettyItems]) (fun _ _ _ => by simp [prettyItems]) items

theorem prettyMembers_eq (indent : Nat) (members : List (String × Json)) :
    prettyMembers indent members =
      commas (members.map fun m => laidMember (newLine indent) [' '] (m, m.2.prettyChars indent)) :=
  eq_commas rfl (fun _ => by simp [prettyMembers, laidMember])
    (fun _ _ _ => by simp [prettyMembers, laidMember]) members

theorem WellFormed.laid_prettyChars {v : Json} (h : v.WellFormed) (indent : Nat) :
    Laid v (v.prettyChars indent) := by
  induction h generalizing indent with
  | null => exact .null
  | bool b => cases b; exacts [.boolFalse, .boolTrue]
  | number h => exact .number h
  | string text => exact .string text
  | @array items hitems ih =>
    cases items with
    | nil => exact .array [] isGap_nil isGap_nil (by simp)
    | cons item items =>
      have hlaid := Laid.array ((item :: items).map fun v => (v, v.prettyChars (indent + 2)))
        (isGap_newLine (indent + 2)) (isGap_newLine indent)
        (List.forall_mem_map.mpr fun v hv => ih v hv (indent + 2))
      simpa [prettyChars, prettyItems_eq, Function.comp_def] using hlaid
  | @object members hmembers ih =>
    cases members with
    | nil => exact .object [] isGap_nil isGap_nil isGap_nil (by simp)
    | cons m members =>
      have hlaid := Laid.object ((m :: members).map fun m => (m, m.2.prettyChars (indent + 2)))
        (isGap_newLine (indent + 2)) (isGap_newLine indent) isGap_space
        (List.forall_mem_map.mpr fun m hm => ih m hm (indent + 2))
      simpa [prettyChars, prettyMembers_eq, Function.comp_def] using hlaid

/-- Both layouts of a value are read back. -/
theorem WellFormed.parse? {v : Json} (h : v.WellFormed) :
    parse? v.compact = some v ∧ parse? v.pretty = some v := by
  have hcompact := parse?_of_laid h.laid_compactChars isGap_nil isGap_nil
  have hpretty := parse?_of_laid (h.laid_prettyChars 0) isGap_nil isGap_nil
  rw [List.nil_append, List.append_nil] at hcompact hpretty
  exact ⟨hcompact, hpretty⟩

end Pinfile.Json
