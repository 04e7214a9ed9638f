import Pinfile.Proofs.Manifest.EntryForms
import Pinfile.Proofs.Manifest.WellFormed

/-!
# The grammar of entry lines

The reader of entry lines accepts those whose bodies have forms, and no others, and gives what the
forms say (`parseEntry_grammar`). It works by cutting at marks, so for each of its parts there are two
lemmas. What a form writes is read: the marks stand where the form has put them, and nowhere before
(`PinForm.parsePin_text`, `MarkerForm.parseMarker_target`). What is read has a form: the pieces between
the marks, with the blanks that were trimmed, make up the body again (`exists_pinForm`,
`exists_markerForm`).
-/

namespace Pinfile.EntryLine

open Text
open PackageName (IsName isValid_ofList_iff)

/-! ## Pins -/

/-- What is written as a pin is read. -/
theorem PinForm.parsePin_text (f : PinForm) (line : Nat) (isOverride : Bool) :
    parsePin line isOverride f.text = .ok (f.pin isOverride line) := by
  have hmark : '=' ∉ f.name ++ f.left := by
    rw [List.mem_append, not_or]
    exact ⟨fun hmem => absurd (f.isName.isNameChar _ hmem) (by decide),
      fun hmem => absurd (f.blank_left _ hmem) (by decide)⟩
  have hcut : cutAt? ['=', '='] f.text = some (f.name ++ f.left, f.right ++ f.version) := by
    rw [text, ← List.append_assoc]
    exact cutAt?_append hmark ['='] _
  have hname : trim (f.name ++ f.left) = f.name := by
    rw [trim_append_blank f.blank_left, f.isName.trim_eq]
  have hversion : trim (f.right ++ f.version) = f.version := by
    rw [trim_blank_append f.blank_right, f.trim_version]
  refine parsePin_eq_ok_iff.mpr ⟨_, _, hcut, ?_⟩
  rw [hname, hversion, isValid_ofList_iff]
  exact ⟨f.isName, f.version_ne, f.isVersion, rfl⟩

/-- What is read as a pin is written as one. -/
theorem exists_pinForm {line : Nat} {isOverride : Bool} {body : List Char} {p : Pin}
    (hbody : trim body = body) (h : parsePin line isOverride body = .ok p) :
    ∃ f : PinForm, f.text = body ∧ p = f.pin isOverride line := by
  obtain ⟨before, after, hcut, hname, hne, hversion, rfl⟩ := parsePin_eq_ok_iff.mp h
  obtain rfl := cutAt?_eq_some hcut
  obtain ⟨right, hright, hafter⟩ := exists_blank_append hbody
  rw [List.append_assoc] at hbody
  obtain ⟨left, hleft, hbefore⟩ := exists_append_blank hbody
  refine ⟨⟨trim before, left, right, trim after, isValid_ofList_iff.mp hname, hleft, hright, hne,
    hversion⟩, ?_, rfl⟩
  calc trim before ++ (left ++ '=' :: '=' :: (right ++ trim after))
      = (trim before ++ left) ++ ['=', '='] ++ (right ++ trim after) := by simp
    _ = before ++ ['=', '='] ++ after := by rw [← hbefore, ← hafter]

/-! ## Markers -/

/-- When a body is taken for a marker, and what it then asks for. -/
theorem target?_eq_some_iff {body target : List Char} :
    target? body = some target ↔ ∃ (o : Opening) (rest : List Char), body = o.text ++ rest ∧
      (o ≠ .joined → startsBlank rest = true) ∧ target = trim rest := by
  constructor
  · intro h
    unfold target? at h
    split at h
    · next rest hrest =>
      refine ⟨.joined, rest, ?_, fun hne => absurd rfl hne, (Option.some.inj h).symm⟩
      rw [afterPrefix?_eq_some_iff.mp hrest, Opening.text, List.append_assoc]
      rfl
    · next rest _ hrest =>
      split at h
      · next hblank =>
        exact ⟨.long, rest, afterPrefix?_eq_some_iff.mp hrest, fun _ => hblank,
          (Option.some.inj h).symm⟩
      · cases h
    · split at h
      · next rest hrest =>
        split at h
        · next hblank =>
          exact ⟨.short, rest, afterPrefix?_eq_some_iff.mp hrest, fun _ => hblank,
            (Option.some.inj h).symm⟩
        · cases h
      · cases h
  · rintro ⟨o, rest, rfl, hblank, rfl⟩
    cases o with
    | short =>
      have hlong : afterPrefix? longOption (shortOption ++ rest) = none := rfl
      have hshort : afterPrefix? shortOption (shortOption ++ rest) = some rest :=
        afterPrefix?_eq_some_iff.mpr rfl
      rw [target?, Opening.text, hlong, hshort]
      dsimp only
      rw [if_pos (hblank (by simp))]
    | long =>
      have hlong : afterPrefix? longOption (longOption ++ rest) = some rest :=
        afterPrefix?_eq_some_iff.mpr rfl
      have hstart := hblank (by simp)
      rw [target?, Opening.text, hlong]
      split
      · next heq =>
        rw [Option.some.inj heq] at hstart
        cases hstart
      · next heq =>
        obtain rfl := Option.some.inj heq
        rw [if_pos hstart]
      · next heq => cases heq
    | joined =>
      have hlong : afterPrefix? longOption (Opening.joined.text ++ rest) = some ('=' :: rest) := by
        rw [afterPrefix?_eq_some_iff, Opening.text, List.append_assoc]
        rfl
      rw [target?, hlong]
      rfl

namespace MarkerForm

theorem target?_text (f : MarkerForm) : target? f.text = some f.target := by
  refine target?_eq_some_iff.mpr ⟨f.opening, f.lead ++ f.target, rfl, fun hne => ?_,
    f.trim_lead_target.symm⟩
  obtain ⟨b, more, heq, hb⟩ := f.exists_lead_eq hne
  rw [heq]
  exact hb

/-- The path and the features are found in what the marker asks for. -/
theorem splitTarget_target (f : MarkerForm) : splitTarget f.target = .ok (f.path, f.extras) := by
  have hpath : '[' ∉ f.path := fun hmem => (f.isPath _ hmem).2 rfl
  unfold target tail extras
  cases f.list? with
  | none =>
    rw [Option.elim_none, Option.elim_none, List.append_nil, splitTarget,
      cutAt?_singleton_eq_none_iff.mpr hpath]
  | some list =>
    have hbefore : '[' ∉ f.path ++ list.gap := by
      rw [List.mem_append, not_or]
      exact ⟨hpath, fun hmem => absurd (list.blank_gap _ hmem) (by decide)⟩
    have hcut : cutAt? ['['] (f.path ++ list.text) =
        some (f.path ++ list.gap, [','].intercalate list.items ++ [']']) := by
      rw [ExtrasForm.text, ← List.append_assoc]
      exact cutAt?_append hbefore [] _
    have hclosed : beforeSuffix? [']'] ([','].intercalate list.items ++ [']']) =
        some ([','].intercalate list.items) := beforeSuffix?_eq_some_iff.mpr rfl
    have htrim : trim (f.path ++ list.gap) = f.path := by
      rw [trim_append_blank list.blank_gap]
      exact trim_eq_self (fun c hc => (f.isPath c (List.mem_of_mem_head? hc)).1)
        fun c hc => (f.isPath c (List.mem_of_mem_getLast? hc)).1
    rw [Option.elim_some, Option.elim_some, splitTarget, hcut]
    dsimp only
    rw [hclosed]
    dsimp only
    rw [htrim, splitExtras, List.splitOn_intercalate ',' list.noComma list.items_ne,
      ExtrasForm.extras]

/-- What is written as a marker is read. -/
theorem parseMarker_target (f : MarkerForm) (line : Nat) :
    parseMarker line f.target = .ok (f.marker line) :=
  parseMarker_eq_ok_iff.mpr ⟨f.target_ne, f.path, f.extras, f.splitTarget_target, f.path_ne,
    fun c hc => (f.isPath c hc).1,
    fun _ hextra => isValid_ofList_iff.mpr (isName_of_mem_extras hextra), rfl⟩

end MarkerForm

/-- What is split into a path and features is written as a path, and perhaps a list. -/
theorem exists_extrasForm {target path : List Char} {extras : List (List Char)}
    (htarget : trim target = target) (h : splitTarget target = .ok (path, extras))
    (hextras : ∀ extra ∈ extras, PackageName.isValid (String.ofList extra) = true) :
    ∃ list? : Option ExtrasForm, target = path ++ list?.elim [] ExtrasForm.text ∧
      extras = list?.elim [] ExtrasForm.extras := by
  unfold splitTarget at h
  split at h
  · cases h
    exact ⟨none, (List.append_nil _).symm, rfl⟩
  · next before rest hcut =>
    split at h
    · cases h
    · next inner hinner =>
      cases h
      obtain rfl := cutAt?_eq_some hcut
      obtain rfl := beforeSuffix?_eq_some_iff.mp hinner
      rw [List.append_assoc] at htarget
      obtain ⟨gap, hgap, hbefore⟩ := exists_append_blank htarget
      have hname : ∀ item ∈ inner.splitOn ',', trim item ≠ [] → IsName (trim item) := by
        intro item hitem hne
        refine isValid_ofList_iff.mp (hextras _ (List.mem_filter.mpr ⟨?_, by simpa using hne⟩))
        exact List.mem_map_of_mem hitem
      refine ⟨some ⟨gap, inner.splitOn ',', hgap, List.splitOn_ne_nil ',' inner,
        fun _ => not_mem_of_mem_splitOn, hname⟩, ?_, rfl⟩
      rw [Option.elim_some, ExtrasForm.text, List.intercalate_splitOn]
      calc before ++ ['['] ++ (inner ++ [']'])
          = trim before ++ gap ++ ['['] ++ (inner ++ [']']) := by rw [← hbefore]
        _ = trim before ++ (gap ++ '[' :: (inner ++ [']'])) := by simp

/-- What is read as a marker is written as one. -/
theorem exists_markerForm {line : Nat} {body target : List Char} {m : Marker}
    (hbody : trim body = body) (htarget : target? body = some target)
    (h : parseMarker line target = .ok m) :
    ∃ f : MarkerForm, f.text = body ∧ m = f.marker line := by
  obtain ⟨hne, path, extras, hsplit, hpath, hblank, hextras, rfl⟩ := parseMarker_eq_ok_iff.mp h
  obtain ⟨o, rest, rfl, hstart, rfl⟩ := target?_eq_some_iff.mp htarget
  obtain ⟨lead, hlead, hrest⟩ := exists_blank_append hbody
  obtain ⟨list?, htext, rfl⟩ := exists_extrasForm (trim_trim rest) hsplit hextras
  have hleadNe : o ≠ .joined → lead ≠ [] := by
    rintro ho rfl
    rw [List.nil_append] at hrest
    cases rest with
    | nil => exact hne rfl
    | cons c rest =>
      have hc := head?_trim (c :: rest) c (by rw [← hrest]; rfl)
      rw [show isBlank c = true from hstart ho] at hc
      cases hc
  refine ⟨⟨o, lead, path, list?, hlead, hleadNe, hpath, fun c hc =>
    ⟨hblank c hc, (mem_of_splitTarget hsplit hc).2⟩⟩, ?_, rfl⟩
  change o.text ++ (lead ++ (path ++ list?.elim [] ExtrasForm.text)) = o.text ++ rest
  rw [← htext, ← hrest]

/-! ## Lines -/

/-- The body of a line: what stands before the first `#`, without the blanks around it. -/
def body (content : List Char) : List Char := trim (content.takeWhile (· != '#'))

/-- The comment of a line: what stands after the first `#`. -/
def comment? (content : List Char) : Option (List Char) := (content.dropWhile (· != '#')).tail?

/-- The comment is the word that marks an override, in any letter case and with blanks around it. -/
def MarksOverride (comment : List Char) : Prop :=
  (trim comment).map Char.toLower = "override".toList

/-- Before and after the first `#` stand the body and the comment. -/
theorem body_append {before : List Char} (h : '#' ∉ before) (comment : List Char) :
    body (before ++ '#' :: comment) = trim before ∧
      comment? (before ++ '#' :: comment) = some comment := by
  have hkeep : ∀ c ∈ before, (c != '#') = true := fun c hc => by
    rw [bne_iff_ne]
    exact fun heq => h (heq ▸ hc)
  rw [body, comment?, List.takeWhile_append_of_pos hkeep, List.dropWhile_append_of_pos hkeep]
  simp

/-- A line without a `#` is all body. -/
theorem body_of_not_mem {content : List Char} (h : '#' ∉ content) :
    body content = trim content ∧ comment? content = none := by
  have hkeep : ∀ c ∈ content, (c != '#') = true := fun c hc => by
    rw [bne_iff_ne]
    exact fun heq => h (heq ▸ hc)
  rw [body, comment?, List.takeWhile_eq_self_iff.mpr hkeep, List.dropWhile_eq_nil_iff.mpr hkeep]
  exact ⟨rfl, rfl⟩

theorem cutComment_eq {content : List Char} (h : trim content = content) :
    cutComment content = (body content, (comment? content).map trim) := by
  by_cases hmem : '#' ∈ content
  · obtain ⟨before, after, rfl, hbefore⟩ := List.eq_append_cons_of_mem hmem
    have hcut : cutAt? ['#'] (before ++ '#' :: after) = some (before, after) :=
      cutAt?_append hbefore [] after
    obtain ⟨hbody, hcomment⟩ := body_append hbefore after
    rw [cutComment, hcut, hbody, hcomment]
    rfl
  · obtain ⟨hbody, hcomment⟩ := body_of_not_mem hmem
    rw [cutComment, cutAt?_singleton_eq_none_iff.mpr hmem, hbody, hcomment, h]
    rfl

theorem marksOverride_iff {content : List Char} :
    marksOverride ((comment? content).map trim) = true ↔
      ∃ comment ∈ comment? content, MarksOverride comment := by
  cases comment? content with
  | none => simp [marksOverride]
  | some comment => simp [marksOverride, sameIgnoringAsciiCase, MarksOverride]

theorem trim_body (content : List Char) : trim (body content) = body content := trim_trim _

/-! ## The grammar -/

theorem PinForm.target?_text (f : PinForm) : target? f.text = none := by
  cases h : target? f.text with
  | none => rfl
  | some target =>
    -- a body that is taken for a marker begins with a hyphen
    obtain ⟨o, rest, htext, -⟩ := target?_eq_some_iff.mp h
    obtain ⟨c, more, hpin, halnum⟩ := f.exists_text_eq
    obtain ⟨more, hopening⟩ := o.exists_text_eq
    rw [hpin, hopening] at htext
    rw [(List.cons.inj htext).1] at halnum
    exact absurd halnum (by decide)

section Grammar

variable {content : List Char} {line : Nat}

/-- A line is read as a pin exactly when its body is written as one. -/
theorem parseEntry_eq_pin_iff (h : trim content = content) {p : Pin} :
    parseEntry line content = .ok (.pin p) ↔
      ∃ f : PinForm, f.text = body content ∧
        p = f.pin (marksOverride ((comment? content).map trim)) line := by
  rw [parseEntry_eq_ok_iff, cutComment_eq h]
  constructor
  · rintro (⟨_, _, -, -, heq⟩ | ⟨-, p, hp, heq⟩)
    · cases heq
    · cases heq
      exact exists_pinForm (trim_body content) hp
  · rintro ⟨f, htext, rfl⟩
    rw [← htext]
    exact Or.inr ⟨f.target?_text, _, f.parsePin_text line _, rfl⟩

/-- A line is read as a marker exactly when its body is written as one. -/
theorem parseEntry_eq_editable_iff (h : trim content = content) {m : Marker} :
    parseEntry line content = .ok (.editable m) ↔
      ∃ f : MarkerForm, f.text = body content ∧ m = f.marker line := by
  rw [parseEntry_eq_ok_iff, cutComment_eq h]
  constructor
  · rintro (⟨target, m, htarget, hm, heq⟩ | ⟨-, _, -, heq⟩)
    · cases heq
      exact exists_markerForm (trim_body content) htarget hm
    · cases heq
  · rintro ⟨f, htext, rfl⟩
    rw [← htext]
    exact Or.inl ⟨f.target, _, f.target?_text, f.parseMarker_target line, rfl⟩

/-- A line is rejected exactly when its body has no form. -/
theorem parseEntry_eq_error_iff (h : trim content = content) :
    (∃ fault, parseEntry line content = .error fault) ↔
      (∀ f : PinForm, f.text ≠ body content) ∧ ∀ f : MarkerForm, f.text ≠ body content := by
  constructor
  · rintro ⟨fault, hfault⟩
    refine ⟨fun f hf => ?_, fun f hf => ?_⟩
    · rw [(parseEntry_eq_pin_iff h).mpr ⟨f, hf, rfl⟩] at hfault
      cases hfault
    · rw [(parseEntry_eq_editable_iff h).mpr ⟨f, hf, rfl⟩] at hfault
      cases hfault
  · rintro ⟨hpin, hmarker⟩
    cases hparse : parseEntry line content with
    | error fault => exact ⟨fault, rfl⟩
    | ok e =>
      cases e with
      | pin p =>
        obtain ⟨f, hf, -⟩ := (parseEntry_eq_pin_iff h).mp hparse
        exact absurd hf (hpin f)
      | editable m =>
        obtain ⟨f, hf, -⟩ := (parseEntry_eq_editable_iff h).mp hparse
        exact absurd hf (hmarker f)

/-- The reader of entry lines accepts those of the grammar and gives what stands in them; a comment
tells whether a pin is an override. The grammar leaves no choice: a body is a pin or a marker or
neither, and is one in a single way. -/
theorem parseEntry_grammar :
    (∀ content line, trim content = content →
      (∀ p, parseEntry line content = .ok (.pin p) ↔
        ∃ f : PinForm, f.text = body content ∧ p.name.text = String.ofList f.name ∧
          p.version = String.ofList f.version ∧ p.line = line ∧
          (p.isOverride = true ↔ ∃ comment ∈ comment? content, MarksOverride comment)) ∧
      (∀ m, parseEntry line content = .ok (.editable m) ↔
        ∃ f : MarkerForm, f.text = body content ∧ m.path = String.ofList f.path ∧
          m.extras = f.extras.map String.ofList ∧ m.line = line) ∧
      ((∃ fault, parseEntry line content = .error fault) ↔
        (∀ f : PinForm, f.text ≠ body content) ∧ ∀ f : MarkerForm, f.text ≠ body content)) ∧
    (∀ f g : PinForm, f.text = g.text → f = g) ∧
    (∀ f g : MarkerForm, f.text = g.text → f = g) ∧
    ∀ (f : PinForm) (g : MarkerForm), f.text ≠ g.text := by
  refine ⟨fun content line h => ⟨fun p => ?_, fun m => ?_, parseEntry_eq_error_iff h⟩,
    fun _ _ => PinForm.eq_of_text_eq, fun _ _ => MarkerForm.eq_of_text_eq, PinForm.text_ne_text⟩
  · rw [parseEntry_eq_pin_iff h]
    refine exists_congr fun f => and_congr_right fun _ => ?_
    rw [← marksOverride_iff, ← Bool.eq_iff_iff]
    constructor
    · rintro rfl
      exact ⟨rfl, rfl, rfl, rfl⟩
    · obtain ⟨⟨name⟩, version, isOverride, number⟩ := p
      rintro ⟨rfl, rfl, rfl, rfl⟩
      rfl
  · rw [parseEntry_eq_editable_iff h]
    refine exists_congr fun f => and_congr_right fun _ => ?_
    constructor
    · rintro rfl
      exact ⟨rfl, rfl, rfl⟩
    · obtain ⟨path, extras, number⟩ := m
      rintro ⟨rfl, rfl, rfl⟩
      rfl

/-- Lines with a blank outside ASCII, with an equals sign after the option, and with one too many. -/
theorem exists_forms :
    let pinned := "my-lib\u00A0== 1.0!2 #\tOverride".toList
    let marked := "--editable =x [ a,, b ] # override".toList
    let refused := "pytest===8.3.4".toList
    (∃ f : PinForm, f.text = body pinned ∧ "my-lib" = String.ofList f.name ∧
      "1.0!2" = String.ofList f.version) ∧
    (∃ comment ∈ comment? pinned, MarksOverride comment) ∧
    (∃ f : MarkerForm, f.text = body marked ∧ "=x" = String.ofList f.path ∧
      ["a", "b"] = f.extras.map String.ofList) ∧
    (∀ f : PinForm, f.text ≠ body refused) ∧ ∀ f : MarkerForm, f.text ≠ body refused := by
  intro pinned marked refused
  have hpinned : parseEntry 1 pinned = .ok (.pin ⟨⟨"my-lib"⟩, "1.0!2", true, 1⟩) := by
    decide +kernel
  have hmarked : parseEntry 2 marked = .ok (.editable ⟨"=x", ["a", "b"], 2⟩) := by decide +kernel
  have hrefused : ∃ fault, parseEntry 3 refused = .error fault :=
    ⟨.unsupportedVersion "=8.3.4" "pytest", by decide +kernel⟩
  obtain ⟨hpin, -, -⟩ := parseEntry_grammar.1 pinned 1 (by decide +kernel)
  obtain ⟨-, hmarker, -⟩ := parseEntry_grammar.1 marked 2 (by decide +kernel)
  obtain ⟨-, -, herror⟩ := parseEntry_grammar.1 refused 3 (by decide +kernel)
  obtain ⟨f, hf, hname, hversion, -, hoverride⟩ := (hpin _).mp hpinned
  obtain ⟨g, hg, hpath, hextras, -⟩ := (hmarker _).mp hmarked
  exact ⟨⟨f, hf, hname, hversion⟩, hoverride.mp rfl, ⟨g, hg, hpath, hextras⟩, herror.mp hrefused⟩

end Grammar
end Pinfile.EntryLine
