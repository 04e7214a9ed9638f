import Pinfile.Proofs.Toml.LineEnds
import Pinfile.Proofs.Toml.Statements

/-!
# Documents and their line ends

Every reader of a document agrees on texts that refold each other: of blanks and comments, of keys, of
values inside other values, and of lines. So a document has the same root table however its lines end
(`read?_eq_of_refolds`).
-/

namespace Pinfile.Toml

open Quoted

variable {cs ds as bs rest rest' : List Char} {c : Char}

/-! ## Blanks and comments -/

theorem later_skipGap (h : Refolds cs ds) : Later cs ds (skipGap cs) (skipGap ds) :=
  h.later_dropWhile rfl rfl

theorem skipComment_of_ne (h : ∀ as, cs ≠ '#' :: as) : skipComment cs = cs := by
  unfold skipComment
  split
  · next more => exact absurd rfl (h more)
  · rfl

theorem later_skipComment (h : Refolds cs ds) : Later cs ds (skipComment cs) (skipComment ds) := by
  rcases h.head_cases (c := '#') (by decide) with ⟨as, bs, rfl, rfl, hrest⟩ | ⟨hcs, hds⟩
  · exact (hrest.later_dropWhile (p := isPlain) (by decide) (by decide)).of_cons
  · rw [skipComment_of_ne hcs, skipComment_of_ne hds]
    exact h.later

/-- What stands between the blanks and comments of a line and its end. -/
theorem later_skipComment_skipGap (h : Refolds cs ds) :
    Later cs ds (skipComment (skipGap cs)) (skipComment (skipGap ds)) :=
  (later_skipGap h).trans (later_skipComment (later_skipGap h).refolds)

/-- A line ends in both texts, or in neither. -/
theorem endLine?_cases (h : Refolds cs ds) :
    (endLine? cs = none ∧ endLine? ds = none) ∨
      ∃ as bs, endLine? cs = some as ∧ endLine? ds = some bs ∧ Later cs ds as bs := by
  have hlater := later_skipComment_skipGap h
  unfold endLine?
  dsimp only
  generalize skipComment (skipGap cs) = as at hlater ⊢
  generalize skipComment (skipGap ds) = bs at hlater ⊢
  cases hempty : as.isEmpty with
  | true =>
    obtain rfl := List.isEmpty_iff.mp hempty
    obtain rfl := hlater.refolds.eq_nil
    exact Or.inr ⟨[], [], rfl, rfl, hlater⟩
  | false =>
    have hempty' : bs.isEmpty = false := by
      cases bs with
      | nil => rw [hlater.refolds.symm.eq_nil] at hempty; cases hempty
      | cons b bs => rfl
    rw [hempty', if_neg Bool.false_ne_true, if_neg Bool.false_ne_true]
    rcases hlater.refolds.afterLineEnd?_cases with hnone | ⟨as', bs', has, hbs, hlater'⟩
    · exact Or.inl hnone
    · exact Or.inr ⟨as', bs', has, hbs, hlater.trans hlater'⟩

theorem skipLines_eq (cs : List Char) :
    skipLines cs =
      match afterLineEnd? (skipComment (skipGap cs)) with
      | some rest => skipLines rest
      | none => skipComment (skipGap cs) := by
  rw [skipLines]
  split <;> simp only [*]

theorem later_skipLines {cs ds : List Char} (h : Refolds cs ds) :
    Later cs ds (skipLines cs) (skipLines ds) := by
  have ih : ∀ {as bs : List Char}, as.length < cs.length → Refolds as bs →
      Later as bs (skipLines as) (skipLines bs) := fun _ hrest => later_skipLines hrest
  have hline := later_skipComment_skipGap h
  rw [skipLines_eq cs, skipLines_eq ds]
  rcases hline.refolds.afterLineEnd?_cases with ⟨has, hbs⟩ | ⟨as, bs, has, hbs, hlater⟩
  · rw [has, hbs]
    exact hline
  · rw [has, hbs]
    have hshort := Nat.lt_of_lt_of_le (length_afterLineEnd?_lt has) hline.left
    exact (hline.trans hlater).trans (ih hshort hlater.refolds)
termination_by cs.length
decreasing_by assumption

/-! ## Keys -/

theorem agrees_readKeyPart (h : Refolds cs ds) :
    Agrees cs ds (readKeyPart cs) (readKeyPart ds) := by
  have hquoted := agrees_readShort h
  unfold readKeyPart
  generalize readShort cs = r at hquoted ⊢
  generalize readShort ds = r' at hquoted ⊢
  cases hquoted with
  | some text hlater => exact .some (String.ofList text) hlater
  | none =>
    obtain ⟨htake, hlater⟩ := h.takeWhile_eq (p := isBareChar) rfl rfl
    dsimp only
    rw [htake]
    split
    · exact .none
    · exact .some _ hlater

theorem agrees_readKey (room : Nat) (h : Refolds cs ds) :
    Agrees cs ds (readKey room cs) (readKey room ds) := by
  induction room generalizing cs ds with
  | zero => exact .none
  | succ room ih =>
    have hgap := later_skipGap h
    have hpart := agrees_readKeyPart hgap.refolds
    unfold readKey
    generalize readKeyPart (skipGap cs) = r at hpart ⊢
    generalize readKeyPart (skipGap ds) = r' at hpart ⊢
    cases hpart with
    | none => exact .none
    | @some rest rest' part hlater =>
      have hnext := (hgap.trans hlater).trans (later_skipGap hlater.refolds)
      dsimp only
      generalize skipGap rest = as at hnext ⊢
      generalize skipGap rest' = bs at hnext ⊢
      rcases hnext.refolds.head_cases (c := '.') (by decide) with
        ⟨as, bs, rfl, rfl, hmore⟩ | ⟨has, hbs⟩
      · have hlater := hnext.trans hmore.later.of_cons
        exact ((ih hmore).map fun parts => part :: parts).of_later hlater
      · split
        · next more => exact absurd rfl (has more)
        · exact .some [part] hnext

/-! ## Scalars -/

theorem agrees_readScalar (h : Refolds cs ds) : Agrees cs ds (readScalar cs) (readScalar ds) := by
  have hn : isTokenChar '\n' = false := by decide
  have hr : isTokenChar '\r' = false := by decide
  obtain ⟨htoken, hlater⟩ := h.takeWhile_eq hn hr
  unfold readScalar
  dsimp only
  rw [htoken]
  generalize cs.dropWhile isTokenChar = as at hlater ⊢
  generalize ds.dropWhile isTokenChar = bs at hlater ⊢
  have hscalar : Agrees cs ds ((scalar? (ds.takeWhile isTokenChar)).map fun v => (v, as))
      ((scalar? (ds.takeWhile isTokenChar)).map fun v => (v, bs)) := by
    cases scalar? (ds.takeWhile isTokenChar) with
    | none => exact .none
    | some v => exact .some v hlater
  rcases hlater.refolds.head_cases (c := ' ') (by decide) with
    ⟨as, bs, rfl, rfl, hmore⟩ | ⟨has, hbs⟩
  · obtain ⟨htime, hlater'⟩ := hmore.takeWhile_eq hn hr
    simp only [htime]
    split
    · split
      · exact .some _ (hlater.trans hlater'.of_cons)
      · exact .none
    · exact hscalar
  · split
    · next more => exact absurd rfl (has more)
    · exact hscalar

/-! ## Values -/

/-- The reader agrees on texts that refold each other. -/
def Steady (read : ValueReader) : Prop := ∀ cs ds, Refolds cs ds → Agrees cs ds (read cs) (read ds)

section Containers

variable {read : ValueReader}

theorem agrees_readPair (hread : Steady read) (h : Refolds cs ds) :
    Agrees cs ds (readPair read cs) (readPair read ds) := by
  have hkey := agrees_readKey maxDepth h
  unfold readPair
  generalize readKey maxDepth cs = r at hkey ⊢
  generalize readKey maxDepth ds = r' at hkey ⊢
  cases hkey with
  | none => exact .none
  | @some as bs key hlater =>
    rcases hlater.refolds.head_cases (c := '=') (by decide) with
      ⟨as, bs, rfl, rfl, hmore⟩ | ⟨has, hbs⟩
    · have hvalue := (hlater.trans hmore.later.of_cons).trans (later_skipGap hmore)
      exact ((hread _ _ hvalue.refolds).map fun v => (key, v)).of_later hvalue
    · split
      · next heq => exact absurd (congrArg Prod.snd (Option.some.inj heq)) (has _)
      · split
        · next heq => exact absurd (congrArg Prod.snd (Option.some.inj heq)) (hbs _)
        · exact .none

theorem agrees_readItems {cs ds : List Char} (hread : Steady read) (h : Refolds cs ds) :
    Agrees cs ds (readItems read cs) (readItems read ds) := by
  have ih : ∀ {as bs : List Char}, as.length < cs.length → Refolds as bs →
      Agrees as bs (readItems read as) (readItems read bs) := fun _ hrest =>
    agrees_readItems hread hrest
  have hlines := later_skipLines h
  rw [readItems.eq_def read cs, readItems.eq_def read ds]
  generalize skipLines cs = as at hlines ⊢
  generalize skipLines ds = bs at hlines ⊢
  rcases hlines.refolds.head_cases (c := ']') (by decide) with
    ⟨as, bs, rfl, rfl, hmore⟩ | ⟨has, hbs⟩
  · exact .some [] (hlines.trans hmore.later.of_cons)
  · split
    · next more => exact absurd rfl (has more)
    · have hvalue := hread as bs hlines.refolds
      generalize read as = r at hvalue ⊢
      generalize read bs = r' at hvalue ⊢
      cases hvalue with
      | none => exact .none
      | @some rest rest' v hlater =>
        have hnext := (hlines.trans hlater).trans (later_skipLines hlater.refolds)
        dsimp only
        generalize skipLines rest = xs at hnext ⊢
        generalize skipLines rest' = ys at hnext ⊢
        rcases hnext.refolds.head_cases (c := ']') (by decide) with
          ⟨xs, ys, rfl, rfl, hmore⟩ | ⟨hxs, hys⟩
        · exact .some [v] (hnext.trans hmore.later.of_cons)
        · rcases hnext.refolds.head_cases (c := ',') (by decide) with
            ⟨xs, ys, rfl, rfl, hmore⟩ | ⟨hxs', hys'⟩
          · exact .of_shorter hnext hmore fun hleft => (ih hleft hmore).map fun items => v :: items
          · split
            · next more => exact absurd rfl (hxs more)
            · next more => exact absurd rfl (hxs' more)
            · exact .none
termination_by cs.length
decreasing_by assumption

theorem agrees_readInlinePairs {cs ds : List Char} (hread : Steady read) (h : Refolds cs ds) :
    Agrees cs ds (readInlinePairs read cs) (readInlinePairs read ds) := by
  have ih : ∀ {as bs : List Char}, as.length < cs.length → Refolds as bs →
      Agrees as bs (readInlinePairs read as) (readInlinePairs read bs) := fun _ hrest =>
    agrees_readInlinePairs hread hrest
  have hpair := agrees_readPair hread h
  rw [readInlinePairs.eq_def read cs, readInlinePairs.eq_def read ds]
  generalize readPair read cs = r at hpair ⊢
  generalize readPair read ds = r' at hpair ⊢
  cases hpair with
  | none => exact .none
  | @some rest rest' pair hlater =>
    have hnext := hlater.trans (later_skipGap hlater.refolds)
    dsimp only
    generalize skipGap rest = xs at hnext ⊢
    generalize skipGap rest' = ys at hnext ⊢
    rcases hnext.refolds.head_cases (c := '\x7d') (by decide) with
      ⟨xs, ys, rfl, rfl, hmore⟩ | ⟨hxs, hys⟩
    · exact .some [pair] (hnext.trans hmore.later.of_cons)
    · rcases hnext.refolds.head_cases (c := ',') (by decide) with
        ⟨xs, ys, rfl, rfl, hmore⟩ | ⟨hxs', hys'⟩
      · exact .of_shorter hnext hmore fun hleft => (ih hleft hmore).map fun pairs => pair :: pairs
      · split
        · next more => exact absurd rfl (hxs more)
        · next more => exact absurd rfl (hxs' more)
        · exact .none
termination_by cs.length
decreasing_by assumption

theorem agrees_readInlineTable (hread : Steady read) (h : Refolds cs ds) :
    Agrees cs ds (readInlineTable read cs) (readInlineTable read ds) := by
  have hgap := later_skipGap h
  unfold readInlineTable
  generalize skipGap cs = as at hgap ⊢
  generalize skipGap ds = bs at hgap ⊢
  rcases hgap.refolds.head_cases (c := '\x7d') (by decide) with
    ⟨as, bs, rfl, rfl, hmore⟩ | ⟨has, hbs⟩
  · exact .some _ (hgap.trans hmore.later.of_cons)
  · split
    · next more => exact absurd rfl (has more)
    · have hpairs := agrees_readInlinePairs hread hgap.refolds
      generalize readInlinePairs read as = r at hpairs ⊢
      generalize readInlinePairs read bs = r' at hpairs ⊢
      cases hpairs with
      | none => exact .none
      | some pairs hlater =>
        dsimp only [Option.bind_some]
        cases Entries.addPairs [] pairs with
        | none => exact .none
        | some entries => exact .some _ (hgap.trans hlater)

end Containers

/-- A value that begins with a quote is a quoted text. -/
theorem readValue_cons_quote {q : Char} (hq : q = '"' ∨ q = '\'') (room : Nat) (cs : List Char) :
    readValue room (q :: cs) =
      (Quoted.read (q :: cs)).map fun (text, rest) => (.string (String.ofList text), rest) := by
  rcases hq with rfl | rfl <;> rw [readValue, if_pos (by simp)] <;> decide

/-- A value that begins with neither a bracket nor a quote is a scalar. -/
theorem readValue_of_ne (room : Nat) (hbracket : ∀ as, c :: cs ≠ '[' :: as)
    (hbrace : ∀ as, c :: cs ≠ '\x7b' :: as) (hdouble : ∀ as, c :: cs ≠ '"' :: as)
    (hsingle : ∀ as, c :: cs ≠ '\'' :: as) : readValue room (c :: cs) = readScalar (c :: cs) := by
  unfold readValue
  split
  · next heq => exact absurd heq (hbracket _)
  · next heq => exact absurd heq (hbrace _)
  · next heq =>
    refine if_neg ?_
    rintro (rfl | rfl)
    · exact hdouble _ heq
    · exact hsingle _ heq
  · next heq => cases heq

/-- A value that is no container is the same in both texts. -/
theorem agrees_readValue_of_ne (room : Nat) (h : Refolds cs ds)
    (hbracket : (∀ as, cs ≠ '[' :: as) ∧ ∀ bs, ds ≠ '[' :: bs)
    (hbrace : (∀ as, cs ≠ '\x7b' :: as) ∧ ∀ bs, ds ≠ '\x7b' :: bs) :
    Agrees cs ds (readValue room cs) (readValue room ds) := by
  rcases h.head_cases (c := '"') (by decide) with ⟨as, bs, rfl, rfl, hmore⟩ | hdouble
  · rw [readValue_cons_quote (by simp), readValue_cons_quote (by simp)]
    exact (agrees_read h).map fun text => Value.string (String.ofList text)
  · rcases h.head_cases (c := '\'') (by decide) with ⟨as, bs, rfl, rfl, hmore⟩ | hsingle
    · rw [readValue_cons_quote (by simp), readValue_cons_quote (by simp)]
      exact (agrees_read h).map fun text => Value.string (String.ofList text)
    · cases cs with
      | nil =>
        obtain rfl := h.eq_nil
        cases room <;> exact .none
      | cons c cs =>
        cases ds with
        | nil => cases h.symm.eq_nil
        | cons d ds =>
          rw [readValue_of_ne room hbracket.1 hbrace.1 hdouble.1 hsingle.1,
            readValue_of_ne room hbracket.2 hbrace.2 hdouble.2 hsingle.2]
          exact agrees_readScalar h

/-- A value is the same however the lines in it end. -/
theorem steady_readValue (room : Nat) : Steady (readValue room) := by
  induction room with
  | zero =>
    intro cs ds h
    rcases h.head_cases (c := '[') (by decide) with ⟨as, bs, rfl, rfl, -⟩ | hbracket
    · exact .none
    · rcases h.head_cases (c := '\x7b') (by decide) with ⟨as, bs, rfl, rfl, -⟩ | hbrace
      · exact .none
      · exact agrees_readValue_of_ne 0 h hbracket hbrace
  | succ room ih =>
    intro cs ds h
    rcases h.head_cases (c := '[') (by decide) with ⟨as, bs, rfl, rfl, hmore⟩ | hbracket
    · exact ((agrees_readItems ih hmore).map (Value.array .bracket)).of_later hmore.later.of_cons
    · rcases h.head_cases (c := '\x7b') (by decide) with ⟨as, bs, rfl, rfl, hmore⟩ | hbrace
      · exact (agrees_readInlineTable ih hmore).of_later hmore.later.of_cons
      · exact agrees_readValue_of_ne (room + 1) h hbracket hbrace

/-! ## Lines -/

theorem agrees_readHeader (make : List String → Header) {close : List Char}
    (hclose : ∀ c ∈ close, IsInline c) (h : Refolds cs ds) :
    Agrees cs ds (readHeader make close cs) (readHeader make close ds) := by
  have hkey := agrees_readKey maxDepth h
  unfold readHeader
  generalize readKey maxDepth cs = r at hkey ⊢
  generalize readKey maxDepth ds = r' at hkey ⊢
  cases hkey with
  | none => exact .none
  | @some as bs key hlater =>
    dsimp only [Option.bind_some]
    rcases hlater.refolds.afterPrefix?_cases hclose with ⟨has, hbs⟩ | ⟨as, bs, has, hbs, hmore⟩
    · rw [has, hbs]
      exact .none
    · rw [has, hbs]
      exact .some _ (hlater.trans hmore)

theorem agrees_readStatement (h : Refolds cs ds) :
    Agrees cs ds (readStatement cs) (readStatement ds) := by
  have hgap := later_skipGap h
  rcases hgap.refolds.head_cases (c := '[') (by decide) with ⟨as, bs, has, hbs, hmore⟩ | hbracket
  · rcases hmore.head_cases (c := '[') (by decide) with ⟨as, bs, rfl, rfl, hmore'⟩ | hsecond
    · rw [readStatement_of_element has, readStatement_of_element hbs]
      rw [has, hbs] at hgap
      exact (agrees_readHeader .element (by simp [IsInline]) hmore').of_later
        (hgap.trans hmore'.later.of_cons.of_cons)
    · rw [readStatement_of_table has hsecond.1, readStatement_of_table hbs hsecond.2]
      rw [has, hbs] at hgap
      exact (agrees_readHeader .table (by simp [IsInline]) hmore).of_later
        (hgap.trans hmore.later.of_cons)
  · generalize has : skipGap cs = as at hgap hbracket
    generalize hbs : skipGap ds = bs at hgap hbracket
    have hrefolds := hgap.refolds
    cases hrefolds with
    | nil =>
      rw [readStatement_of_blank (by simp [has]), readStatement_of_blank (by simp [hbs]), has, hbs]
      exact .some _ hgap
    | lineEnd hc hd hrest =>
      have hblank : ∀ {as rest : List Char}, afterLineEnd? as = some rest →
          ∀ c ∈ as.head?, c = '#' ∨ c = '\n' ∨ c = '\r' := by
        intro as rest hc
        rcases afterLineEnd?_eq_some_iff.mp hc with rfl | rfl <;> simp
      rw [readStatement_of_blank (by rw [has]; exact hblank hc),
        readStatement_of_blank (by rw [hbs]; exact hblank hd), has, hbs]
      exact .some _ hgap
    | @char c as bs hc hd hrest =>
      by_cases hblank : c = '#' ∨ c = '\n' ∨ c = '\r'
      · rw [readStatement_of_blank (by simp [has, hblank]),
          readStatement_of_blank (by simp [hbs, hblank]), has, hbs]
        exact .some _ hgap
      · have hc : c ≠ '[' := fun hc => hbracket.1 as (by rw [hc])
        rw [readStatement_of_pair has hblank hc, readStatement_of_pair hbs hblank hc]
        have hpair := agrees_readPair (steady_readValue maxDepth) hgap.refolds
        exact (hpair.map fun (key, v) => Statement.pair key v).of_later hgap

/-- The end of a line is not empty, but at the end of the text. -/
theorem length_endLine?_lt (h : endLine? cs = some rest) (hne : cs ≠ []) :
    rest.length < cs.length := by
  unfold endLine? at h
  dsimp only at h
  split at h
  · obtain rfl := Option.some.inj h
    exact List.length_pos_iff.mpr hne
  · have hend := length_afterLineEnd?_lt h
    have hcomment := length_skipComment_le (skipGap cs)
    have hgap := length_skipGap_le cs
    omega

/-- A line is the same in both texts, and something of each text is read. -/
theorem readLine_cases (h : Refolds cs ds) (hcs : cs ≠ []) (hds : ds ≠ []) :
    (readLine cs = none ∧ readLine ds = none) ∨
      ∃ s as bs, readLine cs = some (s, as) ∧ readLine ds = some (s, bs) ∧ Refolds as bs ∧
        as.length < cs.length ∧ bs.length < ds.length := by
  have hshort : ∀ {cs as rest : List Char}, cs ≠ [] → as.length ≤ cs.length →
      endLine? as = some rest → rest.length < cs.length := by
    intro cs as rest hcs has hend
    by_cases hnil : as = []
    · subst hnil
      obtain rfl : [] = rest := Option.some.inj hend
      exact List.length_pos_iff.mpr hcs
    · exact Nat.lt_of_lt_of_le (length_endLine?_lt hend hnil) has
  have hstatement := agrees_readStatement h
  unfold readLine
  generalize readStatement cs = r at hstatement ⊢
  generalize readStatement ds = r' at hstatement ⊢
  cases hstatement with
  | none => exact Or.inl ⟨rfl, rfl⟩
  | some s hlater =>
    dsimp only [Option.bind_some]
    rcases endLine?_cases hlater.refolds with ⟨has, hbs⟩ | ⟨as, bs, has, hbs, hend⟩
    · rw [has, hbs]
      exact Or.inl ⟨rfl, rfl⟩
    · rw [has, hbs]
      exact Or.inr ⟨s, as, bs, rfl, rfl, hend.refolds, hshort hcs hlater.left has,
        hshort hds hlater.right hbs⟩

theorem readLines_eq_of_refolds {cs ds : List Char} (h : Refolds cs ds) :
    readLines cs = readLines ds := by
  have ih : ∀ {as bs : List Char}, as.length < cs.length → Refolds as bs →
      readLines as = readLines bs := fun _ hrest => readLines_eq_of_refolds hrest
  by_cases hcs : cs = []
  · subst hcs
    rw [h.eq_nil]
  · have hds : ds ≠ [] := by
      rintro rfl
      exact hcs h.symm.eq_nil
    rw [readLines.eq_def cs, readLines.eq_def ds, if_neg (by simp [hcs]), if_neg (by simp [hds])]
    rcases readLine_cases h hcs hds with ⟨has, hbs⟩ | ⟨s, as, bs, has, hbs, hrest, hleft, hright⟩
    · rw [has, hbs]
    · rw [has, hbs]
      dsimp only
      rw [if_pos hleft, if_pos hright, ih hleft hrest]
termination_by cs.length
decreasing_by assumption

/-! ## Documents -/

theorem Refolds.dropMark (h : Refolds cs ds) : Refolds (Text.dropMark cs) (Text.dropMark ds) := by
  have hother : ∀ {cs : List Char}, (∀ as, cs ≠ Text.byteOrderMark :: as) →
      Text.dropMark cs = cs := by
    intro cs hcs
    cases cs with
    | nil => rfl
    | cons c cs => exact if_neg fun hc => hcs cs (by rw [hc])
  rcases h.head_cases (c := Text.byteOrderMark) (by decide) with
    ⟨as, bs, rfl, rfl, hrest⟩ | ⟨hcs, hds⟩
  · exact hrest
  · rw [hother hcs, hother hds]
    exact h

/-- A document has the same root table however its lines end. -/
theorem read?_eq_of_refolds {s t : String} (h : Refolds s.toList t.toList) : read? s = read? t := by
  rw [read?, read?, readLines_eq_of_refolds h.dropMark]

/-! ## Widened texts -/

/-- A character other than a line feed stays as it is. -/
theorem widenFrom_cons_of_ne {pick : Nat → Bool} {returned : Bool} (h : c ≠ '\n') (position : Nat)
    (cs : List Char) :
    Text.widenFrom pick position returned (c :: cs) =
      c :: Text.widenFrom pick (position + 1) (c == '\r') cs := by
  rw [Text.widenFrom, if_neg (by simp [h])]

/-- So does a line feed after a carriage return. -/
theorem widenFrom_lineFeed_returned (pick : Nat → Bool) (position : Nat) (cs : List Char) :
    Text.widenFrom pick position true ('\n' :: cs) =
      '\n' :: Text.widenFrom pick (position + 1) false cs := by
  rw [Text.widenFrom, if_neg (by simp)]
  rfl

/-- Only line ends are widened. A carriage return before the text has no part in a line end of it. -/
theorem refolds_widenFrom (pick : Nat → Bool) (position : Nat) {returned : Bool} {cs : List Char}
    (h : returned = true → cs.head? ≠ some '\n') :
    Refolds cs (Text.widenFrom pick position returned cs) := by
  cases cs with
  | nil => exact .nil
  | cons c cs =>
    by_cases hfeed : c = '\n'
    · subst hfeed
      have hrest : Refolds cs (Text.widenFrom pick (position + 1) false cs) :=
        refolds_widenFrom pick (position + 1) (by simp)
      rw [Text.widenFrom]
      split <;> exact .lineEnd rfl rfl hrest
    · rw [widenFrom_cons_of_ne hfeed]
      by_cases hreturn : c = '\r'
      · -- what a carriage return is part of is told by the next character
        subst hreturn
        cases cs with
        | nil => exact .char rfl rfl .nil
        | cons d cs =>
          by_cases hd : d = '\n'
          · subst hd
            rw [beq_self_eq_true, widenFrom_lineFeed_returned]
            exact .lineEnd rfl rfl (refolds_widenFrom pick (position + 2) (by simp))
          · have hrest : Refolds (d :: cs) (Text.widenFrom pick (position + 1) true (d :: cs)) :=
              refolds_widenFrom pick (position + 1) (by simp [hd])
            have hnone : ∀ more, afterLineEnd? ('\r' :: d :: more) = none := by
              intro more
              cases hend : afterLineEnd? ('\r' :: d :: more) with
              | none => rfl
              | some as => simp [afterLineEnd?_eq_some_iff, hd] at hend
            rw [beq_self_eq_true]
            refine .char (hnone cs) ?_ hrest
            rw [widenFrom_cons_of_ne hd]
            exact hnone _
      · have hreturned : (c == '\r') = false := by simp [hreturn]
        rw [hreturned]
        exact .cons ⟨hfeed, hreturn⟩ (refolds_widenFrom pick (position + 1) (by simp))
termination_by cs.length

theorem read?_widened (pick : Nat → Bool) (s : String) : read? (Text.widened pick s) = read? s := by
  refine (read?_eq_of_refolds ?_).symm
  rw [Text.toList_widened]
  exact refolds_widenFrom pick 0 (by simp)

end Pinfile.Toml
