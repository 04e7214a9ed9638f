import Pinfile.Proofs.Text.LineEnds
import Pinfile.Proofs.Toml.Quoting
import Pinfile.Toml.Reader

/-!
# Line ends in TOML texts

A line of a document may end in a line feed, or in a carriage return and a line feed. Two texts
*refold* each other when they differ in nothing but that (`Refolds`). A reader *agrees* on two texts
when it finds the same thing in both and the rests refold each other (`Agrees`), which the readers of
quoted texts do: the lines of a long form are joined by line feeds, however they end.

A rest is never longer than the text before it, which is said together with the agreement
(`Later`), so that readers that go on as long as the text gets shorter go on in both.
-/

namespace Pinfile.Toml

open Quoted

/-! ## Texts that differ in their line ends -/

/-- The texts differ only in which of their lines end in a line feed alone. -/
inductive Refolds : List Char → List Char → Prop
  | nil : Refolds [] []
  | lineEnd {cs ds as bs : List Char} (hc : afterLineEnd? cs = some as)
    (hd : afterLineEnd? ds = some bs) (h : Refolds as bs) : Refolds cs ds
  | char {c : Char} {cs ds : List Char} (hc : afterLineEnd? (c :: cs) = none)
    (hd : afterLineEnd? (c :: ds) = none) (h : Refolds cs ds) : Refolds (c :: cs) (c :: ds)

/-- The rests are left over from texts: they refold each other and are no longer than the texts. -/
structure Later (cs ds rest rest' : List Char) : Prop where
  refolds : Refolds rest rest'
  left : rest.length ≤ cs.length
  right : rest'.length ≤ ds.length

/-- What is found at the beginning of two texts is the same, and so are the rests up to line ends. -/
inductive Agrees {α : Type} (cs ds : List Char) :
    Option (α × List Char) → Option (α × List Char) → Prop
  | none : Agrees cs ds none none
  | some {rest rest' : List Char} (a : α) (h : Later cs ds rest rest') :
    Agrees cs ds (some (a, rest)) (some (a, rest'))

variable {α β : Type} {cs ds as bs rest rest' : List Char} {c : Char}

/-- The character is no part of a line end. -/
def IsInline (c : Char) : Prop := c ≠ '\n' ∧ c ≠ '\r'

instance (c : Char) : Decidable (IsInline c) := inferInstanceAs (Decidable (_ ∧ _))

theorem afterLineEnd?_eq_some_iff :
    afterLineEnd? cs = some rest ↔ cs = '\n' :: rest ∨ cs = '\r' :: '\n' :: rest := by
  unfold afterLineEnd?
  split <;> simp_all

theorem IsInline.afterLineEnd? (h : IsInline c) (cs : List Char) :
    Quoted.afterLineEnd? (c :: cs) = none := afterLineEnd?_of_ne h.1 h.2 cs

namespace Refolds

theorem symm (h : Refolds cs ds) : Refolds ds cs := by
  induction h with
  | nil => exact nil
  | lineEnd hc hd h ih => exact lineEnd hd hc ih
  | char hc hd h ih => exact char hd hc ih

theorem eq_nil (h : Refolds [] ds) : ds = [] := by
  cases h with
  | nil => rfl
  | lineEnd hc hd h => cases hc

/-- A character of a line stands in both texts. -/
theorem cons (hc : IsInline c) (h : Refolds cs ds) : Refolds (c :: cs) (c :: ds) :=
  char (hc.afterLineEnd? cs) (hc.afterLineEnd? ds) h

/-- The texts begin with the same character of a line, or neither of them begins with it. -/
theorem head_cases (hc : IsInline c) (h : Refolds cs ds) :
    (∃ as bs, cs = c :: as ∧ ds = c :: bs ∧ Refolds as bs) ∨
      ((∀ as, cs ≠ c :: as) ∧ ∀ bs, ds ≠ c :: bs) := by
  have hend : ∀ {as bs : List Char}, Quoted.afterLineEnd? as = some bs → ∀ cs, as ≠ c :: cs := by
    rintro as bs has cs rfl
    rw [hc.afterLineEnd?] at has
    cases has
  cases h with
  | nil => exact Or.inr ⟨by simp, by simp⟩
  | lineEnd hc hd h => exact Or.inr ⟨hend hc, hend hd⟩
  | @char d cs ds _ _ h =>
    by_cases hcd : d = c
    · exact Or.inl ⟨cs, ds, by rw [hcd], by rw [hcd], h⟩
    · exact Or.inr ⟨by simp [hcd], by simp [hcd]⟩

/-- A stretch of a line that begins one text begins the other. -/
theorem exists_append {start : List Char} (hstart : ∀ c ∈ start, IsInline c)
    (h : Refolds (start ++ cs) ds) : ∃ bs, ds = start ++ bs ∧ Refolds cs bs := by
  induction start generalizing ds with
  | nil => exact ⟨ds, rfl, h⟩
  | cons c start ih =>
    rcases h.head_cases (hstart c (by simp)) with ⟨as, bs, hcs, rfl, hrest⟩ | ⟨hnot, -⟩
    · rw [List.cons_append, List.cons.injEq] at hcs
      obtain ⟨-, rfl⟩ := hcs
      obtain ⟨bs, rfl, hbs⟩ := ih (fun c hc => hstart c (by simp [hc])) hrest
      exact ⟨bs, rfl, hbs⟩
    · exact absurd rfl (hnot (start ++ cs))

end Refolds

theorem Refolds.later (h : Refolds cs ds) : Later cs ds cs ds :=
  ⟨h, Nat.le_refl _, Nat.le_refl _⟩

theorem Later.trans (h : Later cs ds as bs) (h' : Later as bs rest rest') :
    Later cs ds rest rest' :=
  ⟨h'.refolds, h'.left.trans h.left, h'.right.trans h.right⟩

theorem Later.of_cons {d : Char} (h : Later cs ds as bs) : Later (c :: cs) (d :: ds) as bs :=
  ⟨h.refolds, h.left.trans (Nat.le_succ _), h.right.trans (Nat.le_succ _)⟩

namespace Agrees

variable {r r' : Option (α × List Char)}

theorem of_later (h : Later cs ds as bs) (hr : Agrees as bs r r') : Agrees cs ds r r' := by
  cases hr with
  | none => exact .none
  | some a hrest => exact .some a (h.trans hrest)

/-- A reader that goes on after a character, as long as the text gets shorter, goes on in both texts. -/
theorem of_shorter {d : Char} (h : Later cs ds (d :: as) (d :: bs)) (hmore : Refolds as bs)
    (hr : as.length < cs.length → Agrees as bs r r') :
    Agrees cs ds (if as.length < cs.length then r else Option.none)
      (if bs.length < ds.length then r' else Option.none) := by
  have hleft : as.length < cs.length := h.left
  have hright : bs.length < ds.length := h.right
  rw [if_pos hleft, if_pos hright]
  exact (hr hleft).of_later (h.trans hmore.later.of_cons)

/-- What is found may be turned into something else. -/
theorem map (f : α → β) (hr : Agrees cs ds r r') :
    Agrees cs ds (r.map fun (a, rest) => (f a, rest)) (r'.map fun (a, rest) => (f a, rest)) := by
  cases hr with
  | none => exact .none
  | some a hrest => exact .some (f a) hrest

end Agrees

/-- What begins one text begins the other when this can be told in one direction: refolding goes both
ways. -/
theorem Refolds.cases_of_some {f : List Char → Option α} {P : List Char → List Char → α → α → Prop}
    (hsame : ∀ {cs ds : List Char} {a : α}, Refolds cs ds → f cs = some a →
      ∃ b, f ds = some b ∧ P cs ds a b) (h : Refolds cs ds) :
    (f cs = none ∧ f ds = none) ∨ ∃ a b, f cs = some a ∧ f ds = some b ∧ P cs ds a b := by
  cases hcs : f cs with
  | some a =>
    obtain ⟨b, hb, hP⟩ := hsame h hcs
    exact Or.inr ⟨a, b, rfl, hb, hP⟩
  | none =>
    cases hds : f ds with
    | none => exact Or.inl ⟨rfl, rfl⟩
    | some b =>
      obtain ⟨a, ha, -⟩ := hsame h.symm hds
      rw [ha] at hcs
      cases hcs

/-! ## Stretches of a line -/

/-- A run of characters of a line is the same in both texts. -/
theorem Refolds.takeWhile_eq {p : Char → Bool} (hn : p '\n' = false) (hr : p '\r' = false)
    (h : Refolds cs ds) : cs.takeWhile p = ds.takeWhile p ∧
      Later cs ds (cs.dropWhile p) (ds.dropWhile p) := by
  have hend : ∀ {cs rest : List Char}, afterLineEnd? cs = some rest →
      cs.takeWhile p = [] ∧ cs.dropWhile p = cs := by
    intro cs rest hcs
    rcases afterLineEnd?_eq_some_iff.mp hcs with rfl | rfl
    · simp [hn]
    · simp [hr]
  induction h with
  | nil => exact ⟨rfl, Refolds.nil.later⟩
  | lineEnd hc hd h ih =>
    rw [(hend hc).1, (hend hc).2, (hend hd).1, (hend hd).2]
    exact ⟨rfl, (Refolds.lineEnd hc hd h).later⟩
  | @char c cs ds hc hd h ih =>
    by_cases hp : p c = true
    · rw [List.takeWhile_cons_of_pos hp, List.takeWhile_cons_of_pos hp,
        List.dropWhile_cons_of_pos hp, List.dropWhile_cons_of_pos hp, ih.1]
      exact ⟨rfl, ih.2.of_cons⟩
    · rw [List.takeWhile_cons_of_neg hp, List.takeWhile_cons_of_neg hp,
        List.dropWhile_cons_of_neg hp, List.dropWhile_cons_of_neg hp]
      exact ⟨rfl, (Refolds.char hc hd h).later⟩

theorem Refolds.later_dropWhile {p : Char → Bool} (hn : p '\n' = false) (hr : p '\r' = false)
    (h : Refolds cs ds) : Later cs ds (cs.dropWhile p) (ds.dropWhile p) :=
  (h.takeWhile_eq hn hr).2

/-- So many characters of a line are the same in both texts. -/
theorem Refolds.take_eq {n : Nat} (hin : ∀ c ∈ cs.take n, IsInline c) (h : Refolds cs ds) :
    ds.take n = cs.take n ∧ Later cs ds (cs.drop n) (ds.drop n) := by
  have hsplit := h
  rw [← List.take_append_drop n cs] at hsplit
  obtain ⟨bs, rfl, hrest⟩ := hsplit.exists_append hin
  by_cases hn : n ≤ cs.length
  · have hlength : (cs.take n).length = n := List.length_take_of_le hn
    rw [List.take_left' hlength, List.drop_left' hlength]
    exact ⟨rfl, hrest, by simp, by simp⟩
  · have hall : cs.take n = cs := List.take_of_length_le (by omega)
    have hnone : cs.drop n = [] := List.drop_of_length_le (by omega)
    rw [hnone] at hrest
    obtain rfl := hrest.eq_nil
    rw [List.append_nil, hall, hall, hnone]
    exact ⟨rfl, Refolds.nil, by simp, by simp⟩

/-- Both texts begin with a stretch of a line, or neither does. -/
theorem Refolds.afterPrefix?_cases {start : List Char} (hstart : ∀ c ∈ start, IsInline c)
    (h : Refolds cs ds) :
    (Text.afterPrefix? start cs = none ∧ Text.afterPrefix? start ds = none) ∨
      ∃ as bs, Text.afterPrefix? start cs = some as ∧ Text.afterPrefix? start ds = some bs ∧
        Later cs ds as bs := by
  refine h.cases_of_some (P := Later) ?_
  intro cs ds as h has
  obtain rfl := Text.afterPrefix?_eq_some_iff.mp has
  obtain ⟨bs, rfl, hrest⟩ := h.exists_append hstart
  exact ⟨bs, Text.afterPrefix?_eq_some_iff.mpr rfl, hrest, by simp, by simp⟩

/-- Both texts go on with a line end, or neither does. -/
theorem Refolds.afterLineEnd?_cases (h : Refolds cs ds) :
    (afterLineEnd? cs = none ∧ afterLineEnd? ds = none) ∨
      ∃ as bs, afterLineEnd? cs = some as ∧ afterLineEnd? ds = some bs ∧ Later cs ds as bs := by
  cases h with
  | nil => exact Or.inl ⟨rfl, rfl⟩
  | lineEnd hc hd h =>
    exact Or.inr ⟨_, _, hc, hd, h, (length_afterLineEnd?_lt hc).le, (length_afterLineEnd?_lt hd).le⟩
  | char hc hd h => exact Or.inl ⟨hc, hd⟩

/-! ## Escapes -/

theorem isSome_of_valueFrom? {n m : Nat} {digits : List Char}
    (h : Text.Hex.valueFrom? n digits = some m) : ∀ c ∈ digits, (Text.Hex.value? c).isSome := by
  induction digits generalizing n with
  | nil => simp
  | cons d digits ih =>
    obtain ⟨k, hk, hrest⟩ := Option.bind_eq_some_iff.mp h
    intro c hc
    rcases List.mem_cons.mp hc with rfl | hc
    · rw [hk]
      rfl
    · exact ih hrest c hc

/-- A code has no line end in it. -/
theorem isInline_of_coded? {count : Nat} {d : Char} (h : escaped?.coded? count cs = some d) :
    ∀ c ∈ cs.take count, IsInline c := by
  unfold escaped?.coded? at h
  dsimp only at h
  split at h
  · obtain ⟨n, hn, -⟩ := Option.bind_eq_some_iff.mp h
    intro c hc
    have hvalue := isSome_of_valueFrom? hn c hc
    constructor <;> rintro rfl <;> simp [Text.Hex.value?] at hvalue
  · cases h

theorem coded?_cases (count : Nat) (h : Refolds cs ds) :
    (escaped?.coded? count cs = none ∧ escaped?.coded? count ds = none) ∨
      ∃ d, escaped?.coded? count cs = some d ∧ escaped?.coded? count ds = some d ∧
        Later cs ds (cs.drop count) (ds.drop count) := by
  have hsame : ∀ {as bs : List Char} {d : Char}, Refolds as bs →
      escaped?.coded? count as = some d → ∃ e, escaped?.coded? count bs = some e ∧
        (d = e ∧ Later as bs (as.drop count) (bs.drop count)) := by
    intro as bs d h hd
    obtain ⟨htake, hlater⟩ := h.take_eq (isInline_of_coded? hd)
    refine ⟨d, ?_, rfl, hlater⟩
    rw [← hd, escaped?.coded?, escaped?.coded?, htake]
  rcases h.cases_of_some (P := fun as bs d e => d = e ∧ Later as bs (as.drop count) (bs.drop count))
    hsame with hnone | ⟨d, e, hcs, hds, rfl, hlater⟩
  · exact Or.inl hnone
  · exact Or.inr ⟨d, hcs, hds, hlater⟩

/-- Only a code is made of more than one character. -/
theorem escaped?_cons (c : Char) (cs : List Char) :
    escaped? (c :: cs) =
      if c = 'u' then (escaped?.coded? 4 cs).map fun d => (d, 5)
      else if c = 'U' then (escaped?.coded? 8 cs).map fun d => (d, 9)
      else escaped? [c] := by
  unfold escaped?
  dsimp only
  split <;> simp_all

theorem eq_one_of_escaped? {d : Char} {n : Nat} (h : escaped? [c] = some (d, n)) : n = 1 := by
  unfold escaped? at h
  dsimp only at h
  split at h <;> simp_all [escaped?.coded?]

/-- An escape is the same in both texts. -/
theorem escaped?_cases (h : Refolds cs ds) :
    (escaped? cs = none ∧ escaped? ds = none) ∨
      ∃ d n, escaped? cs = some (d, n) ∧ escaped? ds = some (d, n) ∧
        Later cs ds (cs.drop n) (ds.drop n) := by
  have hend : ∀ {cs rest : List Char}, afterLineEnd? cs = some rest → escaped? cs = none := by
    intro cs rest hcs
    rcases afterLineEnd?_eq_some_iff.mp hcs with rfl | rfl <;> rfl
  cases h with
  | nil => exact Or.inl ⟨rfl, rfl⟩
  | lineEnd hc hd h => exact Or.inl ⟨hend hc, hend hd⟩
  | @char c cs ds hc hd h =>
    have hcode : ∀ count,
        ((escaped?.coded? count cs).map (fun d => (d, count + 1)) = none ∧
          (escaped?.coded? count ds).map (fun d => (d, count + 1)) = none) ∨
        ∃ d n, (escaped?.coded? count cs).map (fun d => (d, count + 1)) = some (d, n) ∧
          (escaped?.coded? count ds).map (fun d => (d, count + 1)) = some (d, n) ∧
          Later (c :: cs) (c :: ds) ((c :: cs).drop n) ((c :: ds).drop n) := by
      intro count
      rcases coded?_cases count h with ⟨hcs, hds⟩ | ⟨d, hcs, hds, hlater⟩
      · exact Or.inl ⟨by rw [hcs]; rfl, by rw [hds]; rfl⟩
      · exact Or.inr ⟨d, count + 1, by rw [hcs]; rfl, by rw [hds]; rfl, hlater.of_cons⟩
    rw [escaped?_cons c cs, escaped?_cons c ds]
    split
    · exact hcode 4
    · split
      · exact hcode 8
      · cases hescaped : escaped? [c] with
        | none => exact Or.inl ⟨rfl, rfl⟩
        | some r =>
          obtain ⟨d, n⟩ := r
          obtain rfl := eq_one_of_escaped? hescaped
          exact Or.inr ⟨d, 1, rfl, rfl, h.later.of_cons⟩

/-! ## Texts in one quote -/

theorem readShortDouble_of_lineEnd (h : afterLineEnd? cs = some rest) : readShortDouble cs = none := by
  rcases afterLineEnd?_eq_some_iff.mp h with rfl | rfl <;>
    rw [readShortDouble, if_neg (by decide), if_neg (by decide), if_neg (by decide)]

theorem agrees_readShortDouble {cs ds : List Char} (h : Refolds cs ds) :
    Agrees cs ds (readShortDouble cs) (readShortDouble ds) := by
  have ih : ∀ {as bs : List Char}, as.length < cs.length → Refolds as bs →
      Agrees as bs (readShortDouble as) (readShortDouble bs) := fun _ hrest =>
    agrees_readShortDouble hrest
  cases h with
  | nil =>
    rw [readShortDouble]
    exact .none
  | lineEnd hc hd h =>
    rw [readShortDouble_of_lineEnd hc, readShortDouble_of_lineEnd hd]
    exact .none
  | @char c cs ds hc hd h =>
    rw [readShortDouble, readShortDouble]
    split
    · exact .some [] h.later.of_cons
    · split
      · rcases escaped?_cases h with ⟨hcs, hds⟩ | ⟨d, n, hcs, hds, hlater⟩
        · rw [hcs, hds]
          exact .none
        · rw [hcs, hds]
          have hrest := ih (Nat.lt_succ_of_le hlater.left) hlater.refolds
          exact (hrest.map fun text => d :: text).of_later hlater.of_cons
      · split
        · exact ((ih (Nat.lt_succ_self _) h).map fun text => c :: text).of_later h.later.of_cons
        · exact .none
termination_by cs.length
decreasing_by assumption

theorem agrees_readShortSingle (h : Refolds cs ds) :
    Agrees cs ds (readShortSingle cs) (readShortSingle ds) := by
  have hend : ∀ {cs rest : List Char}, afterLineEnd? cs = some rest → readShortSingle cs = none := by
    intro cs rest hcs
    rcases afterLineEnd?_eq_some_iff.mp hcs with rfl | rfl <;> rfl
  induction h with
  | nil => exact .none
  | lineEnd hc hd h ih =>
    rw [hend hc, hend hd]
    exact .none
  | @char c cs ds hc hd h ih =>
    rw [readShortSingle, readShortSingle]
    split
    · exact .some [] h.later.of_cons
    · split
      · exact (ih.map fun text => c :: text).of_later h.later.of_cons
      · exact .none

theorem agrees_readShort (h : Refolds cs ds) : Agrees cs ds (readShort cs) (readShort ds) := by
  rcases h.head_cases (c := '"') (by decide) with ⟨as, bs, rfl, rfl, hrest⟩ | ⟨hcs, hds⟩
  · exact (agrees_readShortDouble hrest).of_later hrest.later.of_cons
  · rcases h.head_cases (c := '\'') (by decide) with ⟨as, bs, rfl, rfl, hrest⟩ | ⟨hcs', hds'⟩
    · exact (agrees_readShortSingle hrest).of_later hrest.later.of_cons
    · have hnone : ∀ {cs : List Char}, (∀ as, cs ≠ '"' :: as) → (∀ as, cs ≠ '\'' :: as) →
          readShort cs = none := by
        intro cs hdouble hsingle
        unfold readShort
        split
        · next more => exact absurd rfl (hdouble more)
        · next more => exact absurd rfl (hsingle more)
        · rfl
      rw [hnone hcs hcs', hnone hds hds']
      exact .none

/-! ## Texts in three quotes -/

section Long

variable {q : Char}

theorem closes_cases (hq : IsInline q) (h : Refolds cs ds) :
    (closes q cs = false ∧ closes q ds = false) ∨
      (closes q cs = true ∧ closes q ds = true ∧ Later cs ds (cs.drop 3) (ds.drop 3)) := by
  have hsame : ∀ {cs ds : List Char}, Refolds cs ds → closes q cs = true →
      closes q ds = true ∧ Later cs ds (cs.drop 3) (ds.drop 3) := by
    intro cs ds h hcs
    obtain ⟨as, rfl⟩ := closes_iff.mp hcs
    obtain ⟨bs, rfl, hrest⟩ := h.exists_append (by simp [fence, hq])
    exact ⟨closes_iff.mpr ⟨bs, rfl⟩, hrest.later.of_cons.of_cons.of_cons⟩
  cases hcs : closes q cs with
  | true => exact Or.inr ⟨rfl, hsame h hcs⟩
  | false =>
    cases hds : closes q ds with
    | false => exact Or.inl ⟨rfl, rfl⟩
    | true =>
      rw [(hsame h.symm hds).1] at hcs
      cases hcs

theorem closeLong_of_ne (h : ∀ as, cs ≠ q :: as) : closeLong q cs = ([], cs) := by
  unfold closeLong
  split
  · exact if_neg fun ha => h _ (by rw [ha])
  · exact if_neg fun ha => h _ (by rw [ha])
  · rfl

theorem closeLong_cons_of_ne (h : ∀ as, cs ≠ q :: as) : closeLong q (q :: cs) = ([q], cs) := by
  cases cs with
  | nil => exact if_pos rfl
  | cons b rest => exact (if_pos rfl).trans (if_neg fun hb => h rest (by rw [hb]))

theorem closeLong_cons_cons (q : Char) (rest : List Char) :
    closeLong q (q :: q :: rest) = ([q, q], rest) := (if_pos rfl).trans (if_pos rfl)

/-- The same quotes belong to the text. -/
theorem closeLong_cases (hq : IsInline q) (h : Refolds cs ds) :
    ∃ text rest rest', closeLong q cs = (text, rest) ∧ closeLong q ds = (text, rest') ∧
      Later cs ds rest rest' := by
  rcases h.head_cases hq with ⟨as, bs, rfl, rfl, hone⟩ | ⟨hcs, hds⟩
  · rcases hone.head_cases hq with ⟨as, bs, rfl, rfl, htwo⟩ | ⟨has, hbs⟩
    · exact ⟨[q, q], as, bs, closeLong_cons_cons q as, closeLong_cons_cons q bs,
        htwo.later.of_cons.of_cons⟩
    · exact ⟨[q], as, bs, closeLong_cons_of_ne has, closeLong_cons_of_ne hbs, hone.later.of_cons⟩
  · exact ⟨[], cs, ds, closeLong_of_ne hcs, closeLong_of_ne hds, h.later⟩

end Long

theorem skipBlankLines_of_lineEnd (h : afterLineEnd? cs = some rest) :
    skipBlankLines cs = skipBlankLines rest := by
  rcases afterLineEnd?_eq_some_iff.mp h with rfl | rfl <;> simp [skipBlankLines]

theorem skipBlankLines_cons (h : afterLineEnd? (c :: cs) = none) :
    skipBlankLines (c :: cs) = if c = ' ' ∨ c = '\t' then skipBlankLines cs else c :: cs := by
  conv_lhs => unfold skipBlankLines
  split
  · next heq => simp_all
  · next heq => simp_all
  · next heq => simp [heq, afterLineEnd?] at h
  · next heq => simp [heq, afterLineEnd?] at h
  · next hspace htab _ _ =>
    refine (if_neg ?_).symm
    rintro (rfl | rfl)
    · exact hspace cs rfl
    · exact htab cs rfl

theorem later_skipBlankLines (h : Refolds cs ds) :
    Later cs ds (skipBlankLines cs) (skipBlankLines ds) := by
  induction h with
  | nil => exact Refolds.nil.later
  | lineEnd hc hd h ih =>
    rw [skipBlankLines_of_lineEnd hc, skipBlankLines_of_lineEnd hd]
    exact Later.trans ⟨h, (length_afterLineEnd?_lt hc).le, (length_afterLineEnd?_lt hd).le⟩ ih
  | char hc hd h ih =>
    rw [skipBlankLines_cons hc, skipBlankLines_cons hd]
    split
    · exact ih.of_cons
    · exact (Refolds.char hc hd h).later

/-- A fold is the same in both texts. -/
theorem afterFold?_cases (h : Refolds cs ds) :
    (afterFold? cs = none ∧ afterFold? ds = none) ∨
      ∃ as bs, afterFold? cs = some as ∧ afterFold? ds = some bs ∧ Later cs ds as bs := by
  have hgap := h.later_dropWhile (p := fun c => c == ' ' || c == '\t') rfl rfl
  unfold afterFold?
  rcases hgap.refolds.afterLineEnd?_cases with ⟨hcs, hds⟩ | ⟨as, bs, hcs, hds, hlater⟩
  · rw [hcs, hds]
    exact Or.inl ⟨rfl, rfl⟩
  · rw [hcs, hds]
    exact Or.inr ⟨_, _, rfl, rfl, (hgap.trans hlater).trans (later_skipBlankLines hlater.refolds)⟩

theorem readLongDouble_of_closes (h : closes '"' cs = true) :
    readLongDouble cs = some (closeLong '"' (cs.drop 3)) := by
  rw [readLongDouble.eq_def, if_pos h]

theorem readLongDouble_of_lineEnd (h : afterLineEnd? cs = some rest) :
    readLongDouble cs = (readLongDouble rest).map fun (text, rest) => ('\n' :: text, rest) := by
  rcases afterLineEnd?_eq_some_iff.mp h with rfl | rfl
  · rw [readLongDouble_cons (not_closes_of_ne (by decide) rest), if_neg (by decide), h]
  · rw [readLongDouble_cons (not_closes_of_ne (by decide) _), if_neg (by decide), h]

theorem agrees_readLongDouble {cs ds : List Char} (h : Refolds cs ds) :
    Agrees cs ds (readLongDouble cs) (readLongDouble ds) := by
  have ih : ∀ {as bs : List Char}, as.length < cs.length → Refolds as bs →
      Agrees as bs (readLongDouble as) (readLongDouble bs) := fun _ hrest =>
    agrees_readLongDouble hrest
  -- where three quotes stand the text ends in both, whatever `Refolds` says of the first character
  rcases closes_cases (q := '"') (by decide) h with ⟨hcs, hds⟩ | ⟨hcs, hds, hlater⟩
  · cases h with
    | nil =>
      rw [readLongDouble.eq_def, if_neg (by simp [hcs])]
      exact .none
    | lineEnd hc hd h =>
      rw [readLongDouble_of_lineEnd hc, readLongDouble_of_lineEnd hd]
      have hshort := length_afterLineEnd?_lt hc
      have hlater : Later cs ds _ _ := ⟨h, hshort.le, (length_afterLineEnd?_lt hd).le⟩
      exact ((ih hshort h).map fun text => '\n' :: text).of_later hlater
    | @char c cs ds hc hd h =>
      rw [readLongDouble_cons hcs, readLongDouble_cons hds, hc, hd]
      split
      · rcases afterFold?_cases h with ⟨hfold, hfold'⟩ | ⟨as, bs, hfold, hfold', hlater⟩
        · rw [hfold, hfold']
          rcases escaped?_cases h with ⟨hesc, hesc'⟩ | ⟨d, n, hesc, hesc', hlater⟩
          · rw [hesc, hesc']
            exact .none
          · rw [hesc, hesc']
            have hrest := ih (Nat.lt_succ_of_le hlater.left) hlater.refolds
            exact (hrest.map fun text => d :: text).of_later hlater.of_cons
        · rw [hfold, hfold']
          have hshort := Nat.lt_succ_of_le hlater.left
          exact (ih hshort hlater.refolds).of_later hlater.of_cons
      · dsimp only
        split
        · exact ((ih (Nat.lt_succ_self _) h).map fun text => c :: text).of_later h.later.of_cons
        · exact .none
  · obtain ⟨text, rest, rest', hclose, hclose', hrest⟩ :=
      closeLong_cases (q := '"') (by decide) hlater.refolds
    rw [readLongDouble_of_closes hcs, readLongDouble_of_closes hds, hclose, hclose']
    exact .some text (hlater.trans hrest)
termination_by cs.length
decreasing_by assumption

theorem readLongSingle_of_closes (h : closes '\'' cs = true) :
    readLongSingle cs = some (closeLong '\'' (cs.drop 3)) := by
  rw [readLongSingle.eq_def, if_pos h]

theorem readLongSingle_of_lineEnd (h : afterLineEnd? cs = some rest) :
    readLongSingle cs = (readLongSingle rest).map fun (text, rest) => ('\n' :: text, rest) := by
  rcases afterLineEnd?_eq_some_iff.mp h with rfl | rfl
  · rw [readLongSingle_cons (not_closes_of_ne (by decide) rest), h]
  · rw [readLongSingle_cons (not_closes_of_ne (by decide) _), h]

theorem agrees_readLongSingle {cs ds : List Char} (h : Refolds cs ds) :
    Agrees cs ds (readLongSingle cs) (readLongSingle ds) := by
  have ih : ∀ {as bs : List Char}, as.length < cs.length → Refolds as bs →
      Agrees as bs (readLongSingle as) (readLongSingle bs) := fun _ hrest =>
    agrees_readLongSingle hrest
  rcases closes_cases (q := '\'') (by decide) h with ⟨hcs, hds⟩ | ⟨hcs, hds, hlater⟩
  · cases h with
    | nil =>
      rw [readLongSingle.eq_def, if_neg (by simp [hcs])]
      exact .none
    | lineEnd hc hd h =>
      rw [readLongSingle_of_lineEnd hc, readLongSingle_of_lineEnd hd]
      have hshort := length_afterLineEnd?_lt hc
      have hlater : Later cs ds _ _ := ⟨h, hshort.le, (length_afterLineEnd?_lt hd).le⟩
      exact ((ih hshort h).map fun text => '\n' :: text).of_later hlater
    | @char c cs ds hc hd h =>
      rw [readLongSingle_cons hcs, readLongSingle_cons hds, hc, hd]
      dsimp only
      split
      · exact ((ih (Nat.lt_succ_self _) h).map fun text => c :: text).of_later h.later.of_cons
      · exact .none
  · obtain ⟨text, rest, rest', hclose, hclose', hrest⟩ :=
      closeLong_cases (q := '\'') (by decide) hlater.refolds
    rw [readLongSingle_of_closes hcs, readLongSingle_of_closes hds, hclose, hclose']
    exact .some text (hlater.trans hrest)
termination_by cs.length
decreasing_by assumption

theorem later_afterOpening (h : Refolds cs ds) :
    Later cs ds (afterOpening cs) (afterOpening ds) := by
  unfold afterOpening
  rcases h.afterLineEnd?_cases with ⟨hcs, hds⟩ | ⟨as, bs, hcs, hds, hlater⟩
  · rw [hcs, hds]
    exact h.later
  · rw [hcs, hds]
    exact hlater

/-- A quoted text is the same however the lines end. -/
theorem agrees_read (h : Refolds cs ds) : Agrees cs ds (Quoted.read cs) (Quoted.read ds) := by
  unfold Quoted.read
  rcases closes_cases (q := '"') (by decide) h with ⟨hcs, hds⟩ | ⟨hcs, hds, hlater⟩
  · rw [hcs, hds, if_neg Bool.false_ne_true, if_neg Bool.false_ne_true]
    rcases closes_cases (q := '\'') (by decide) h with ⟨hcs, hds⟩ | ⟨hcs, hds, hlater⟩
    · rw [hcs, hds, if_neg Bool.false_ne_true, if_neg Bool.false_ne_true]
      exact agrees_readShort h
    · rw [hcs, hds, if_pos rfl, if_pos rfl]
      have hopening := hlater.trans (later_afterOpening hlater.refolds)
      exact (agrees_readLongSingle hopening.refolds).of_later hopening
  · rw [hcs, hds, if_pos rfl, if_pos rfl]
    have hopening := hlater.trans (later_afterOpening hlater.refolds)
    exact (agrees_readLongDouble hopening.refolds).of_later hopening

end Pinfile.Toml
