import Mathlib.Data.List.Basic
import Pinfile.Toml.Quoted

/-!
# Quoted texts are read back

Whatever a text holds, the form in which it is written is read as that text (`Quoted.read_write`). In
double quotes this rests on the escapes: each character stands for itself, or after a backslash for the
character that is read from there (`escape_cases`). Single quotes have no escapes, so they are only
used for texts without control characters.

A long form ends at three quotes in a row. The text may have up to two quotes right before them, and
these are read as its end (`readLongDouble_replicate`). Anywhere else three quotes never come together:
in double quotes every third one is escaped (`eq_replicate_of_escapeLong`), and in single quotes the
runs of the text are short (`eq_replicate_of_longestRunFrom`).

No quote may follow the written text, since up to two more would be read as its end.
-/

namespace Pinfile.Toml.Quoted

/-! ## Escapes -/

/-- Every character is a line feed, a control character that has to be escaped, or plain. -/
theorem isPlain_of_not_code {c : Char} (hn : c ≠ '\n') (h : isCode c = false) :
    isPlain c = true := by
  by_cases ht : c = '\t'
  · rw [ht]
    rfl
  · simp [isCode, hn, ht] at h
    simp [isPlain, h]

theorem ne_return_of_isPlain {c : Char} (h : isPlain c = true) : c ≠ '\r' := by
  rintro rfl
  cases h

/-- A character that has to be escaped everywhere has two hexadecimal digits. -/
theorem toNat_lt_of_isCode {c : Char} (h : isCode c = true) : c.toNat < 256 := by
  simp only [isCode, Bool.or_eq_true, Bool.and_eq_true, decide_eq_true_eq, beq_iff_eq] at h
  omega

/-- The four digits of a code are read as the character. -/
theorem escaped?_code {c : Char} (h : c.toNat < 256) (rest : List Char) :
    escaped? ('u' :: '0' :: '0' :: Text.Hex.upper (c.toNat / 16) ::
      Text.Hex.upper (c.toNat % 16) :: rest) = some (c, 5) := by
  have hhigh := Text.Hex.value?_upper (c.toNat / 16) (by omega)
  have hlow := Text.Hex.value?_upper (c.toNat % 16) (by omega)
  have hzero : Text.Hex.value? '0' = some 0 := by decide
  have hnumber : Text.Hex.number? ['0', '0', Text.Hex.upper (c.toNat / 16),
      Text.Hex.upper (c.toNat % 16)] = some c.toNat := by
    simp only [Text.Hex.number?, Text.Hex.valueFrom?, hzero, hhigh, hlow, Option.bind_some]
    congr 1
    omega
  have hvalid : c.toNat.isValidChar := c.valid
  simp [escaped?, escaped?.coded?, hnumber, hvalid]

/-- The text after a backslash stands for the character. -/
def Escapes (form : List Char) (c : Char) : Prop :=
  ∀ rest, escaped? (form ++ rest) = some (c, form.length)

/-- A character other than a line feed stands for itself or is escaped. -/
theorem escape_cases (c : Char) (hc : c ≠ '\n') :
    (escape c = [c] ∧ c ≠ '\\' ∧ isPlain c = true) ∨
      ∃ form, escape c = '\\' :: form ∧ Escapes form c := by
  have hofNat : ∀ n, c.toNat = n → c = Char.ofNat n := fun n hn => by rw [← hn, Char.ofNat_toNat]
  unfold escape
  split_ifs with h8 ht hf hr hb hcode
  · exact Or.inr ⟨_, rfl, fun rest => by rw [hofNat _ h8]; rfl⟩
  · exact Or.inr ⟨_, rfl, fun rest => by rw [ht]; rfl⟩
  · exact Or.inr ⟨_, rfl, fun rest => by rw [hofNat _ hf]; rfl⟩
  · exact Or.inr ⟨_, rfl, fun rest => by rw [hr]; rfl⟩
  · exact Or.inr ⟨_, rfl, fun rest => by rw [hb]; rfl⟩
  · exact Or.inr ⟨_, rfl, escaped?_code (toNat_lt_of_isCode hcode)⟩
  · exact Or.inl ⟨rfl, hb, isPlain_of_not_code hc (by simpa using hcode)⟩

/-! ## Short forms -/

theorem escapeShort_cases (c : Char) :
    (escapeShort c = [c] ∧ c ≠ '"' ∧ c ≠ '\\' ∧ isPlain c = true) ∨
      ∃ form, escapeShort c = '\\' :: form ∧ Escapes form c := by
  unfold escapeShort
  split_ifs with hn hq
  · exact Or.inr ⟨_, rfl, fun rest => by rw [hn]; rfl⟩
  · exact Or.inr ⟨_, rfl, fun rest => by rw [hq]; rfl⟩
  · rcases escape_cases c hn with ⟨hself, hb, hplain⟩ | hform
    · exact Or.inl ⟨hself, hq, hb, hplain⟩
    · exact Or.inr hform

/-- One character in one double quote is read back. -/
theorem readShortDouble_escapeShort (c : Char) (rest : List Char) :
    readShortDouble (escapeShort c ++ rest) =
      (readShortDouble rest).map fun (text, rest) => (c :: text, rest) := by
  rcases escapeShort_cases c with ⟨hself, hq, hb, hplain⟩ | ⟨form, hform, hread⟩
  · rw [hself, List.singleton_append, readShortDouble, if_neg hq, if_neg hb, if_pos hplain]
  · rw [hform, List.cons_append, readShortDouble, if_neg (by decide), if_pos rfl, hread rest]
    dsimp only
    rw [List.drop_left]

theorem readShortDouble_body (cs rest : List Char) :
    readShortDouble (cs.flatMap escapeShort ++ '"' :: rest) = some (cs, rest) := by
  induction cs with
  | nil => rw [List.flatMap_nil, List.nil_append, readShortDouble, if_pos rfl]
  | cons c cs ih =>
    rw [List.flatMap_cons, List.append_assoc, readShortDouble_escapeShort, ih]
    rfl

theorem readShortSingle_body {cs : List Char} (h : ∀ c ∈ cs, c ≠ '\'' ∧ isPlain c = true)
    (rest : List Char) : readShortSingle (cs ++ '\'' :: rest) = some (cs, rest) := by
  induction cs with
  | nil => rfl
  | cons c cs ih =>
    obtain ⟨hq, hplain⟩ := h c (by simp)
    rw [List.cons_append, readShortSingle, if_neg hq, if_pos hplain,
      ih fun d hd => h d (List.mem_cons_of_mem c hd)]
    rfl

/-! ## Runs of quotes -/

theorem le_longestRunFrom (q : Char) (n : Nat) (cs : List Char) : n ≤ longestRunFrom q n cs := by
  induction cs generalizing n with
  | nil => exact Nat.le_refl n
  | cons c cs ih =>
    unfold longestRunFrom
    split
    · exact Nat.le_of_succ_le (ih (n + 1))
    · exact Nat.le_max_left n _

/-- A character that has no run does not stand in the text. -/
theorem not_mem_of_longestRun {q : Char} {cs : List Char} (h : longestRun q cs = 0) : q ∉ cs := by
  unfold longestRun at h
  induction cs with
  | nil => exact List.not_mem_nil
  | cons c cs ih =>
    unfold longestRunFrom at h
    split at h
    · have := le_longestRunFrom q (0 + 1) cs
      omega
    · next hne =>
      rw [Nat.max_eq_zero_iff] at h
      rw [List.mem_cons, not_or]
      exact ⟨Ne.symm hne, ih h.2⟩

/-! ## Long forms -/

variable {q c : Char} {cs more rest : List Char}

theorem closes_iff : closes q cs = true ↔ fence q <+: cs := List.isPrefixOf_iff_prefix

theorem not_closes_of_ne (h : c ≠ q) (more : List Char) : closes q (c :: more) = false := by
  rw [← Bool.not_eq_true, closes_iff]
  rintro ⟨tail, htail⟩
  exact h (List.cons.inj htail).1.symm

theorem afterLineEnd?_of_ne (hn : c ≠ '\n') (hr : c ≠ '\r') (more : List Char) :
    afterLineEnd? (c :: more) = none := by
  unfold afterLineEnd?
  split
  · next heq => exact absurd (List.cons.inj heq).1 hn
  · next heq => exact absurd (List.cons.inj heq).1 hr
  · rfl

/-- What a long form goes on with when it does not end, for double quotes. -/
theorem readLongDouble_cons (h : closes '"' (c :: more) = false) :
    readLongDouble (c :: more) =
      if c = '\\' then
        match afterFold? more with
        | some after => readLongDouble after
        | none =>
          match escaped? more with
          | none => none
          | some (d, n) => (readLongDouble (more.drop n)).map fun (text, rest) => (d :: text, rest)
      else
        match afterLineEnd? (c :: more) with
        | some after => (readLongDouble after).map fun (text, rest) => ('\n' :: text, rest)
        | none =>
          if isPlain c then (readLongDouble more).map fun (text, rest) => (c :: text, rest)
          else none := by
  rw [readLongDouble, if_neg (by simp [h])]
  split
  · split
    · simp only [*]
    · cases escaped? more <;> simp only [*]
  · split <;> simp only [*]

/-- What a long form goes on with when it does not end, for single quotes. -/
theorem readLongSingle_cons (h : closes '\'' (c :: more) = false) :
    readLongSingle (c :: more) =
      match afterLineEnd? (c :: more) with
      | some after => (readLongSingle after).map fun (text, rest) => ('\n' :: text, rest)
      | none =>
        if isPlain c then (readLongSingle more).map fun (text, rest) => (c :: text, rest)
        else none := by
  rw [readLongSingle, if_neg (by simp [h])]
  split <;> simp only [*]

/-- Where an escape is read, no line ends. -/
theorem afterFold?_of_escaped? {r : Char × Nat} (h : escaped? cs = some r) :
    afterFold? cs = none := by
  cases cs with
  | nil => rfl
  | cons c cs =>
    have hne : c ≠ ' ' ∧ c ≠ '\t' ∧ c ≠ '\n' ∧ c ≠ '\r' := by
      refine ⟨?_, ?_, ?_, ?_⟩ <;> rintro rfl <;> cases h
    have hdrop : (c :: cs).dropWhile (fun c => c == ' ' || c == '\t') = c :: cs :=
      List.dropWhile_cons_of_neg (by simp [hne])
    rw [afterFold?, hdrop, afterLineEnd?_of_ne hne.2.2.1 hne.2.2.2]
    rfl

/-- The closing quotes of a long form, with up to two quotes of the text before them, end it. -/
theorem closeLong_replicate {n : Nat} (hn : n < 3) (hrest : ∀ c ∈ rest.head?, c ≠ q) :
    closes q (List.replicate n q ++ (fence q ++ rest)) = true ∧
      closeLong q ((List.replicate n q ++ (fence q ++ rest)).drop 3) =
        (List.replicate n q, rest) := by
  have hcases : n = 0 ∨ n = 1 ∨ n = 2 := by omega
  rw [closes_iff]
  rcases hcases with rfl | rfl | rfl
  · refine ⟨List.prefix_append _ _, ?_⟩
    show closeLong q rest = ([], rest)
    cases rest with
    | nil => rfl
    | cons a rest =>
      have ha : a ≠ q := hrest a rfl
      cases rest <;> simp [closeLong, ha]
  · refine ⟨⟨q :: rest, rfl⟩, ?_⟩
    show closeLong q (q :: rest) = ([q], rest)
    cases rest with
    | nil => simp [closeLong]
    | cons a rest => simp [closeLong, hrest a rfl]
  · refine ⟨⟨q :: q :: rest, rfl⟩, ?_⟩
    show closeLong q (q :: q :: rest) = ([q, q], rest)
    simp [closeLong]

theorem readLongDouble_replicate {n : Nat} (hn : n < 3) (hrest : ∀ c ∈ rest.head?, c ≠ '"') :
    readLongDouble (List.replicate n '"' ++ (fence '"' ++ rest)) =
      some (List.replicate n '"', rest) := by
  obtain ⟨hcloses, hclose⟩ := closeLong_replicate hn hrest
  rw [readLongDouble.eq_def, if_pos hcloses, hclose]

theorem readLongSingle_replicate {n : Nat} (hn : n < 3) (hrest : ∀ c ∈ rest.head?, c ≠ '\'') :
    readLongSingle (List.replicate n '\'' ++ (fence '\'' ++ rest)) =
      some (List.replicate n '\'', rest) := by
  obtain ⟨hcloses, hclose⟩ := closeLong_replicate hn hrest
  rw [readLongSingle.eq_def, if_pos hcloses, hclose]

/-! ### Three double quotes -/

/-- What is written for the next character, after `run` quotes. -/
theorem escapeLong_cases (run : Nat) (c : Char) (cs : List Char) :
    (c = '"' ∧ run ≠ 2 ∧ escapeLong run (c :: cs) = '"' :: escapeLong (run + 1) cs) ∨
    (c = '\n' ∧ escapeLong run (c :: cs) = '\n' :: escapeLong 0 cs) ∨
    (c ≠ '"' ∧ c ≠ '\\' ∧ c ≠ '\n' ∧ isPlain c = true ∧
      escapeLong run (c :: cs) = c :: escapeLong 0 cs) ∨
    ∃ form, Escapes form c ∧ escapeLong run (c :: cs) = '\\' :: (form ++ escapeLong 0 cs) := by
  rw [escapeLong]
  split_ifs with hq hrun hn
  · exact Or.inr (Or.inr (Or.inr ⟨['"'], fun rest => by rw [hq]; rfl, rfl⟩))
  · exact Or.inl ⟨hq, hrun, rfl⟩
  · exact Or.inr (Or.inl ⟨hn, rfl⟩)
  · rcases escape_cases c hn with ⟨hself, hb, hplain⟩ | ⟨form, hform, hread⟩
    · exact Or.inr (Or.inr (Or.inl ⟨hq, hb, hn, hplain, by rw [hself]; rfl⟩))
    · exact Or.inr (Or.inr (Or.inr ⟨form, hread, by rw [hform]; rfl⟩))

/-- After `run` quotes, more than two quotes in a row are only found at the end of the text. -/
theorem eq_replicate_of_escapeLong {k run : Nat} (hrun : run ≤ 2)
    (h : List.replicate k '"' <+: escapeLong run cs ++ more) :
    (∃ n < k, cs = List.replicate n '"' ∧ escapeLong run cs = List.replicate n '"') ∨
      run + k ≤ 2 := by
  -- one quote of the row at a time; the row stays within the text as long as the text has quotes
  induction k generalizing run cs with
  | zero => exact Or.inr hrun
  | succ k ih =>
    cases cs with
    | nil => exact Or.inl ⟨0, Nat.succ_pos k, rfl, rfl⟩
    | cons c cs =>
      obtain ⟨tail, htail⟩ := h
      rw [List.replicate_succ, List.cons_append] at htail
      rcases escapeLong_cases run c cs with ⟨rfl, hne, hform⟩ | ⟨-, hform⟩ | ⟨hne, -, -, -, hform⟩ |
        ⟨form, -, hform⟩
      · rw [hform, List.cons_append] at htail
        rcases ih (by omega) ⟨tail, (List.cons.inj htail).2⟩ with ⟨n, hn, rfl, heq⟩ | hle
        · exact Or.inl ⟨n + 1, by omega, rfl, by rw [hform, heq]; rfl⟩
        · exact Or.inr (by omega)
      · rw [hform] at htail
        exact absurd (List.cons.inj htail).1 (by decide)
      · rw [hform] at htail
        exact absurd (List.cons.inj htail).1.symm hne
      · rw [hform] at htail
        exact absurd (List.cons.inj htail).1 (by decide)

theorem readLongDouble_body {run : Nat} (hrun : run ≤ 2) (hrest : ∀ c ∈ rest.head?, c ≠ '"') :
    readLongDouble (escapeLong run cs ++ (fence '"' ++ rest)) = some (cs, rest) := by
  induction cs generalizing run with
  | nil => exact readLongDouble_replicate (n := 0) (by decide) hrest
  | cons c cs ih =>
    cases hcloses : closes '"' (escapeLong run (c :: cs) ++ (fence '"' ++ rest)) with
    | true =>
      -- nothing but quotes is left of the text
      rcases eq_replicate_of_escapeLong (k := 3) hrun (closes_iff.mp hcloses) with
        ⟨n, hn, heq, hform⟩ | hle
      · rw [hform, readLongDouble_replicate hn hrest, heq]
      · omega
    | false =>
      rcases escapeLong_cases run c cs with ⟨rfl, hne, hform⟩ | ⟨rfl, hform⟩ |
        ⟨hq, hb, hn, hplain, hform⟩ | ⟨form, hread, hform⟩
      · rw [hform, List.cons_append] at hcloses ⊢
        rw [readLongDouble_cons hcloses, if_neg (by decide),
          afterLineEnd?_of_ne (by decide) (by decide)]
        dsimp only
        rw [if_pos (by decide), ih (by omega)]
        rfl
      · rw [hform, List.cons_append] at hcloses ⊢
        rw [readLongDouble_cons hcloses, if_neg (by decide)]
        show Option.map _ (readLongDouble _) = _
        rw [ih (by omega)]
        rfl
      · rw [hform, List.cons_append] at hcloses ⊢
        rw [readLongDouble_cons hcloses, if_neg hb,
          afterLineEnd?_of_ne hn (ne_return_of_isPlain hplain)]
        dsimp only
        rw [if_pos hplain, ih (by omega)]
        rfl
      · have hescaped := hread (escapeLong 0 cs ++ (fence '"' ++ rest))
        rw [hform, List.cons_append, List.append_assoc] at hcloses ⊢
        rw [readLongDouble_cons hcloses, if_pos rfl, afterFold?_of_escaped? hescaped, hescaped]
        dsimp only
        rw [List.drop_left, ih (by omega)]
        rfl

/-! ### Three single quotes -/

/-- A text whose runs of quotes are short has more than two in a row only together with the closing
quotes. -/
theorem eq_replicate_of_longestRunFrom {k run : Nat} (h : longestRunFrom q run cs ≤ 2)
    (hk : List.replicate k q <+: cs ++ more) :
    (∃ n < k, cs = List.replicate n q) ∨ run + k ≤ 2 := by
  induction k generalizing run cs with
  | zero => exact Or.inr (Nat.le_trans (le_longestRunFrom q run cs) h)
  | succ k ih =>
    cases cs with
    | nil => exact Or.inl ⟨0, Nat.succ_pos k, rfl⟩
    | cons c cs =>
      obtain ⟨tail, htail⟩ := hk
      rw [List.replicate_succ, List.cons_append, List.cons_append] at htail
      obtain ⟨rfl, hprefix⟩ := List.cons.inj htail
      rw [longestRunFrom, if_pos rfl] at h
      rcases ih h ⟨tail, hprefix⟩ with ⟨n, hn, rfl⟩ | hle
      · exact Or.inl ⟨n + 1, by omega, rfl⟩
      · exact Or.inr (by omega)

theorem readLongSingle_body {run : Nat} (h : longestRunFrom '\'' run cs ≤ 2)
    (hcodes : ∀ c ∈ cs, isCode c = false) (hrest : ∀ c ∈ rest.head?, c ≠ '\'') :
    readLongSingle (cs ++ (fence '\'' ++ rest)) = some (cs, rest) := by
  induction cs generalizing run with
  | nil => exact readLongSingle_replicate (n := 0) (by decide) hrest
  | cons c cs ih =>
    cases hcloses : closes '\'' (c :: cs ++ (fence '\'' ++ rest)) with
    | true =>
      rcases eq_replicate_of_longestRunFrom (k := 3) h (closes_iff.mp hcloses) with
        ⟨n, hn, heq⟩ | hle
      · rw [heq, readLongSingle_replicate hn hrest]
      · omega
    | false =>
      have hruns : ∃ run', longestRunFrom '\'' run' cs ≤ 2 := by
        rw [longestRunFrom] at h
        split at h
        · exact ⟨run + 1, h⟩
        · exact ⟨0, by omega⟩
      obtain ⟨run', hrun'⟩ := hruns
      have hread := ih hrun' fun d hd => hcodes d (List.mem_cons_of_mem c hd)
      rw [List.cons_append] at hcloses ⊢
      rw [readLongSingle_cons hcloses]
      by_cases hn : c = '\n'
      · subst hn
        show Option.map _ (readLongSingle _) = _
        rw [hread]
        rfl
      · have hplain := isPlain_of_not_code hn (hcodes c (by simp))
        rw [afterLineEnd?_of_ne hn (ne_return_of_isPlain hplain)]
        dsimp only
        rw [if_pos hplain, hread]
        rfl

/-! ## Every form is read back -/

/-- The text goes on with something else than a quote. -/
def NoQuote (rest : List Char) : Prop := ∀ c ∈ rest.head?, c ≠ '"' ∧ c ≠ '\''

theorem afterLineEnd?_eq_none (h : ∀ c ∈ cs.head?, c ≠ '\n' ∧ c ≠ '\r') :
    afterLineEnd? cs = none := by
  cases cs with
  | nil => rfl
  | cons c cs => exact afterLineEnd?_of_ne (h c rfl).1 (h c rfl).2 cs

/-- The line feed after the opening quotes is skipped, and nothing else is. -/
theorem afterOpening_opening {body : List Char}
    (h : '\n' ∉ cs → ∀ c ∈ body.head?, c ≠ '\n' ∧ c ≠ '\r') :
    afterOpening (opening cs ++ body) = body := by
  unfold opening afterOpening
  by_cases hn : '\n' ∈ cs
  · rw [if_pos (by simpa using hn)]
    rfl
  · rw [if_neg (by simpa using hn), List.nil_append, afterLineEnd?_eq_none (h hn)]
    rfl

/-- In a short form at most the two quotes of an empty text stand next to each other. -/
theorem not_closes_short {body : List Char} (hbody : ∀ c ∈ body.head?, c ≠ q)
    (hrest : ∀ c ∈ rest.head?, c ≠ q) : closes q (q :: (body ++ q :: rest)) = false := by
  rw [← Bool.not_eq_true, closes_iff]
  rintro ⟨tail, htail⟩
  obtain ⟨-, htail⟩ := List.cons.inj htail
  cases body with
  | cons c body => exact hbody c rfl (List.cons.inj htail).1.symm
  | nil =>
    obtain ⟨-, htail⟩ := List.cons.inj htail
    exact hrest q (by rw [← htail]; rfl) rfl

theorem read_shortDouble (hrest : NoQuote rest) (cs : List Char) :
    read (shortDouble cs ++ rest) = some (cs, rest) := by
  have hhead : ∀ c ∈ (cs.flatMap escapeShort).head?, c ≠ '"' := by
    intro c hc
    cases cs with
    | nil => cases hc
    | cons a cs =>
      rw [List.flatMap_cons] at hc
      rcases escapeShort_cases a with ⟨hself, hq, -, -⟩ | ⟨form, hform, -⟩
      · rw [hself] at hc
        rwa [← Option.some.inj hc]
      · rw [hform] at hc
        rw [← Option.some.inj hc]
        decide
  have hform : shortDouble cs ++ rest = '"' :: (cs.flatMap escapeShort ++ '"' :: rest) := by
    simp [shortDouble]
  rw [hform, read, not_closes_short hhead fun c hc => (hrest c hc).1, not_closes_of_ne (by decide)]
  exact readShortDouble_body cs rest

theorem read_shortSingle (hrest : NoQuote rest) (h : ∀ c ∈ cs, c ≠ '\'' ∧ isPlain c = true) :
    read (shortSingle cs ++ rest) = some (cs, rest) := by
  have hhead : ∀ c ∈ cs.head?, c ≠ '\'' := fun c hc => (h c (List.mem_of_head? hc)).1
  have hform : shortSingle cs ++ rest = '\'' :: (cs ++ '\'' :: rest) := by simp [shortSingle]
  rw [hform, read, not_closes_of_ne (by decide), not_closes_short hhead fun c hc => (hrest c hc).2]
  exact readShortSingle_body h rest

theorem read_longDouble (hrest : NoQuote rest) (cs : List Char) :
    read (longDouble cs ++ rest) = some (cs, rest) := by
  have hhead : '\n' ∉ cs → ∀ c ∈ (escapeLong 0 cs ++ (fence '"' ++ rest)).head?,
      c ≠ '\n' ∧ c ≠ '\r' := by
    intro hn c hc
    cases cs with
    | nil =>
      rw [← Option.some.inj hc]
      decide
    | cons a cs =>
      rcases escapeLong_cases 0 a cs with ⟨-, -, hform⟩ | ⟨rfl, -⟩ | ⟨-, -, hne, hplain, hform⟩ |
        ⟨form, -, hform⟩
      · rw [hform] at hc
        rw [← Option.some.inj hc]
        decide
      · exact absurd (by simp) hn
      · rw [hform] at hc
        rw [← Option.some.inj hc]
        exact ⟨hne, ne_return_of_isPlain hplain⟩
      · rw [hform] at hc
        rw [← Option.some.inj hc]
        decide
  have hform : longDouble cs ++ rest =
      fence '"' ++ (opening cs ++ (escapeLong 0 cs ++ (fence '"' ++ rest))) := by
    simp [longDouble]
  rw [hform, read, if_pos (closes_iff.mpr (List.prefix_append _ _))]
  show readLongDouble (afterOpening (opening cs ++ _)) = _
  rw [afterOpening_opening hhead]
  exact readLongDouble_body (by decide) fun c hc => (hrest c hc).1

theorem read_longSingle (hrest : NoQuote rest) (h : longestRun '\'' cs ≤ 2)
    (hcodes : ∀ c ∈ cs, isCode c = false) : read (longSingle cs ++ rest) = some (cs, rest) := by
  have hhead : '\n' ∉ cs → ∀ c ∈ (cs ++ (fence '\'' ++ rest)).head?, c ≠ '\n' ∧ c ≠ '\r' := by
    intro hn c hc
    cases cs with
    | nil =>
      rw [← Option.some.inj hc]
      decide
    | cons a cs =>
      rw [← Option.some.inj hc]
      refine ⟨fun heq => hn (by simp [heq]), ?_⟩
      rintro rfl
      cases hcodes '\r' (by simp)
  have hform : longSingle cs ++ rest =
      fence '\'' ++ (opening cs ++ (cs ++ (fence '\'' ++ rest))) := by
    simp [longSingle]
  rw [hform, read, if_neg (by simp [fence, not_closes_of_ne]),
    if_pos (closes_iff.mpr (List.prefix_append _ _))]
  show readLongSingle (afterOpening (opening cs ++ _)) = _
  rw [afterOpening_opening hhead]
  exact readLongSingle_body h hcodes fun c hc => (hrest c hc).2

/-- Whatever form a text is written in, it is read back, as far as no quote follows. -/
theorem read_write (hrest : NoQuote rest) (cs : List Char) :
    read (write cs ++ rest) = some (cs, rest) := by
  unfold write
  dsimp only
  split
  · exact read_shortDouble hrest cs
  · split
    · next h =>
      simp only [Bool.and_eq_true, Bool.not_eq_true', List.any_eq_false, beq_iff_eq] at h
      obtain ⟨⟨hcodes, hrun⟩, hlines⟩ := h
      refine read_shortSingle hrest fun c hc => ⟨?_, ?_⟩
      · rintro rfl
        exact not_mem_of_longestRun hrun hc
      · refine isPlain_of_not_code ?_ (by simpa using hcodes c hc)
        rintro rfl
        simp [hc] at hlines
    · split
      · exact read_longDouble hrest cs
      · split
        · next h =>
          simp only [Bool.and_eq_true, Bool.not_eq_true', List.any_eq_false, decide_eq_true_eq] at h
          exact read_longSingle hrest h.2 fun c hc => by simpa using h.1 c hc
        · split
          · exact read_longDouble hrest cs
          · exact read_shortDouble hrest cs

end Pinfile.Toml.Quoted
