import Mathlib.Algebra.Group.Nat.Defs
import Mathlib.Data.List.Basic
import Pinfile.Merge
import Pinfile.Proofs.Results
import Pinfile.Proofs.Text.Numerals
import Pinfile.Validate

/-!
# Versions and their texts

An exact version and its text say the same thing. `Fits` says which versions can be written under a
policy, and `IsVersionText` which texts are versions, without reading any of them: numerals between
dots, and perhaps a last segment of `post` and a numeral.

The main statement is that reading is the inverse of writing (`parse_eq_ok_iff`): a text is read as
a version exactly when the version fits and has this text. So two texts that are read are different
versions when they are different texts, and the places that compare the texts of versions, in
validation and in merging, compare versions (`parse_render_bijection`).

The segments of a text are what stands between its dots. A numeral has no dot, so writing loses no
segment (`splitOn_render`), and it does not begin with a letter, so the last release number is not
taken for a post-release tag (`splitPost_segments`).
-/

namespace Pinfile.ExactVersion

open Text

/-! ## What can be written -/

/-- The version can be written under the policy: it has as many release numbers as the policy asks
for, at most four segments with the post-release tag, and no number of 64 bits or more. -/
structure Fits (policy : VersionPolicy) (v : ExactVersion) : Prop where
  enough : policy.minSegments ≤ v.release.length
  notTooMany : v.release.length + v.post.toList.length ≤ 4
  release : ∀ n ∈ v.release, n < 2 ^ 64
  post : ∀ n ∈ v.post, n < 2 ^ 64

/-- The form of a version's text: as many numerals between dots as the policy asks for, and perhaps
a last segment of `post` and a numeral, at most four segments, and no numeral of 64 bits or more. -/
def IsVersionText (policy : VersionPolicy) (text : String) : Prop :=
  ∃ (numbers : List (List Char)) (tag : Option (List Char)),
    text.toList.splitOn '.' = numbers ++ (tag.map (postTag ++ ·)).toList ∧
    policy.minSegments ≤ numbers.length ∧ numbers.length + tag.toList.length ≤ 4 ∧
    ∀ cs ∈ numbers ++ tag.toList, IsNumeral cs ∧ ofDigits cs < 2 ^ 64

/-- The segments that a version is written in. -/
def segments (v : ExactVersion) : List (List Char) :=
  v.release.map (fun n => n.repr.toList) ++ (v.post.map fun n => postTag ++ n.repr.toList).toList

variable {policy : VersionPolicy} {text : String} {v w : ExactVersion} {cs : List Char} {n : Nat}

theorem two_le_minSegments (policy : VersionPolicy) : 2 ≤ policy.minSegments := by
  unfold VersionPolicy.minSegments
  split <;> omega

/-- A version that fits has a release number. -/
theorem Fits.release_ne_nil (h : v.Fits policy) : v.release ≠ [] := by
  have henough := h.enough
  have htwo := two_le_minSegments policy
  intro hnil
  rw [hnil, List.length_nil] at henough
  omega

theorem length_segments (v : ExactVersion) :
    v.segments.length = v.release.length + v.post.toList.length := by
  unfold segments
  cases v.post <;> simp

/-! ## Dots between segments -/

theorem intercalate_append_singleton {sep : List Char} {pieces : List (List Char)} (h : pieces ≠ [])
    (last : List Char) :
    sep.intercalate (pieces ++ [last]) = sep.intercalate pieces ++ (sep ++ last) := by
  induction pieces with
  | nil => exact absurd rfl h
  | cons piece pieces ih =>
    by_cases hnil : pieces = []
    · subst hnil
      rw [List.singleton_append, List.intercalate_cons_of_ne_nil (List.cons_ne_nil last []),
        List.intercalate_singleton, List.intercalate_singleton, List.append_assoc]
    · rw [List.cons_append, List.intercalate_cons_of_ne_nil (by simp), ih hnil,
        List.intercalate_cons_of_ne_nil hnil]
      simp only [List.append_assoc]

/-- The text of a version is its segments with dots between them. -/
theorem toList_render (h : v.release ≠ []) : v.render.toList = ['.'].intercalate v.segments := by
  have hdot : ".".toList = ['.'] := rfl
  have hpost : ".post".toList = ['.'] ++ postTag := rfl
  unfold render segments
  cases v.post with
  | none => simp [String.toList_intercalate, hdot, Function.comp_def]
  | some n =>
    have hne : v.release.map (fun n => n.repr.toList) ≠ [] := by simpa using h
    rw [Option.map_some, Option.toList_some, intercalate_append_singleton hne]
    simp [String.toList_intercalate, hdot, hpost, Function.comp_def]

/-- A digit is neither a dot nor the first letter of the tag. -/
theorem ne_of_mem_repr {c : Char} (h : c ∈ n.repr.toList) : c ≠ '.' ∧ c ≠ 'p' := by
  rw [Nat.toList_repr] at h
  have hdigit := toNat_of_digit ((isNumeral_toDigits n).digits c h)
  refine ⟨?_, ?_⟩ <;> rintro rfl <;> exact absurd hdigit (by decide)

theorem not_mem_segments (v : ExactVersion) : ∀ cs ∈ v.segments, '.' ∉ cs := by
  intro cs hcs hdot
  rcases List.mem_append.mp hcs with hcs | hcs
  · obtain ⟨n, -, rfl⟩ := List.mem_map.mp hcs
    exact (ne_of_mem_repr hdot).1 rfl
  · obtain ⟨n, -, rfl⟩ := Option.map_eq_some_iff.mp (Option.mem_toList.mp hcs)
    rcases List.mem_append.mp hdot with hdot | hdot
    · exact absurd hdot (by decide)
    · exact (ne_of_mem_repr hdot).1 rfl

/-- The text of a version is cut into the segments that it was written in. -/
theorem splitOn_render (h : v.release ≠ []) : v.render.toList.splitOn '.' = v.segments := by
  have hne : v.segments ≠ [] := by
    apply List.append_ne_nil_of_left_ne_nil
    simpa using h
  rw [toList_render h, List.splitOn_intercalate '.' v.not_mem_segments hne]

/-! ## Reading segments -/

/-- What is checked of a segment before its value is taken is the form of a numeral. -/
theorem isNumeral_iff_checks :
    IsNumeral cs ↔ ¬ (cs.isEmpty || !cs.all Char.isDigit) = true ∧
      ¬ (decide (cs.length > 1) && cs.head? == some '0') = true := by
  rw [Bool.not_eq_true, Bool.not_eq_true, Bool.or_eq_false_iff, List.isEmpty_eq_false_iff,
    Bool.not_eq_false', List.all_eq_true, Bool.and_eq_false_iff, decide_eq_false_iff_not,
    beq_eq_false_iff_ne]
  constructor
  · intro h
    refine ⟨⟨h.ne_nil, fun c hc => isDigit_iff.mpr (h.digits c hc)⟩, ?_⟩
    by_cases hhead : cs.head? = some '0'
    · left
      rw [h.leadingZero hhead]
      decide
    · exact Or.inr hhead
  · rintro ⟨⟨hne, hdigits⟩, hzero⟩
    refine ⟨hne, fun c hc => isDigit_iff.mp (hdigits c hc), fun hhead => ?_⟩
    -- nothing can stand after a zero
    obtain ⟨rest, rfl⟩ := List.head?_eq_some_iff.mp hhead
    cases rest with
    | nil => rfl
    | cons c rest => simp at hzero

/-- A segment is read as the number that it is the text of. -/
theorem parseNumber_eq_ok_iff : parseNumber cs = .ok n ↔ n < 2 ^ 64 ∧ n.repr.toList = cs := by
  have hbound : segmentBound = 2 ^ 64 := rfl
  rw [← isNumeral_iff, isNumeral_iff_checks, parseNumber, hbound]
  split
  · next hdigits => exact iff_of_false (by simp) fun h => h.2.1.1 hdigits
  · next hdigits =>
    split
    · next hzero => exact iff_of_false (by simp) fun h => h.2.1.2 hzero
    · next hzero =>
      split
      · next hlt =>
        rw [Except.ok.injEq]
        constructor
        · rintro rfl
          exact ⟨hlt, ⟨hdigits, hzero⟩, rfl⟩
        · exact fun h => h.2.2
      · next hge =>
        refine iff_of_false (by simp) ?_
        rintro ⟨hlt, -, rfl⟩
        exact hge hlt

theorem mapM_parseNumber_eq_ok_iff {numbers : List (List Char)} {release : List Nat} :
    numbers.mapM parseNumber = .ok release ↔
      (∀ n ∈ release, n < 2 ^ 64) ∧ release.map (fun n => n.repr.toList) = numbers := by
  rw [mapM_eq_ok_iff]
  induction numbers generalizing release with
  | nil => cases release <;> simp
  | cons cs numbers ih =>
    cases release with
    | nil => simp
    | cons n release =>
      rw [List.map_cons, List.map_cons, List.cons.injEq, ih, parseNumber_eq_ok_iff, List.map_cons,
        List.cons.injEq, List.forall_mem_cons]
      exact and_and_and_comm

/-- A last segment that is split off was a tag, and the others are left. -/
theorem segments_of_splitPost {segs numbers : List (List Char)} {post : Option Nat}
    (h : splitPost segs = .ok (numbers, post)) :
    (∀ n ∈ post, n < 2 ^ 64) ∧
      segs = numbers ++ (post.map fun n => postTag ++ n.repr.toList).toList := by
  unfold splitPost at h
  split at h
  · cases h
    exact ⟨by simp, by simp⟩
  · next last hlast =>
    split at h
    · cases h
      exact ⟨by simp, by simp⟩
    · next digits hdigits =>
      split at h
      · next n hn =>
        cases h
        obtain ⟨hlt, rfl⟩ := parseNumber_eq_ok_iff.mp hn
        obtain ⟨before, rfl⟩ := List.getLast?_eq_some_iff.mp hlast
        rw [List.isPrefixOf?_eq_some_iff_append_eq] at hdigits
        refine ⟨fun m hm => ?_, ?_⟩
        · rw [← Option.some.inj hm]
          exact hlt
        · rw [List.dropLast_concat, Option.map_some, Option.toList_some, hdigits]
      · cases h

/-- The segments of a version are split into its numbers and its tag. -/
theorem splitPost_segments (hpost : ∀ n ∈ v.post, n < 2 ^ 64) :
    splitPost v.segments = .ok (v.release.map (fun n => n.repr.toList), v.post) := by
  unfold splitPost segments
  cases hv : v.post with
  | some n =>
    have hn : parseNumber n.repr.toList = .ok n := parseNumber_eq_ok_iff.mpr ⟨hpost n hv, rfl⟩
    have htag : postTag.isPrefixOf? (postTag ++ n.repr.toList) = some n.repr.toList :=
      List.isPrefixOf?_eq_some_iff_append_eq.mpr rfl
    rw [Option.map_some, Option.toList_some, List.getLast?_concat]
    dsimp only
    rw [htag]
    dsimp only
    rw [hn, List.dropLast_concat]
  | none =>
    rw [Option.map_none, Option.toList_none, List.append_nil]
    cases hlast : (v.release.map fun n => n.repr.toList).getLast? with
    | none => rfl
    | some last =>
      obtain ⟨n, -, rfl⟩ := List.mem_map.mp (List.mem_of_getLast? hlast)
      -- the tag begins with a letter, and a number does not
      have htag : postTag.isPrefixOf? n.repr.toList = none := by
        cases hrest : postTag.isPrefixOf? n.repr.toList with
        | none => rfl
        | some rest =>
          rw [List.isPrefixOf?_eq_some_iff_append_eq] at hrest
          have hp : 'p' ∈ n.repr.toList := by
            rw [← hrest]
            simp [postTag]
          exact absurd rfl (ne_of_mem_repr hp).2
      dsimp only
      rw [htag]

/-! ## Reading and writing -/

/-- What it takes to read a text, segment by segment. -/
theorem parse_eq_ok_iff_splitPost : parse policy text = .ok v ↔
    (text.toList.splitOn '.').length ≤ maxSegments ∧ ∃ numbers,
      splitPost (text.toList.splitOn '.') = .ok (numbers, v.post) ∧
      policy.minSegments ≤ numbers.length ∧ numbers.mapM parseNumber = .ok v.release := by
  unfold parse
  split
  · next hnil =>
    -- the empty text has a single segment, and that is too few
    refine iff_of_false (fun h => by cases h) ?_
    rintro ⟨-, numbers, hsplit, hmin, -⟩
    rw [List.isEmpty_iff.mp hnil, List.splitOn_nil] at hsplit
    obtain ⟨rfl, -⟩ := Prod.mk.inj (Except.ok.inj hsplit)
    have htwo := two_le_minSegments policy
    simp only [List.length_singleton] at hmin
    omega
  · dsimp only
    split
    · next hmany =>
      refine iff_of_false (fun h => by cases h) ?_
      rintro ⟨hfew, -⟩
      omega
    · next hfew =>
      rw [and_iff_right (by omega)]
      cases hsplit : splitPost (text.toList.splitOn '.') with
      | error e => simp [bind, Except.bind]
      | ok pair =>
        obtain ⟨numbers, post⟩ := pair
        by_cases hmin : numbers.length < policy.minSegments
        · simp only [hmin, bind, Except.bind, throw, throwThe, MonadExceptOf.throw, if_true]
          refine iff_of_false (fun h => by cases h) ?_
          rintro ⟨numbers', hpair, hmin', -⟩
          obtain ⟨rfl, -⟩ := Prod.mk.inj (Except.ok.inj hpair)
          exact absurd hmin (by omega)
        · cases hnumbers : numbers.mapM parseNumber with
          | error e => simp [hmin, hnumbers, bind, Except.bind]
          | ok release =>
            simp only [hmin, hnumbers, bind, Except.bind, pure, Except.pure, if_false]
            constructor
            · rintro ⟨⟩
              exact ⟨numbers, rfl, by omega, hnumbers⟩
            · rintro ⟨numbers', hpair, -, hrelease⟩
              obtain ⟨rfl, rfl⟩ := Prod.mk.inj (Except.ok.inj hpair)
              rw [hnumbers] at hrelease
              rw [Except.ok.inj hrelease]

/-- A text is read as a version exactly when the version fits and is written as this text. -/
theorem parse_eq_ok_iff : parse policy text = .ok v ↔ v.Fits policy ∧ v.render = text := by
  rw [parse_eq_ok_iff_splitPost]
  constructor
  · rintro ⟨hfew, numbers, hsplit, hmin, hnumbers⟩
    obtain ⟨hrelease, rfl⟩ := mapM_parseNumber_eq_ok_iff.mp hnumbers
    obtain ⟨hpost, hsegments⟩ := segments_of_splitPost hsplit
    have hsegments : text.toList.splitOn '.' = v.segments := hsegments
    have hfits : v.Fits policy := by
      refine ⟨by simpa using hmin, ?_, hrelease, hpost⟩
      rw [hsegments, length_segments] at hfew
      exact hfew
    refine ⟨hfits, String.toList_inj.mp ?_⟩
    calc v.render.toList = ['.'].intercalate v.segments := toList_render hfits.release_ne_nil
      _ = ['.'].intercalate (text.toList.splitOn '.') := by rw [hsegments]
      _ = text.toList := List.intercalate_splitOn '.'
  · rintro ⟨hfits, rfl⟩
    rw [splitOn_render hfits.release_ne_nil]
    refine ⟨?_, _, splitPost_segments hfits.post, ?_, ?_⟩
    · rw [length_segments]
      exact hfits.notTooMany
    · simpa using hfits.enough
    · exact mapM_parseNumber_eq_ok_iff.mpr ⟨hfits.release, rfl⟩

/-! ## Versions and texts -/

/-- What a version that fits is written as has the form of a version's text. -/
theorem Fits.isVersionText (h : v.Fits policy) : IsVersionText policy v.render := by
  have hnumeral : ∀ n < 2 ^ 64, IsNumeral n.repr.toList ∧ ofDigits n.repr.toList < 2 ^ 64 := by
    intro n hn
    obtain ⟨hform, hvalue⟩ := isNumeral_iff.mpr (rfl : n.repr.toList = n.repr.toList)
    exact ⟨hform, by rwa [hvalue]⟩
  refine ⟨v.release.map fun n => n.repr.toList, v.post.map fun n => n.repr.toList, ?_, ?_, ?_, ?_⟩
  · rw [splitOn_render h.release_ne_nil, segments, Option.map_map]
    rfl
  · rw [List.length_map]
    exact h.enough
  · have hfew := h.notTooMany
    cases hpost : v.post <;> simpa [hpost] using hfew
  · intro cs hcs
    rcases List.mem_append.mp hcs with hcs | hcs
    · obtain ⟨n, hn, rfl⟩ := List.mem_map.mp hcs
      exact hnumeral n (h.release n hn)
    · obtain ⟨n, hn, rfl⟩ := Option.map_eq_some_iff.mp (Option.mem_toList.mp hcs)
      exact hnumeral n (h.post n hn)

/-- Numerals are the segments of the version that has their values. -/
theorem segments_ofDigits {numbers : List (List Char)} {tag : Option (List Char)}
    (h : ∀ cs ∈ numbers ++ tag.toList, IsNumeral cs) :
    segments ⟨numbers.map ofDigits, tag.map ofDigits⟩ = numbers ++ (tag.map (postTag ++ ·)).toList := by
  have hrepr : ∀ cs ∈ numbers ++ tag.toList, (ofDigits cs).repr.toList = cs :=
    fun cs hcs => isNumeral_iff.mp ⟨h cs hcs, rfl⟩
  rw [segments, List.map_map]
  congr 1
  · conv_rhs => rw [← List.map_id numbers]
    exact List.map_congr_left fun cs hcs => hrepr cs (List.mem_append_left _ hcs)
  · cases tag with
    | none => rfl
    | some cs => rw [Option.map_some, Option.map_some, hrepr cs (by simp), Option.map_some]

/-- A text in the form of a version is what some version that fits is written as. -/
theorem IsVersionText.exists_fits (h : IsVersionText policy text) :
    ∃ v : ExactVersion, v.Fits policy ∧ v.render = text := by
  obtain ⟨numbers, tag, hcut, henough, hfew, hform⟩ := h
  have hfits : Fits policy ⟨numbers.map ofDigits, tag.map ofDigits⟩ := by
    refine ⟨by rwa [List.length_map], by cases tag <;> simpa using hfew, ?_, ?_⟩
    · intro n hn
      obtain ⟨cs, hcs, rfl⟩ := List.mem_map.mp hn
      exact (hform cs (List.mem_append_left _ hcs)).2
    · intro n hn
      obtain ⟨cs, hcs, rfl⟩ := Option.map_eq_some_iff.mp hn
      exact (hform cs (List.mem_append_right _ (Option.mem_toList.mpr hcs))).2
  refine ⟨_, hfits, String.toList_inj.mp ?_⟩
  rw [toList_render hfits.release_ne_nil, segments_ofDigits fun cs hcs => (hform cs hcs).1, ← hcut,
    List.intercalate_splitOn]

/-- The form of a version's text is the form of the texts of the versions that fit. -/
theorem isVersionText_iff :
    IsVersionText policy text ↔ ∃ v : ExactVersion, v.Fits policy ∧ v.render = text := by
  constructor
  · exact IsVersionText.exists_fits
  · rintro ⟨v, hfits, rfl⟩
    exact hfits.isVersionText

/-- What fits under a policy fits where two release numbers are enough. -/
theorem Fits.short (h : v.Fits policy) : v.Fits ⟨true⟩ :=
  ⟨Nat.le_trans (two_le_minSegments policy) h.enough, h.notTooMany, h.release, h.post⟩

/-- The policies do not differ but for the versions of two release numbers. -/
theorem fits_short_iff :
    v.Fits ⟨true⟩ ↔ v.Fits ⟨false⟩ ∨ v.Fits ⟨true⟩ ∧ v.release.length = 2 := by
  constructor
  · intro h
    have htwo : 2 ≤ v.release.length := h.enough
    by_cases hlength : v.release.length = 2
    · exact Or.inr ⟨h, hlength⟩
    · have hthree : 3 ≤ v.release.length := by omega
      exact Or.inl ⟨hthree, h.notTooMany, h.release, h.post⟩
  · rintro (h | h)
    · exact h.short
    · exact h.1

/-- Versions are equal exactly when the texts that they were read from are. -/
theorem eq_iff_of_parse {policy' : VersionPolicy} {text' : String} (hv : parse policy text = .ok v)
    (hw : parse policy' text' = .ok w) : text = text' ↔ v = w := by
  obtain ⟨hfits, rfl⟩ := parse_eq_ok_iff.mp hv
  obtain ⟨hfits', rfl⟩ := parse_eq_ok_iff.mp hw
  refine ⟨fun h => ?_, fun h => by rw [h]⟩
  have hv : parse ⟨true⟩ v.render = .ok v := parse_eq_ok_iff.mpr ⟨hfits.short, rfl⟩
  have hw : parse ⟨true⟩ w.render = .ok w := parse_eq_ok_iff.mpr ⟨hfits'.short, rfl⟩
  rw [h, hw] at hv
  exact (Except.ok.inj hv).symm

/-- Reading and writing versions are inverse to each other. What is read from a text is written as
this text, and what fits is read from its text; so the texts that are read are the texts of the
versions that fit, and they are the texts that have the form of a version. Where two release numbers
are enough, the versions of two release numbers are read besides those that are read anyway. Two
texts that are read stand for one version only when they are one text. So validation, which compares
the texts of two versions, compares the versions, and so does a layer that is merged: a pin is
placed when its version is the one in force, and is an override or a conflict when it is not. -/
theorem parse_render_bijection (policy : VersionPolicy) :
    (∀ text v, parse policy text = .ok v → v.render = text) ∧
    (∀ v : ExactVersion, v.Fits policy → parse policy v.render = .ok v) ∧
    (∀ text, (∃ v, parse policy text = .ok v) ↔
      ∃ v : ExactVersion, v.Fits policy ∧ v.render = text) ∧
    (∀ text, (∃ v, parse policy text = .ok v) ↔ IsVersionText policy text) ∧
    (∀ text v, parse ⟨true⟩ text = .ok v ↔ parse ⟨false⟩ text = .ok v ∨
      v.Fits ⟨true⟩ ∧ v.release.length = 2 ∧ v.render = text) ∧
    (∀ policy' text text' v w, parse policy text = .ok v → parse policy' text' = .ok w →
      (v = w ↔ text = text')) ∧
    (∀ (a b : Group × Pin) v w, parse policy a.2.version = .ok v →
      parse policy b.2.version = .ok w → (Manifest.conflictProblem? a b = none ↔ v = w)) ∧
    (∀ (s : Merge.State) i group (p : Pin) f v w, s.inForce? p.key = some f →
      parse policy f.version = .ok v → parse policy p.version = .ok w →
      s.addPin i group p =
        if v = w then s.place i p
        else if p.isOverride then (s.retarget p.key p.version).place i p
        else s.report (Merge.State.conflict f group p)) := by
  refine ⟨fun text v h => (parse_eq_ok_iff.mp h).2, fun v h => parse_eq_ok_iff.mpr ⟨h, rfl⟩,
    fun text => ?_, fun text => ?_, fun text v => ?_, fun policy' text text' v w hv hw => ?_,
    fun a b v w hv hw => ?_, fun s i group p f v w hf hv hw => ?_⟩
  · simp only [parse_eq_ok_iff]
  · simp only [parse_eq_ok_iff, isVersionText_iff]
  · rw [parse_eq_ok_iff, parse_eq_ok_iff, ← and_assoc, ← or_and_right, ← fits_short_iff]
  · exact (eq_iff_of_parse hv hw).symm
  · rw [Manifest.conflictProblem?_eq_none_iff, eq_iff_of_parse hv hw]
  · unfold Merge.State.addPin
    simp only [hf, eq_iff_of_parse hv hw]

/-- The greatest number of a segment, a lone zero, and a tag: the version is read from its text, and
a pin of this text is placed where the version is in force. -/
theorem parse_render_greatest_number :
    let v : ExactVersion := ⟨[0, 2 ^ 64 - 1, 7], some 0⟩
    let text := "0.18446744073709551615.7.post0"
    let pin : Pin := { name := ⟨"a"⟩, version := text }
    let s : Merge.State := { slots := [{ name := "X" }], inForce := [⟨"a", "X", text⟩] }
    v.render = text ∧ parse ⟨false⟩ v.render = .ok v ∧ parse ⟨true⟩ text = .ok v ∧
      Manifest.conflictProblem? ({ name := "X" }, pin) ({ name := "Y" }, pin) = none ∧
      s.addPin 0 "X" pin = s.place 0 pin := by
  intro v text pin s
  obtain ⟨hrender, hparse, -, -, hshort, hequal, hvalidate, hmerge⟩ :=
    parse_render_bijection ⟨false⟩
  have hfits : v.Fits ⟨false⟩ := ⟨by decide, by decide, by decide, by decide⟩
  have hread : parse ⟨false⟩ text = .ok v := by decide +kernel
  have hagree := (hvalidate ({ name := "X" }, pin) ({ name := "Y" }, pin) v v hread hread).mpr rfl
  refine ⟨hrender text v hread, hparse v hfits, (hshort text v).mpr (Or.inl hread), hagree, ?_⟩
  have hforce : s.inForce? pin.key = some ⟨"a", "X", text⟩ := by decide +kernel
  have hplaced := hmerge s 0 "X" pin ⟨"a", "X", text⟩ v v hforce hread hread
  rwa [if_pos ((hequal ⟨false⟩ text text v v hread hread).mpr rfl)] at hplaced

end Pinfile.ExactVersion
