import Mathlib.Data.List.Induction
import Pinfile.Repeats

/-!
# Laws of first and repeated elements

Both walks of `Pinfile.Repeats` look at an element together with the elements before it. `withEarlier`
lists these pairs, and `firsts` and `repeats` are read off it (`firsts_eq`, `repeats_eq`): an element
is a first when none before it has its key, and a repeat of the first one otherwise.

Three consequences carry the passes of validation and merging. The firsts of two lists, one after the
other, are the firsts of the first list and those of the second whose key is new (`firsts_append`).
There is no repeat exactly when the keys are pairwise different (`repeats_eq_nil_iff`). And comparing
every repeat with its first is comparing all elements of one key (`repeats_agree_iff`).
-/

namespace Pinfile

variable {α : Type}

/-- What is found in a list of lists stands in the first of them where something can be found. -/
theorem find?_flatMap_eq {β : Type} (f : α → List β) (p : β → Bool) (as : List α) :
    (as.flatMap f).find? p = (as.find? fun a => (f a).any p).bind fun a => (f a).find? p := by
  induction as with
  | nil => rfl
  | cons a as ih =>
    rw [List.flatMap_cons, List.find?_append, ih, List.find?_cons]
    cases hp : (f a).find? p with
    | none =>
      have hany : (f a).any p = false := by
        rw [List.find?_eq_none] at hp
        simpa using hp
      rw [hany, Option.none_or]
    | some b =>
      have hany : (f a).any p = true :=
        List.any_eq_true.mpr ⟨b, List.mem_of_find?_eq_some hp, List.find?_some hp⟩
      rw [hany, Option.bind_some, hp]
      rfl

/-- Changing the element that was added at the end. -/
theorem modify_length_append (as : List α) (a : α) (f : α → α) :
    (as ++ [a]).modify as.length f = as ++ [f a] := by
  rw [List.modify_eq_take_cons_drop (by simp)]
  simp

/-- Changing an element changes what is seen of it, and nothing else. -/
theorem map_modify_eq {β : Type} {see : α → β} {f : α → α} {f' : β → β}
    (h : ∀ a, see (f a) = f' (see a)) (as : List α) (i : Nat) :
    (as.modify i f).map see = (as.map see).modify i f' := by
  apply List.ext_getElem?
  intro j
  rw [List.getElem?_map, List.getElem?_modify, List.getElem?_modify, List.getElem?_map]
  cases as[j]? with
  | none => rfl
  | some a =>
    simp only [Option.map_eq_map, Option.map_some]
    split
    · rw [h]
    · rfl

/-! ## Elements with those before them -/

/-- Every element, together with those met before it. -/
def withEarlierAfter (met : List α) : List α → List (List α × α)
  | [] => []
  | a :: rest => (met, a) :: withEarlierAfter (met ++ [a]) rest

/-- Every element, together with those that stand before it. -/
def withEarlier (as : List α) : List (List α × α) := withEarlierAfter [] as

@[simp] theorem withEarlier_nil : withEarlier ([] : List α) = [] := rfl

theorem withEarlierAfter_append (met as bs : List α) :
    withEarlierAfter met (as ++ bs) =
      withEarlierAfter met as ++ withEarlierAfter (met ++ as) bs := by
  induction as generalizing met with
  | nil => simp [withEarlierAfter]
  | cons a as ih => simp [withEarlierAfter, ih]

theorem withEarlier_append_singleton (as : List α) (a : α) :
    withEarlier (as ++ [a]) = withEarlier as ++ [(as, a)] := by
  rw [withEarlier, withEarlierAfter_append]
  rfl

theorem mem_withEarlierAfter_iff {met as before : List α} {a : α} :
    (before, a) ∈ withEarlierAfter met as ↔
      ∃ early late, as = early ++ a :: late ∧ before = met ++ early := by
  induction as generalizing met with
  | nil => simp [withEarlierAfter]
  | cons x rest ih =>
    rw [withEarlierAfter, List.mem_cons, ih]
    constructor
    · rintro (h | ⟨early, late, rfl, rfl⟩)
      · obtain ⟨rfl, rfl⟩ := Prod.mk.inj h
        exact ⟨[], rest, rfl, by simp⟩
      · exact ⟨x :: early, late, rfl, by simp⟩
    · rintro ⟨early, late, h, rfl⟩
      cases early with
      | nil =>
        obtain ⟨rfl, rfl⟩ := List.cons.inj h
        exact Or.inl (by simp)
      | cons y early =>
        obtain ⟨rfl, rfl⟩ := List.cons.inj h
        exact Or.inr ⟨early, late, rfl, by simp⟩

/-- The pairs of `withEarlier` are the ways to cut the list at one of its elements. -/
theorem mem_withEarlier_iff {as before : List α} {a : α} :
    (before, a) ∈ withEarlier as ↔ ∃ after, as = before ++ a :: after := by
  rw [withEarlier, mem_withEarlierAfter_iff]
  constructor
  · rintro ⟨early, late, rfl, rfl⟩
    exact ⟨late, rfl⟩
  · rintro ⟨after, rfl⟩
    exact ⟨before, after, rfl, rfl⟩

theorem pairwise_iff_withEarlier {R : α → α → Prop} {as : List α} :
    as.Pairwise R ↔ ∀ pair ∈ withEarlier as, ∀ b ∈ pair.1, R b pair.2 := by
  induction as using List.reverseRecOn with
  | nil => simp
  | append_singleton as a ih =>
    rw [withEarlier_append_singleton, List.pairwise_append, ih]
    simp only [List.mem_append, List.mem_singleton, List.pairwise_singleton, true_and,
      forall_eq, or_imp, forall_and]

/-! ## Firsts and repeats, read off the pairs -/

variable {key : α → String}

theorem firstLike_append (met more : List α) (a : α) :
    firstLike key (met ++ more) a = (firstLike key met a).or (firstLike key more a) := by
  simp [firstLike, List.find?_append]

/-- An element whose key was met before is never looked up. -/
theorem firstLike_append_repeat {met : List α} {a first : α} (h : firstLike key met a = some first)
    (x : α) : firstLike key (met ++ [a]) x = firstLike key met x := by
  rw [firstLike_append]
  cases hx : firstLike key met x with
  | some y => rfl
  | none =>
    rw [Option.none_or]
    apply firstLike_eq_none_iff.mpr
    intro b hb
    obtain rfl := List.mem_singleton.mp hb
    obtain ⟨hmem, hkey⟩ := firstLike_eq_some h
    rw [← hkey]
    exact firstLike_eq_none_iff.mp hx first hmem

theorem firstsAfter_eq {met met' : List α}
    (h : ∀ a, firstLike key met a = firstLike key met' a) (as : List α) :
    firstsAfter key met as =
      ((withEarlierAfter met' as).filter fun pair => (firstLike key pair.1 pair.2).isNone).map
        Prod.snd := by
  -- `met` leaves out the repeats and `met'` has them: both know the same first of every key
  induction as generalizing met met' with
  | nil => rfl
  | cons a rest ih =>
    rw [firstsAfter, withEarlierAfter, h a]
    cases ha : firstLike key met' a with
    | some first =>
      have hstep : ∀ x, firstLike key met x = firstLike key (met' ++ [a]) x := by
        intro x
        rw [h x, firstLike_append_repeat ha]
      rw [List.filter_cons_of_neg (by simp [ha])]
      exact ih hstep
    | none =>
      have hstep : ∀ x, firstLike key (met ++ [a]) x = firstLike key (met' ++ [a]) x := by
        intro x
        rw [firstLike_append, firstLike_append, h x]
      rw [List.filter_cons_of_pos (by simp [ha]), List.map_cons, ← ih hstep]

theorem repeatsAfter_eq {met met' : List α}
    (h : ∀ a, firstLike key met a = firstLike key met' a) (as : List α) :
    repeatsAfter key met as =
      (withEarlierAfter met' as).filterMap fun pair =>
        (firstLike key pair.1 pair.2).map fun first => (first, pair.2) := by
  induction as generalizing met met' with
  | nil => rfl
  | cons a rest ih =>
    rw [repeatsAfter, withEarlierAfter, h a, List.filterMap_cons]
    cases ha : firstLike key met' a with
    | some first =>
      have hstep : ∀ x, firstLike key met x = firstLike key (met' ++ [a]) x := by
        intro x
        rw [h x, firstLike_append_repeat ha]
      rw [Option.map_some, ← ih hstep]
    | none =>
      have hstep : ∀ x, firstLike key (met ++ [a]) x = firstLike key (met' ++ [a]) x := by
        intro x
        rw [firstLike_append, firstLike_append, h x]
      rw [Option.map_none, ← ih hstep]

/-- The firsts are the elements before which nothing has their key. -/
theorem firsts_eq (as : List α) :
    firsts key as =
      ((withEarlier as).filter fun pair => (firstLike key pair.1 pair.2).isNone).map Prod.snd :=
  firstsAfter_eq (fun _ => rfl) as

/-- The repeats are the other elements, each with the first element before it that has its key. -/
theorem repeats_eq (as : List α) :
    repeats key as =
      (withEarlier as).filterMap fun pair =>
        (firstLike key pair.1 pair.2).map fun first => (first, pair.2) :=
  repeatsAfter_eq (fun _ => rfl) as

/-! ## Laws of the firsts -/

@[simp] theorem firsts_nil : firsts key [] = [] := rfl

/-- An element at the end is a first when its key is new. -/
theorem firsts_append_singleton (as : List α) (a : α) :
    firsts key (as ++ [a]) = if as.any (key · == key a) then firsts key as
      else firsts key as ++ [a] := by
  rw [firsts_eq, withEarlier_append_singleton, List.filter_append, List.map_append, ← firsts_eq]
  split
  · next h =>
    have hs : (firstLike key as a).isNone = false := by
      simpa [firstLike] using h
    simp [hs]
  · next h =>
    have hn : (firstLike key as a).isNone = true := by
      simpa [firstLike] using h
    simp [hn]

/-- A key stands among the firsts when it stands in the list. -/
theorem any_firsts (as : List α) (k : String) :
    (firsts key as).any (key · == k) = as.any (key · == k) := by
  induction as using List.reverseRecOn with
  | nil => rfl
  | append_singleton as a ih =>
    rw [firsts_append_singleton]
    split
    · next h =>
      rw [ih, List.any_append]
      by_cases hk : key a = k
      · subst hk
        simp [h]
      · simp [hk]
    · simp [ih]

/-- Nothing is lost where every element is its own key. -/
theorem mem_firsts_id {as : List String} {a : String} : a ∈ firsts id as ↔ a ∈ as := by
  have hany : ∀ bs : List String, bs.any (fun b => id b == a) = true ↔ a ∈ bs := by simp
  rw [← hany, ← hany, any_firsts]

/-- The firsts of a list after another one are those whose key the other one does not have. -/
theorem firsts_append (as bs : List α) :
    firsts key (as ++ bs) =
      firsts key as ++ (firsts key bs).filter fun b => !as.any (key · == key b) := by
  induction bs using List.reverseRecOn with
  | nil => simp
  | append_singleton bs b ih =>
    rw [← List.append_assoc, firsts_append_singleton, firsts_append_singleton, ih, List.any_append]
    by_cases ha : as.any (key · == key b) = true
    · by_cases hb : bs.any (key · == key b) = true
      · rw [if_pos (by simp [ha]), if_pos hb]
      · rw [if_pos (by simp [ha]), if_neg hb, List.filter_append]
        simp [ha]
    · by_cases hb : bs.any (key · == key b) = true
      · rw [if_pos (by simp [hb]), if_pos hb]
      · rw [if_neg (by simp [ha, hb]), if_neg hb, List.filter_append]
        simp [ha]

/-- A list without repeated keys is its own firsts. -/
theorem firsts_eq_self {as : List α} (h : as.Pairwise fun a b => key a ≠ key b) :
    firsts key as = as := by
  rw [firsts_eq, List.filter_eq_self.mpr]
  · induction as using List.reverseRecOn with
    | nil => rfl
    | append_singleton as a ih =>
      rw [withEarlier_append_singleton, List.map_append, ih (List.pairwise_append.mp h).1]
      rfl
  · intro pair hpair
    rw [Option.isNone_iff_eq_none, firstLike_eq_none_iff]
    exact pairwise_iff_withEarlier.mp h pair hpair

theorem firsts_firsts_append (as bs : List α) :
    firsts key (firsts key as ++ bs) = firsts key (as ++ bs) := by
  rw [firsts_append, firsts_append, firsts_eq_self (firsts_pairwise as)]
  simp only [any_firsts]

theorem firsts_append_firsts (as bs : List α) :
    firsts key (as ++ firsts key bs) = firsts key (as ++ bs) := by
  rw [firsts_append, firsts_append, firsts_eq_self (firsts_pairwise bs)]

/-- Taking the firsts does not depend on what is done to the elements, as long as the keys stay. -/
theorem firsts_map {β : Type} (f : β → α) (bs : List β) :
    firsts key (bs.map f) = (firsts (key ∘ f) bs).map f := by
  induction bs using List.reverseRecOn with
  | nil => rfl
  | append_singleton bs b ih =>
    rw [List.map_append, List.map_singleton, firsts_append_singleton, firsts_append_singleton, ih,
      List.any_map]
    simp only [Function.comp_def]
    split <;> simp

/-- Looking for a key among the firsts is looking for it in the list. -/
theorem find?_firsts (as : List α) (k : String) :
    (firsts key as).find? (key · == k) = as.find? (key · == k) := by
  induction as using List.reverseRecOn with
  | nil => rfl
  | append_singleton as a ih =>
    rw [firsts_append_singleton, List.find?_append]
    split
    · next h =>
      rw [ih]
      cases hf : as.find? (key · == k) with
      | some b => rfl
      | none =>
        have hk : key a ≠ k := by
          rintro rfl
          simp only [List.any_eq_true] at h
          obtain ⟨b, hb, hkey⟩ := h
          exact List.find?_eq_none.mp hf b hb hkey
        simp [hk]
    · rw [List.find?_append, ih]

/-- Where the keys are pairwise different, an element is the only one of its key. -/
theorem filter_of_pairwise {as : List α} (hd : as.Pairwise fun a b => key a ≠ key b) {a : α}
    (hmem : a ∈ as) : as.filter (key · == key a) = [a] := by
  obtain ⟨before, after, rfl⟩ := List.append_of_mem hmem
  rw [List.pairwise_append, List.pairwise_cons] at hd
  have hbefore : before.filter (key · == key a) = [] := by
    rw [List.filter_eq_nil_iff]
    intro b hb
    simpa using hd.2.2 b hb a (by simp)
  have hafter : after.filter (key · == key a) = [] := by
    rw [List.filter_eq_nil_iff]
    intro b hb
    simpa using (hd.2.1.1 b hb).symm
  rw [List.filter_append, hbefore, List.filter_cons_of_pos (by simp), hafter]
  rfl

/-- Where the keys are pairwise different, an element is found by its key. -/
theorem find?_of_pairwise {as : List α} (hd : as.Pairwise fun a b => key a ≠ key b) {a : α}
    (hmem : a ∈ as) : as.find? (key · == key a) = some a := by
  rw [← List.head?_filter, filter_of_pairwise hd hmem]
  rfl

/-- A first is what one finds by looking for its key. -/
theorem find?_of_mem_firsts {as : List α} {a : α} (h : a ∈ firsts key as) :
    as.find? (key · == key a) = some a := by
  rw [← find?_firsts]
  exact find?_of_pairwise (firsts_pairwise as) h

/-- Where the keys are pairwise different, a key that stands in the list stands there once. -/
theorem countP_of_pairwise {as : List α} (hd : as.Pairwise fun a b => key a ≠ key b) {k : String}
    (hk : ∃ a ∈ as, key a = k) : as.countP (key · == k) = 1 := by
  obtain ⟨a, ha, rfl⟩ := hk
  rw [List.countP_eq_length_filter, filter_of_pairwise hd ha]
  rfl

/-- Where the keys are pairwise different, changing the element at a position is changing the element
of its key. -/
theorem modify_of_pairwise {as : List α} (hd : as.Pairwise fun a b => key a ≠ key b) {i : Nat} {a : α}
    (hi : as[i]? = some a) (f : α → α) :
    as.modify i f = as.map fun b => if key b = key a then f b else b := by
  apply List.ext_getElem?
  intro j
  rw [List.getElem?_modify, List.getElem?_map]
  by_cases hij : i = j
  · subst hij
    simp [hi]
  · cases hj : as[j]? with
    | none => simp
    | some b =>
      have hne : key b ≠ key a := by
        obtain ⟨hi', rfl⟩ := List.getElem?_eq_some_iff.mp hi
        obtain ⟨hj', rfl⟩ := List.getElem?_eq_some_iff.mp hj
        have hpair := List.pairwise_iff_getElem.mp hd
        rcases Nat.lt_or_gt_of_ne hij with h | h
        · exact (hpair i j hi' hj' h).symm
        · exact hpair j i hj' hi' h
      simp [hij, hne]

/-! ## Laws of the repeats -/

/-- Nothing is repeated exactly when the keys are pairwise different. -/
theorem repeats_eq_nil_iff {as : List α} :
    repeats key as = [] ↔ as.Pairwise fun a b => key a ≠ key b := by
  rw [repeats_eq, List.filterMap_eq_nil_iff, pairwise_iff_withEarlier]
  apply forall₂_congr
  intro pair _
  rw [Option.map_eq_none_iff, firstLike_eq_none_iff]

theorem mem_repeats_iff {as : List α} {first second : α} :
    (first, second) ∈ repeats key as ↔
      ∃ before after, as = before ++ second :: after ∧ firstLike key before second = some first := by
  rw [repeats_eq, List.mem_filterMap]
  constructor
  · rintro ⟨⟨before, a⟩, hmem, h⟩
    obtain ⟨x, hx, hpair⟩ := Option.map_eq_some_iff.mp h
    obtain ⟨rfl, rfl⟩ := Prod.mk.inj hpair
    obtain ⟨after, rfl⟩ := mem_withEarlier_iff.mp hmem
    exact ⟨before, after, rfl, hx⟩
  · rintro ⟨before, after, rfl, h⟩
    exact ⟨(before, second), mem_withEarlier_iff.mpr ⟨after, rfl⟩, by simp [h]⟩

/-- Every repeat agrees with its first exactly when all elements of one key agree. -/
theorem repeats_agree_iff {β : Type} (f : α → β) (as : List α) :
    (∀ pair ∈ repeats key as, f pair.1 = f pair.2) ↔
      ∀ a ∈ as, ∀ b ∈ as, key a = key b → f a = f b := by
  constructor
  · intro h
    -- every element agrees with the first of its key
    have first_agrees : ∀ a ∈ as, ∃ x, as.find? (key · == key a) = some x ∧ f x = f a := by
      intro a ha
      obtain ⟨before, after, rfl⟩ := List.append_of_mem ha
      rw [List.find?_append]
      cases hf : firstLike key before a with
      | some x =>
        refine ⟨x, ?_, h (x, a) (mem_repeats_iff.mpr ⟨before, after, rfl, hf⟩)⟩
        rw [firstLike] at hf
        rw [hf]
        rfl
      | none =>
        rw [firstLike] at hf
        exact ⟨a, by simp [hf], rfl⟩
    intro a ha b hb hkey
    obtain ⟨x, hx, hxa⟩ := first_agrees a ha
    obtain ⟨y, hy, hyb⟩ := first_agrees b hb
    rw [hkey, hy] at hx
    rw [← hxa, ← hyb, Option.some.inj hx]
  · intro h pair hpair
    obtain ⟨before, after, rfl, hfirst⟩ := mem_repeats_iff.mp (show (pair.1, pair.2) ∈ _ from hpair)
    obtain ⟨hmem, hkey⟩ := firstLike_eq_some hfirst
    exact h pair.1 (by simp [hmem]) pair.2 (by simp) hkey

end Pinfile
