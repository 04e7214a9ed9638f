/-!
# First and repeated elements by key

The elements of a list that share a key are one thing that is named several times. `firsts` keeps
the first element of every key; `repeats` lists the others, each with the first element of its key.
Both walk the list once and carry the elements met so far.

The main statements are that the firsts are without repetition (`firsts_pairwise`) and that no key
is lost (`exists_mem_firsts`).
-/

namespace Pinfile

variable {α : Type} (key : α → String)

/-- The first element met with the same key as `a`. -/
def firstLike (met : List α) (a : α) : Option α := met.find? fun b => key b == key a

/-- The elements that repeat the key of no element met before them. -/
def firstsAfter (met : List α) : List α → List α
  | [] => []
  | a :: rest =>
    match firstLike key met a with
    | some _ => firstsAfter met rest
    | none => a :: firstsAfter (met ++ [a]) rest

/-- The elements that repeat the key of an element met before them, each after the first element of
that key. -/
def repeatsAfter (met : List α) : List α → List (α × α)
  | [] => []
  | a :: rest =>
    match firstLike key met a with
    | some first => (first, a) :: repeatsAfter met rest
    | none => repeatsAfter (met ++ [a]) rest

/-- The first element of every key. -/
def firsts (as : List α) : List α := firstsAfter key [] as

/-- The elements that are not the first of their key, each after the first of its key. -/
def repeats (as : List α) : List (α × α) := repeatsAfter key [] as

variable {key}

theorem firstLike_eq_none_iff {met : List α} {a : α} :
    firstLike key met a = none ↔ ∀ b ∈ met, key b ≠ key a := by
  simp [firstLike, List.find?_eq_none]

/-- The element found stands among those met and has the wanted key. -/
theorem firstLike_eq_some {met : List α} {a b : α} (h : firstLike key met a = some b) :
    b ∈ met ∧ key b = key a :=
  ⟨List.mem_of_find?_eq_some h, by simpa using List.find?_some h⟩

theorem mem_of_mem_firstsAfter {met as : List α} {a : α} (h : a ∈ firstsAfter key met as) :
    a ∈ as := by
  induction as generalizing met with
  | nil => simp [firstsAfter] at h
  | cons x rest ih =>
    unfold firstsAfter at h
    split at h
    · exact List.mem_cons_of_mem _ (ih h)
    · rcases List.mem_cons.mp h with rfl | h
      · simp
      · exact List.mem_cons_of_mem _ (ih h)

/-- A first repeats nothing that was met before the list. -/
theorem key_ne_of_mem_firstsAfter {met as : List α} {a : α} (h : a ∈ firstsAfter key met as) :
    ∀ b ∈ met, key b ≠ key a := by
  induction as generalizing met with
  | nil => simp [firstsAfter] at h
  | cons x rest ih =>
    unfold firstsAfter at h
    split at h
    · exact ih h
    · next hx =>
      rcases List.mem_cons.mp h with rfl | h
      · exact firstLike_eq_none_iff.mp hx
      · exact fun b hb => ih h b (by simp [hb])

theorem firstsAfter_pairwise (met as : List α) :
    (firstsAfter key met as).Pairwise fun a b => key a ≠ key b := by
  induction as generalizing met with
  | nil => simp [firstsAfter]
  | cons x rest ih =>
    unfold firstsAfter
    split
    · exact ih met
    · exact List.pairwise_cons.mpr
        ⟨fun b hb => key_ne_of_mem_firstsAfter hb x (by simp), ih _⟩

/-- The firsts have pairwise different keys. -/
theorem firsts_pairwise (as : List α) : (firsts key as).Pairwise fun a b => key a ≠ key b :=
  firstsAfter_pairwise [] as

theorem exists_mem_firstsAfter (met : List α) {as : List α} {a : α} (h : a ∈ as) :
    ∃ b, (b ∈ met ∨ b ∈ firstsAfter key met as) ∧ key b = key a := by
  induction as generalizing met with
  | nil => simp at h
  | cons x rest ih =>
    unfold firstsAfter
    rcases List.mem_cons.mp h with rfl | h
    · split
      · next first hf =>
        exact ⟨first, Or.inl (firstLike_eq_some hf).1, (firstLike_eq_some hf).2⟩
      · exact ⟨a, by simp, rfl⟩
    · split
      · exact ih met h
      · obtain ⟨b, hb, hk⟩ := ih (met ++ [x]) h
        refine ⟨b, ?_, hk⟩
        simp only [List.mem_append, List.mem_singleton] at hb
        rcases hb with (hb | rfl) | hb <;> simp [*]

/-- Every key of the list is the key of a first. -/
theorem exists_mem_firsts {as : List α} {a : α} (h : a ∈ as) :
    ∃ b ∈ firsts key as, key b = key a := by
  obtain ⟨b, hb, hk⟩ := exists_mem_firstsAfter [] h
  exact ⟨b, hb.resolve_left (by simp), hk⟩

example : firsts id ["a", "b", "a"] = ["a", "b"] ∧ repeats id ["a", "b", "a"] = [("a", "a")] := by
  decide

end Pinfile
