import Mathlib.Data.List.Basic

/-!
# Results that may be errors

When a computation that goes on from others ends with a result. One over a list has all of the results,
or the first of the errors.
-/

namespace Pinfile

variable {ε α β : Type}

/-- What goes on from a result has a result where there was one. -/
theorem map_eq_ok_iff {f : α → β} {r : Except ε α} {b : β} :
    r.map f = .ok b ↔ ∃ a, r = .ok a ∧ f a = b := by
  cases r <;> simp [Except.map]

section Errors

variable {φ : Type} {g : ε → φ} {r r' : Except ε α}

/-- A change of the errors leaves the results. -/
theorem mapError_eq_ok_iff {a : α} : r.mapError g = .ok a ↔ r = .ok a := by
  cases r <;> simp [Except.mapError]

/-- What is the same but for a change of the errors is two errors or the same result. -/
theorem mapError_eq_mapError_cases (h : r'.mapError g = r.mapError g) :
    (∃ e e', r = .error e ∧ r' = .error e' ∧ g e' = g e) ∨ ∃ a, r = .ok a ∧ r' = .ok a := by
  cases r with
  | ok a => exact Or.inr ⟨a, rfl, mapError_eq_ok_iff.mp h⟩
  | error e =>
    cases r' with
    | error e' => exact Or.inl ⟨e, e', rfl, rfl, Except.error.inj h⟩
    | ok a => cases h

end Errors

variable {f : α → Except ε β} {as : List α}

/-- Two computations in a row have a result where both have one. -/
theorem bind_eq_ok_iff {r : Except ε α} {b : β} : r >>= f = .ok b ↔ ∃ a, r = .ok a ∧ f a = .ok b := by
  cases r <;> simp [bind, Except.bind]

/-- All of the results are there exactly when each of them is. -/
theorem mapM_eq_ok_iff {bs : List β} : as.mapM f = .ok bs ↔ as.map f = bs.map .ok := by
  induction as generalizing bs with
  | nil => cases bs <;> simp [pure, Except.pure]
  | cons a as ih =>
    rw [List.mapM_cons, List.map_cons]
    cases ha : f a with
    | error e => cases bs <;> simp [bind, Except.bind]
    | ok b =>
      cases has : as.mapM f with
      | error e =>
        have hnone : ∀ bs : List β, as.map f ≠ bs.map .ok := by
          intro bs hbs
          rw [ih.mpr hbs] at has
          cases has
        cases bs <;> simp [bind, Except.bind, hnone]
      | ok rest =>
        have hrest : as.map f = rest.map .ok := ih.mp has
        cases bs <;> simp [bind, Except.bind, pure, Except.pure, hrest,
          List.map_inj_right fun _ _ => Except.ok.inj]

theorem exists_mapM_eq_ok_iff : (∃ bs, as.mapM f = .ok bs) ↔ ∀ a ∈ as, ∃ b, f a = .ok b := by
  simp only [mapM_eq_ok_iff]
  constructor
  · rintro ⟨bs, hbs⟩ a ha
    have hmem : f a ∈ bs.map .ok := hbs ▸ List.mem_map_of_mem ha
    obtain ⟨b, -, hb⟩ := List.mem_map.mp hmem
    exact ⟨b, hb.symm⟩
  · intro h
    induction as with
    | nil => exact ⟨[], rfl⟩
    | cons a as ih =>
      obtain ⟨b, hb⟩ := h a (by simp)
      obtain ⟨bs, hbs⟩ := ih fun a ha => h a (by simp [ha])
      exact ⟨b :: bs, by rw [List.map_cons, List.map_cons, hb, hbs]⟩

/-- The first error is the error of the whole. -/
theorem mapM_eq_error {a : α} {e : ε} {rest : List α} (has : ∀ a ∈ as, ∃ b, f a = .ok b)
    (ha : f a = .error e) : (as ++ a :: rest).mapM f = .error e := by
  obtain ⟨bs, hbs⟩ := exists_mapM_eq_ok_iff.mpr has
  rw [List.mapM_append, List.mapM_cons, hbs, ha]
  rfl

end Pinfile
