import Mathlib.Data.List.Basic
import Pinfile.Arrivals
import Pinfile.Proofs.Results

/-!
# Arrivals in any order

Results arrive in whatever order the work is done. As long as none is a failure, the places hold
those that have arrived and nothing else (`Filled`): this is so at the start, each arrival keeps it
(`Filled.fill`), and so all of them do (`Filled.foldlM`). Once everything has arrived no place is left
empty, and so the results are gathered in the order in which they were asked for
(`gather_eq_ok_iff`). Otherwise the first failure to arrive is the outcome (`gather_eq_error_iff`).
Where there is one failure only, the outcome is the same in every order (`gather_eq_gather_inOrder`).
-/

namespace Pinfile.Arrival

variable {ε α : Type} {results : List (Except ε α)} {a : Arrival ε α}
  {arrivals seen rest : List (Arrival ε α)} {places filled : List (Option α)} {e : ε}

theorem inOrderFrom_eq_map (first : Nat) (results : List (Except ε α)) :
    inOrderFrom first results = (results.zipIdx first).map fun r => ⟨r.2, r.1⟩ := by
  induction results generalizing first with
  | nil => rfl
  | cons result rest ih => rw [inOrderFrom, ih, List.zipIdx_cons, List.map_cons]

/-- What arrives is a result at its position. -/
theorem mem_inOrder_iff : a ∈ inOrder results ↔ results[a.position]? = some a.result := by
  rw [inOrder, inOrderFrom_eq_map, List.mem_map]
  constructor
  · rintro ⟨r, hr, rfl⟩
    exact List.mem_zipIdx_iff_getElem?.mp hr
  · intro h
    exact ⟨(a.result, a.position), List.mem_zipIdx_iff_getElem?.mpr h, rfl⟩

/-! ## What the places hold -/

/-- The places, as many as there are results, hold the results that have arrived and nothing else. -/
structure Filled (results : List (Except ε α)) (seen : List (Arrival ε α))
    (places : List (Option α)) : Prop where
  length : places.length = results.length
  asked : ∀ a ∈ seen, a ∈ inOrder results
  holds : ∀ i value, places[i]? = some (some value) ↔ ⟨i, .ok value⟩ ∈ seen

namespace Filled

theorem start (results : List (Except ε α)) :
    Filled results [] (List.replicate results.length none) where
  length := List.length_replicate
  asked _ h := absurd h List.not_mem_nil
  holds i value := by simp [List.getElem?_replicate]

/-- The next arrival fills its place, and no other. -/
theorem fill (h : Filled results seen places) (ha : a ∈ inOrder results)
    (hfill : fill places a = .ok filled) : Filled results (seen ++ [a]) filled := by
  obtain ⟨position, result⟩ := a
  obtain ⟨value, rfl, rfl⟩ := map_eq_ok_iff.mp hfill
  have hat : results[position]? = some (.ok value) := mem_inOrder_iff.mp ha
  obtain ⟨hlt, -⟩ := List.getElem?_eq_some_iff.mp hat
  rw [← h.length] at hlt
  refine ⟨by rw [List.length_set, h.length], ?_, fun i v => ?_⟩
  · exact List.forall_mem_append.mpr ⟨h.asked, List.forall_mem_singleton.mpr ha⟩
  rw [List.mem_append, List.mem_singleton]
  by_cases hi : position = i
  · subst hi
    rw [List.getElem?_set_self hlt]
    constructor
    · intro heq
      exact Or.inr (by rw [Option.some.inj (Option.some.inj heq)])
    · -- whatever has arrived with this position is the result at it
      rintro (hseen | heq)
      · have hsame := mem_inOrder_iff.mp (h.asked _ hseen)
        rw [hat] at hsame
        rw [Except.ok.inj (Option.some.inj hsame)]
      · cases heq
        rfl
  · rw [List.getElem?_set_ne hi, h.holds]
    exact (or_iff_left fun heq => hi (congrArg Arrival.position heq).symm).symm

/-- After all arrivals, the places hold all that has arrived. -/
theorem foldlM (h : Filled results seen places) (hrest : ∀ a ∈ rest, a ∈ inOrder results)
    (hfill : rest.foldlM Arrival.fill places = .ok filled) : Filled results (seen ++ rest) filled := by
  induction rest generalizing seen places with
  | nil =>
    cases hfill
    rwa [List.append_nil]
  | cons a rest ih =>
    rw [List.foldlM_cons, bind_eq_ok_iff] at hfill
    obtain ⟨next, hnext, hfill⟩ := hfill
    rw [List.forall_mem_cons] at hrest
    have hall := ih (h.fill hrest.1 hnext) hrest.2 hfill
    rwa [List.append_assoc] at hall

/-- When everything has arrived and nothing has failed, all places are filled. -/
theorem eq_map_some {values : List α} (h : Filled (values.map .ok) seen places)
    (hall : ∀ a ∈ inOrder (values.map fun value => (.ok value : Except ε α)), a ∈ seen) :
    places = values.map some := by
  have hlength : places.length = values.length := h.length.trans (List.length_map _)
  refine List.ext_getElem (by rw [hlength, List.length_map]) fun i hi hi' => ?_
  rw [List.getElem_map]
  have hplace := (h.holds i values[i]).mpr (hall _ (mem_inOrder_iff.mpr (by simp)))
  rw [List.getElem?_eq_getElem hi] at hplace
  exact Option.some.inj hplace

end Filled

/-! ## The outcome -/

/-- All places can be filled when nothing fails. -/
theorem exists_foldlM_fill_iff :
    (∃ filled, arrivals.foldlM fill places = .ok filled) ↔
      ∀ a ∈ arrivals, ∃ value, a.result = .ok value := by
  induction arrivals generalizing places with
  | nil => simp [pure, Except.pure]
  | cons a rest ih =>
    obtain ⟨position, result⟩ := a
    rw [List.foldlM_cons, List.forall_mem_cons]
    cases result with
    | error e => simp [fill, Except.map, bind, Except.bind]
    | ok value =>
      rw [fill_ok]
      exact ih.trans (iff_and_self.mpr fun _ => ⟨value, rfl⟩)

/-- The places are not filled when something fails, and the first failure to arrive is the
outcome. -/
theorem foldlM_fill_eq_error_iff :
    arrivals.foldlM fill places = .error e ↔
      ∃ before i after, arrivals = before ++ ⟨i, .error e⟩ :: after ∧
        ∀ a ∈ before, ∃ value, a.result = .ok value := by
  induction arrivals generalizing places with
  | nil => simp [pure, Except.pure]
  | cons a rest ih =>
    obtain ⟨position, result⟩ := a
    rw [List.foldlM_cons]
    cases result with
    | error e' =>
      constructor
      · intro h
        obtain rfl : e' = e := Except.error.inj h
        exact ⟨[], position, rest, rfl, by simp⟩
      · rintro ⟨before, i, after, hsplit, hbefore⟩
        cases before with
        | nil =>
          cases hsplit
          rfl
        | cons b before =>
          obtain ⟨rfl, -⟩ := List.cons.inj hsplit
          obtain ⟨value, hvalue⟩ := hbefore _ List.mem_cons_self
          cases hvalue
    | ok value =>
      rw [fill_ok]
      refine ih.trans ⟨?_, ?_⟩
      · rintro ⟨before, i, after, rfl, hbefore⟩
        exact ⟨_ :: before, i, after, rfl, List.forall_mem_cons.mpr ⟨⟨value, rfl⟩, hbefore⟩⟩
      · rintro ⟨before, i, after, hsplit, hbefore⟩
        cases before with
        | nil => cases hsplit
        | cons b before =>
          exact ⟨before, i, after, (List.cons.inj hsplit).2, (List.forall_mem_cons.mp hbefore).2⟩

/-- Gathering fails with the first failure to arrive. -/
theorem gather_eq_error_iff {count : Nat} :
    gather count arrivals = .error e ↔
      ∃ before i after, arrivals = before ++ ⟨i, .error e⟩ :: after ∧
        ∀ a ∈ before, ∃ value, a.result = .ok value := by
  rw [gather, ← foldlM_fill_eq_error_iff]
  cases arrivals.foldlM fill (List.replicate count none) <;> simp [Except.map]

section AnyOrder

variable {values : List α} (h : ∀ a, a ∈ arrivals ↔ a ∈ inOrder results)

include h

/-- Nothing that arrives is a failure exactly when no result is one. -/
theorem forall_arrivals_ok_iff :
    (∀ a ∈ arrivals, ∃ value, a.result = .ok value) ↔ ∃ values : List α, results = values.map .ok := by
  have hresults : (∃ values : List α, results.mapM (fun r => r) = .ok values) ↔
      ∀ r ∈ results, ∃ value, r = .ok value := exists_mapM_eq_ok_iff
  simp only [mapM_eq_ok_iff, List.map_id'] at hresults
  rw [hresults]
  constructor
  · intro hok r hr
    obtain ⟨i, hi⟩ := List.mem_iff_getElem?.mp hr
    exact hok ⟨i, r⟩ ((h _).mpr (mem_inOrder_iff.mpr hi))
  · intro hok a ha
    exact hok a.result (List.mem_of_getElem? (mem_inOrder_iff.mp ((h a).mp ha)))

/-- Whatever the order in which they arrive, results are gathered as they were asked for exactly when
none of them is a failure. -/
theorem gather_eq_ok_iff : gather results.length arrivals = .ok values ↔ results = values.map .ok := by
  have hgather : ∀ values : List α, results = values.map .ok →
      gather results.length arrivals = .ok values := by
    rintro values rfl
    obtain ⟨filled, hfilled⟩ := exists_foldlM_fill_iff.mpr ((forall_arrivals_ok_iff h).mpr ⟨values, rfl⟩)
    have hall := (Filled.start _).foldlM (fun a => (h a).mp) hfilled
    rw [gather, hfilled, hall.eq_map_some fun a ha => (h a).mpr ha]
    simp [Except.map]
  refine ⟨fun hok => ?_, hgather values⟩
  obtain ⟨filled, hfilled, -⟩ := map_eq_ok_iff.mp hok
  obtain ⟨values', hvalues'⟩ :=
    (forall_arrivals_ok_iff h).mp (exists_foldlM_fill_iff.mp ⟨filled, hfilled⟩)
  rw [hgather values' hvalues'] at hok
  rw [hvalues', Except.ok.inj hok]

/-- Gathering fails with one of the failures. -/
theorem mem_of_gather_eq_error (herror : gather results.length arrivals = .error e) :
    .error e ∈ results := by
  obtain ⟨before, i, after, rfl, -⟩ := gather_eq_error_iff.mp herror
  have hmem := (h ⟨i, .error e⟩).mp (by simp)
  exact List.mem_of_getElem? (mem_inOrder_iff.mp hmem)

end AnyOrder

/-- Results in order are gathered exactly when none of them is a failure. -/
theorem gather_inOrder_eq_ok_iff {values : List α} :
    gather results.length (inOrder results) = .ok values ↔ results = values.map .ok :=
  gather_eq_ok_iff fun _ => Iff.rfl

/-! ## One failure -/

/-- Two failures are the same where there is one at most. -/
theorem error_unique (hone : results.countP (!·.isOk) ≤ 1) {e' : ε} (he : .error e ∈ results)
    (he' : .error e' ∈ results) : e' = e := by
  obtain ⟨before, after, rfl⟩ := List.append_of_mem he
  have hperm : (before ++ .error e :: after).Perm (.error e :: (before ++ after)) :=
    List.perm_middle
  have hothers : (before ++ after).countP (!·.isOk) = 0 := by
    rw [hperm.countP_eq, List.countP_cons_of_pos rfl] at hone
    omega
  rw [hperm.mem_iff, List.mem_cons] at he'
  rcases he' with heq | hmem
  · exact Except.error.inj heq
  · exact absurd rfl (List.countP_eq_zero.mp hothers _ hmem)

/-- Where there is one failure, it is the outcome in every order. -/
theorem gather_of_failure (h : ∀ a, a ∈ arrivals ↔ a ∈ inOrder results)
    (hone : results.countP (!·.isOk) ≤ 1) (he : .error e ∈ results) :
    gather results.length arrivals = .error e := by
  cases hgather : gather results.length arrivals with
  | error e' => rw [error_unique hone he (mem_of_gather_eq_error h hgather)]
  | ok values =>
    rw [(gather_eq_ok_iff h).mp hgather] at he
    obtain ⟨value, -, hvalue⟩ := List.mem_map.mp he
    cases hvalue

/-- Where there is one failure at most, the order of the arrivals does not matter. -/
theorem gather_eq_gather_inOrder (h : ∀ a, a ∈ arrivals ↔ a ∈ inOrder results)
    (hone : results.countP (!·.isOk) ≤ 1) :
    gather results.length arrivals = gather results.length (inOrder results) := by
  cases hgather : gather results.length (inOrder results) with
  | error e => exact gather_of_failure h hone (mem_of_gather_eq_error (fun _ => Iff.rfl) hgather)
  | ok values => exact (gather_eq_ok_iff h).mpr (gather_inOrder_eq_ok_iff.mp hgather)

end Pinfile.Arrival
