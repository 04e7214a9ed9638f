import Mathlib.Data.List.Forall2
import Pinfile.Proofs.Repeats

/-!
# Lists that are related element by element

What is done to two lists whose elements are related one by one gives results that are related, when
the test that is made of an element does not tell related elements apart. Looking for an element finds
related ones at the same position; related elements with one key are first and repeated together.

Two results `Agree` when both are values that are related, or both are errors that are related.
-/

namespace Pinfile

variable {α β γ δ ε ζ : Type} {R : α → β → Prop} {as : List α} {bs : List β}

/-! ## Results -/

/-- Both results are values that are related by `A`, or both are errors that are related by `E`. -/
inductive Agree (E : ε → ζ → Prop) (A : α → β → Prop) : Except ε α → Except ζ β → Prop
  | ok {a : α} {b : β} : A a b → Agree E A (.ok a) (.ok b)
  | error {e : ε} {f : ζ} : E e f → Agree E A (.error e) (.error f)

namespace Agree

variable {E : ε → ζ → Prop} {A : α → β → Prop} {B : γ → δ → Prop} {x : Except ε α} {y : Except ζ β}

theorem map {f : α → γ} {g : β → δ} (h : Agree E A x y) (hfg : ∀ a b, A a b → B (f a) (g b)) :
    Agree E B (x.map f) (y.map g) := by
  cases h with
  | ok h => exact .ok (hfg _ _ h)
  | error h => exact .error h

theorem bind {f : α → Except ε γ} {g : β → Except ζ δ} (h : Agree E A x y)
    (hfg : ∀ a b, A a b → Agree E B (f a) (g b)) : Agree E B (x >>= f) (y >>= g) := by
  cases h with
  | ok h => exact hfg _ _ h
  | error h => exact .error h

theorem imp {A' : α → β → Prop} (h : Agree E A x y) (himp : ∀ a b, A a b → A' a b) :
    Agree E A' x y := by
  cases h with
  | ok h => exact .ok (himp _ _ h)
  | error h => exact .error h

theorem rel_of_eq_ok {a : α} {b : β} (h : Agree E A x y) (hx : x = .ok a) (hy : y = .ok b) :
    A a b := by
  subst hx hy
  cases h with
  | ok h => exact h

/-- Results that are collected one after the other agree when each of them agrees. -/
theorem mapM {f : γ → Except ε α} {g : γ → Except ζ β} {cs : List γ}
    (h : ∀ c, Agree E A (f c) (g c)) : Agree E (List.Forall₂ A) (cs.mapM f) (cs.mapM g) := by
  induction cs with
  | nil => exact .ok .nil
  | cons c cs ih =>
    rw [List.mapM_cons, List.mapM_cons]
    exact (h c).bind fun a b hab => ih.bind fun as bs hrest => .ok (.cons hab hrest)

end Agree

/-- Optional elements that are related are both there or both absent. -/
theorem cases_of_rel {x : Option α} {y : Option β} (h : Option.Rel R x y) :
    x = none ∧ y = none ∨ ∃ a b, x = some a ∧ y = some b ∧ R a b := by
  cases h with
  | none => exact Or.inl ⟨rfl, rfl⟩
  | some hab => exact Or.inr ⟨_, _, rfl, rfl, hab⟩

/-! ## Tests and positions -/

variable {p : α → Bool} {q : β → Bool}

theorem any_of_forall₂ (h : List.Forall₂ R as bs) (hpq : ∀ a b, R a b → p a = q b) :
    as.any p = bs.any q := by
  induction h with
  | nil => rfl
  | cons hab _ ih => rw [List.any_cons, List.any_cons, hpq _ _ hab, ih]

theorem head?_of_forall₂ (h : List.Forall₂ R as bs) : Option.Rel R as.head? bs.head? := by
  cases h with
  | nil => exact .none
  | cons hab hrest => exact .some hab

theorem find?_of_forall₂ (h : List.Forall₂ R as bs) (hpq : ∀ a b, R a b → p a = q b) :
    Option.Rel R (as.find? p) (bs.find? q) := by
  induction h with
  | nil => exact .none
  | @cons a b _ _ hab _ ih =>
    rw [List.find?_cons, List.find?_cons, hpq a b hab]
    cases q b with
    | true => exact .some hab
    | false => exact ih

theorem findIdx?_of_forall₂ (h : List.Forall₂ R as bs) (hpq : ∀ a b, R a b → p a = q b) :
    as.findIdx? p = bs.findIdx? q := by
  induction h with
  | nil => rfl
  | cons hab _ ih => rw [List.findIdx?_cons, List.findIdx?_cons, hpq _ _ hab, ih]

theorem modify_of_forall₂ {f : α → α} {g : β → β} (h : List.Forall₂ R as bs) (i : Nat)
    (hfg : ∀ a b, R a b → R (f a) (g b)) : List.Forall₂ R (as.modify i f) (bs.modify i g) := by
  induction h generalizing i with
  | nil => cases i <;> exact .nil
  | cons hab hrest ih =>
    cases i with
    | zero => exact .cons (hfg _ _ hab) hrest
    | succ i => exact .cons hab (ih i)

theorem mapIdx_of_forall₂ {S : γ → δ → Prop} {f : Nat → α → γ} {g : Nat → β → δ}
    (h : List.Forall₂ R as bs) (hfg : ∀ i a b, R a b → S (f i a) (g i b)) :
    List.Forall₂ S (as.mapIdx f) (bs.mapIdx g) := by
  induction h generalizing f g with
  | nil => exact .nil
  | cons hab _ ih =>
    rw [List.mapIdx_cons, List.mapIdx_cons]
    exact .cons (hfg 0 _ _ hab) (ih fun i => hfg (i + 1))

/-- Sorting puts related elements at one position when the order does not tell them apart. -/
theorem mergeSort_of_forall₂ {le : α → α → Bool} {le' : β → β → Bool} (h : List.Forall₂ R as bs)
    (hle : ∀ a b a' b', R a b → R a' b' → le a a' = le' b b') :
    List.Forall₂ R (as.mergeSort le) (bs.mergeSort le') := by
  -- both lists are sorted by sorting the pairs of related elements
  obtain ⟨pairs, hpairs, rfl, rfl⟩ : ∃ pairs : List (α × β), (∀ x ∈ pairs, R x.1 x.2) ∧
      pairs.map Prod.fst = as ∧ pairs.map Prod.snd = bs := by
    refine ⟨as.zip bs, fun x hx => List.forall₂_zip h hx, ?_, ?_⟩
    · exact List.map_fst_zip (Nat.le_of_eq h.length_eq)
    · exact List.map_snd_zip (Nat.le_of_eq h.length_eq.symm)
  let pairLe : α × β → α × β → Bool := fun x y => le x.1 y.1
  have hfst : (pairs.mergeSort pairLe).map Prod.fst = (pairs.map Prod.fst).mergeSort le :=
    List.map_mergeSort fun _ _ _ _ => rfl
  have hsnd : (pairs.mergeSort pairLe).map Prod.snd = (pairs.map Prod.snd).mergeSort le' :=
    List.map_mergeSort fun x hx y hy => hle x.1 x.2 y.1 y.2 (hpairs x hx) (hpairs y hy)
  rw [← hfst, ← hsnd, List.forall₂_map_left_iff, List.forall₂_map_right_iff, List.forall₂_same]
  exact fun x hx => hpairs x (List.mem_mergeSort.mp hx)

/-! ## Firsts and repeats -/

variable {key : α → String} {key' : β → String}

theorem firstLike_of_forall₂ {a : α} {b : β} (h : List.Forall₂ R as bs)
    (hkey : ∀ a b, R a b → key a = key' b) (hab : R a b) :
    Option.Rel R (firstLike key as a) (firstLike key' bs b) :=
  find?_of_forall₂ h fun a' b' h' => by rw [hkey a' b' h', hkey a b hab]

theorem firsts_of_forall₂ (h : List.Forall₂ R as bs) (hkey : ∀ a b, R a b → key a = key' b) :
    List.Forall₂ R (firsts key as) (firsts key' bs) := by
  suffices hafter : ∀ met met', List.Forall₂ R met met' →
      List.Forall₂ R (firstsAfter key met as) (firstsAfter key' met' bs) from hafter [] [] .nil
  induction h with
  | nil => exact fun _ _ _ => .nil
  | @cons a b _ _ hab _ ih =>
    intro met met' hmet
    rw [firstsAfter, firstsAfter]
    rcases cases_of_rel (firstLike_of_forall₂ hmet hkey hab) with ⟨ha, hb⟩ | ⟨x, y, ha, hb, -⟩
    · rw [ha, hb]
      exact .cons hab (ih _ _ (List.rel_append hmet (.cons hab .nil)))
    · rw [ha, hb]
      exact ih met met' hmet

theorem repeats_of_forall₂ (h : List.Forall₂ R as bs) (hkey : ∀ a b, R a b → key a = key' b) :
    List.Forall₂ (fun x y => R x.1 y.1 ∧ R x.2 y.2) (repeats key as) (repeats key' bs) := by
  suffices hafter : ∀ met met', List.Forall₂ R met met' →
      List.Forall₂ (fun x y => R x.1 y.1 ∧ R x.2 y.2) (repeatsAfter key met as)
        (repeatsAfter key' met' bs) from hafter [] [] .nil
  induction h with
  | nil => exact fun _ _ _ => .nil
  | @cons a b _ _ hab _ ih =>
    intro met met' hmet
    rw [repeatsAfter, repeatsAfter]
    rcases cases_of_rel (firstLike_of_forall₂ hmet hkey hab) with ⟨ha, hb⟩ | ⟨x, y, ha, hb, hxy⟩
    · rw [ha, hb]
      exact ih _ _ (List.rel_append hmet (.cons hab .nil))
    · rw [ha, hb]
      exact .cons ⟨hxy, hab⟩ (ih met met' hmet)

/-- Finding repeats does not depend on what is done to the elements, as long as the keys stay. -/
theorem repeats_map (f : β → α) (bs : List β) :
    repeats key (bs.map f) = (repeats (key ∘ f) bs).map fun pair => (f pair.1, f pair.2) := by
  have h : List.Forall₂ (fun a b => a = f b) (bs.map f) bs := by
    rw [List.forall₂_map_left_iff, List.forall₂_same]
    exact fun _ _ => rfl
  have hkey : ∀ a b, a = f b → key a = (key ∘ f) b := fun _ _ hab => congrArg key hab
  have hrepeats := repeats_of_forall₂ h hkey
  rw [← List.forall₂_eq_eq_eq, List.forall₂_map_right_iff]
  exact hrepeats.imp fun _ _ hpair => Prod.ext hpair.1 hpair.2

end Pinfile
