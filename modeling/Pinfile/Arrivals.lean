/-!
# Arrivals

Pieces of work that do not depend on each other may be done in any order. An *arrival* is the result
of one of them, with its position in the order in which they were asked for. Every piece has a place
that its result fills; `gather` gives the results by their places, or the first failure to arrive.
-/

namespace Pinfile

/-- The result of the piece of work at a position. -/
structure Arrival (ε α : Type) where
  position : Nat
  result : Except ε α

namespace Arrival

variable {ε α : Type}

/-- Results that arrive in the order of their positions, from the given position on. -/
def inOrderFrom (first : Nat) : List (Except ε α) → List (Arrival ε α)
  | [] => []
  | result :: rest => ⟨first, result⟩ :: inOrderFrom (first + 1) rest

/-- Results that arrive in the order of their positions. -/
def inOrder (results : List (Except ε α)) : List (Arrival ε α) := inOrderFrom 0 results

/-- Fills the place of an arrival. -/
def fill (places : List (Option α)) (a : Arrival ε α) : Except ε (List (Option α)) :=
  a.result.map fun value => places.set a.position (some value)

/-- The results by their places, when work was asked for so many times, or the first failure to
arrive. -/
def gather (count : Nat) (arrivals : List (Arrival ε α)) : Except ε (List α) :=
  (arrivals.foldlM fill (List.replicate count none)).map fun places => places.filterMap id

/-- A result that arrives fills its place. -/
theorem fill_ok (places : List (Option α)) (i : Nat) (value : α) :
    fill places (⟨i, .ok value⟩ : Arrival ε α) = .ok (places.set i (some value)) := rfl

example : (gather 2 [⟨1, .ok "b"⟩, ⟨0, .ok "a"⟩] : Except Nat (List String)).toOption =
    some ["a", "b"] := by decide

end Arrival
end Pinfile
