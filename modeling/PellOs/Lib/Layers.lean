import Mathlib.Tactic

/-!
# Stacks in layers

Every element of a stack has a layer.  An element stands above elements of lower layers only, save
that those of the topmost layer may be stacked on each other.  Below that layer each one is
therefore unique, and what lies under an element is known from its layer.
-/

namespace PellOs

variable {α : Type*}

/-- `upper` may stand somewhere above `lower`. -/
def Above (layer : α → Nat) (top : Nat) (upper lower : α) : Prop :=
  layer lower < layer upper ∨ layer lower = top ∧ layer upper = top

/-- A stack, topmost element first, whose elements stand above lower layers. -/
def Layered (layer : α → Nat) (top : Nat) (stack : List α) : Prop :=
  stack.Pairwise (Above layer top)

namespace Layered

variable {layer : α → Nat} {top : Nat} {stack : List α} {element : α}

theorem singleton (element : α) : Layered layer top [element] := List.pairwise_singleton _ _

theorem tail (layered : Layered layer top (element :: stack)) : Layered layer top stack :=
  (List.pairwise_cons.mp layered).2

/-- What lies under an element of a lower layer has a still lower one. -/
theorem below (layered : Layered layer top (element :: stack)) (low : layer element < top)
    {other : α} (member : other ∈ stack) : layer other < layer element := by
  rcases (List.pairwise_cons.mp layered).1 other member with below | ⟨_, same⟩
  · exact below
  · omega

/-- The topmost element may be replaced by elements of the same layer or higher ones. -/
theorem replace (layered : Layered layer top (element :: stack)) {elements : List α}
    (new : Layered layer top elements) (high : ∀ other ∈ elements, layer element ≤ layer other)
    (bound : ∀ other ∈ elements, layer other ≤ top) : Layered layer top (elements ++ stack) := by
  obtain ⟨above, rest⟩ := List.pairwise_cons.mp layered
  refine List.pairwise_append.mpr ⟨new, rest, fun upper upper_mem lower lower_mem => ?_⟩
  have climb := high upper upper_mem
  have limit := bound upper upper_mem
  rcases above lower lower_mem with below | ⟨low, same⟩
  · exact Or.inl (by omega)
  · exact Or.inr ⟨low, by omega⟩

theorem push (layered : Layered layer top stack) (high : layer element = top)
    (bound : ∀ other ∈ stack, layer other ≤ top) : Layered layer top (element :: stack) := by
  refine List.pairwise_cons.mpr ⟨fun lower member => ?_, layered⟩
  rcases Nat.lt_or_eq_of_le (bound lower member) with below | same
  · exact Or.inl (by omega)
  · exact Or.inr ⟨same, high⟩

theorem unique (layered : Layered layer top stack) {left right : α} (left_mem : left ∈ stack)
    (right_mem : right ∈ stack) (same : layer left = layer right) (low : layer left < top) :
    left = right := by
  induction stack with
  | nil => cases left_mem
  | cons element stack ih =>
      have under {other : α} (member : other ∈ stack) (low : layer element < top) :
          layer other ≠ layer element := ne_of_lt (layered.below low member)
      rcases List.mem_cons.mp left_mem with rfl | left_rest
      · rcases List.mem_cons.mp right_mem with rfl | right_rest
        · rfl
        · exact absurd same.symm (under right_rest low)
      · rcases List.mem_cons.mp right_mem with rfl | right_rest
        · exact absurd same (under left_rest (same ▸ low))
        · exact ih layered.tail left_rest right_rest

end Layered

end PellOs
