import Mathlib.Tactic

/-!
# Lookups in a radix tree

A tree of bounded depth is given by the children of its nodes.  When every node carries the path
that leads to it, changing the edge at one path changes only the lookups that run over that edge.
-/

namespace RadixTree

variable {Node : Type*}

/-- Follow a path downwards. -/
def lookup (child : Node → Nat → Option Node) : Node → List Nat → Option Node
  | node, [] => some node
  | node, index :: path => (child node index).bind fun next => lookup child next path

@[simp] theorem lookup_nil (child : Node → Nat → Option Node) (node : Node) :
    lookup child node [] = some node := rfl

theorem lookup_cons (child : Node → Nat → Option Node) (node : Node) (index : Nat)
    (path : List Nat) :
    lookup child node (index :: path) =
      (child node index).bind fun next => lookup child next path := rfl

theorem lookup_append (child : Node → Nat → Option Node) (node : Node) (front back : List Nat) :
    lookup child node (front ++ back) =
      (lookup child node front).bind fun next => lookup child next back := by
  induction front generalizing node with
  | nil => rfl
  | cons index front ih =>
      rw [List.cons_append, lookup_cons, lookup_cons]
      cases child node index with
      | none => rfl
      | some next => exact ih next

/-- Every node above the leaves hands its own path down to its children. -/
structure Placed (child : Node → Nat → Option Node) (depth : Nat)
    (place : Node → List Nat → Prop) : Prop where
  down : ∀ {node next : Node} {path : List Nat} {index : Nat}, place node path →
    path.length < depth → child node index = some next → place next (path ++ [index])

section Lookup

variable {child : Node → Nat → Option Node} {depth : Nat} {place : Node → List Nat → Prop}

theorem Placed.lookup (placed : Placed child depth place) {node found : Node}
    {path rest : List Nat} (start : place node path) (fits : (path ++ rest).length ≤ depth)
    (run : RadixTree.lookup child node rest = some found) : place found (path ++ rest) := by
  induction rest generalizing node path with
  | nil =>
      obtain rfl := Option.some.inj run
      rw [List.append_nil]
      exact start
  | cons index rest ih =>
      rw [lookup_cons] at run
      obtain ⟨next, step, run⟩ := Option.bind_eq_some_iff.mp run
      have inner : path.length < depth := by
        rw [List.length_append, List.length_cons] at fits
        omega
      have below := placed.down start inner step
      rw [List.append_cons] at fits ⊢
      exact ih below fits run

/-- Two trees with the same edges along a path agree on the lookup of that path. -/
theorem Placed.lookup_congr (placed : Placed child depth place)
    {changed : Node → Nat → Option Node} {goal : List Nat} (fits : goal.length ≤ depth)
    (same : ∀ {node : Node} {path : List Nat} {index : Nat}, place node path →
      path ++ [index] <+: goal → changed node index = child node index)
    {node : Node} {path rest : List Nat} (start : place node path)
    (whole : path ++ rest = goal) :
    RadixTree.lookup changed node rest = RadixTree.lookup child node rest := by
  induction rest generalizing node path with
  | nil => rfl
  | cons index rest ih =>
      rw [List.append_cons] at whole
      have inner : path.length < depth := by
        have total := congrArg List.length whole
        simp only [List.length_append, List.length_singleton] at total
        omega
      have here : path ++ [index] <+: goal := whole ▸ List.prefix_append _ _
      rw [lookup_cons, lookup_cons, same start here]
      cases step : child node index with
      | none => rfl
      | some next => exact ih (placed.down start inner step) whole

end Lookup

end RadixTree
