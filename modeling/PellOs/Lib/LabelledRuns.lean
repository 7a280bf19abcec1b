import Mathlib.Logic.Relation

/-!
# Runs with labels

A system whose steps carry labels is followed by a function of the labels when one step is: the
state that the function computes from the labels of a run is the one that the run has come to.  A
label that every step pays for from a potential occurs no more often than the potential allows.
-/

namespace LabelledRuns

variable {Label State Abstract : Type*} {step : Label → State → State → Prop}
  {apply : Abstract → Label → Abstract} {Follows : State → Abstract → Prop}
  {start middle final : State} {labels later : List Label}

/-- A run, with the labels of its steps in order. -/
inductive Run (step : Label → State → State → Prop) : List Label → State → State → Prop
  | refl (state : State) : Run step [] state state
  | tail {labels : List Label} {label : Label} {start middle final : State}
      (run : Run step labels start middle) (last : step label middle final) :
      Run step (labels ++ [label]) start final

theorem Run.single {label : Label} (only : step label start final) :
    Run step [label] start final :=
  (Run.refl start).tail only

theorem Run.append (first : Run step labels start middle) (second : Run step later middle final) :
    Run step (labels ++ later) start final := by
  induction second with
  | refl => rwa [List.append_nil]
  | tail _ last ih =>
      rw [← List.append_assoc]
      exact (ih first).tail last

theorem Run.reaches (run : Run step labels start final) :
    Relation.ReflTransGen (fun before after => ∃ label, step label before after) start final := by
  induction run with
  | refl => exact .refl
  | tail _ last ih => exact ih.tail ⟨_, last⟩

/-- The abstract state after a run is the one that its labels lead to. -/
theorem Run.follows (run : Run step labels start final)
    (one : ∀ {label before after abstract}, Follows before abstract → step label before after →
      Follows after (apply abstract label))
    {abstract : Abstract} (begun : Follows start abstract) :
    Follows final (labels.foldl apply abstract) := by
  induction run with
  | refl => exact begun
  | tail _ last ih =>
      rw [List.foldl_append]
      exact one (ih begun) last

/-- Each occurrence of a label lowers the potential, which no step raises. -/
theorem Run.count_le [BEq Label] {Invariant : State → Prop} {potential : State → Nat}
    {counted : Label} (run : Run step labels start final)
    (one : ∀ {label before after}, Invariant before → step label before after →
      Invariant after ∧ potential after + [label].count counted ≤ potential before)
    (begun : Invariant start) :
    Invariant final ∧ potential final + labels.count counted ≤ potential start := by
  induction run with
  | refl => exact ⟨begun, Nat.le_refl _⟩
  | tail _ last ih =>
      obtain ⟨kept, paid⟩ := ih begun
      obtain ⟨still, pays⟩ := one kept last
      refine ⟨still, ?_⟩
      rw [List.count_append]
      omega

end LabelledRuns
