import Mathlib.Tactic

/-!
# The first index that satisfies a predicate

A linear scan over the indices `start, start + 1, …` with a bounded number of tests.  Table scans
of a program are instances of it, so that two scans can be compared through their predicates.
-/

namespace PellOs

/-- The least of the `remaining` indices from `index` on that satisfies the predicate. -/
def firstIndex (accepts : Nat → Prop) [DecidablePred accepts] : Nat → Nat → Option Nat
  | 0, _ => none
  | remaining + 1, index =>
      if accepts index then some index else firstIndex accepts remaining (index + 1)

section FirstIndex

variable {accepts : Nat → Prop} [DecidablePred accepts]

/-- The scan finds an index exactly when it is the first one accepted. -/
theorem firstIndex_eq_some_iff {remaining start found : Nat} :
    firstIndex accepts remaining start = some found ↔
      start ≤ found ∧ found < start + remaining ∧ accepts found ∧
        ∀ earlier, start ≤ earlier → earlier < found → ¬accepts earlier := by
  induction remaining generalizing start with
  | zero =>
      rw [firstIndex]
      constructor
      · intro impossible
        cases impossible
      · rintro ⟨lower, upper, -⟩
        omega
  | succ remaining ih =>
      rw [firstIndex]
      split_ifs with here
      · rw [Option.some.injEq]
        constructor
        · rintro rfl
          exact ⟨Nat.le_refl _, by omega, here, fun _ lower upper => absurd upper (by omega)⟩
        · rintro ⟨lower, _, _, before⟩
          by_contra differ
          exact before start (Nat.le_refl _) (by omega) here
      · rw [ih]
        constructor
        · rintro ⟨lower, upper, found_ok, before⟩
          refine ⟨by omega, by omega, found_ok, fun earlier low high => ?_⟩
          rcases Nat.eq_or_lt_of_le low with rfl | later
          · exact here
          · exact before earlier later high
        · rintro ⟨lower, upper, found_ok, before⟩
          have later : start + 1 ≤ found := by
            rcases Nat.eq_or_lt_of_le lower with rfl | later
            · exact absurd found_ok here
            · exact later
          exact ⟨later, by omega, found_ok,
            fun earlier low high => before earlier (by omega) high⟩

/-- The scan finds nothing exactly when every index it tests is refused. -/
theorem firstIndex_eq_none_iff {remaining start : Nat} :
    firstIndex accepts remaining start = none ↔
      ∀ index, start ≤ index → index < start + remaining → ¬accepts index := by
  induction remaining generalizing start with
  | zero => exact ⟨fun _ index lower upper => absurd upper (by omega), fun _ => rfl⟩
  | succ remaining ih =>
      rw [firstIndex]
      split_ifs with here
      · constructor
        · intro impossible
          cases impossible
        · intro refused
          exact absurd here (refused start (Nat.le_refl _) (by omega))
      · rw [ih]
        constructor
        · intro refused index low high
          rcases Nat.eq_or_lt_of_le low with rfl | later
          · exact here
          · exact refused index later (by omega)
        · intro refused index low high
          exact refused index (by omega) (by omega)

theorem firstIndex_congr {other : Nat → Prop} [DecidablePred other] {remaining start : Nat}
    (same : ∀ index, start ≤ index → index < start + remaining → (accepts index ↔ other index)) :
    firstIndex accepts remaining start = firstIndex other remaining start := by
  induction remaining generalizing start with
  | zero => rfl
  | succ remaining ih =>
      rw [firstIndex, firstIndex, ih fun index low high => same index (by omega) (by omega)]
      exact if_congr (same start (Nat.le_refl _) (by omega)) rfl rfl

end FirstIndex

end PellOs
