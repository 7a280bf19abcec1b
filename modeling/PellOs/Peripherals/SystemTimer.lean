import Mathlib.Tactic

/-!
# Waiting on the system timer

`wait_time` compares the low word of a running count with a deadline that is reduced to 32 bits.
Both agree with the true times as long as every poll falls into the same period of the counter as
the deadline.
-/

namespace PellOs

/-- Values of the 32-bit counter. -/
def counterPeriod : Nat := 2 ^ 32

/-- `get_timer_val`: the low word of the count of microseconds. -/
def getTimerVal (count : Nat) : Nat := count % counterPeriod

/-- The loop of `wait_time` from a poll on, with the poll that ends it. -/
def waitLoop (counts : Nat → Nat) (deadline : Nat) : Nat → Nat → Option Nat
  | 0, _ => none
  | fuel + 1, poll =>
      if getTimerVal (counts poll) < deadline then waitLoop counts deadline fuel (poll + 1)
      else some poll

/-- `wait_time`, with the value it returns and the poll after which it returns.  Poll zero reads
the start time. -/
def waitTime (counts : Nat → Nat) (timeUs fuel : Nat) : Option (Nat × Nat) :=
  let startTime := getTimerVal (counts 0)
  (waitLoop counts ((startTime + timeUs) % counterPeriod) fuel 1).map fun poll => (timeUs, poll)

/-- `wait_time` returns after the poll. -/
def ReturnsAt (counts : Nat → Nat) (timeUs poll : Nat) : Prop :=
  ∃ fuel, waitTime counts timeUs fuel = some (timeUs, poll)

/-- No poll before this one finds that the time is up. -/
def Waiting (counts : Nat → Nat) (timeUs poll : Nat) : Prop :=
  ∀ earlier, 1 ≤ earlier → earlier < poll → counts earlier < counts 0 + timeUs

/-- The poll is the first that finds the time up. -/
def FirstElapsed (counts : Nat → Nat) (timeUs poll : Nat) : Prop :=
  1 ≤ poll ∧ counts 0 + timeUs ≤ counts poll ∧ Waiting counts timeUs poll

/-- `wait_time` returns at the first poll that finds the time up, and at no other. -/
def WaitsExactly (counts : Nat → Nat) (timeUs : Nat) : Prop :=
  ∀ poll, ReturnsAt counts timeUs poll ↔ FirstElapsed counts timeUs poll

section Wait

variable {counts : Nat → Nat} {deadline timeUs poll : Nat}

theorem waitLoop_eq_some_iff {fuel first : Nat} :
    waitLoop counts deadline fuel first = some poll ↔
      first ≤ poll ∧ poll < first + fuel ∧ deadline ≤ getTimerVal (counts poll) ∧
        ∀ earlier, first ≤ earlier → earlier < poll → getTimerVal (counts earlier) < deadline := by
  induction fuel generalizing first with
  | zero =>
      rw [waitLoop]
      constructor
      · intro never
        cases never
      · rintro ⟨lower, upper, _⟩
        omega
  | succ fuel ih =>
      rw [waitLoop]
      split_ifs with early
      · rw [ih]
        constructor
        · rintro ⟨lower, upper, late, before⟩
          refine ⟨by omega, by omega, late, ?_⟩
          intro earlier from_first below
          rcases Nat.eq_or_lt_of_le from_first with rfl | later
          · exact early
          · exact before earlier later below
        · rintro ⟨lower, upper, late, before⟩
          have differ : first ≠ poll := by
            rintro rfl
            omega
          exact ⟨by omega, by omega, late, fun earlier later below =>
            before earlier (by omega) below⟩
      · constructor
        · intro same
          obtain rfl := Option.some.inj same
          exact ⟨le_refl _, by omega, by omega, fun earlier lower upper => by omega⟩
        · rintro ⟨lower, upper, late, before⟩
          by_contra other
          exact early (before first (le_refl _) (by
            rcases Nat.eq_or_lt_of_le lower with rfl | later
            · exact absurd rfl other
            · exact later))

/-- `wait_time` returns at the first poll whose reading has reached the wrapped deadline. -/
theorem returnsAt_iff :
    ReturnsAt counts timeUs poll ↔
      1 ≤ poll ∧ (counts 0 + timeUs) % counterPeriod ≤ getTimerVal (counts poll) ∧
        ∀ earlier, 1 ≤ earlier → earlier < poll →
          getTimerVal (counts earlier) < (counts 0 + timeUs) % counterPeriod := by
  have deadline : (getTimerVal (counts 0) + timeUs) % counterPeriod =
      (counts 0 + timeUs) % counterPeriod := Nat.mod_add_mod _ _ _
  constructor
  · rintro ⟨fuel, returned⟩
    obtain ⟨last, loop, same⟩ := Option.map_eq_some_iff.mp returned
    obtain rfl := (Prod.mk.inj same).2
    rw [deadline] at loop
    obtain ⟨lower, _, late, before⟩ := waitLoop_eq_some_iff.mp loop
    exact ⟨lower, late, before⟩
  · rintro ⟨lower, late, before⟩
    refine ⟨poll, ?_⟩
    rw [waitTime, deadline, waitLoop_eq_some_iff.mpr ⟨lower, by omega, late, before⟩]
    rfl

/-- Inside the period of the deadline the comparison of low words is that of the true times. -/
theorem getTimerVal_lt_iff
    (same : counts poll / counterPeriod = (counts 0 + timeUs) / counterPeriod) :
    getTimerVal (counts poll) < (counts 0 + timeUs) % counterPeriod ↔
      counts poll < counts 0 + timeUs := by
  simp only [getTimerVal, counterPeriod] at same ⊢
  omega

/-- The first poll outside the period of the deadline ends the wait early or misses its end. -/
theorem not_waitsExactly (ordered : Monotone counts)
    (close : ∀ index, counts (index + 1) < counts index + 2 ^ 31) (small : timeUs < 2 ^ 31)
    (lower : 1 ≤ poll) (waiting : Waiting counts timeUs poll)
    (outside : counts poll / counterPeriod ≠ (counts 0 + timeUs) / counterPeriod)
    (inside : ∀ earlier, 1 ≤ earlier → earlier < poll →
      counts earlier / counterPeriod = (counts 0 + timeUs) / counterPeriod) :
    ¬WaitsExactly counts timeUs := by
  intro waits
  obtain ⟨before, rfl⟩ : ∃ before, poll = before + 1 := ⟨poll - 1, by omega⟩
  have near := close before
  have start := ordered (Nat.zero_le before)
  have next : counts before ≤ counts (before + 1) := ordered (Nat.le_succ before)
  have late_start : counts before ≤ counts 0 + timeUs := by
    rcases Nat.eq_zero_or_pos before with rfl | positive
    · omega
    · exact (waiting before positive (Nat.lt_succ_self _)).le
  rcases Nat.lt_or_ge (counts (before + 1)) (counts 0 + timeUs) with early | elapsed
  · have first : before = 0 := by
      by_contra later
      have same := inside before (by omega) (Nat.lt_succ_self _)
      simp only [counterPeriod] at same outside
      omega
    subst first
    rw [Nat.zero_add] at outside early next
    have returned : ReturnsAt counts timeUs 1 := by
      refine returnsAt_iff.mpr ⟨le_refl _, ?_, fun earlier one below => by omega⟩
      simp only [getTimerVal, counterPeriod] at outside ⊢
      omega
    have elapsed := ((waits 1).mp returned).2.1
    omega
  · have returned := (waits (before + 1)).mpr ⟨lower, elapsed, waiting⟩
    have late := (returnsAt_iff.mp returned).2.1
    simp only [getTimerVal, counterPeriod] at outside late
    omega

/-- `wait_time` waits exactly if and only if every poll, until one finds the time up, falls into
the same period of the counter as the deadline. -/
theorem waitTime_exact_iff (ordered : Monotone counts)
    (close : ∀ index, counts (index + 1) < counts index + 2 ^ 31) (small : timeUs < 2 ^ 31) :
    WaitsExactly counts timeUs ↔ ∀ poll, 1 ≤ poll → Waiting counts timeUs poll →
      counts poll / counterPeriod = (counts 0 + timeUs) / counterPeriod := by
  constructor
  · intro waits poll
    induction poll using Nat.strong_induction_on with
    | _ poll ih =>
        intro lower waiting
        by_contra outside
        refine not_waitsExactly ordered close small lower waiting outside ?_ waits
        intro earlier one below
        exact ih earlier below one fun first positive first_below =>
          waiting first positive (first_below.trans below)
  · intro inside poll
    rw [returnsAt_iff]
    constructor
    · rintro ⟨lower, late, before⟩
      have waiting : Waiting counts timeUs poll := by
        intro earlier
        induction earlier using Nat.strong_induction_on with
        | _ earlier ih =>
            intro one below
            have same := inside earlier one fun first positive first_below =>
              ih first first_below positive (first_below.trans below)
            exact (getTimerVal_lt_iff same).mp (before earlier one below)
      refine ⟨lower, ?_, waiting⟩
      by_contra early
      have reading := (getTimerVal_lt_iff (inside poll lower waiting)).mpr (by omega)
      omega
    · rintro ⟨lower, elapsed, waiting⟩
      refine ⟨lower, ?_, ?_⟩
      · by_contra early
        have time := (getTimerVal_lt_iff (inside poll lower waiting)).mp (by omega)
        omega
      · intro earlier one below
        have same := inside earlier one fun first positive first_below =>
          waiting first positive (first_below.trans below)
        exact (getTimerVal_lt_iff same).mpr (waiting earlier one below)

end Wait

/-- A count that starts at `start` and grows by one microsecond from poll to poll. -/
def steadyCounts (start poll : Nat) : Nat := start + poll

theorem steadyCounts_monotone (start : Nat) : Monotone (steadyCounts start) :=
  fun _ _ le => Nat.add_le_add_left le start

/-- The wait is exact when the counter starts at zero. -/
theorem waitTime_exact_from_zero : WaitsExactly (steadyCounts 0) 1000 := by
  refine (waitTime_exact_iff (steadyCounts_monotone 0) (fun index => by
    simp only [steadyCounts]
    omega) (by decide)).mpr ?_
  intro poll lower waiting
  have few : poll ≤ 1000 := by
    by_contra many
    have late := waiting 1000 (by decide) (by omega)
    simp only [steadyCounts] at late
    omega
  simp only [steadyCounts, counterPeriod]
  omega

/-- Started just before the counter wraps around, the wait ends at its first poll. -/
theorem waitTime_returns_early :
    ReturnsAt (steadyCounts (2 ^ 32 - 10)) 1000 1 ∧
      ¬FirstElapsed (steadyCounts (2 ^ 32 - 10)) 1000 1 ∧
      ¬WaitsExactly (steadyCounts (2 ^ 32 - 10)) 1000 := by
  have returned : ReturnsAt (steadyCounts (2 ^ 32 - 10)) 1000 1 := ⟨1, by decide⟩
  have early : ¬FirstElapsed (steadyCounts (2 ^ 32 - 10)) 1000 1 := by
    rintro ⟨_, elapsed, _⟩
    simp only [steadyCounts] at elapsed
    omega
  exact ⟨returned, early, fun waits => early ((waits 1).mp returned)⟩

end PellOs
