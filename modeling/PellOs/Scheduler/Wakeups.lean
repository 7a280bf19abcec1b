import PellOs.Scheduler.Delays

/-!
# Wakeups

A task that is blocked stays in the timer that it stored itself in until the timer elapses, unless
another call takes the timer over.  And it is in a timer when it blocks, unless the timer elapsed
between the two stores.
-/

namespace PellOs

namespace Scheduler

/-- `check_timers`. -/
def checkTimers (scheduler : Scheduler) : Scheduler :=
  (List.range timerCount).foldl checkTimer scheduler

@[simp] theorem current_checkTimer (scheduler : Scheduler) (slot : Nat) :
    (scheduler.checkTimer slot).current = scheduler.current := by
  rw [checkTimer]
  split_ifs <;> rfl

@[simp] theorem currentTick_checkTimer (scheduler : Scheduler) (slot : Nat) :
    (scheduler.checkTimer slot).currentTick = scheduler.currentTick := by
  rw [checkTimer]
  split_ifs <;> rfl

theorem current_foldl_checkTimer (scheduler : Scheduler) (timers : List Nat) :
    (timers.foldl checkTimer scheduler).current = scheduler.current := by
  induction timers generalizing scheduler with
  | nil => rfl
  | cons slot timers ih => exact (ih _).trans (scheduler.current_checkTimer slot)

theorem running_foldl_checkTimer (timers : List Nat) {scheduler : Scheduler} {task : Nat}
    (running : (scheduler.tasks task).state = .running) :
    ((timers.foldl checkTimer scheduler).tasks task).state = .running := by
  induction timers generalizing scheduler with
  | nil => exact running
  | cons slot timers ih =>
      refine ih ?_
      rw [state_checkTimer]
      split_ifs
      · rfl
      · exact running

theorem woken_foldl_checkTimer {timers : List Nat} {scheduler : Scheduler} {slot : Nat}
    (member : slot ∈ timers) (elapsed : scheduler.Elapsed slot) :
    ((timers.foldl checkTimer scheduler).tasks (scheduler.timerArr slot).taskPtr).state =
      .running := by
  induction timers generalizing scheduler with
  | nil => cases member
  | cons first timers ih =>
      by_cases same : slot = first
      · refine running_foldl_checkTimer timers ?_
        rw [← same, state_checkTimer, if_pos ⟨elapsed, rfl⟩]
      · have kept : (scheduler.checkTimer first).timerArr slot = scheduler.timerArr slot := by
          rw [timerArr_checkTimer, if_neg fun both => same both.2]
        have still : (scheduler.checkTimer first).Elapsed slot := by
          rw [Elapsed, kept, currentTick_checkTimer]
          exact elapsed
        rw [← kept]
        exact ih ((List.mem_cons.mp member).resolve_left same) still

end Scheduler

theorem Machine.next_stack (machine : Machine) :
    machine.next machine.stack machine.scheduler = machine := by
  rw [next, stack, Function.update_eq_self]

theorem Machine.next_next (machine : Machine) (middle stack : List Frame) {scheduler : Scheduler}
    (same : scheduler.current = machine.scheduler.current) (after : Scheduler) :
    (machine.next middle scheduler).next stack after = machine.next stack after := by
  rw [next, next, next]
  dsimp only
  rw [same, Function.update_idem]

/-- The statements of `_schedule` that check the timers amount to `check_timers`. -/
theorem reaches_checkTimers {machine : Machine} {rest : List Frame}
    (stack : machine.stack = .selectTimers 0 :: rest) :
    ReachesWhere (fun _ _ => True) machine
      (machine.next (.selectTimers timerCount :: rest) machine.scheduler.checkTimers) := by
  have upto (slot : Nat) (inside : slot ≤ timerCount) :
      ReachesWhere (fun _ _ => True) machine (machine.next (.selectTimers slot :: rest)
        ((List.range slot).foldl Scheduler.checkTimer machine.scheduler)) := by
    induction slot with
    | zero =>
        rw [← stack]
        exact machine.next_stack.symm ▸ .refl
    | succ slot ih =>
        have current := machine.scheduler.current_foldl_checkTimer (List.range slot)
        rw [List.range_succ, List.foldl_append,
          ← machine.next_next (.selectTimers slot :: rest) _ current]
        refine (ih (Nat.le_of_succ_le inside)).tail ⟨.advance, trivial, ?_⟩
        refine @MachineStep.advance _ _ [.selectTimers (slot + 1)] _ _
          (machine.stack_next _ current) ?_
        exact if_pos (Nat.lt_of_succ_le inside)
  exact upto timerCount (le_refl _)

/-- A statement of `register_one_hit` after which no task is blocked without a timer: the timer that
is taken over does not belong to a blocked task, and a task that blocks is still in its timer. -/
def Waking (machine : Machine) : Frame → Prop
  | .hitPtr _ _ slot =>
      (machine.scheduler.timerArr slot).taskPtr = 0 ∨
        (machine.scheduler.tasks (machine.scheduler.timerArr slot).taskPtr).state ≠ .blocked
  | .hitBlock _ _ slot =>
      (machine.scheduler.timerArr slot).taskPtr = machine.scheduler.current
  | _ => True

instance (machine : Machine) (frame : Frame) : Decidable (Waking machine frame) := by
  unfold Waking
  split <;> infer_instance

/-- The task is in a timer. -/
def InTimer (scheduler : Scheduler) (task : Nat) : Prop :=
  ∃ slot, slot < timerCount ∧ (scheduler.timerArr slot).taskPtr = task

/-- The timer of the call is one of `timer_arr`. -/
def InTimers : Frame → Prop
  | .hitFinish _ _ slot | .hitPtr _ _ slot | .hitBlock _ _ slot | .hitLeave _ _ slot =>
      slot < timerCount
  | _ => True

theorem inTimers_advance {scheduler after : Scheduler} {top : Frame} {frames : List Frame}
    (result : advance scheduler top = some (frames, after)) (inside : InTimers top) :
    ∀ frame ∈ frames, InTimers frame := by
  cases top with
  | running => cases result
  | forkAllocate => cases result
  | hitTest call delay slot =>
      rw [advance] at result
      split_ifs at result with below
      all_goals obtain ⟨rfl, -⟩ := Prod.mk.inj (Option.some.inj result)
      · simpa [InTimers] using below
      · simp [InTimers]
      · simp
  | hitFinish | hitPtr | hitBlock =>
      obtain ⟨rfl, -⟩ := Prod.mk.inj (Option.some.inj result)
      simpa [InTimers] using inside
  | selectTimers slot =>
      rw [advance] at result
      split_ifs at result
      all_goals obtain ⟨rfl, -⟩ := Prod.mk.inj (Option.some.inj result)
      all_goals simp [InTimers]
  | selectScan =>
      rw [advance] at result
      split_ifs at result
      all_goals obtain ⟨rfl, -⟩ := Prod.mk.inj (Option.some.inj result)
      all_goals simp [InTimers]
  | _ =>
      obtain ⟨rfl, -⟩ := Prod.mk.inj (Option.some.inj result)
      simp [InTimers]

/-- No blocked task is without a timer. -/
structure Kept (machine : Machine) : Prop where
  well : WellStacked machine
  controlled : Controlled machine
  current_ne : machine.scheduler.current ≠ 0
  inside : ∀ task, ∀ frame ∈ machine.calls task, InTimers frame
  kept : ∀ task, (machine.scheduler.tasks task).state = .blocked →
    task ≠ 0 ∧ InTimer machine.scheduler task

namespace Kept

variable {action : MachineAction} {before after : Machine}

private theorem current_ne_step (kept : Kept before) (step : MachineStep action before after) :
    after.scheduler.current ≠ 0 := by
  cases step with
  | tick =>
      rw [Machine.current_tick]
      exact kept.current_ne
  | call | allocate | allocateFails => exact kept.current_ne
  | advance stack result =>
      rw [Machine.scheduler_next]
      rcases Controlled.current_advance result with ⟨same, -⟩ | ⟨next, rfl, rfl, rfl⟩
      · rw [same]
        exact kept.current_ne
      · exact (kept.controlled.switching next _ stack).present

private theorem inside_step (kept : Kept before) (step : MachineStep action before after)
    (task : Nat) (frame : Frame) (member : frame ∈ after.calls task) : InTimers frame := by
  rcases step.mem_calls_after member with old | rfl | entry |
    ⟨-, rfl, top, rest, frames, scheduler, stack, result, new, -⟩ |
      ⟨page, rest, -, -, -, -, ⟨-, rfl⟩ | ⟨-, rfl⟩⟩
  · exact kept.inside task frame old
  · trivial
  · cases entry <;> trivial
  · refine inTimers_advance result (kept.inside before.scheduler.current top ?_) frame new
    rw [← Machine.stack, stack]
    exact List.mem_cons_self
  · trivial
  · trivial


private theorem kept_step (kept : Kept before) (waking : NextStatement Waking action before)
    (step : MachineStep action before after) (task : Nat)
    (blocked : (after.scheduler.tasks task).state = .blocked) :
    task ≠ 0 ∧ InTimer after.scheduler task := by
  cases step with
  | tick =>
      rw [Machine.state_tick] at blocked
      rw [InTimer, Machine.timerArr_tick]
      exact kept.kept task blocked
  | call | allocateFails => exact kept.kept task blocked
  | allocate stack page_ne fresh =>
      rw [Machine.tasks_forked] at blocked
      split_ifs at blocked with new
      · cases blocked
      · exact kept.kept task blocked
  | advance stack result =>
      have waking := waking.allowed stack
      rw [Machine.scheduler_next] at blocked ⊢
      cases effect_of_advance result with
      | quiet plain quiet =>
          rw [InTimer, quiet.timerArr]
          exact kept.kept task ((quiet.state task).symm.trans blocked)
      | publish | timers | switch => exact kept.kept task blocked
      | mark =>
          rw [Scheduler.state_setState] at blocked
          split_ifs at blocked
          exact kept.kept task blocked
      | finish call delay stored =>
          obtain ⟨task_ne, slot, inside, ptr⟩ := kept.kept task blocked
          refine ⟨task_ne, slot, inside, ?_⟩
          rw [Scheduler.timerArr_setTimer]
          split_ifs with same
          · rwa [same] at ptr
          · exact ptr
      | ptr call delay stored =>
          obtain ⟨task_ne, slot, inside, ptr⟩ := kept.kept task blocked
          refine ⟨task_ne, slot, inside, ?_⟩
          rw [Scheduler.timerArr_setTimer, if_neg]
          · exact ptr
          · rintro rfl
            rcases waking with free | awake
            · exact task_ne (ptr.symm.trans free)
            · rw [ptr] at awake
              exact awake blocked
      | block call delay slot =>
          rw [Scheduler.state_setState] at blocked
          split_ifs at blocked with current
          · rw [current]
            refine ⟨kept.current_ne, slot, ?_, waking⟩
            refine kept.inside before.scheduler.current (.hitBlock call delay slot) ?_
            rw [← Machine.stack, stack]
            exact List.mem_cons_self
          · exact kept.kept task blocked
      | timer checked below =>
          rw [Scheduler.state_checkTimer] at blocked
          split_ifs at blocked with woken
          obtain ⟨task_ne, slot, inside, ptr⟩ := kept.kept task blocked
          refine ⟨task_ne, slot, inside, ?_⟩
          rw [Scheduler.timerArr_checkTimer, if_neg]
          · exact ptr
          · rintro ⟨elapsed, rfl⟩
            exact woken ⟨elapsed, ptr.symm⟩

theorem initial {task : Nat} (task_ne : task ≠ 0) (tick : Nat) :
    Kept (initialMachine task tick) where
  well := (MachineInv.initial task tick).well
  controlled := (MachineInv.initial task tick).controlled
  current_ne := task_ne
  inside := by
    intro other frame member
    rw [calls_initialMachine] at member
    split_ifs at member
    · rw [List.mem_singleton.mp member]
      trivial
    · cases member
  kept _ blocked := by cases blocked

theorem step (kept : Kept before) (step : StepWhere (NextStatement Waking) before after) :
    Kept after := by
  obtain ⟨action, waking, step⟩ := step
  exact ⟨kept.well.step step, kept.controlled.step kept.well step, kept.current_ne_step step,
    kept.inside_step step, kept.kept_step waking step⟩

theorem of_run {task tick : Nat} (task_ne : task ≠ 0) {machine : Machine}
    (run : ReachesWhere (NextStatement Waking) (initialMachine task tick) machine) :
    Kept machine := by
  induction run with
  | refl => exact .initial task_ne tick
  | tail _ last ih => exact ih.step last

end Kept

/-- In every machine reached while `register_one_hit` takes over no timer of a blocked task and
blocks no task that its timer has left, each blocked task is in a timer, and `check_timers` wakes it
from the tick on that is stored there. -/
theorem blocked_tasks_have_timers {task tick : Nat} (task_ne : task ≠ 0) {machine : Machine}
    (run : ReachesWhere (NextStatement Waking) (initialMachine task tick) machine) (sleeper : Nat)
    (blocked : (machine.scheduler.tasks sleeper).state = .blocked) :
    ∃ slot, slot < timerCount ∧ (machine.scheduler.timerArr slot).taskPtr = sleeper ∧
      ∀ later, (machine.scheduler.timerArr slot).finishTime ≤ later →
        (({ machine.scheduler with currentTick := later }.checkTimers).tasks sleeper).state =
          .running := by
  obtain ⟨sleeper_ne, slot, inside, rfl⟩ := (Kept.of_run task_ne run).kept sleeper blocked
  refine ⟨slot, inside, rfl, fun later reached => ?_⟩
  have elapsed : { machine.scheduler with currentTick := later }.Elapsed slot :=
    ⟨sleeper_ne, reached⟩
  exact Scheduler.woken_foldl_checkTimer (List.mem_range.mpr inside) elapsed

/-- One of two tasks is blocked, and its timer wakes it. -/
theorem blocked_tasks_have_timers_one :
    ∃ machine : Machine, (machine.scheduler.tasks 4096).state = .blocked ∧
      ∃ slot, slot < timerCount ∧ (machine.scheduler.timerArr slot).taskPtr = 4096 ∧
        ∀ later, (machine.scheduler.timerArr slot).finishTime ≤ later →
          (({ machine.scheduler with currentTick := later }.checkTimers).tasks 4096).state =
            .running := by
  have ran : ((initialMachine 4096 0).execute (NextStatement Waking)
      (forkActions 8192 ++ waitActions 15)).map
        (fun machine => (machine.scheduler.tasks 4096).state) = some .blocked := by
    decide +kernel
  obtain ⟨machine, run, blocked⟩ := Machine.exists_of_execute ran
  exact ⟨machine, blocked, blocked_tasks_have_timers (by decide) run 4096 blocked⟩

/-- A tick between the stores of the timer and of the state, after which the timer has elapsed. -/
def tickBeforeBlocking : List MachineAction :=
  .call (.hitTest 0 0 0) :: List.replicate 3 .advance ++ .tick :: List.replicate 12 .advance

/-- The task of a timer that elapses before the task is blocked sleeps forever. -/
theorem wakeup_before_blocking :
    ∃ machine, ReachesWhere (fun _ _ => True) (initialMachine 4096 0) machine ∧
      (machine.scheduler.tasks 4096).state = .blocked ∧
        ∀ slot, slot < timerCount → (machine.scheduler.timerArr slot).taskPtr ≠ 4096 := by
  have ran : ((initialMachine 4096 0).execute (fun _ _ => True) tickBeforeBlocking).map
      (fun machine => ((machine.scheduler.tasks 4096).state,
        (List.range timerCount).map fun slot => (machine.scheduler.timerArr slot).taskPtr)) =
          some (.blocked, [0, 0, 0, 0, 0]) := by decide +kernel
  obtain ⟨machine, run, observed⟩ := Machine.exists_of_execute ran
  obtain ⟨blocked, free⟩ := Prod.mk.inj observed
  refine ⟨machine, run, blocked, fun slot inside held => ?_⟩
  have member : (4096 : Nat) ∈ [0, 0, 0, 0, 0] := by
    rw [← free, ← held]
    exact List.mem_map.mpr ⟨slot, List.mem_range.mpr inside, rfl⟩
  simp at member

end PellOs
