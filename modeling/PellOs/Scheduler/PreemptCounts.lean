import PellOs.Scheduler.Zombies

/-!
# The preemption count across task switches

`preempt_disable` and `preempt_enable` act on whatever task is current, so the balance holds for
each suspended coroutine: it has left `_schedule` or `kernel_fork` with a count of one, and takes it
back when it runs again.
-/

namespace PellOs

/-- The call belongs to `kernel_fork`, `exit_task` or `_schedule`, or to the code that a new task
runs before `end_of_sched` returns. -/
def Frame.guarded : Frame → Bool
  | forkReturn | forkEnter | forkAllocate | forkPublish _ | forkEnable => true
  | exitEnter | exitMark | exitEnable | exitLeave => true
  | selectEnter | selectTimers _ | selectScan | selectSwitch _ | selectLeave => true
  | _ => false

theorem Frame.guarded_of_critical {frame : Frame} (critical : frame.critical = true) :
    frame.guarded = true := by
  revert critical
  cases frame <;> simp [Frame.critical, Frame.guarded]

/-- `allocate_kernel_page` does not fail. -/
def Allocates (action : MachineAction) (_ : Machine) : Prop := action ≠ .allocate 0

/-- The table has room for every new task, and there is a page for it. -/
def Provided (action : MachineAction) (machine : Machine) : Prop :=
  HasRoom action machine ∧ Allocates action machine

/-- The task has its own code at the bottom of its stack. -/
def Based (machine : Machine) (task : Nat) : Prop :=
  ∃ frame ∈ machine.calls task, frame.layer = 0

/-- The tasks of the table exist, and so does the one that a call of `kernel_fork` is about to enter
there. -/
structure Housed (machine : Machine) : Prop where
  listed : ∀ index, machine.scheduler.taskArray index ≠ 0 →
    Based machine (machine.scheduler.taskArray index)
  forked : ∀ task page, Frame.forkPublish page ∈ machine.calls task → Based machine page

section Steps

variable {action : MachineAction} {before after : Machine}

theorem Based.step {task : Nat} (based : Based before task)
    (step : MachineStep action before after) : Based after task := by
  obtain ⟨frame, member, base⟩ := based
  rcases step.mem_calls member with stays | rfl | ⟨rfl, rest, frames, scheduler, stack, result, rfl⟩
  · exact ⟨frame, stays, base⟩
  · cases base
  · cases frame with
    | forkReturn =>
        obtain ⟨rfl, -⟩ := Prod.mk.inj (Option.some.inj result)
        refine ⟨.running, ?_, rfl⟩
        rw [Machine.calls_next, if_pos rfl]
        exact List.mem_cons_self
    | running => cases result
    | _ => cases base

theorem taskArray_step (step : MachineStep action before after) (index : Nat) :
    after.scheduler.taskArray index = before.scheduler.taskArray index ∨
      ∃ page rest, before.stack = .forkPublish page :: rest ∧ after.stack = .forkEnable :: rest ∧
        after.scheduler.taskArray index = page := by
  cases step with
  | tick => exact Or.inl (congrFun before.taskArray_tick index)
  | call | allocate | allocateFails => exact Or.inl rfl
  | @advance _ top frames rest scheduler stack result =>
      rw [Machine.scheduler_next]
      cases effect_of_advance result with
      | quiet plain quiet => exact Or.inl (congrFun quiet.taskArray index)
      | publish page =>
          by_cases here : index = before.scheduler.nTasks
          · refine Or.inr ⟨page, rest, stack, Machine.stack_next _ _ rfl, ?_⟩
            rw [here]
            exact Function.update_self _ _ _
          · exact Or.inl (Function.update_of_ne here _ _)
      | timer slot inside =>
          refine Or.inl ?_
          rw [Scheduler.checkTimer]
          split_ifs <;> rfl
      | _ => exact Or.inl rfl

theorem Housed.step (housed : Housed before) (step : MachineStep action before after) :
    Housed after where
  listed := by
    intro index present
    rcases taskArray_step step index with same | ⟨page, rest, stack, -, new⟩
    · rw [same] at present ⊢
      exact (housed.listed index present).step step
    · rw [new]
      have member : Frame.forkPublish page ∈ before.calls before.scheduler.current := by
        rw [← Machine.stack, stack]
        exact List.mem_cons_self
      exact (housed.forked _ page member).step step
  forked := by
    intro task page member
    rcases step.mem_calls_after member with old | new | entry |
      ⟨-, -, _, _, _, _, _, result, new, _⟩ |
      ⟨new, rest, -, -, -, rfl, ⟨-, impossible⟩ | ⟨-, same⟩⟩
    · exact (housed.forked task page old).step step
    · cases new
    · cases entry
    · cases flow_of_advance result <;> simp at new
    · cases impossible
    · obtain rfl := Frame.forkPublish.inj same
      refine ⟨.forkReturn, ?_, rfl⟩
      rw [Machine.calls_forked, if_pos rfl]
      exact List.mem_cons_self

end Steps

theorem Housed.initial (task tick : Nat) : Housed (initialMachine task tick) where
  listed := by
    intro index present
    have slot := Scheduler.taskArray_initial task tick index
    have table : (initialMachine task tick).scheduler.taskArray index =
      (Scheduler.initial task tick).taskArray index := rfl
    rw [table, slot] at present ⊢
    split_ifs at present ⊢ with first
    · refine ⟨.running, ?_, rfl⟩
      rw [calls_initialMachine, if_pos rfl]
      exact List.mem_cons_self
    · exact absurd rfl present
  forked := by
    intro other page member
    rw [calls_initialMachine] at member
    split_ifs at member
    · cases List.mem_singleton.mp member
    · cases member

/-! ## Runs -/

/-- The counts are exact, and the tasks of the table exist. -/
structure Counted (machine : Machine) : Prop where
  inv : MachineInv machine
  balanced : BalancedBy (fun _ => 0) machine
  housed : Housed machine

namespace Counted

variable {before after : Machine}

theorem initial (task tick : Nat) : Counted (initialMachine task tick) where
  inv := .initial task tick
  balanced := .initial task tick
  housed := .initial task tick

theorem step (counted : Counted before) (step : StepWhere Allocates before after) :
    Counted after := by
  obtain ⟨action, allocates, step⟩ := step
  obtain ⟨changed, balanced, change⟩ := step.balanced (fun _ => le_refl _) counted.balanced
  have zero : changed = fun _ => 0 := by
    funext task
    rcases change task with same | zero | ⟨failed, -⟩
    · exact same
    · exact zero
    · exact absurd failed allocates
  rw [zero] at balanced
  exact ⟨counted.inv.step step, balanced, counted.housed.step step⟩

theorem of_run {task tick : Nat} {machine : Machine}
    (run : ReachesWhere Allocates (initialMachine task tick) machine) : Counted machine := by
  induction run with
  | refl => exact .initial task tick
  | tail _ last ih => exact ih.step last

theorem count_eq {machine : Machine} (counted : Counted machine) (task : Nat) :
    (machine.scheduler.tasks task).preemptCount = topCritical (machine.calls task) := by
  have count := (counted.balanced task).counted
  simpa using count

/-- A suspended task has switched away with its preemption disabled. -/
theorem suspended_count {machine : Machine} (counted : Counted machine) {task : Nat}
    (away : task ≠ machine.scheduler.current) (based : Based machine task) :
    (machine.scheduler.tasks task).preemptCount = 1 := by
  rw [counted.count_eq]
  obtain ⟨base, member, -⟩ := based
  cases stack : machine.calls task with
  | nil =>
      rw [stack] at member
      cases member
  | cons frame rest =>
      rcases counted.inv.controlled.suspended task away frame rest stack with rfl | rfl
      · rfl
      · rfl

/-- Outside the guarded calls the preemption of the current task is enabled. -/
theorem outside_count {machine : Machine} (counted : Counted machine)
    (outside : ∀ frame ∈ machine.stack, frame.guarded = false) :
    (machine.scheduler.tasks machine.scheduler.current).preemptCount = 0 := by
  rw [counted.count_eq, ← Machine.stack]
  cases stack : machine.stack with
  | nil => rfl
  | cons frame rest =>
      have free := outside frame (by rw [stack]; exact List.mem_cons_self)
      rw [topCritical]
      split_ifs with critical
      · rw [Frame.guarded_of_critical critical] at free
        cases free
      · rfl

end Counted

/-- In every machine reached without a failing allocation, the tasks of the table that do not run
have a preemption count of one, no count is negative, and the current task has a count of zero
outside `_schedule`, `kernel_fork`, `exit_task` and the start of a new task. -/
theorem preempt_counts_balanced {task tick : Nat} {machine : Machine}
    (run : ReachesWhere Provided (initialMachine task tick) machine) :
    (∀ index, index < nTasksMax → machine.scheduler.taskArray index ≠ 0 →
      machine.scheduler.taskArray index ≠ machine.scheduler.current →
        (machine.scheduler.tasks (machine.scheduler.taskArray index)).preemptCount = 1) ∧
    (∀ other, 0 ≤ (machine.scheduler.tasks other).preemptCount) ∧
    ((∀ frame ∈ machine.stack, frame.guarded = false) →
      (machine.scheduler.tasks machine.scheduler.current).preemptCount = 0) := by
  have allocates : ReachesWhere Allocates (initialMachine task tick) machine := by
    refine Relation.ReflTransGen.mono ?_ _ _ run
    rintro before after ⟨action, provided, step⟩
    exact ⟨action, provided.2, step⟩
  have counted := Counted.of_run allocates
  refine ⟨fun index _ present away => ?_, fun other => ?_, counted.outside_count⟩
  · exact counted.suspended_count away (counted.housed.listed index present)
  · rw [counted.count_eq]
    exact topCritical_nonneg _

/-- `init_task` forks two tasks and sleeps, the first of them yields and the second runs. -/
theorem preempt_counts_balanced_after_switches :
    ∃ machine : Machine, machine.stack = [.running] ∧ machine.scheduler.current = 12288 ∧
      (machine.scheduler.tasks 4096).preemptCount = 1 ∧
      (machine.scheduler.tasks 8192).preemptCount = 1 ∧
      (machine.scheduler.tasks 12288).preemptCount = 0 := by
  have ran : ((initialMachine 4096 0).execute
      (fun action machine => machine.scheduler.nTasks < nTasksMax ∧ action ≠ .allocate 0)
      (forkActions 8192 ++ forkActions 12288 ++ waitActions 15 ++
        callActions .scheduleEnter 11)).map
        (fun machine => (machine.stack, machine.scheduler.current, machine.scheduler.taskArray 0,
          machine.scheduler.taskArray 1)) = some ([.running], 12288, 4096, 8192) := by
    decide +kernel
  obtain ⟨machine, reached, observed⟩ := Machine.exists_of_execute ran
  simp only [Prod.mk.injEq] at observed
  obtain ⟨stack, current, first, second⟩ := observed
  have run : ReachesWhere Provided (initialMachine 4096 0) machine := by
    refine Relation.ReflTransGen.mono ?_ _ _ reached
    rintro before after ⟨action, ⟨room, granted⟩, step⟩
    exact ⟨action, ⟨fun _ _ _ _ => room, granted⟩, step⟩
  obtain ⟨suspended, -, outside⟩ := preempt_counts_balanced run
  have init := suspended 0 (by decide) (by rw [first]; decide) (by rw [first, current]; decide)
  have yielded := suspended 1 (by decide) (by rw [second]; decide) (by rw [second, current]; decide)
  rw [first] at init
  rw [second] at yielded
  rw [current] at outside
  refine ⟨machine, stack, current, init, yielded, outside fun frame member => ?_⟩
  rw [stack, List.mem_singleton] at member
  rw [member]
  rfl

end PellOs
