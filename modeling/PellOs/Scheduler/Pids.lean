import PellOs.Scheduler.Delays
import PellOs.Scheduler.PreemptCounts

/-!
# Pids

`kernel_fork` returns the number of tasks before it as the pid, and `exit_task` gives no pid back.
So each pid is new, as long as the tasks ever created fit into the task table.
-/

namespace PellOs

/-- `kernel_fork` takes an empty slot of the task table for its task, changes no other slot, and
returns the index of the slot. -/
structure PidTaken (before after : Scheduler) (newTask pid : Nat) : Prop where
  inside : pid < nTasksMax
  empty : before.taskArray pid = 0
  others : ∀ index, index ≠ pid → after.taskArray index = before.taskArray index
  found : after.getPidFromPtr newTask = pid

theorem WellStacked.eq_cons {machine : Machine} (well : WellStacked machine) {task : Nat}
    {frame : Frame} (member : frame ∈ machine.calls task) (critical : frame.critical = true) :
    ∃ rest, machine.calls task = frame :: rest := by
  cases stack : machine.calls task with
  | nil =>
      rw [stack] at member
      cases member
  | cons top rest =>
      rw [stack] at member
      rcases List.mem_cons.mp member with rfl | below
      · exact ⟨rest, rfl⟩
      · have calm := well.settled stack frame below
        rw [critical] at calm
        cases calm

/-- A task that `kernel_fork` is about to enter in the task table is not there yet. -/
structure Unlisted (machine : Machine) : Prop where
  well : WellStacked machine
  controlled : Controlled machine
  housed : Housed machine
  unlisted : ∀ task page, Frame.forkPublish page ∈ machine.calls task →
    ∀ index, machine.scheduler.taskArray index ≠ page

namespace Unlisted

variable {action : MachineAction} {before after : Machine}

/-- Only the current task is about to enter a task in the table. -/
theorem publishing {machine : Machine} (well : WellStacked machine)
    (controlled : Controlled machine) {task page : Nat}
    (member : Frame.forkPublish page ∈ machine.calls task) :
    ∃ rest, machine.stack = .forkPublish page :: rest := by
  obtain ⟨rest, stack⟩ := well.eq_cons member rfl
  by_cases current : task = machine.scheduler.current
  · rw [current] at stack
    exact ⟨rest, stack⟩
  · rcases controlled.suspended task current _ rest stack with impossible | impossible
    · cases impossible
    · cases impossible

private theorem unlisted_step (unlisted : Unlisted before)
    (step : MachineStep action before after) (task page : Nat)
    (member : Frame.forkPublish page ∈ after.calls task) (index : Nat) :
    after.scheduler.taskArray index ≠ page := by
  obtain ⟨rest, stack⟩ := publishing (unlisted.well.step step)
    (unlisted.controlled.step unlisted.well step) member
  rcases taskArray_step step index with same | ⟨_, _, -, entered, -⟩
  · rw [same]
    rcases step.mem_calls_after member with old | impossible | entry |
      ⟨-, -, _, _, _, _, -, result, new, -⟩ |
        ⟨other, _, -, other_ne, fresh, -, ⟨-, impossible⟩ | ⟨-, here⟩⟩
    · exact unlisted.unlisted task page old index
    · cases impossible
    · cases entry
    · cases flow_of_advance result <;> simp at new
    · cases impossible
    · obtain rfl := Frame.forkPublish.inj here
      rintro rfl
      obtain ⟨base, member, -⟩ := unlisted.housed.listed index other_ne
      rw [fresh] at member
      cases member
  · rw [stack] at entered
    cases entered

theorem initial (task tick : Nat) : Unlisted (initialMachine task tick) where
  well := (MachineInv.initial task tick).well
  controlled := (MachineInv.initial task tick).controlled
  housed := .initial task tick
  unlisted := by
    intro other page member
    rw [calls_initialMachine] at member
    split_ifs at member
    · cases List.mem_singleton.mp member
    · cases member

theorem of_run {condition : MachineAction → Machine → Prop} {task tick : Nat} {machine : Machine}
    (run : ReachesWhere condition (initialMachine task tick) machine) : Unlisted machine := by
  induction run with
  | refl => exact .initial task tick
  | tail _ last ih =>
      obtain ⟨action, -, step⟩ := last
      exact ⟨ih.well.step step, ih.controlled.step ih.well step, ih.housed.step step,
        ih.unlisted_step step⟩

end Unlisted

/-- `get_pid_from_ptr` finds a task in the slot where it has been entered. -/
theorem getPidFromPtr_publish {scheduler : Scheduler} {newTask : Nat}
    (unlisted : ∀ index, scheduler.taskArray index ≠ newTask)
    (room : scheduler.nTasks < nTasksMax) :
    (scheduler.publish newTask).getPidFromPtr newTask = scheduler.nTasks := by
  have found : firstIndex (fun index => (scheduler.publish newTask).taskArray index = newTask)
      nTasksMax 0 = some scheduler.nTasks := by
    refine firstIndex_eq_some_iff.mpr ⟨Nat.zero_le _, ?_, Function.update_self _ _ _, ?_⟩
    · omega
    · intro index _ below listed
      refine unlisted index ?_
      rw [← listed]
      exact (Function.update_of_ne (Nat.ne_of_lt below) _ _).symm
  rw [Scheduler.getPidFromPtr, found]
  rfl

/-- In every machine reached while the tasks ever created fit into the task table, the next
`kernel_fork` that finds a page returns a new pid inside the table if and only if its own task fits
as well. -/
theorem pid_taken_iff {task tick : Nat} (task_ne : task ≠ 0) {machine : Machine}
    (run : ReachesWhere HasRoom (initialMachine task tick) machine) {newTask : Nat}
    {rest : List Frame} (stack : machine.stack = .forkPublish newTask :: rest) :
    PidTaken machine.scheduler (machine.scheduler.publish newTask) newTask
        machine.scheduler.nTasks ↔ machine.scheduler.nTasks < nTasksMax := by
  refine ⟨PidTaken.inside, fun room => ⟨room, ?_, ?_, ?_⟩⟩
  · exact ((TabledInv.initial task_ne tick).run run).tabled.empty _ (le_refl _) room
  · intro index other
    exact Function.update_of_ne other _ _
  · refine getPidFromPtr_publish ?_ room
    refine (Unlisted.of_run run).unlisted machine.scheduler.current newTask ?_
    rw [← Machine.stack, stack]
    exact List.mem_cons_self

/-- The second task that is forked after boot fits. -/
theorem pid_taken_second :
    ∃ machine, ReachesWhere HasRoom (initialMachine 4096 0) machine ∧
      machine.stack = [.forkPublish 12288, .running] ∧
      (PidTaken machine.scheduler (machine.scheduler.publish 12288) 12288
        machine.scheduler.nTasks ↔ machine.scheduler.nTasks < nTasksMax) := by
  have ran : ((initialMachine 4096 0).execute
      (fun _ machine => machine.scheduler.nTasks < nTasksMax)
      (forkActions 8192 ++ [.call .forkEnter, .advance, .allocate 12288])).map Machine.stack =
        some [.forkPublish 12288, .running] := by decide +kernel
  obtain ⟨machine, reached, stack⟩ := Machine.exists_of_execute ran
  have run := reaches_hasRoom reached
  exact ⟨machine, run, stack, pid_taken_iff (by decide) run stack⟩

/-- After 63 forks the next one returns the pid 64. -/
theorem pid_outside_table :
    ∃ machine, ReachesWhere (fun _ _ => True) (initialMachine 4096 0) machine ∧
      machine.stack = [.forkPublish 266240, .running] ∧
        ¬ PidTaken machine.scheduler (machine.scheduler.publish 266240) 266240
          machine.scheduler.nTasks := by
  have ran : ((initialMachine 4096 0).execute (fun _ _ => True)
      ((List.range 63).flatMap (fun index => forkActions (4096 * (index + 2))) ++
        [.call .forkEnter, .advance, .allocate 266240])).map
          (fun machine => (machine.stack, machine.scheduler.nTasks)) =
            some ([.forkPublish 266240, .running], 64) := by decide +kernel
  obtain ⟨machine, run, observed⟩ := Machine.exists_of_execute ran
  obtain ⟨stack, count⟩ := Prod.mk.inj observed
  refine ⟨machine, run, stack, fun taken => ?_⟩
  have inside := taken.inside
  rw [count] at inside
  exact absurd inside (by decide)

end PellOs
