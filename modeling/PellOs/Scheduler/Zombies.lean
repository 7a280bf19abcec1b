import PellOs.Scheduler.Execution
import PellOs.Scheduler.Sleepers

/-!
# Exited tasks

`exit_task` marks the task that runs, so the mark belongs to a call of `exit_task`, and a task with
such a call waits for no timer.  Nothing else writes the state of a zombie, and `_schedule` passes
it over.
-/

namespace PellOs

/-- Every new task finds a slot in the task table. -/
def HasRoom (action : MachineAction) (machine : Machine) : Prop :=
  action = .advance → ∀ page rest, machine.stack = .forkPublish page :: rest →
    machine.scheduler.nTasks < nTasksMax

theorem reaches_hasRoom {before after : Machine}
    (run : ReachesWhere (fun _ machine => machine.scheduler.nTasks < nTasksMax) before after) :
    ReachesWhere HasRoom before after := by
  refine Relation.ReflTransGen.mono ?_ _ _ run
  rintro before after ⟨action, room, step⟩
  exact ⟨action, fun _ _ _ _ => room, step⟩

/-- The current task is in the table, and the slots from `n_tasks` on are empty. -/
structure Tabled (scheduler : Scheduler) : Prop where
  present : scheduler.current ≠ 0
  listed : ∃ index, index < nTasksMax ∧ scheduler.taskArray index = scheduler.current
  empty : ∀ index, scheduler.nTasks ≤ index → index < nTasksMax → scheduler.taskArray index = 0
  bounded : scheduler.nTasks ≤ nTasksMax

namespace Tabled

variable {action : MachineAction} {before after : Machine}

theorem taskArray_getPid {scheduler : Scheduler} (tabled : Tabled scheduler) :
    scheduler.taskArray scheduler.getPid = scheduler.current := by
  obtain ⟨index, inside, listed⟩ := tabled.listed
  rw [Scheduler.getPid, Scheduler.getPidFromPtr]
  cases found : firstIndex (fun i => scheduler.taskArray i = scheduler.current) nTasksMax 0 with
  | none =>
      exact absurd listed (firstIndex_eq_none_iff.mp found index (Nat.zero_le _) (by omega))
  | some first =>
      obtain ⟨-, -, same, -⟩ := firstIndex_eq_some_iff.mp found
      exact same

theorem congr {left right : Scheduler} (tabled : Tabled left)
    (taskArray : right.taskArray = left.taskArray) (nTasks : right.nTasks = left.nTasks)
    (current : right.current = left.current) : Tabled right := by
  obtain ⟨present, listed, empty, bounded⟩ := tabled
  refine ⟨?_, ?_, ?_, ?_⟩
  · rwa [current]
  · rwa [taskArray, current]
  · rwa [taskArray, nTasks]
  · rwa [nTasks]

theorem publish {scheduler : Scheduler} (tabled : Tabled scheduler)
    (room : scheduler.nTasks < nTasksMax) (page : Nat) : Tabled (scheduler.publish page) := by
  have count : (scheduler.publish page).nTasks = scheduler.nTasks + 1 := by
    rw [Scheduler.publish]
    exact Nat.mod_eq_of_lt (by simp only [nTasksMax] at room; omega)
  have slot (index : Nat) (other : index ≠ scheduler.nTasks) :
      (scheduler.publish page).taskArray index = scheduler.taskArray index :=
    Function.update_of_ne other _ _
  refine ⟨tabled.present, ?_, fun index low high => ?_, by omega⟩
  · obtain ⟨index, inside, listed⟩ := tabled.listed
    refine ⟨index, inside, ?_⟩
    rw [slot]
    · exact listed
    · rintro rfl
      exact tabled.present (listed.symm.trans (tabled.empty _ (le_refl _) room))
  · rw [slot index (by omega)]
    exact tabled.empty index (by omega) high

theorem step (tabled : Tabled before.scheduler) (controlled : Controlled before)
    (room : HasRoom action before) (step : MachineStep action before after) :
    Tabled after.scheduler := by
  cases step with
  | tick => exact tabled.congr before.taskArray_tick before.nTasks_tick before.current_tick
  | call | allocate | allocateFails => exact tabled.congr rfl rfl rfl
  | advance stack result =>
      rw [Machine.scheduler_next]
      cases effect_of_advance result with
      | quiet plain quiet => exact tabled.congr quiet.taskArray quiet.nTasks quiet.current
      | publish page => exact tabled.publish (room rfl page _ stack) page
      | mark | finish | ptr | block | timers => exact tabled.congr rfl rfl rfl
      | timer slot inside =>
          rw [Scheduler.checkTimer]
          split_ifs
          · exact tabled.congr rfl rfl rfl
          · exact tabled
      | switch next =>
          have ready := controlled.switching next _ stack
          exact ⟨ready.present, ⟨next, ready.inside, rfl⟩, tabled.empty, tabled.bounded⟩

end Tabled

/-- A zombie is inside `exit_task`. -/
def Marked (machine : Machine) : Prop :=
  ∀ task, (machine.scheduler.tasks task).state = .zombie →
    Frame.exitEnable ∈ machine.calls task ∨ Frame.exitLeave ∈ machine.calls task

section Zombies

variable {action : MachineAction} {before after : Machine}

theorem state_step (step : MachineStep action before after) (task : Nat) :
    (after.scheduler.tasks task).state = (before.scheduler.tasks task).state ∨
      (before.calls task = [] ∧ (after.scheduler.tasks task).state = .running) ∨
      (∃ slot, (before.scheduler.timerArr slot).taskPtr ≠ 0 ∧
        (before.scheduler.timerArr slot).taskPtr = task ∧
        (after.scheduler.tasks task).state = .running) ∨
      (∃ call delay slot rest, before.stack = .hitBlock call delay slot :: rest ∧
        task = before.scheduler.current ∧ (after.scheduler.tasks task).state = .blocked) ∨
      ∃ rest, before.stack = .exitMark :: rest ∧ after.stack = .exitEnable :: rest ∧
        task = before.scheduler.taskArray before.scheduler.getPid ∧
        after.scheduler.current = before.scheduler.current := by
  cases step with
  | tick => exact Or.inl (before.state_tick task)
  | call | allocateFails => exact Or.inl rfl
  | allocate stack page_ne fresh =>
      rw [Machine.tasks_forked]
      split_ifs with new
      · exact Or.inr (Or.inl ⟨by rw [new]; exact fresh, rfl⟩)
      · exact Or.inl rfl
  | @advance _ top frames rest scheduler stack result =>
      rw [Machine.scheduler_next]
      cases effect_of_advance result with
      | quiet plain quiet => exact Or.inl (quiet.state task)
      | publish | finish | ptr | timers | switch => exact Or.inl rfl
      | mark =>
          rw [Scheduler.state_setState]
          split_ifs with same
          · refine Or.inr (Or.inr (Or.inr (Or.inr ⟨rest, stack, ?_, same, rfl⟩)))
            exact Machine.stack_next _ _ rfl
          · exact Or.inl rfl
      | block call delay slot =>
          rw [Scheduler.state_setState]
          split_ifs with same
          · exact Or.inr (Or.inr (Or.inr (Or.inl ⟨call, delay, slot, rest, stack, same, rfl⟩)))
          · exact Or.inl rfl
      | timer slot inside =>
          rw [Scheduler.state_checkTimer]
          split_ifs with both
          · exact Or.inr (Or.inr (Or.inl ⟨slot, both.1.1, both.2.symm, rfl⟩))
          · exact Or.inl rfl

theorem zombie_step (inv : MachineInv before) (marked : Marked before)
    (tabled : Tabled before.scheduler) (step : MachineStep action before after) {task : Nat}
    (zombie : (before.scheduler.tasks task).state = .zombie) :
    (after.scheduler.tasks task).state = .zombie := by
  have layered := inv.well.layered task
  have exits := marked task zombie
  rcases state_step step task with same | ⟨none, -⟩ | ⟨slot, present, ptr, -⟩ |
    ⟨call, delay, slot, rest, stack, current, -⟩ | ⟨rest, stack, -, pid, -⟩
  · exact same.trans zombie
  · rw [none] at exits
    rcases exits with member | member <;> cases member
  · have held := inv.slotted.claimed slot present
    rw [ptr] at held
    obtain ⟨call, delay, member | member⟩ := held <;> rcases exits with exit | exit <;>
      cases layered.unique member exit rfl Nat.one_lt_two
  · have member : Frame.hitBlock call delay slot ∈ before.calls task := by
      rw [current, ← Machine.stack, stack]
      exact List.mem_cons_self
    rcases exits with exit | exit <;> cases layered.unique member exit rfl Nat.one_lt_two
  · have member : Frame.exitMark ∈ before.calls task := by
      rw [pid, tabled.taskArray_getPid, ← Machine.stack, stack]
      exact List.mem_cons_self
    rcases exits with exit | exit <;> cases layered.unique member exit rfl Nat.one_lt_two

theorem Marked.step (marked : Marked before) (inv : MachineInv before)
    (tabled : Tabled before.scheduler) (step : MachineStep action before after) :
    Marked after := by
  intro task zombie
  rcases state_step step task with same | ⟨-, running⟩ | ⟨_, _, _, running⟩ |
    ⟨_, _, _, _, _, _, blocked⟩ | ⟨rest, _, stack, pid, current⟩
  · have was_zombie := same.symm.trans zombie
    rcases marked task was_zombie with enable | leave
    · rcases step.mem_calls enable with stays | impossible |
        ⟨rfl, rest, frames, scheduler, _, result, rfl⟩
      · exact Or.inl stays
      · cases impossible
      · obtain ⟨rfl, -⟩ := Prod.mk.inj (Option.some.inj result)
        rw [Machine.calls_next, if_pos rfl]
        exact Or.inr (List.mem_cons_of_mem _ List.mem_cons_self)
    · rcases step.mem_calls leave with stays | impossible | ⟨rfl, rest, _, _, stack, _⟩
      · exact Or.inr stays
      · cases impossible
      · have running := Slotted.running_of_leave inv.well inv.controlled stack rfl rfl
        rw [was_zombie] at running
        cases running
  · rw [running] at zombie
    cases zombie
  · rw [running] at zombie
    cases zombie
  · rw [blocked] at zombie
    cases zombie
  · rw [pid, tabled.taskArray_getPid, ← current, ← Machine.stack, stack]
    exact Or.inl List.mem_cons_self

end Zombies

/-! ## Runs -/

/-- What holds in addition while every new task finds a slot in the table. -/
structure TabledInv (machine : Machine) : Prop where
  inv : MachineInv machine
  tabled : Tabled machine.scheduler
  marked : Marked machine

namespace TabledInv

variable {before after : Machine}

theorem initial {task : Nat} (task_ne : task ≠ 0) (tick : Nat) :
    TabledInv (initialMachine task tick) where
  inv := .initial task tick
  tabled := by
    refine ⟨task_ne, ⟨0, by decide, ?_⟩, fun index low _ => ?_, ?_⟩
    · exact (Scheduler.taskArray_initial task tick 0).trans (if_pos rfl)
    · have later : index ≠ 0 := by
        have low : 1 ≤ index := low
        omega
      exact (Scheduler.taskArray_initial task tick index).trans (if_neg later)
    · show 1 ≤ 64
      decide
  marked _ zombie := by cases zombie

theorem step (inv : TabledInv before) (step : StepWhere HasRoom before after) :
    TabledInv after := by
  obtain ⟨action, room, step⟩ := step
  exact ⟨inv.inv.step step, inv.tabled.step inv.inv.controlled room step,
    inv.marked.step inv.inv inv.tabled step⟩

theorem run (inv : TabledInv before) (run : ReachesWhere HasRoom before after) :
    TabledInv after := by
  induction run with
  | refl => exact inv
  | tail _ last ih => exact ih.step last

theorem current_step (inv : TabledInv before) (step : StepWhere HasRoom before after) {task : Nat}
    (asleep : (before.scheduler.tasks task).state ≠ .running)
    (away : task ≠ before.scheduler.current) : task ≠ after.scheduler.current := by
  obtain ⟨action, -, step⟩ := step
  cases step with
  | tick => rwa [Machine.current_tick]
  | call | allocate | allocateFails => exact away
  | advance stack result =>
      rw [Machine.scheduler_next]
      rcases Controlled.current_advance result with ⟨same, -⟩ | ⟨next, rfl, rfl, rfl⟩
      · rwa [same]
      · rintro rfl
        exact asleep (inv.inv.controlled.switching next _ stack).running

/-- From the moment a task is marked, its mark stays, and once it is switched away from it never
gets the processor again. -/
theorem zombie_run (inv : TabledInv before) (run : ReachesWhere HasRoom before after) {task : Nat}
    (zombie : (before.scheduler.tasks task).state = .zombie) :
    (after.scheduler.tasks task).state = .zombie ∧
      (task ≠ before.scheduler.current → task ≠ after.scheduler.current) := by
  induction run with
  | refl => exact ⟨zombie, id⟩
  | @tail middle last earlier step ih =>
      obtain ⟨still, away⟩ := ih
      have inv_middle := inv.run earlier
      obtain ⟨action, room, one⟩ := step
      refine ⟨zombie_step inv_middle.inv inv_middle.marked inv_middle.tabled one still,
        fun switched => ?_⟩
      apply inv_middle.current_step ⟨action, room, one⟩ _ (away switched)
      rw [still]
      decide

end TabledInv

/-- The task is inside `register_one_hit`. -/
def InsideHit (machine : Machine) (task : Nat) : Prop :=
  ∃ frame ∈ machine.calls task, frame.inHit = true

theorem HoldsSlot.insideHit {machine : Machine} {task slot : Nat}
    (held : HoldsSlot machine task slot) : InsideHit machine task := by
  obtain ⟨call, delay, member | member⟩ := held
  · exact ⟨_, member, rfl⟩
  · exact ⟨_, member, rfl⟩

/-- In every machine reached while the task table has room, each timer points to a task that is
inside `register_one_hit`.  A task marked by `exit_task` stays marked, `_schedule` does not choose
it, and it does not get the processor once it has been switched away from. -/
theorem exited_task_never_runs {task tick : Nat} (task_ne : task ≠ 0) {machine : Machine}
    (run : ReachesWhere HasRoom (initialMachine task tick) machine) :
    (∀ slot, (machine.scheduler.timerArr slot).taskPtr ≠ 0 →
      InsideHit machine (machine.scheduler.timerArr slot).taskPtr) ∧
    ∀ exited, (machine.scheduler.tasks exited).state = .zombie →
      ∀ later, ReachesWhere HasRoom machine later →
        (later.scheduler.tasks exited).state = .zombie ∧
        (∀ next rest, later.stack = .selectSwitch next :: rest →
          later.scheduler.taskArray next ≠ exited) ∧
        (exited ≠ machine.scheduler.current → exited ≠ later.scheduler.current) := by
  have inv := (TabledInv.initial task_ne tick).run run
  refine ⟨fun slot present => (inv.inv.slotted.claimed slot present).insideHit,
    fun exited zombie later rest => ?_⟩
  obtain ⟨still, away⟩ := inv.zombie_run rest zombie
  refine ⟨still, fun next frames stack chosen => ?_, away⟩
  have ready := ((inv.run rest).inv.controlled.switching next frames stack).running
  rw [chosen, still] at ready
  cases ready

/-- Of three tasks one sleeps, one has exited and the third runs. -/
theorem exited_task_never_runs_after_exit :
    ∃ machine : Machine, (machine.scheduler.timerArr 0).taskPtr = 4096 ∧
      (machine.scheduler.tasks 8192).state = .zombie ∧ machine.scheduler.current = 12288 ∧
      InsideHit machine 4096 ∧ ∀ later, ReachesWhere HasRoom machine later →
        (later.scheduler.tasks 8192).state = .zombie ∧
        (∀ next rest, later.stack = .selectSwitch next :: rest →
          later.scheduler.taskArray next ≠ 8192) ∧ 8192 ≠ later.scheduler.current := by
  have ran : ((initialMachine 4096 0).execute
      (fun _ machine => machine.scheduler.nTasks < nTasksMax)
      (forkActions 8192 ++ forkActions 12288 ++ waitActions 15 ++ callActions .exitEnter 14)).map
        (fun machine => ((machine.scheduler.timerArr 0).taskPtr,
          (machine.scheduler.tasks 8192).state, machine.scheduler.current)) =
            some (4096, .zombie, 12288) := by decide +kernel
  obtain ⟨machine, reached, observed⟩ := Machine.exists_of_execute ran
  simp only [Prod.mk.injEq] at observed
  obtain ⟨timer, zombie, current⟩ := observed
  obtain ⟨inside, never⟩ := exited_task_never_runs (by decide) (reaches_hasRoom reached)
  refine ⟨machine, timer, zombie, current, ?_, fun later rest => ?_⟩
  · have slot := inside 0 (by rw [timer]; decide)
    rwa [timer] at slot
  · obtain ⟨still, unchosen, away⟩ := never 8192 zombie later rest
    exact ⟨still, unchosen, away (by rw [current]; decide)⟩

end PellOs
