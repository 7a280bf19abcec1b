import PellOs.Lib.Layers
import PellOs.Scheduler.Select

/-!
# Tasks as coroutines

Every task is a stack of calls, each at the statement it executes next.  The task that `current`
points to runs until it switches to another one inside `_schedule`, and a timer interrupt may come
before any statement.  The interrupt handler runs with interrupts masked until it calls
`_schedule`, so that up to there it is one step.  Where preemption is disabled a tick changes
nothing but the current counter and the tick count, so a pass of the scan, the store of `current`
with the register switch, and the stores of `check_timers` for one timer are one step each.
-/

namespace PellOs

/-- `SOFTWARE_TIMER_MS_TO_TICKS`. -/
def msToTicks (delay : Nat) : Nat := delay / 100

namespace Scheduler

/-! ## Statements -/

/-- `preempt_disable`. -/
def preemptDisable (scheduler : Scheduler) : Scheduler :=
  scheduler.modify scheduler.current fun task =>
    { task with preemptCount := task.preemptCount + 1 }

/-- `preempt_enable`. -/
def preemptEnable (scheduler : Scheduler) : Scheduler :=
  scheduler.modify scheduler.current fun task =>
    { task with preemptCount := task.preemptCount - 1 }

/-- Store the state of a task. -/
def setState (scheduler : Scheduler) (task : Nat) (state : TaskState) : Scheduler :=
  scheduler.modify task fun control => { control with state }

/-- Store the counter of the current task. -/
def setCounter (scheduler : Scheduler) (counter : Int) : Scheduler :=
  scheduler.modify scheduler.current fun task => { task with counter }

/-- Store `timer_arr[slot]`. -/
def setTimer (scheduler : Scheduler) (slot : Nat) (timer : OnehitTimer) : Scheduler :=
  { scheduler with timerArr := Function.update scheduler.timerArr slot timer }

/-- The timer is in use and has elapsed. -/
def Elapsed (scheduler : Scheduler) (slot : Nat) : Prop :=
  (scheduler.timerArr slot).taskPtr ≠ 0 ∧
    (scheduler.timerArr slot).finishTime ≤ scheduler.currentTick

instance (scheduler : Scheduler) (slot : Nat) : Decidable (scheduler.Elapsed slot) :=
  inferInstanceAs (Decidable (_ ∧ _))

/-- The body of the loop of `check_timers`. -/
def checkTimer (scheduler : Scheduler) (slot : Nat) : Scheduler :=
  if scheduler.Elapsed slot then
    (scheduler.setState (scheduler.timerArr slot).taskPtr .running).setTimer slot ⟨0, 0⟩
  else
    scheduler

/-- The new task takes the next pid. -/
def publish (scheduler : Scheduler) (newTask : Nat) : Scheduler :=
  { scheduler with
    nTasks := (scheduler.nTasks + 1) % 2 ^ 8
    taskArray := Function.update scheduler.taskArray scheduler.nTasks newTask }

/-- The fields that `kernel_fork` sets in the new task. -/
def forkedTask (scheduler : Scheduler) : TaskControl :=
  let priority := (scheduler.tasks scheduler.current).priority
  ⟨.running, priority, priority, 1⟩

section Fields

variable (scheduler : Scheduler) (task : Nat)

@[simp] theorem state_preemptDisable :
    (scheduler.preemptDisable.tasks task).state = (scheduler.tasks task).state := by
  rw [preemptDisable]
  by_cases same : task = scheduler.current
  · rw [same, tasks_modify_same]
  · rw [tasks_modify_of_ne _ _ _ same]

@[simp] theorem state_preemptEnable :
    (scheduler.preemptEnable.tasks task).state = (scheduler.tasks task).state := by
  rw [preemptEnable]
  by_cases same : task = scheduler.current
  · rw [same, tasks_modify_same]
  · rw [tasks_modify_of_ne _ _ _ same]

@[simp] theorem state_setCounter (counter : Int) :
    ((scheduler.setCounter counter).tasks task).state = (scheduler.tasks task).state := by
  rw [setCounter]
  by_cases same : task = scheduler.current
  · rw [same, tasks_modify_same]
  · rw [tasks_modify_of_ne _ _ _ same]

theorem state_setState (blocked : Nat) (state : TaskState) :
    ((scheduler.setState blocked state).tasks task).state =
      if task = blocked then state else (scheduler.tasks task).state := by
  rw [setState]
  split_ifs with same
  · rw [same, tasks_modify_same]
  · rw [tasks_modify_of_ne _ _ _ same]

theorem preemptCount_preemptDisable :
    (scheduler.preemptDisable.tasks task).preemptCount =
      (scheduler.tasks task).preemptCount + if task = scheduler.current then 1 else 0 := by
  rw [preemptDisable]
  split_ifs with same
  · rw [same, tasks_modify_same]
  · rw [tasks_modify_of_ne _ _ _ same, Int.add_zero]

theorem preemptCount_preemptEnable :
    (scheduler.preemptEnable.tasks task).preemptCount =
      (scheduler.tasks task).preemptCount - if task = scheduler.current then 1 else 0 := by
  rw [preemptEnable]
  split_ifs with same
  · rw [same, tasks_modify_same]
  · rw [tasks_modify_of_ne _ _ _ same, Int.sub_zero]

@[simp] theorem preemptCount_setState (blocked : Nat) (state : TaskState) :
    ((scheduler.setState blocked state).tasks task).preemptCount =
      (scheduler.tasks task).preemptCount := by
  rw [setState]
  by_cases same : task = blocked
  · rw [same, tasks_modify_same]
  · rw [tasks_modify_of_ne _ _ _ same]

@[simp] theorem preemptCount_setCounter (counter : Int) :
    ((scheduler.setCounter counter).tasks task).preemptCount =
      (scheduler.tasks task).preemptCount := by
  rw [setCounter]
  by_cases same : task = scheduler.current
  · rw [same, tasks_modify_same]
  · rw [tasks_modify_of_ne _ _ _ same]

@[simp] theorem preemptCount_checkTimer (slot : Nat) :
    ((scheduler.checkTimer slot).tasks task).preemptCount =
      (scheduler.tasks task).preemptCount := by
  rw [checkTimer]
  split_ifs
  · exact preemptCount_setState _ _ _ _
  · rfl

theorem state_checkTimer (slot : Nat) :
    ((scheduler.checkTimer slot).tasks task).state =
      if scheduler.Elapsed slot ∧ task = (scheduler.timerArr slot).taskPtr then .running
      else (scheduler.tasks task).state := by
  rw [checkTimer]
  split_ifs with elapsed both both
  · exact (state_setState _ _ _ _).trans (if_pos both.2)
  · exact (state_setState _ _ _ _).trans (if_neg fun same => both ⟨elapsed, same⟩)
  · exact absurd both.1 elapsed
  · rfl

theorem timerArr_checkTimer (slot other : Nat) :
    (scheduler.checkTimer slot).timerArr other =
      if scheduler.Elapsed slot ∧ other = slot then ⟨0, 0⟩ else scheduler.timerArr other := by
  rw [checkTimer]
  split_ifs with elapsed both both
  · rw [both.2]
    exact Function.update_self _ _ _
  · exact Function.update_of_ne (fun same => both ⟨elapsed, same⟩) _ _
  · exact absurd both.1 elapsed
  · rfl

theorem timerArr_setTimer (slot other : Nat) (timer : OnehitTimer) :
    (scheduler.setTimer slot timer).timerArr other =
      if other = slot then timer else scheduler.timerArr other := by
  rw [setTimer]
  split_ifs with same
  · rw [same]
    exact Function.update_self _ _ _
  · exact Function.update_of_ne same _ _

end Fields

end Scheduler

/-- A call in progress, at the statement that is executed next.  Calls of `register_one_hit` carry
the number of ticks that had passed when they were made. -/
inductive Frame
  /-- Code of the task outside the scheduler and the timers. -/
  | running
  /-- `ret_from_fork`, before `end_of_sched`. -/
  | forkReturn
  /-- `kernel_fork`: disable preemption, allocate the task, store it in the table, enable. -/
  | forkEnter
  | forkAllocate
  | forkPublish (newTask : Nat)
  | forkEnable
  /-- `exit_task`: disable preemption, mark the task, enable and call `schedule`, return.  The
  memory that it frees is not in the machine. -/
  | exitEnter
  | exitMark
  | exitEnable
  | exitLeave
  /-- `register_one_hit`: test a slot, store `finish_time`, store `task_ptr`, block the task and
  call `schedule`, return. -/
  | hitTest (call delay slot : Nat)
  | hitFinish (call delay slot : Nat)
  | hitPtr (call delay slot : Nat)
  | hitBlock (call delay slot : Nat)
  | hitLeave (call delay slot : Nat)
  /-- `schedule`: clear the counter. -/
  | scheduleEnter
  /-- `_schedule`: disable preemption, check a timer, scan the tasks, switch, enable. -/
  | selectEnter
  | selectTimers (slot : Nat)
  | selectScan
  | selectSwitch (next : Nat)
  | selectLeave
  deriving DecidableEq, Repr

namespace Frame

/-- Code of the task lies under its calls, and calls of the scheduler lie above these. -/
def layer : Frame → Nat
  | running | forkReturn => 0
  | forkEnter | forkAllocate | forkPublish _ | forkEnable => 1
  | exitEnter | exitMark | exitEnable | exitLeave => 1
  | hitTest .. | hitFinish .. | hitPtr .. | hitBlock .. | hitLeave .. => 1
  | scheduleEnter | selectEnter | selectTimers _ | selectScan | selectSwitch _ | selectLeave => 2

/-- The call has disabled preemption. -/
def critical : Frame → Bool
  | forkReturn | forkAllocate | forkPublish _ | forkEnable => true
  | exitMark | exitEnable => true
  | selectTimers _ | selectScan | selectSwitch _ | selectLeave => true
  | _ => false

/-- The call is still to choose the next task. -/
def pending : Frame → Bool
  | exitEnable | scheduleEnter | selectEnter | selectTimers _ | selectScan | selectSwitch _ => true
  | _ => false

/-- The next statement changes more than counters and preemption counts. -/
def loud : Frame → Bool
  | forkPublish _ | exitMark | hitFinish .. | hitPtr .. | hitBlock .. => true
  | selectTimers _ | selectSwitch _ => true
  | _ => false

/-- A call of `register_one_hit`. -/
def inHit : Frame → Bool
  | hitTest .. | hitFinish .. | hitPtr .. | hitBlock .. | hitLeave .. => true
  | _ => false

theorem layer_le (frame : Frame) : frame.layer ≤ 2 := by
  cases frame <;> simp [layer]

theorem one_le_layer {frame : Frame} (pending : frame.pending = true) : 1 ≤ frame.layer := by
  revert pending
  cases frame <;> simp [layer, pending]

end Frame

/-- The calls that take the place of the topmost one after its next statement, and the scheduler
after it. -/
def advance (scheduler : Scheduler) : Frame → Option (List Frame × Scheduler)
  | .running => none
  | .forkReturn => some ([.running], scheduler.preemptEnable)
  | .forkEnter => some ([.forkAllocate], scheduler.preemptDisable)
  | .forkAllocate => none
  | .forkPublish newTask => some ([.forkEnable], scheduler.publish newTask)
  | .forkEnable => some ([], scheduler.preemptEnable)
  | .exitEnter => some ([.exitMark], scheduler.preemptDisable)
  | .exitMark =>
      some ([.exitEnable], scheduler.setState (scheduler.taskArray scheduler.getPid) .zombie)
  | .exitEnable => some ([.scheduleEnter, .exitLeave], scheduler.preemptEnable)
  | .exitLeave => some ([], scheduler)
  | .hitTest call delay slot =>
      if slot < timerCount then
        if (scheduler.timerArr slot).finishTime = 0 then
          some ([.hitFinish call delay slot], scheduler)
        else
          some ([.hitTest call delay (slot + 1)], scheduler)
      else
        some ([], scheduler)
  | .hitFinish call delay slot =>
      some ([.hitPtr call delay slot], scheduler.setTimer slot
        ⟨(scheduler.currentTick + msToTicks delay) % 2 ^ 32, (scheduler.timerArr slot).taskPtr⟩)
  | .hitPtr call delay slot =>
      some ([.hitBlock call delay slot], scheduler.setTimer slot
        ⟨(scheduler.timerArr slot).finishTime, scheduler.current⟩)
  | .hitBlock call delay slot =>
      some ([.scheduleEnter, .hitLeave call delay slot],
        scheduler.setState scheduler.current .blocked)
  | .hitLeave _ _ _ => some ([], scheduler)
  | .scheduleEnter => some ([.selectEnter], scheduler.setCounter 0)
  | .selectEnter => some ([.selectTimers 0], scheduler.preemptDisable)
  | .selectTimers slot =>
      if slot < timerCount then some ([.selectTimers (slot + 1)], scheduler.checkTimer slot)
      else some ([.selectScan], scheduler)
  | .selectScan =>
      if 0 < scheduler.pickTask.1 then some ([.selectSwitch scheduler.pickTask.2], scheduler)
      else some ([.selectScan], scheduler.refill)
  | .selectSwitch next =>
      some ([.selectLeave], scheduler.switchTo (scheduler.taskArray next))
  | .selectLeave => some ([], scheduler.preemptEnable)

/-- The calls that code of a task may make. -/
inductive EntryCall : Nat → Frame → Prop
  | fork {elapsed : Nat} : EntryCall elapsed .forkEnter
  | exit {elapsed : Nat} : EntryCall elapsed .exitEnter
  | hit {elapsed delay : Nat} (small : delay < 2 ^ 32) :
      EntryCall elapsed (.hitTest elapsed delay 0)
  | schedule {elapsed : Nat} : EntryCall elapsed .scheduleEnter

/-- The scheduler, the stack of calls of every task, topmost first, and the number of ticks so far.
A task that does not exist has no calls. -/
structure Machine where
  scheduler : Scheduler
  calls : Nat → List Frame
  elapsed : Nat

namespace Machine

/-- The calls of the current task. -/
def stack (machine : Machine) : List Frame := machine.calls machine.scheduler.current

/-- Replace the calls of the current task, and the scheduler. -/
def next (machine : Machine) (stack : List Frame) (scheduler : Scheduler) : Machine where
  scheduler := scheduler
  calls := Function.update machine.calls machine.scheduler.current stack
  elapsed := machine.elapsed

/-- `scheduler_tick` until it returns or calls `_schedule`. -/
def tick (machine : Machine) : Machine :=
  let scheduler := machine.scheduler
  let task := scheduler.tasks scheduler.current
  let ticked := { scheduler.setCounter (task.counter - 1) with
    currentTick := (scheduler.currentTick + 1) % wordSize }
  if 0 < task.counter - 1 ∨ 0 < task.preemptCount then
    ⟨ticked, machine.calls, machine.elapsed + 1⟩
  else
    ⟨ticked.setCounter 0,
      Function.update machine.calls scheduler.current (.selectEnter :: machine.stack),
      machine.elapsed + 1⟩

/-- A new task of the current one, which still has to enter it in the table. -/
def forked (machine : Machine) (page : Nat) (rest : List Frame) : Machine where
  scheduler := machine.scheduler.modify page fun _ => machine.scheduler.forkedTask
  calls := Function.update
    (Function.update machine.calls machine.scheduler.current (.forkPublish page :: rest)) page
    [.forkReturn]
  elapsed := machine.elapsed

end Machine

/-- What happens in one step. -/
inductive MachineAction
  | tick
  | call (frame : Frame)
  | advance
  | allocate (page : Nat)
  deriving DecidableEq

/-- One statement of the current task, or a tick.  A page that is allocated for a task is not the
page of another one, and a failed allocation ends `kernel_fork`. -/
inductive MachineStep : MachineAction → Machine → Machine → Prop
  | tick {machine : Machine} : MachineStep .tick machine machine.tick
  | call {machine : Machine} {rest : List Frame} {frame : Frame}
      (stack : machine.stack = .running :: rest) (entry : EntryCall machine.elapsed frame) :
      MachineStep (.call frame) machine
        (machine.next (frame :: .running :: rest) machine.scheduler)
  | advance {machine : Machine} {frame : Frame} {frames rest : List Frame} {scheduler : Scheduler}
      (stack : machine.stack = frame :: rest)
      (result : PellOs.advance machine.scheduler frame = some (frames, scheduler)) :
      MachineStep .advance machine (machine.next (frames ++ rest) scheduler)
  | allocate {machine : Machine} {rest : List Frame} {page : Nat}
      (stack : machine.stack = .forkAllocate :: rest) (page_ne : page ≠ 0)
      (fresh : machine.calls page = []) :
      MachineStep (.allocate page) machine (machine.forked page rest)
  | allocateFails {machine : Machine} {rest : List Frame}
      (stack : machine.stack = .forkAllocate :: rest) :
      MachineStep (.allocate 0) machine (machine.next rest machine.scheduler)

/-- The machine at boot: `init_task` runs, and the tick count has any value. -/
def initialMachine (task tick : Nat) : Machine where
  scheduler := .initial task tick
  calls := Function.update (fun _ => []) task [.running]
  elapsed := 0

theorem calls_initialMachine (task tick other : Nat) :
    (initialMachine task tick).calls other = if other = task then [.running] else [] := by
  rw [initialMachine]
  dsimp only
  split_ifs with same
  · rw [same, Function.update_self]
  · rw [Function.update_of_ne same]

@[simp] theorem stack_initialMachine (task tick : Nat) :
    (initialMachine task tick).stack = [.running] :=
  (calls_initialMachine task tick task).trans (if_pos rfl)

/-- Steps that meet a condition on the action and the machine before it. -/
def StepWhere (condition : MachineAction → Machine → Prop) (before after : Machine) : Prop :=
  ∃ action, condition action before ∧ MachineStep action before after

/-- Machines reached from boot by steps that meet a condition. -/
def ReachesWhere (condition : MachineAction → Machine → Prop) (before after : Machine) : Prop :=
  Relation.ReflTransGen (StepWhere condition) before after

end PellOs
