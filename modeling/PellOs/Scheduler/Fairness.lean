import Mathlib.Data.List.ReduceOption
import PellOs.Lib.LabelledRuns
import PellOs.Scheduler.Delays
import PellOs.Scheduler.PreemptCounts

/-!
# Waiting for the processor

`_schedule` takes the processor from a task that is still ready only when the counter of the task is
used up, and it refills the counters only when those of all ready tasks are.  So another task gets
the processor again only after a refill, and every refill brings a waiting task closer to its turn.
-/

namespace PellOs

/-! ## Counters -/

/-- Counter and priority of a task. -/
def TaskControl.charge (task : TaskControl) : Int × Int := (task.counter, task.priority)

/-- What the counter of a task can be after `elapsed` ticks. -/
structure Charged (elapsed : Nat) (task : TaskControl) : Prop where
  priority : task.priority = 1
  low : -(elapsed : Int) ≤ task.counter
  high : task.counter ≤ 1

section Counters

variable {elapsed : Nat} {scheduler after : Scheduler} {frame : Frame} {frames : List Frame}

theorem Charged.refillTask {task : TaskControl} (charged : Charged elapsed task) :
    Charged elapsed (Scheduler.refillTask task) := by
  obtain ⟨priority, low, high⟩ := charged
  refine ⟨priority, ?_, ?_⟩
  · rw [Scheduler.counter_refillTask]
    omega
  · rw [Scheduler.counter_refillTask]
    omega

theorem Charged.of_eq {later : Nat} {task other : TaskControl} (charged : Charged elapsed task)
    (past : elapsed ≤ later)
    (same : other.charge = task.charge) :
    Charged later other := by
  obtain ⟨counter, priority⟩ := Prod.mk.inj same
  obtain ⟨one, low, high⟩ := charged
  exact ⟨priority.trans one, by omega, by omega⟩

private theorem refillFrom_keeps {holds : TaskControl → Prop}
    (one : ∀ task, holds task → holds (Scheduler.refillTask task)) (remaining i : Nat)
    (all : ∀ task, holds (scheduler.tasks task)) (task : Nat) :
    holds ((Scheduler.refillFrom remaining i scheduler).tasks task) := by
  induction remaining generalizing i scheduler with
  | zero => exact all task
  | succ remaining ih =>
      rw [Scheduler.refillFrom]
      refine ih (i + 1) fun other => ?_
      split_ifs
      · by_cases same : other = scheduler.taskArray i
        · rw [same, Scheduler.tasks_modify_same]
          exact one _ (all _)
        · rw [Scheduler.tasks_modify_of_ne _ _ _ same]
          exact all other
      · exact all other

theorem charged_refill (all : ∀ task, Charged elapsed (scheduler.tasks task)) (task : Nat) :
    Charged elapsed (scheduler.refill.tasks task) := by
  rw [Scheduler.refill]
  exact refillFrom_keeps (fun _ charged => charged.refillTask) nTasksMax 0 all task

/-- A change that keeps counter and priority of one task keeps them for every task. -/
private theorem charge_modify {change : TaskControl → TaskControl}
    (keeps : ∀ task, (change task).charge = task.charge) (changed task : Nat) :
    ((scheduler.modify changed change).tasks task).charge = (scheduler.tasks task).charge := by
  by_cases same : task = changed
  · rw [same, Scheduler.tasks_modify_same, keeps]
  · rw [Scheduler.tasks_modify_of_ne _ _ _ same]

/-- What a statement does to the counters: `schedule` clears that of the current task, and
`_schedule` refills them all. -/
inductive Charge (scheduler : Scheduler) : Frame → List Frame → Scheduler → Prop
  | kept {frame : Frame} {frames : List Frame} {after : Scheduler}
      (plain : frame ≠ .scheduleEnter)
      (same : ∀ task, (after.tasks task).charge = (scheduler.tasks task).charge) :
      Charge scheduler frame frames after
  | cleared : Charge scheduler .scheduleEnter [.selectEnter] (scheduler.setCounter 0)
  | refilled (exhausted : ¬0 < scheduler.pickTask.1) :
      Charge scheduler .selectScan [.selectScan] scheduler.refill

theorem charge_of_advance (result : advance scheduler frame = some (frames, after)) :
    Charge scheduler frame frames after := by
  cases frame with
  | running => cases result
  | forkAllocate => cases result
  | scheduleEnter =>
      obtain ⟨rfl, rfl⟩ := Prod.mk.inj (Option.some.inj result)
      exact .cleared
  | selectScan =>
      rw [advance] at result
      split_ifs at result with positive
      all_goals obtain ⟨rfl, rfl⟩ := Prod.mk.inj (Option.some.inj result)
      · exact .kept (by simp) fun _ => rfl
      · exact .refilled positive
  | selectTimers slot =>
      rw [advance] at result
      split_ifs at result
      all_goals obtain ⟨rfl, rfl⟩ := Prod.mk.inj (Option.some.inj result)
      · refine .kept (by simp) fun task => ?_
        rw [Scheduler.checkTimer]
        split_ifs
        · show ((scheduler.setState (scheduler.timerArr slot).taskPtr .running).tasks task).charge =
            (scheduler.tasks task).charge
          exact charge_modify (by intro; rfl) _ task
        · rfl
      · exact .kept (by simp) fun _ => rfl
  | hitTest call delay slot =>
      rw [advance] at result
      split_ifs at result
      all_goals obtain ⟨rfl, rfl⟩ := Prod.mk.inj (Option.some.inj result)
      all_goals exact .kept (by simp) fun _ => rfl
  | forkPublish | exitLeave | hitFinish | hitPtr | hitLeave | selectSwitch =>
      obtain ⟨rfl, rfl⟩ := Prod.mk.inj (Option.some.inj result)
      exact .kept (by simp) fun _ => rfl
  | _ =>
      obtain ⟨rfl, rfl⟩ := Prod.mk.inj (Option.some.inj result)
      exact .kept (by simp) (charge_modify (by intro; rfl) _)

theorem Scheduler.charge_setCounter (scheduler : Scheduler) (counter : Int) (task : Nat) :
    ((scheduler.setCounter counter).tasks task).charge =
      if task = scheduler.current then (counter, (scheduler.tasks task).priority)
      else (scheduler.tasks task).charge := by
  rw [Scheduler.setCounter]
  split_ifs with same
  · rw [same, Scheduler.tasks_modify_same]
    rfl
  · rw [Scheduler.tasks_modify_of_ne _ _ _ same]

theorem charged_setCounter {counter : Int} {later : Nat} (past : elapsed ≤ later)
    (all : ∀ task, Charged elapsed (scheduler.tasks task))
    (low : -(later : Int) ≤ counter) (high : counter ≤ 1) (task : Nat) :
    Charged later ((scheduler.setCounter counter).tasks task) := by
  have charge := scheduler.charge_setCounter counter task
  split_ifs at charge with same
  · obtain ⟨is, priority⟩ := Prod.mk.inj charge
    exact ⟨priority.trans (all task).priority, by omega, by omega⟩
  · exact (all task).of_eq past charge

end Counters

/-- A tick takes one from the counter of the current task, or clears it and calls `_schedule`. -/
theorem Machine.charge_tick (machine : Machine) :
    ∃ counter, (machine.tick.calls = machine.calls ∧
          counter = (machine.scheduler.tasks machine.scheduler.current).counter - 1 ∨
        machine.tick.calls = Function.update machine.calls machine.scheduler.current
          (.selectEnter :: machine.stack) ∧ counter = 0 ∧
          (machine.scheduler.tasks machine.scheduler.current).counter ≤ 1) ∧
      ∀ task, (machine.tick.scheduler.tasks task).charge =
        if task = machine.scheduler.current then
          (counter, (machine.scheduler.tasks task).priority)
        else (machine.scheduler.tasks task).charge := by
  unfold tick
  dsimp only
  split_ifs with returns
  · exact ⟨_, Or.inl ⟨rfl, rfl⟩, fun task => machine.scheduler.charge_setCounter _ task⟩
  · obtain ⟨used, -⟩ := not_or.mp returns
    refine ⟨0, Or.inr ⟨rfl, rfl, by omega⟩, fun task => ?_⟩
    have first := machine.scheduler.charge_setCounter
      ((machine.scheduler.tasks machine.scheduler.current).counter - 1) task
    refine (Scheduler.charge_setCounter _ 0 task).trans ?_
    by_cases same : task = machine.scheduler.current
    · rw [if_pos same] at first ⊢
      exact (if_pos same).trans (congrArg (Prod.mk 0) (Prod.mk.inj first).2)
    · rw [if_neg same] at first ⊢
      exact (if_neg same).trans first

/-- Counters stay within one and the number of ticks so far. -/
theorem charged_step {action : MachineAction} {before after : Machine}
    (step : MachineStep action before after)
    (all : ∀ task, Charged before.elapsed (before.scheduler.tasks task)) (task : Nat) :
    Charged after.elapsed (after.scheduler.tasks task) := by
  cases step with
  | tick =>
      have own := all before.scheduler.current
      obtain ⟨counter, how, charge⟩ := before.charge_tick
      have later : before.tick.elapsed = before.elapsed + 1 := before.tick_cases.2
      have here := charge task
      split_ifs at here with same
      · obtain ⟨is, priority⟩ := Prod.mk.inj here
        have low := own.low
        have high := own.high
        refine ⟨priority.trans (all task).priority, ?_, ?_⟩
        · rcases how with ⟨-, rfl⟩ | ⟨-, rfl, -⟩ <;> omega
        · rcases how with ⟨-, rfl⟩ | ⟨-, rfl, -⟩ <;> omega
      · exact (all task).of_eq (by omega) here
  | call | allocateFails => exact all task
  | advance stack result =>
      rw [Machine.scheduler_next, Machine.elapsed_next]
      cases charge_of_advance result with
      | kept plain same => exact (all task).of_eq (le_refl _) (same task)
      | cleared => exact charged_setCounter (le_refl _) all (by omega) (by decide) task
      | refilled => exact charged_refill all task
  | allocate stack page_ne fresh =>
      rw [Machine.tasks_forked]
      split_ifs
      · have one := (all before.scheduler.current).priority
        have count : before.scheduler.forkedTask.counter = 1 := one
        exact ⟨one, by omega, by omega⟩
      · exact all task

/-! ## The task that leaves -/

namespace Frame

/-- `_schedule` looks for the next task, or has found it. -/
def choosing : Frame → Bool
  | selectScan | selectSwitch _ => true
  | _ => false

/-- `_schedule` has not come to the scan yet. -/
def entering : Frame → Bool
  | selectEnter | selectTimers _ => true
  | _ => false

end Frame

/-- `_schedule` looks for the next task on top of the calls of a task only where it has come to the
scan on the same calls. -/
theorem choosing_step {action : MachineAction} {before after : Machine}
    (well : WellStacked before) (controlled : Controlled before)
    (step : MachineStep action before after) {frame : Frame} {rest : List Frame}
    (stack : after.stack = frame :: rest) (choosing : frame.choosing = true) :
    (after = before.tick ∧ before.stack = frame :: rest) ∨
      ∃ top scheduler, before.stack = top :: rest ∧
        advance before.scheduler top = some ([frame], scheduler) ∧
        after = before.next (frame :: rest) scheduler := by
  have critical : frame.critical = true := by
    revert choosing
    cases frame <;> simp [Frame.choosing, Frame.critical]
  have never {top : Frame} {below : List Frame} (under : before.stack = top :: below)
      (same : below = frame :: rest) : False := by
    have calm := well.settled under frame (by rw [same]; exact List.mem_cons_self)
    rw [critical] at calm
    cases calm
  cases step with
  | tick =>
      rw [Machine.stack, Machine.current_tick] at stack
      rcases before.tick_cases.1 with same | ⟨-, pushed⟩
      · rw [same] at stack
        exact Or.inl ⟨rfl, stack⟩
      · rw [pushed, Function.update_self] at stack
        obtain ⟨rfl, -⟩ := List.cons.inj stack
        cases choosing
  | call _ entry =>
      rw [Machine.stack_next _ _ rfl] at stack
      obtain ⟨rfl, -⟩ := List.cons.inj stack
      cases entry <;> cases choosing
  | @advance _ top frames below changed top_stack result =>
      rcases Controlled.current_advance result with ⟨same, -⟩ | ⟨target, rfl, rfl, rfl⟩
      · rw [Machine.stack_next _ _ same] at stack
        cases frames with
        | nil => exact (never top_stack stack).elim
        | cons first frames =>
            obtain ⟨rfl, tail⟩ := List.cons.inj stack
            cases flow_of_advance result with
            | timersDone | selectFound | selectAgain =>
                refine Or.inr ⟨_, changed, ?_, result, ?_⟩
                · rw [top_stack, ← tail]
                  rfl
                · rw [← tail]
                  rfl
            | _ => cases choosing
      · rw [Machine.stack, Machine.calls_next] at stack
        split_ifs at stack with old
        · obtain ⟨rfl, -⟩ := List.cons.inj stack
          cases choosing
        · rcases controlled.suspended _ old _ _ stack with rfl | rfl
          · cases choosing
          · cases choosing
  | allocate top_stack page_ne fresh =>
      have differ : before.scheduler.current ≠ _ := fun same => by
        rw [Machine.stack, same, fresh] at top_stack
        cases top_stack
      rw [Machine.stack, Machine.current_forked, Machine.calls_forked, if_neg differ,
        if_pos rfl] at stack
      obtain ⟨rfl, -⟩ := List.cons.inj stack
      cases choosing
  | allocateFails top_stack =>
      rw [Machine.stack_next _ _ rfl] at stack
      exact (never top_stack stack).elim

/-- A current task that is not ready is on its way to the scan, and comes there with its counter
used up. -/
def Stopped (machine : Machine) : Prop :=
  (machine.scheduler.tasks machine.scheduler.current).state ≠ .running →
    ∃ frame rest, machine.stack = frame :: rest ∧ frame.pending = true ∧
      (frame.entering = true →
        (machine.scheduler.tasks machine.scheduler.current).counter ≤ 0)

/-- The task that `_schedule` is about to switch to can use the processor, and the current one is
not ready or has used up its counter. -/
def Chosen (machine : Machine) : Prop :=
  ∀ next rest, machine.stack = .selectSwitch next :: rest →
    machine.scheduler.taskArray next ≠ machine.scheduler.current →
      0 < machine.scheduler.counterAt next ∧
      ((machine.scheduler.tasks machine.scheduler.current).state = .running →
        (machine.scheduler.tasks machine.scheduler.current).counter ≤ 0)

section Leaving

variable {action : MachineAction} {before after : Machine}

/-- A statement other than the switch leads a task that is not ready on to the scan. -/
private theorem stopped_advance {scheduler changed : Scheduler} {top : Frame}
    {frames below : List Frame} (result : advance scheduler top = some (frames, changed))
    (stays : changed.current = scheduler.current) (still : ∀ next, top ≠ .selectSwitch next)
    (stopped : (scheduler.tasks scheduler.current).state ≠ .running →
      top.pending = true ∧
        (top.entering = true → (scheduler.tasks scheduler.current).counter ≤ 0))
    (asleep : (changed.tasks changed.current).state ≠ .running) :
    ∃ frame rest, frames ++ below = frame :: rest ∧ frame.pending = true ∧
      (frame.entering = true → (changed.tasks changed.current).counter ≤ 0) := by
  rw [stays] at asleep ⊢
  cases effect_of_advance result with
  | quiet plain quiet =>
      rw [quiet.state] at asleep
      obtain ⟨pending, spent⟩ := stopped asleep
      cases flow_of_advance result with
      | exitEnable => exact ⟨.scheduleEnter, _, rfl, rfl, nofun⟩
      | scheduleEnter =>
          refine ⟨.selectEnter, below, rfl, rfl, fun _ => ?_⟩
          obtain ⟨-, rfl⟩ := Prod.mk.inj (Option.some.inj result)
          have charge := scheduler.charge_setCounter 0 scheduler.current
          rw [if_pos rfl] at charge
          exact le_of_eq (Prod.mk.inj charge).1
      | selectEnter =>
          refine ⟨.selectTimers 0, below, rfl, rfl, fun _ => ?_⟩
          cases charge_of_advance result with
          | kept plain same =>
              exact le_of_eq_of_le (Prod.mk.inj (same scheduler.current)).1 (spent rfl)
      | selectFound next => exact ⟨.selectSwitch next, below, rfl, rfl, nofun⟩
      | selectAgain => exact ⟨.selectScan, below, rfl, rfl, nofun⟩
      | timersNext | timersDone | selectSwitch => cases plain
      | _ => cases pending
  | mark => exact ⟨.exitEnable, below, rfl, rfl, nofun⟩
  | block call delay slot => exact ⟨.scheduleEnter, _, rfl, rfl, nofun⟩
  | publish | finish | ptr => cases (stopped asleep).1
  | timer slot inside =>
      have was : (scheduler.tasks scheduler.current).state ≠ .running := by
        intro running
        rw [Scheduler.state_checkTimer, running] at asleep
        exact asleep (ite_self _)
      refine ⟨.selectTimers (slot + 1), below, rfl, rfl, fun _ => ?_⟩
      cases charge_of_advance result with
      | kept plain same =>
          exact le_of_eq_of_le (Prod.mk.inj (same scheduler.current)).1 ((stopped was).2 rfl)
  | timers slot => exact ⟨.selectScan, below, rfl, rfl, nofun⟩
  | switch next => exact absurd rfl (still next)

theorem Stopped.step (stopped : Stopped before) (controlled : Controlled before)
    (step : MachineStep action before after) : Stopped after := by
  intro asleep
  cases step with
  | tick =>
      rw [Machine.current_tick, Machine.state_tick] at asleep
      obtain ⟨frame, rest, stack, pending, spent⟩ := stopped asleep
      obtain ⟨counter, how, charge⟩ := before.charge_tick
      have own := charge before.scheduler.current
      rw [if_pos rfl] at own
      have is := (Prod.mk.inj own).1
      rw [Machine.current_tick, Machine.stack, Machine.current_tick]
      rcases how with ⟨same, rfl⟩ | ⟨pushed, rfl, -⟩
      · rw [same]
        refine ⟨frame, rest, stack, pending, fun entering => ?_⟩
        have low := spent entering
        omega
      · rw [pushed, Function.update_self]
        exact ⟨.selectEnter, _, rfl, rfl, fun _ => le_of_eq is⟩
  | call stack entry =>
      obtain ⟨frame, rest, top, pending, -⟩ := stopped asleep
      rw [stack] at top
      obtain ⟨rfl, -⟩ := List.cons.inj top
      cases pending
  | @advance _ top frames below changed stack result =>
      rcases Controlled.current_advance result with ⟨same, still⟩ | ⟨next, rfl, rfl, rfl⟩
      · rw [Machine.stack_next _ _ same]
        refine stopped_advance result same still (fun was => ?_) asleep
        obtain ⟨frame, rest, same_stack, pending, spent⟩ := stopped was
        rw [stack] at same_stack
        obtain ⟨rfl, -⟩ := List.cons.inj same_stack
        exact ⟨pending, spent⟩
      · exact absurd (controlled.switching next below stack).running asleep
  | allocate stack page_ne fresh =>
      have differ : before.scheduler.current ≠ _ := fun same => by
        rw [Machine.stack, same, fresh] at stack
        cases stack
      rw [Machine.current_forked, Machine.tasks_forked, if_neg differ] at asleep
      obtain ⟨frame, rest, top, pending, -⟩ := stopped asleep
      rw [stack] at top
      obtain ⟨rfl, -⟩ := List.cons.inj top
      cases pending
  | allocateFails stack =>
      obtain ⟨frame, rest, top, pending, -⟩ := stopped asleep
      rw [stack] at top
      obtain ⟨rfl, -⟩ := List.cons.inj top
      cases pending

theorem inRange_of_charged {elapsed : Nat} {scheduler : Scheduler}
    (all : ∀ task, Charged elapsed (scheduler.tasks task)) (early : elapsed < 2 ^ 31) :
    scheduler.InRange := by
  intro index _ _
  obtain ⟨priority, low, high⟩ := all (scheduler.taskArray index)
  rw [Scheduler.counterAt, Scheduler.priorityAt, priority]
  omega

/-- A ready current task whose counter is not used up is chosen again. -/
theorem current_of_selected {elapsed : Nat} {scheduler : Scheduler} (tabled : Tabled scheduler)
    (all : ∀ task, Charged elapsed (scheduler.tasks task)) {next : Nat}
    (selected : scheduler.Selected next)
    (running : (scheduler.tasks scheduler.current).state = .running)
    (left : 0 < (scheduler.tasks scheduler.current).counter) :
    scheduler.taskArray next = scheduler.current := by
  have here := tabled.taskArray_getPid
  have ready : scheduler.Ready scheduler.getPid := by
    refine ⟨scheduler.getPidFromPtr_lt _, ?_, ?_⟩
    · rw [here]
      exact tabled.present
    · rwa [here]
  have counter : scheduler.counterAt scheduler.getPid =
      (scheduler.tasks scheduler.current).counter := by
    rw [Scheduler.counterAt, here]
  have most := (all (scheduler.taskArray next)).high
  have largest := selected.largest _ ready
  have first := selected.first _ ready (le_antisymm largest (by
    rw [Scheduler.counterAt, counter]
    omega))
  have zero : scheduler.cyclicDistance scheduler.getPid = 0 := by
    rw [Scheduler.cyclicDistance, Nat.add_sub_cancel_left]
    rfl
  rw [zero, Scheduler.cyclicDistance] at first
  have inside := selected.ready.inside
  have bound := ready.inside
  have same : next = scheduler.getPid := by
    simp only [nTasksMax] at first inside bound
    omega
  rw [same, here]

theorem Chosen.step (chosen : Chosen before) (well : WellStacked before)
    (controlled : Controlled before) (tabled : Tabled before.scheduler)
    (all : ∀ task, Charged before.elapsed (before.scheduler.tasks task))
    (early : before.elapsed < 2 ^ 31) (step : MachineStep action before after) :
    Chosen after := by
  intro next rest stack away
  rcases choosing_step well controlled step stack rfl with
    ⟨rfl, same⟩ | ⟨top, scheduler, -, result, rfl⟩
  · rw [Machine.taskArray_tick, Machine.current_tick] at away
    obtain ⟨positive, spent⟩ := chosen next rest same away
    obtain ⟨counter, how, charge⟩ := before.charge_tick
    have other := charge (before.scheduler.taskArray next)
    rw [if_neg away] at other
    have own := charge before.scheduler.current
    rw [if_pos rfl] at own
    rw [Scheduler.counterAt, Machine.taskArray_tick, Machine.current_tick, Machine.state_tick]
    refine ⟨lt_of_lt_of_eq positive (Prod.mk.inj other).1.symm, fun running => ?_⟩
    rw [(Prod.mk.inj own).1]
    have low := spent running
    rcases how with ⟨-, rfl⟩ | ⟨-, rfl, -⟩ <;> omega
  · rw [Machine.scheduler_next] at away ⊢
    cases top with
    | selectScan =>
        rw [advance] at result
        split_ifs at result with positive
        · obtain ⟨here, rfl⟩ := Prod.mk.inj (Option.some.inj result)
          obtain rfl := Frame.selectSwitch.inj (List.cons.inj here).1
          have selected := (Scheduler.pickTask_spec (inRange_of_charged all early)).1 positive
          refine ⟨selected.positive, fun running => le_of_not_gt fun left => away ?_⟩
          exact current_of_selected tabled all selected running left
        · cases result
    | _ => cases flow_of_advance result

end Leaving

/-! ## Turns -/

/-- The table has room for every new task, and the ticks so far fit in the counters. -/
def Clocked (action : MachineAction) (machine : Machine) : Prop :=
  HasRoom action machine ∧ machine.elapsed < 2 ^ 31

/-- What holds in every machine reached while the ticks fit in the counters. -/
structure Rationed (machine : Machine) : Prop where
  tabled : TabledInv machine
  housed : Housed machine
  charged : ∀ task, Charged machine.elapsed (machine.scheduler.tasks task)
  stopped : Stopped machine
  chosen : Chosen machine

/-- The current task is not ready, and `_schedule` has come to the scan. -/
def Machine.Leaving (machine : Machine) : Prop :=
  (machine.scheduler.tasks machine.scheduler.current).state ≠ .running ∧
    ∃ frame rest, machine.stack = frame :: rest ∧ frame.choosing = true

/-- The task can get the processor before the next refill: its counter is not used up, and it does
not have the processor already.  A task that is still to be created can, too. -/
def Credited (machine : Machine) (task : Nat) : Prop :=
  Based machine task →
    0 < (machine.scheduler.tasks task).counter ∧
      (task = machine.scheduler.current → machine.Leaving)

open Classical in
/-- The turns that a task can have while the task in slot `index` waits: one before the next refill,
and one after each refill that it takes to make the counter of the waiting task positive. -/
noncomputable def turns (index task : Nat) (machine : Machine) : Nat :=
  (if Credited machine task then 1 else 0) +
    Scheduler.deficit (machine.scheduler.counterAt index)

/-- The task in slot `index` is ready, and another one runs. -/
structure Machine.Waiting (machine : Machine) (index : Nat) : Prop where
  ready : machine.scheduler.Ready index
  away : machine.scheduler.taskArray index ≠ machine.scheduler.current

/-- The task that gets the processor from another one in the step, if one does. -/
def Machine.switched (machine : Machine) : MachineAction → Option Nat
  | .advance =>
      match machine.stack with
      | .selectSwitch next :: _ =>
          if machine.scheduler.taskArray next = machine.scheduler.current then none
          else some (machine.scheduler.taskArray next)
      | _ => none
  | _ => none

/-- The step refills the counters. -/
def Refills (before after : Machine) : Prop :=
  ∃ rest, before.stack = .selectScan :: rest ∧ ¬0 < before.scheduler.pickTask.1 ∧
    after = before.next (.selectScan :: rest) before.scheduler.refill

/-- A step while the task in slot `index` waits, labelled with the task that gets the processor. -/
def WaitStep (index : Nat) (label : Option Nat) (before after : Machine) : Prop :=
  before.Waiting index ∧ after.Waiting index ∧
    ∃ action, Clocked action before ∧ MachineStep action before after ∧
      label = before.switched action

section Turns

variable {action : MachineAction} {before after : Machine}

theorem Rationed.initial {task : Nat} (task_ne : task ≠ 0) (tick : Nat) :
    Rationed (initialMachine task tick) where
  tabled := .initial task_ne tick
  housed := .initial task tick
  charged := fun _ => ⟨rfl, le_refl _, zero_le_one⟩
  stopped := fun asleep => absurd rfl asleep
  chosen := by
    intro next rest stack
    rw [stack_initialMachine] at stack
    cases stack

theorem Rationed.step (rationed : Rationed before) (clocked : Clocked action before)
    (step : MachineStep action before after) : Rationed after where
  tabled := rationed.tabled.step ⟨action, clocked.1, step⟩
  housed := rationed.housed.step step
  charged := charged_step step rationed.charged
  stopped := rationed.stopped.step rationed.tabled.inv.controlled step
  chosen := rationed.chosen.step rationed.tabled.inv.well rationed.tabled.inv.controlled
    rationed.tabled.tabled rationed.charged clocked.2 step

theorem Rationed.of_run {task tick : Nat} (task_ne : task ≠ 0) {machine : Machine}
    (run : ReachesWhere Clocked (initialMachine task tick) machine) : Rationed machine := by
  induction run with
  | refl => exact .initial task_ne tick
  | tail _ last ih =>
      obtain ⟨action, clocked, step⟩ := last
      exact ih.step clocked step

theorem taskArray_of_present (tabled : Tabled before.scheduler) (room : HasRoom action before)
    (step : MachineStep action before after) {index : Nat} (inside : index < nTasksMax)
    (present : before.scheduler.taskArray index ≠ 0) :
    after.scheduler.taskArray index = before.scheduler.taskArray index := by
  cases step with
  | tick => exact congrFun before.taskArray_tick index
  | call | allocate | allocateFails => rfl
  | advance stack result =>
      rw [Machine.scheduler_next]
      cases effect_of_advance result with
      | quiet plain quiet => exact congrFun quiet.taskArray index
      | publish page =>
          refine Function.update_of_ne (fun same => present ?_) _ _
          exact tabled.empty index (le_of_eq same.symm) inside
      | timer slot _ =>
          rw [Scheduler.checkTimer]
          split_ifs <;> rfl
      | _ => rfl

/-- Without a refill no counter becomes positive, and only that of the current task changes. -/
theorem counter_step (step : MachineStep action before after) (kept : ¬Refills before after)
    {task : Nat} (based : Based before task) :
    (task ≠ before.scheduler.current →
      (after.scheduler.tasks task).counter = (before.scheduler.tasks task).counter) ∧
    (0 < (after.scheduler.tasks task).counter → 0 < (before.scheduler.tasks task).counter) := by
  cases step with
  | tick =>
      obtain ⟨counter, how, charge⟩ := before.charge_tick
      have here := charge task
      split_ifs at here with same
      · rw [same] at here ⊢
        rw [(Prod.mk.inj here).1]
        refine ⟨fun away => absurd rfl away, fun positive => ?_⟩
        rcases how with ⟨-, rfl⟩ | ⟨-, rfl, -⟩ <;> omega
      · rw [(Prod.mk.inj here).1]
        exact ⟨fun _ => rfl, id⟩
  | call | allocateFails => exact ⟨fun _ => rfl, id⟩
  | advance stack result =>
      cases charge_of_advance result with
      | kept plain same =>
          rw [Machine.scheduler_next, (Prod.mk.inj (same task)).1]
          exact ⟨fun _ => rfl, id⟩
      | cleared =>
          have charge := before.scheduler.charge_setCounter 0 task
          rw [Machine.scheduler_next]
          split_ifs at charge with same
          · rw [(Prod.mk.inj charge).1]
            exact ⟨fun away => absurd same away, fun positive => absurd positive (by decide)⟩
          · rw [(Prod.mk.inj charge).1]
            exact ⟨fun _ => rfl, id⟩
      | refilled exhausted => exact absurd ⟨_, stack, exhausted, rfl⟩ kept
  | allocate stack page_ne fresh =>
      rw [Machine.tasks_forked, if_neg]
      · exact ⟨fun _ => rfl, id⟩
      · rintro rfl
        obtain ⟨base, member, -⟩ := based
        rw [fresh] at member
        cases member

/-- A task that is about to leave with its counter not used up has been so before. -/
theorem leaving_step (rationed : Rationed before) (step : MachineStep action before after)
    (kept : ¬Refills before after)
    (left : 0 < (before.scheduler.tasks before.scheduler.current).counter)
    (leaving : after.Leaving) : before.Leaving := by
  obtain ⟨asleep, frame, rest, stack, choosing⟩ := leaving
  have inv := rationed.tabled.inv
  rcases choosing_step inv.well inv.controlled step stack choosing with
    ⟨rfl, same⟩ | ⟨top, scheduler, same, result, rfl⟩
  · rw [Machine.current_tick, Machine.state_tick] at asleep
    exact ⟨asleep, frame, rest, same, choosing⟩
  · cases top with
    | selectScan =>
        rw [advance] at result
        split_ifs at result with positive
        · obtain ⟨-, rfl⟩ := Prod.mk.inj (Option.some.inj result)
          exact ⟨asleep, .selectScan, rest, same, rfl⟩
        · obtain ⟨here, rfl⟩ := Prod.mk.inj (Option.some.inj result)
          obtain ⟨rfl, -⟩ := List.cons.inj here
          exact absurd ⟨rest, same, positive, rfl⟩ kept
    | selectTimers slot =>
        rw [advance] at result
        split_ifs at result with inside
        · obtain ⟨here, -⟩ := Prod.mk.inj (Option.some.inj result)
          obtain ⟨rfl, -⟩ := List.cons.inj here
          cases choosing
        · obtain ⟨-, rfl⟩ := Prod.mk.inj (Option.some.inj result)
          obtain ⟨other, below, also, -, spent⟩ := rationed.stopped asleep
          rw [same] at also
          obtain ⟨rfl, -⟩ := List.cons.inj also
          exact absurd left (not_lt_of_ge (spent rfl))
    | _ => cases flow_of_advance result <;> cases choosing

theorem switched_eq_some {machine : Machine} {task : Nat}
    (switched : machine.switched action = some task) :
    action = .advance ∧ task ≠ machine.scheduler.current ∧
      ∃ next rest, machine.stack = .selectSwitch next :: rest ∧
        machine.scheduler.taskArray next = task := by
  rw [Machine.switched.eq_def] at switched
  split at switched
  · split at switched
    · next next rest stack =>
        split_ifs at switched with same
        obtain rfl := Option.some.inj switched
        exact ⟨rfl, same, next, rest, stack, rfl⟩
    · cases switched
  · cases switched

/-- A task that gets the processor could do so, and cannot do so again. -/
theorem credited_of_switched (rationed : Rationed before)
    (step : MachineStep action before after) {task : Nat}
    (switched : before.switched action = some task) :
    Credited before task ∧ ¬Credited after task := by
  obtain ⟨rfl, away, next, rest, stack, rfl⟩ := switched_eq_some switched
  have ready := rationed.tabled.inv.controlled.switching next rest stack
  refine ⟨fun _ => ⟨(rationed.chosen next rest stack away).1, fun same => absurd same away⟩,
    fun credited => ?_⟩
  have based := rationed.housed.listed next ready.present
  cases step with
  | @advance _ top frames below changed top_stack result =>
      rw [stack] at top_stack
      obtain ⟨rfl, rfl⟩ := List.cons.inj top_stack
      obtain ⟨rfl, rfl⟩ := Prod.mk.inj (Option.some.inj result)
      obtain ⟨-, frame, below, stack_after, choosing⟩ :=
        (credited (based.step (.advance stack result))).2 rfl
      rw [Machine.stack, Machine.calls_next] at stack_after
      split_ifs at stack_after with same
      · exact away same
      · rcases rationed.tabled.inv.controlled.suspended _ away _ _ stack_after with rfl | rfl
        · cases choosing
        · cases choosing

/-- Without a refill a task can get the processor only if it could before. -/
theorem credited_step (rationed : Rationed before) (step : MachineStep action before after)
    (kept : ¬Refills before after) {task : Nat} (credited : Credited after task) :
    Credited before task := by
  intro based
  obtain ⟨positive, leaving⟩ := credited (based.step step)
  have left := (counter_step step kept based).2 positive
  refine ⟨left, fun current => ?_⟩
  rw [current] at left
  by_cases stays : after.scheduler.current = before.scheduler.current
  · exact leaving_step rationed step kept left (leaving (current.trans stays.symm))
  · cases step with
    | tick => exact absurd before.current_tick stays
    | call | allocate | allocateFails => exact absurd rfl stays
    | advance stack result =>
        rcases Controlled.current_advance result with ⟨same, -⟩ | ⟨next, rfl, rfl, rfl⟩
        · exact absurd same stays
        · have spent := (rationed.chosen next _ stack stays).2
          exact ⟨fun running => absurd left (not_lt_of_ge (spent running)), _, _, stack, rfl⟩

/-- Every turn of another task is paid for, by the task itself or by a refill. -/
theorem turns_step {index : Nat} {label : Option Nat} (task : Nat) (rationed : Rationed before)
    (waits : WaitStep index label before after) :
    Rationed after ∧
      turns index task after + [label].count (some task) ≤ turns index task before := by
  obtain ⟨⟨ready, away⟩, -, action, clocked, step, rfl⟩ := waits
  refine ⟨rationed.step clocked step, ?_⟩
  have slot := taskArray_of_present rationed.tabled.tabled clocked.1 step ready.inside ready.present
  have once : [before.switched action].count (some task) =
      if before.switched action = some task then 1 else 0 := by
    rw [List.count_singleton]
    simp only [beq_iff_eq]
  rw [turns, turns, once]
  by_cases refills : Refills before after
  · obtain ⟨rest, stack, exhausted, rfl⟩ := refills
    have range := inRange_of_charged rationed.charged clocked.2
    have low := (Scheduler.pickTask_spec range).2 exhausted index ready
    have dry : Scheduler.deficit (before.scheduler.counterAt index) ≠ 0 := by
      rw [Ne, Scheduler.deficit_eq_zero_iff]
      omega
    -- the refill brings the waiting task closer, which pays for what it gives to the other one
    have closer := Scheduler.deficit_refill ready.inside ready.present
      (le_of_eq (rationed.charged (before.scheduler.taskArray index)).priority.symm)
    have quiet : before.switched action ≠ some task := by
      intro switched
      obtain ⟨-, -, next, below, same, -⟩ := switched_eq_some switched
      rw [stack] at same
      cases same
    rw [Machine.scheduler_next, if_neg quiet]
    split_ifs <;> omega
  · have same : after.scheduler.counterAt index = before.scheduler.counterAt index := by
      rw [Scheduler.counterAt, slot]
      exact (counter_step step refills (rationed.housed.listed index ready.present)).1 away
    rw [same]
    by_cases switched : before.switched action = some task
    · obtain ⟨could, cannot⟩ := credited_of_switched rationed step switched
      rw [if_neg cannot, if_pos could, if_pos switched]
      omega
    · rw [if_neg switched]
      split_ifs with can could
      · exact le_refl _
      · exact absurd (credited_step rationed step refills can) could
      · omega
      · exact le_refl _

theorem current_of_switched (step : MachineStep action before after) {task : Nat}
    (switched : before.switched action = some task) : after.scheduler.current = task := by
  obtain ⟨rfl, -, next, rest, stack, rfl⟩ := switched_eq_some switched
  cases step with
  | advance top_stack result =>
      rw [stack] at top_stack
      obtain ⟨rfl, -⟩ := List.cons.inj top_stack
      obtain ⟨-, rfl⟩ := Prod.mk.inj (Option.some.inj result)
      rfl

/-- A task that has got the processor in the run is in another slot of the table. -/
theorem listed_of_switched {index : Nat} {labels : List (Option Nat)} (rationed : Rationed before)
    (waits : LabelledRuns.Run (WaitStep index) labels before after) :
    Rationed after ∧ ∀ task, some task ∈ labels → task ≠ 0 ∧
      ∃ slot, slot < nTasksMax ∧ slot ≠ index ∧ after.scheduler.taskArray slot = task := by
  induction waits with
  | refl => exact ⟨rationed, nofun⟩
  | @tail earlier label _ middle last _ one ih =>
      obtain ⟨kept, listed⟩ := ih rationed
      obtain ⟨-, ⟨-, away⟩, action, clocked, step, rfl⟩ := one
      have same {slot : Nat} := @taskArray_of_present _ _ _ kept.tabled.tabled clocked.1 step slot
      refine ⟨kept.step clocked step, fun task member => ?_⟩
      rcases List.mem_append.mp member with old | new
      · obtain ⟨present, slot, inside, other, rfl⟩ := listed task old
        exact ⟨present, slot, inside, other, same inside present⟩
      · have switched := (List.mem_singleton.mp new).symm
        have current := current_of_switched step switched
        obtain ⟨-, -, next, rest, stack, rfl⟩ := switched_eq_some switched
        have chosen := kept.tabled.inv.controlled.switching next rest stack
        have stays := same chosen.inside chosen.present
        refine ⟨chosen.present, next, chosen.inside, ?_, stays⟩
        rintro rfl
        exact away (stays.trans current.symm)

end Turns

/-- While a ready task waits, in a run from boot in which the tasks fit in the table and the ticks
fit in the counters, every other task gets the processor at most once more often than it takes
refills to make the counter of the waiting task positive.  So the number of switches before its turn
is bounded by the number of the other tasks. -/
theorem ready_task_waits {task tick : Nat} (task_ne : task ≠ 0) {before after : Machine}
    (run : ReachesWhere Clocked (initialMachine task tick) before) {index : Nat}
    (ready : before.scheduler.Ready index) {labels : List (Option Nat)}
    (waits : LabelledRuns.Run (WaitStep index) labels before after) :
    (∀ other, labels.count (some other) ≤
      Scheduler.deficit (before.scheduler.counterAt index) + 1) ∧
    labels.reduceOption.length ≤
      (after.scheduler.nTasks - 1) *
        (Scheduler.deficit (before.scheduler.counterAt index) + 1) := by
  have rationed := Rationed.of_run task_ne run
  have each (other : Nat) : labels.count (some other) ≤
      Scheduler.deficit (before.scheduler.counterAt index) + 1 := by
    have paid := (waits.count_le (fun kept one => turns_step other kept one) rationed).2
    have start : turns index other before ≤
        Scheduler.deficit (before.scheduler.counterAt index) + 1 := by
      rw [turns]
      split_ifs <;> omega
    omega
  refine ⟨each, ?_⟩
  obtain ⟨kept, listed⟩ := listed_of_switched rationed waits
  have present : after.scheduler.Ready index := by
    cases waits with
    | refl => exact ready
    | tail _ last => exact last.2.1.ready
  have used {slot : Nat} (inside : slot < nTasksMax)
      (occupied : after.scheduler.taskArray slot ≠ 0) :
      slot ∈ Finset.range after.scheduler.nTasks := by
    refine Finset.mem_range.mpr (lt_of_not_ge fun beyond => occupied ?_)
    exact kept.tabled.tabled.empty slot beyond inside
  have others : labels.reduceOption.toFinset ⊆
      ((Finset.range after.scheduler.nTasks).erase index).image after.scheduler.taskArray := by
    intro task member
    obtain ⟨nonzero, slot, inside, other, rfl⟩ :=
      listed task (List.reduceOption_mem_iff.mp (List.mem_toFinset.mp member))
    exact Finset.mem_image_of_mem _ (Finset.mem_erase.mpr ⟨other, used inside nonzero⟩)
  have few : labels.reduceOption.toFinset.card ≤ after.scheduler.nTasks - 1 := by
    refine (Finset.card_le_card others).trans (Finset.card_image_le.trans (le_of_eq ?_))
    rw [Finset.card_erase_of_mem (used present.inside present.present), Finset.card_range]
  calc labels.reduceOption.length
      = ∑ other ∈ labels.reduceOption.toFinset, labels.reduceOption.count other :=
        (List.sum_toFinset_count_eq_length _).symm
    _ ≤ labels.reduceOption.toFinset.card *
        (Scheduler.deficit (before.scheduler.counterAt index) + 1) := by
        refine Finset.sum_le_card_nsmul _ _ _ fun other _ => ?_
        rw [List.reduceOption, List.count_filterMap]
        exact each other
    _ ≤ _ := Nat.mul_le_mul_right _ few

/-- `init_task` forks two tasks and calls `schedule`, which switches to the first while the second
waits. -/
theorem ready_task_waits_forked :
    ∃ before after : Machine, LabelledRuns.Run (WaitStep 2) [some 8192] before after ∧
      (∀ other, [some 8192].count (some other) ≤
        Scheduler.deficit (before.scheduler.counterAt 2) + 1) ∧
      [some 8192].reduceOption.length ≤ (after.scheduler.nTasks - 1) *
        (Scheduler.deficit (before.scheduler.counterAt 2) + 1) := by
  have ran : ((initialMachine 4096 0).execute
      (fun _ machine => machine.scheduler.nTasks < nTasksMax ∧ machine.elapsed < 2 ^ 31)
      (forkActions 8192 ++ forkActions 12288 ++ .call .scheduleEnter ::
        List.replicate (timerCount + 4) .advance)).map
          (fun machine => (machine.stack, machine.elapsed, machine.scheduler.current,
            machine.scheduler.taskArray 1, machine.scheduler.taskArray 2,
            (machine.scheduler.tasks 12288).state)) =
              some ([.selectSwitch 1, .running], 0, 4096, 8192, 12288, .running) := by
    decide +kernel
  obtain ⟨before, reached, observed⟩ := Machine.exists_of_execute ran
  simp only [Prod.mk.injEq] at observed
  obtain ⟨stack, elapsed, current, first, second, state⟩ := observed
  have run : ReachesWhere Clocked (initialMachine 4096 0) before := by
    refine Relation.ReflTransGen.mono ?_ _ _ reached
    rintro one other ⟨action, ⟨room, early⟩, step⟩
    exact ⟨action, ⟨fun _ _ _ _ => room, early⟩, step⟩
  have ready : before.scheduler.Ready 2 := by
    refine ⟨by decide, ?_, ?_⟩
    · rw [second]
      decide
    · rw [second, state]
  have step : MachineStep .advance before
      (before.next ([.selectLeave] ++ [.running])
        (before.scheduler.switchTo (before.scheduler.taskArray 1))) := .advance stack rfl
  have switched : before.switched .advance = some 8192 := by
    rw [Machine.switched, stack]
    dsimp only
    rw [first, current]
    rfl
  have clocked : Clocked .advance before := by
    refine ⟨fun _ page rest publish => ?_, by rw [elapsed]; decide⟩
    rw [stack] at publish
    cases publish
  have waits : WaitStep 2 (some 8192) before (before.next ([.selectLeave] ++ [.running])
      (before.scheduler.switchTo (before.scheduler.taskArray 1))) := by
    refine ⟨⟨ready, ?_⟩, ⟨⟨ready.inside, ready.present, ready.running⟩, ?_⟩,
      .advance, clocked, step, switched.symm⟩
    · rw [second, current]
      decide
    · show before.scheduler.taskArray 2 ≠ before.scheduler.taskArray 1
      rw [second, first]
      decide
  exact ⟨before, _, .single waits, ready_task_waits (by decide) run ready (.single waits)⟩

end PellOs
