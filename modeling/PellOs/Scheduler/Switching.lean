import PellOs.Scheduler.CallStacks

/-!
# Who runs

A task gets the processor only when it is ready, and until it has chosen the next task again it
stays ready unless it blocks or exits.  So a current task that is not ready is on its way to
`_schedule`.
-/

namespace PellOs

/-! ## Effect of a statement -/

/-- Nothing but counters and preemption counts differs. -/
structure Quiet (before after : Scheduler) : Prop where
  state : ∀ task, (after.tasks task).state = (before.tasks task).state
  taskArray : after.taskArray = before.taskArray
  nTasks : after.nTasks = before.nTasks
  current : after.current = before.current
  timerArr : after.timerArr = before.timerArr
  currentTick : after.currentTick = before.currentTick

/-- What a statement does: the loud ones one by one. -/
inductive Effect (scheduler : Scheduler) : Frame → List Frame → Scheduler → Prop
  | quiet {frame : Frame} {frames : List Frame} {after : Scheduler} (plain : frame.loud = false)
      (quiet : Quiet scheduler after) : Effect scheduler frame frames after
  | publish (newTask : Nat) :
      Effect scheduler (.forkPublish newTask) [.forkEnable] (scheduler.publish newTask)
  | mark : Effect scheduler .exitMark [.exitEnable]
      (scheduler.setState (scheduler.taskArray scheduler.getPid) .zombie)
  | finish (call delay slot : Nat) :
      Effect scheduler (.hitFinish call delay slot) [.hitPtr call delay slot]
        (scheduler.setTimer slot
          ⟨(scheduler.currentTick + msToTicks delay) % 2 ^ 32, (scheduler.timerArr slot).taskPtr⟩)
  | ptr (call delay slot : Nat) :
      Effect scheduler (.hitPtr call delay slot) [.hitBlock call delay slot]
        (scheduler.setTimer slot ⟨(scheduler.timerArr slot).finishTime, scheduler.current⟩)
  | block (call delay slot : Nat) :
      Effect scheduler (.hitBlock call delay slot) [.scheduleEnter, .hitLeave call delay slot]
        (scheduler.setState scheduler.current .blocked)
  | timer (slot : Nat) (inside : slot < timerCount) :
      Effect scheduler (.selectTimers slot) [.selectTimers (slot + 1)] (scheduler.checkTimer slot)
  | timers (slot : Nat) : Effect scheduler (.selectTimers slot) [.selectScan] scheduler
  | switch (next : Nat) :
      Effect scheduler (.selectSwitch next) [.selectLeave]
        (scheduler.switchTo (scheduler.taskArray next))

section Advance

variable {scheduler after : Scheduler} {frame : Frame} {frames : List Frame}

theorem Quiet.refl (scheduler : Scheduler) : Quiet scheduler scheduler :=
  ⟨fun _ => rfl, rfl, rfl, rfl, rfl, rfl⟩

theorem effect_of_advance (result : advance scheduler frame = some (frames, after)) :
    Effect scheduler frame frames after := by
  cases frame with
  | running => cases result
  | forkAllocate => cases result
  | forkReturn | forkEnable | exitEnable | selectLeave =>
      obtain ⟨rfl, rfl⟩ := Prod.mk.inj (Option.some.inj result)
      exact .quiet rfl ⟨scheduler.state_preemptEnable, rfl, rfl, rfl, rfl, rfl⟩
  | forkEnter | exitEnter | selectEnter =>
      obtain ⟨rfl, rfl⟩ := Prod.mk.inj (Option.some.inj result)
      exact .quiet rfl ⟨scheduler.state_preemptDisable, rfl, rfl, rfl, rfl, rfl⟩
  | scheduleEnter =>
      obtain ⟨rfl, rfl⟩ := Prod.mk.inj (Option.some.inj result)
      exact .quiet rfl ⟨fun task => scheduler.state_setCounter task 0, rfl, rfl, rfl, rfl, rfl⟩
  | exitLeave | hitLeave =>
      obtain ⟨rfl, rfl⟩ := Prod.mk.inj (Option.some.inj result)
      exact .quiet rfl (.refl scheduler)
  | forkPublish newTask =>
      obtain ⟨rfl, rfl⟩ := Prod.mk.inj (Option.some.inj result)
      exact .publish newTask
  | exitMark =>
      obtain ⟨rfl, rfl⟩ := Prod.mk.inj (Option.some.inj result)
      exact .mark
  | hitFinish call delay slot =>
      obtain ⟨rfl, rfl⟩ := Prod.mk.inj (Option.some.inj result)
      exact .finish call delay slot
  | hitPtr call delay slot =>
      obtain ⟨rfl, rfl⟩ := Prod.mk.inj (Option.some.inj result)
      exact .ptr call delay slot
  | hitBlock call delay slot =>
      obtain ⟨rfl, rfl⟩ := Prod.mk.inj (Option.some.inj result)
      exact .block call delay slot
  | selectSwitch next =>
      obtain ⟨rfl, rfl⟩ := Prod.mk.inj (Option.some.inj result)
      exact .switch next
  | hitTest call delay slot =>
      rw [advance] at result
      split_ifs at result
      all_goals obtain ⟨rfl, rfl⟩ := Prod.mk.inj (Option.some.inj result)
      all_goals exact .quiet rfl (.refl scheduler)
  | selectTimers slot =>
      rw [advance] at result
      split_ifs at result with inside
      all_goals obtain ⟨rfl, rfl⟩ := Prod.mk.inj (Option.some.inj result)
      · exact .timer slot inside
      · exact .timers slot
  | selectScan =>
      rw [advance] at result
      split_ifs at result
      all_goals obtain ⟨rfl, rfl⟩ := Prod.mk.inj (Option.some.inj result)
      · exact .quiet rfl (.refl scheduler)
      · exact .quiet rfl ⟨fun task => (scheduler.refilled_refill task).state,
          scheduler.taskArray_refill, scheduler.nTasks_refill, scheduler.current_refill,
          scheduler.timerArr_refill, scheduler.currentTick_refill⟩

/-- A call that is still to choose the next task goes on to do so, or switches. -/
theorem advance_pending (result : advance scheduler frame = some (frames, after))
    (pending : frame.pending = true) :
    (∃ other ∈ frames, other.pending = true) ∨ ∃ next, frame = .selectSwitch next := by
  cases flow_of_advance result with
  | selectSwitch next => exact Or.inr ⟨next, rfl⟩
  | exitEnable | scheduleEnter | selectEnter | timersNext | timersDone | selectFound |
    selectAgain => exact Or.inl ⟨_, List.mem_cons_self, rfl⟩
  | _ => cases pending

/-- The task that `_schedule` is about to switch to has been found ready. -/
theorem ready_of_advance {next : Nat}
    (result : advance scheduler frame = some (.selectSwitch next :: frames, after)) :
    scheduler.Ready next ∧ after = scheduler := by
  cases frame with
  | selectScan =>
      rw [advance] at result
      split_ifs at result with positive
      · obtain ⟨same, rfl⟩ := Prod.mk.inj (Option.some.inj result)
        obtain ⟨rfl⟩ := Frame.selectSwitch.inj (List.cons.inj same).1
        exact ⟨Scheduler.ready_of_pickTask positive, rfl⟩
      · cases result
  | hitTest call delay slot =>
      rw [advance] at result
      split_ifs at result <;> cases result
  | selectTimers slot =>
      rw [advance] at result
      split_ifs at result <;> cases result
  | _ => cases result

end Advance

/-! ## Calls that stay -/

/-- A call stays on its stack until it is the topmost one of the current task and executes a
statement. -/
theorem MachineStep.mem_calls {action : MachineAction} {before after : Machine}
    (step : MachineStep action before after) {task : Nat} {frame : Frame}
    (member : frame ∈ before.calls task) :
    frame ∈ after.calls task ∨ frame = .forkAllocate ∨
      task = before.scheduler.current ∧ ∃ rest frames scheduler,
        before.stack = frame :: rest ∧
          PellOs.advance before.scheduler frame = some (frames, scheduler) ∧
          after = before.next (frames ++ rest) scheduler := by
  cases step with
  | tick =>
      refine Or.inl ?_
      rcases before.tick_cases.1 with same | ⟨-, pushed⟩
      · rwa [same]
      · rw [pushed]
        by_cases current : task = before.scheduler.current
        · subst current
          rw [Function.update_self]
          exact List.mem_cons_of_mem _ member
        · rwa [Function.update_of_ne current]
  | call stack entry =>
      refine Or.inl ?_
      rw [Machine.calls_next]
      split_ifs with current
      · rw [current, ← Machine.stack, stack] at member
        exact List.mem_cons_of_mem _ member
      · exact member
  | @advance _ top frames rest scheduler stack result =>
      rw [Machine.calls_next]
      split_ifs with current
      · rw [current, ← Machine.stack, stack] at member
        rcases List.mem_cons.mp member with rfl | below
        · exact Or.inr (Or.inr ⟨current, rest, frames, scheduler, stack, result, rfl⟩)
        · exact Or.inl (List.mem_append_right _ below)
      · exact Or.inl member
  | allocate stack page_ne fresh =>
      rw [Machine.calls_forked]
      split_ifs with new current
      · rw [new, fresh] at member
        cases member
      · rw [current, ← Machine.stack, stack] at member
        rcases List.mem_cons.mp member with rfl | below
        · exact Or.inr (Or.inl rfl)
        · exact Or.inl (List.mem_cons_of_mem _ below)
      · exact Or.inl member
  | allocateFails stack =>
      rw [Machine.calls_next]
      split_ifs with current
      · rw [current, ← Machine.stack, stack] at member
        rcases List.mem_cons.mp member with rfl | below
        · exact Or.inr (Or.inl rfl)
        · exact Or.inl below
      · exact Or.inl member

/-- Where the calls of a task come from. -/
theorem MachineStep.mem_calls_after {action : MachineAction} {before after : Machine}
    (step : MachineStep action before after) {task : Nat} {frame : Frame}
    (member : frame ∈ after.calls task) :
    frame ∈ before.calls task ∨ frame = .selectEnter ∨ EntryCall before.elapsed frame ∨
      (action = .advance ∧ task = before.scheduler.current ∧ ∃ top rest frames scheduler,
        before.stack = top :: rest ∧
          PellOs.advance before.scheduler top = some (frames, scheduler) ∧ frame ∈ frames ∧
          after = before.next (frames ++ rest) scheduler) ∨
      ∃ page rest, before.stack = .forkAllocate :: rest ∧ page ≠ 0 ∧ before.calls page = [] ∧
        after = before.forked page rest ∧
        (task = page ∧ frame = .forkReturn ∨
          task = before.scheduler.current ∧ frame = .forkPublish page) := by
  cases step with
  | tick =>
      rcases before.tick_cases.1 with same | ⟨-, pushed⟩
      · rw [same] at member
        exact Or.inl member
      · rw [pushed] at member
        by_cases current : task = before.scheduler.current
        · subst current
          rw [Function.update_self] at member
          rcases List.mem_cons.mp member with new | below
          · exact Or.inr (Or.inl new)
          · exact Or.inl below
        · rw [Function.update_of_ne current] at member
          exact Or.inl member
  | call stack entry =>
      rw [Machine.calls_next] at member
      split_ifs at member with current
      · rcases List.mem_cons.mp member with rfl | below
        · exact Or.inr (Or.inr (Or.inl entry))
        · rw [← stack, Machine.stack, ← current] at below
          exact Or.inl below
      · exact Or.inl member
  | @advance _ top frames rest scheduler stack result =>
      rw [Machine.calls_next] at member
      split_ifs at member with current
      · rcases List.mem_append.mp member with new | below
        · exact Or.inr (Or.inr (Or.inr (Or.inl
            ⟨rfl, current, top, rest, frames, scheduler, stack, result, new, rfl⟩)))
        · refine Or.inl ?_
          rw [current, ← Machine.stack, stack]
          exact List.mem_cons_of_mem _ below
      · exact Or.inl member
  | @allocate _ rest page stack page_ne fresh =>
      rw [Machine.calls_forked] at member
      split_ifs at member with new current
      · exact Or.inr (Or.inr (Or.inr (Or.inr ⟨page, rest, stack, page_ne, fresh, rfl,
          Or.inl ⟨new, List.mem_singleton.mp member⟩⟩)))
      · rcases List.mem_cons.mp member with same | below
        · exact Or.inr (Or.inr (Or.inr (Or.inr ⟨page, rest, stack, page_ne, fresh, rfl,
            Or.inr ⟨current, same⟩⟩)))
        · refine Or.inl ?_
          rw [current, ← Machine.stack, stack]
          exact List.mem_cons_of_mem _ below
      · exact Or.inl member
  | allocateFails stack =>
      rw [Machine.calls_next] at member
      split_ifs at member with current
      · refine Or.inl ?_
        rw [current, ← Machine.stack, stack]
        exact List.mem_cons_of_mem _ member
      · exact Or.inl member

/-! ## Control -/

/-- The stacks are balanced, with counts that are not too small. -/
def WellStacked (machine : Machine) : Prop :=
  ∃ excess : Nat → Int, (∀ task, 0 ≤ excess task) ∧ BalancedBy excess machine

theorem WellStacked.step {action : MachineAction} {before after : Machine}
    (well : WellStacked before) (step : MachineStep action before after) : WellStacked after := by
  obtain ⟨excess, nonneg, balanced⟩ := well
  obtain ⟨changed, balanced, change⟩ := step.balanced nonneg balanced
  refine ⟨changed, fun task => ?_, balanced⟩
  have low := nonneg task
  rcases change task with same | zero | ⟨-, raised⟩ <;> omega

theorem WellStacked.layered {machine : Machine} (well : WellStacked machine) (task : Nat) :
    Layered Frame.layer 2 (machine.calls task) := by
  obtain ⟨excess, -, balanced⟩ := well
  exact (balanced task).layered

/-- No call under the topmost one has disabled preemption. -/
theorem WellStacked.settled {machine : Machine} (well : WellStacked machine) {task : Nat}
    {top : Frame} {rest : List Frame} (stack : machine.calls task = top :: rest) :
    ∀ frame ∈ rest, frame.critical = false := by
  obtain ⟨excess, -, balanced⟩ := well
  have settled := (balanced task).settled
  rwa [stack] at settled

/-- Which tasks may run. -/
structure Controlled (machine : Machine) : Prop where
  suspended : ∀ task, task ≠ machine.scheduler.current → ∀ frame rest,
    machine.calls task = frame :: rest → frame = .selectLeave ∨ frame = .forkReturn
  switching : ∀ next rest, machine.stack = .selectSwitch next :: rest →
    machine.scheduler.Ready next
  runs : (machine.scheduler.tasks machine.scheduler.current).state = .running ∨
    ∃ frame ∈ machine.stack, frame.pending = true

namespace Controlled

variable {action : MachineAction} {before after : Machine}

theorem current_advance {scheduler changed : Scheduler} {frame : Frame} {frames : List Frame}
    (result : advance scheduler frame = some (frames, changed)) :
    (changed.current = scheduler.current ∧ ∀ next, frame ≠ .selectSwitch next) ∨
      ∃ next, frame = .selectSwitch next ∧ frames = [.selectLeave] ∧
        changed = scheduler.switchTo (scheduler.taskArray next) := by
  cases effect_of_advance result with
  | quiet plain quiet =>
      refine Or.inl ⟨quiet.current, fun next same => ?_⟩
      rw [same] at plain
      cases plain
  | timer slot inside =>
      refine Or.inl ⟨?_, fun next same => by cases same⟩
      rw [Scheduler.checkTimer]
      split_ifs <;> rfl
  | switch next => exact Or.inr ⟨next, rfl, rfl, rfl⟩
  | _ => exact Or.inl ⟨rfl, fun next same => by cases same⟩

private theorem suspended_step (controlled : Controlled before)
    (step : MachineStep action before after) (task : Nat)
    (other : task ≠ after.scheduler.current) (frame : Frame) (rest : List Frame)
    (stack : after.calls task = frame :: rest) : frame = .selectLeave ∨ frame = .forkReturn := by
  cases step with
  | tick =>
      rw [Machine.current_tick] at other
      refine controlled.suspended task other frame rest ?_
      rcases before.tick_cases.1 with same | ⟨-, pushed⟩
      · rwa [same] at stack
      · rwa [pushed, Function.update_of_ne other] at stack
  | call _ _ =>
      rw [Machine.scheduler_next] at other
      rw [Machine.calls_next, if_neg other] at stack
      exact controlled.suspended task other frame rest stack
  | @advance _ top frames below changed top_stack result =>
      rw [Machine.calls_next] at stack
      rcases current_advance result with ⟨same, still⟩ | ⟨next, rfl, rfl, rfl⟩
      · rw [Machine.scheduler_next, same] at other
        rw [if_neg other] at stack
        exact controlled.suspended task other frame rest stack
      · split_ifs at stack with old
        · exact Or.inl (List.cons.inj stack).1.symm
        · exact controlled.suspended task old frame rest stack
  | allocate _ _ _ =>
      rw [Machine.calls_forked] at stack
      split_ifs at stack with new old
      · exact Or.inr (List.cons.inj stack).1.symm
      · exact absurd old other
      · exact controlled.suspended task other frame rest stack
  | allocateFails _ =>
      rw [Machine.scheduler_next] at other
      rw [Machine.calls_next, if_neg other] at stack
      exact controlled.suspended task other frame rest stack

theorem ready_congr {left right : Scheduler} (table : right.taskArray = left.taskArray)
    (state : ∀ task, (right.tasks task).state = (left.tasks task).state) (index : Nat) :
    right.Ready index ↔ left.Ready index := by
  constructor
  · rintro ⟨inside, present, running⟩
    rw [table] at present running
    exact ⟨inside, present, (state _).symm.trans running⟩
  · rintro ⟨inside, present, running⟩
    refine ⟨inside, by rwa [table], ?_⟩
    rw [table]
    exact (state _).trans running

private theorem switching_step (controlled : Controlled before) (well : WellStacked before)
    (step : MachineStep action before after) (next : Nat) (rest : List Frame)
    (stack : after.stack = .selectSwitch next :: rest) : after.scheduler.Ready next := by
  have never {stack below : List Frame} {top : Frame} (stack_eq : before.stack = top :: below)
      (same : below = .selectSwitch next :: stack) : False := by
    have calm := well.settled stack_eq (.selectSwitch next) (by rw [same]; exact List.mem_cons_self)
    cases calm
  cases step with
  | tick =>
      rw [ready_congr before.taskArray_tick before.state_tick]
      rw [Machine.stack, Machine.current_tick] at stack
      rcases before.tick_cases.1 with same | ⟨-, pushed⟩
      · rw [same] at stack
        exact controlled.switching next rest stack
      · rw [pushed, Function.update_self] at stack
        cases stack
  | call _ entry =>
      rw [Machine.stack_next _ _ rfl] at stack
      cases entry <;> cases stack
  | @advance _ top frames below changed top_stack result =>
      rw [Machine.stack, Machine.calls_next] at stack
      rcases current_advance result with ⟨same, -⟩ | ⟨target, rfl, rfl, rfl⟩
      · rw [Machine.scheduler_next, if_pos same] at stack
        cases frames with
        | nil => exact (never top_stack stack).elim
        | cons first frames =>
            obtain rfl := (List.cons.inj stack).1
            obtain ⟨ready, rfl⟩ := ready_of_advance result
            exact ready
      · split_ifs at stack with old
        · cases stack
        · rcases controlled.suspended _ old _ _ stack with impossible | impossible
          · cases impossible
          · cases impossible
  | allocate top_stack page_ne fresh =>
      have differ : before.scheduler.current ≠ _ := fun same => by
        rw [Machine.stack, same, fresh] at top_stack
        cases top_stack
      rw [Machine.stack, Machine.current_forked, Machine.calls_forked, if_neg differ,
        if_pos rfl] at stack
      cases stack
  | allocateFails top_stack =>
      rw [Machine.stack_next _ _ rfl] at stack
      exact (never top_stack stack).elim

/-- A statement leaves the current task ready, or on its way to `_schedule`. -/
private theorem runs_advance {scheduler changed : Scheduler} {top : Frame}
    {frames below : List Frame} (result : advance scheduler top = some (frames, changed))
    (stays : changed.current = scheduler.current) (still : ∀ next, top ≠ .selectSwitch next)
    (runs : (scheduler.tasks scheduler.current).state = .running ∨
      ∃ frame ∈ top :: below, frame.pending = true) :
    (changed.tasks changed.current).state = .running ∨
      ∃ frame ∈ frames ++ below, frame.pending = true := by
  have carried (state : (changed.tasks scheduler.current).state =
        (scheduler.tasks scheduler.current).state ∨
      (changed.tasks scheduler.current).state = .running) :
      (changed.tasks changed.current).state = .running ∨
        ∃ frame ∈ frames ++ below, frame.pending = true := by
    rw [stays]
    rcases runs with running | ⟨frame, member, pending⟩
    · rcases state with same | ready
      · exact Or.inl (same.trans running)
      · exact Or.inl ready
    · rcases List.mem_cons.mp member with rfl | under
      · rcases advance_pending result pending with ⟨other, other_mem, goes_on⟩ | ⟨next, same⟩
        · exact Or.inr ⟨other, List.mem_append_left _ other_mem, goes_on⟩
        · exact absurd same (still next)
      · exact Or.inr ⟨frame, List.mem_append_right _ under, pending⟩
  cases effect_of_advance result with
  | quiet plain quiet => exact carried (Or.inl (quiet.state _))
  | mark => exact Or.inr ⟨.exitEnable, List.mem_cons_self, rfl⟩
  | block => exact Or.inr ⟨.scheduleEnter, List.mem_cons_self, rfl⟩
  | publish | finish | ptr | timers => exact carried (Or.inl rfl)
  | timer slot inside =>
      refine carried ?_
      rw [Scheduler.state_checkTimer]
      split_ifs
      · exact Or.inr rfl
      · exact Or.inl rfl
  | switch next => exact absurd rfl (still next)

private theorem runs_step (controlled : Controlled before)
    (step : MachineStep action before after) :
    (after.scheduler.tasks after.scheduler.current).state = .running ∨
      ∃ frame ∈ after.stack, frame.pending = true := by
  cases step with
  | tick =>
      rw [Machine.current_tick, Machine.state_tick, Machine.stack, Machine.current_tick]
      rcases before.tick_cases.1 with same | ⟨-, pushed⟩
      · rw [same]
        exact controlled.runs
      · rw [pushed, Function.update_self]
        exact Or.inr ⟨.selectEnter, List.mem_cons_self, rfl⟩
  | call stack entry =>
      rw [Machine.stack_next _ _ rfl]
      rcases controlled.runs with running | ⟨frame, member, pending⟩
      · exact Or.inl running
      · rw [stack] at member
        exact Or.inr ⟨frame, List.mem_cons_of_mem _ member, pending⟩
  | @advance _ top frames below changed stack result =>
      have runs := controlled.runs
      rw [stack] at runs
      rcases current_advance result with ⟨same, still⟩ | ⟨next, rfl, rfl, rfl⟩
      · rw [Machine.stack_next _ _ same]
        exact runs_advance result same still runs
      · exact Or.inl (controlled.switching next below stack).running
  | allocate stack page_ne fresh =>
      have differ : before.scheduler.current ≠ _ := fun same => by
        rw [Machine.stack, same, fresh] at stack
        cases stack
      rw [Machine.stack, Machine.current_forked, Machine.calls_forked, Machine.tasks_forked,
        if_neg differ, if_neg differ, if_pos rfl]
      rcases controlled.runs with running | ⟨frame, member, pending⟩
      · exact Or.inl running
      · rw [stack] at member
        rcases List.mem_cons.mp member with rfl | below
        · cases pending
        · exact Or.inr ⟨frame, List.mem_cons_of_mem _ below, pending⟩
  | allocateFails stack =>
      rw [Machine.stack_next _ _ rfl]
      rcases controlled.runs with running | ⟨frame, member, pending⟩
      · exact Or.inl running
      · rw [stack] at member
        rcases List.mem_cons.mp member with rfl | below
        · cases pending
        · exact Or.inr ⟨frame, below, pending⟩

theorem step (controlled : Controlled before) (well : WellStacked before)
    (step : MachineStep action before after) : Controlled after where
  suspended := controlled.suspended_step step
  switching := controlled.switching_step well step
  runs := controlled.runs_step step

end Controlled

end PellOs
