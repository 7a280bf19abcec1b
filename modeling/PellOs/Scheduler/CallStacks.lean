import PellOs.Scheduler.Coroutines

/-!
# Call stacks and preemption

The count of a task is one while its topmost call has disabled preemption, and no call below the
topmost one has.  A suspended task has switched away inside `_schedule`, or has not run yet.  Only
`kernel_fork` breaks the count, when it finds no page.
-/

namespace PellOs

/-- Contribution of a stack to the preemption count of its task. -/
def topCritical : List Frame → Int
  | [] => 0
  | frame :: _ => if frame.critical then 1 else 0

/-- A stack of calls in which only the topmost one has disabled preemption, and a count that
exceeds its contribution by `excess`. -/
structure Balanced (excess : Int) (stack : List Frame) (count : Int) : Prop where
  layered : Layered Frame.layer 2 stack
  settled : ∀ frame ∈ stack.tail, frame.critical = false
  counted : count = topCritical stack + excess

namespace Balanced

variable {excess count : Int} {frame : Frame} {frames rest : List Frame}

theorem topCritical_rest (balanced : Balanced excess (frame :: rest) count) :
    topCritical rest = 0 := by
  cases rest with
  | nil => rfl
  | cons lower rest =>
      have calm := balanced.settled lower List.mem_cons_self
      rw [topCritical, calm]
      rfl

/-- The next statement replaces the topmost call and keeps the balance. -/
theorem replace (balanced : Balanced excess (frame :: rest) count) {after : Int}
    (layered : Layered Frame.layer 2 frames) (high : ∀ other ∈ frames, frame.layer ≤ other.layer)
    (settled : ∀ other ∈ frames.tail, other.critical = false)
    (change : after - topCritical frames = count - topCritical [frame]) :
    Balanced excess (frames ++ rest) after where
  layered := balanced.layered.replace layered high fun other _ => other.layer_le
  settled := by
    intro other member
    cases frames with
    | nil => exact balanced.settled other (List.mem_of_mem_tail member)
    | cons top frames =>
        rcases List.mem_append.mp member with new | old
        · exact settled other new
        · exact balanced.settled other old
  counted := by
    have counted := balanced.counted
    have same : topCritical (frame :: rest) = topCritical [frame] := rfl
    cases frames with
    | nil =>
        have calm := balanced.topCritical_rest
        have empty : topCritical [] = 0 := rfl
        rw [List.nil_append]
        omega
    | cons top frames =>
        have here : topCritical (top :: frames ++ rest) = topCritical (top :: frames) := rfl
        omega

theorem push (balanced : Balanced excess rest count) (calm : topCritical rest = 0)
    (layered : Layered Frame.layer 2 (frame :: rest)) (entered : frame.critical = false) :
    Balanced excess (frame :: rest) count where
  layered := layered
  settled := by
    intro other member
    cases rest with
    | nil => cases member
    | cons top rest =>
        rcases List.mem_cons.mp member with rfl | below
        · rw [topCritical] at calm
          cases critical : other.critical with
          | false => rfl
          | true =>
              rw [critical] at calm
              cases calm
        · exact balanced.settled other below
  counted := by
    rw [balanced.counted, calm, topCritical, entered]
    rfl

end Balanced

/-! ## One statement -/

section Advance

variable {scheduler after : Scheduler} {frame : Frame} {frames : List Frame}

/-- The control flow: which calls a statement puts in the place of its own. -/
inductive Flow : Frame → List Frame → Prop
  | forkReturn : Flow .forkReturn [.running]
  | forkEnter : Flow .forkEnter [.forkAllocate]
  | forkPublish (newTask : Nat) : Flow (.forkPublish newTask) [.forkEnable]
  | forkEnable : Flow .forkEnable []
  | exitEnter : Flow .exitEnter [.exitMark]
  | exitMark : Flow .exitMark [.exitEnable]
  | exitEnable : Flow .exitEnable [.scheduleEnter, .exitLeave]
  | exitLeave : Flow .exitLeave []
  | hitFound (call delay slot : Nat) :
      Flow (.hitTest call delay slot) [.hitFinish call delay slot]
  | hitNext (call delay slot : Nat) :
      Flow (.hitTest call delay slot) [.hitTest call delay (slot + 1)]
  | hitNone (call delay slot : Nat) : Flow (.hitTest call delay slot) []
  | hitFinish (call delay slot : Nat) :
      Flow (.hitFinish call delay slot) [.hitPtr call delay slot]
  | hitPtr (call delay slot : Nat) : Flow (.hitPtr call delay slot) [.hitBlock call delay slot]
  | hitBlock (call delay slot : Nat) :
      Flow (.hitBlock call delay slot) [.scheduleEnter, .hitLeave call delay slot]
  | hitLeave (call delay slot : Nat) : Flow (.hitLeave call delay slot) []
  | scheduleEnter : Flow .scheduleEnter [.selectEnter]
  | selectEnter : Flow .selectEnter [.selectTimers 0]
  | timersNext (slot : Nat) : Flow (.selectTimers slot) [.selectTimers (slot + 1)]
  | timersDone (slot : Nat) : Flow (.selectTimers slot) [.selectScan]
  | selectFound (next : Nat) : Flow .selectScan [.selectSwitch next]
  | selectAgain : Flow .selectScan [.selectScan]
  | selectSwitch (next : Nat) : Flow (.selectSwitch next) [.selectLeave]
  | selectLeave : Flow .selectLeave []

theorem flow_of_advance (result : advance scheduler frame = some (frames, after)) :
    Flow frame frames := by
  cases frame with
  | running => cases result
  | forkAllocate => cases result
  | hitTest call delay slot =>
      rw [advance] at result
      split_ifs at result
      all_goals obtain ⟨rfl, -⟩ := Prod.mk.inj (Option.some.inj result)
      all_goals constructor
  | selectTimers slot =>
      rw [advance] at result
      split_ifs at result
      all_goals obtain ⟨rfl, -⟩ := Prod.mk.inj (Option.some.inj result)
      all_goals constructor
  | selectScan =>
      rw [advance] at result
      split_ifs at result
      all_goals obtain ⟨rfl, -⟩ := Prod.mk.inj (Option.some.inj result)
      all_goals constructor
  | _ =>
      obtain ⟨rfl, -⟩ := Prod.mk.inj (Option.some.inj result)
      constructor

/-- The calls of a statement respect the layers, and only the topmost has disabled preemption. -/
theorem Flow.sound (flow : Flow frame frames) :
    Layered Frame.layer 2 frames ∧ (∀ other ∈ frames, frame.layer ≤ other.layer) ∧
      ∀ other ∈ frames.tail, other.critical = false := by
  cases flow with
  | exitEnable | hitBlock =>
      refine ⟨(Layered.singleton _).push rfl fun other _ => other.layer_le, ?_, ?_⟩
      · simp [Frame.layer]
      · simp [Frame.critical]
  | forkEnable | exitLeave | hitNone | hitLeave | selectLeave =>
      refine ⟨List.Pairwise.nil, ?_, ?_⟩
      · simp
      · simp
  | _ =>
      refine ⟨.singleton _, ?_, ?_⟩
      · simp [Frame.layer]
      · simp

/-- A statement changes the preemption count of the current task by what its topmost call
contributes, and no other count. -/
theorem advance_preemptCount (result : advance scheduler frame = some (frames, after))
    (task : Nat) :
    (after.tasks task).preemptCount -
        (if task = scheduler.current then topCritical frames else 0) =
      (scheduler.tasks task).preemptCount -
        (if task = scheduler.current then topCritical [frame] else 0) := by
  cases frame with
  | running => cases result
  | forkAllocate => cases result
  | forkReturn | forkEnable | exitEnable | selectLeave =>
      obtain ⟨rfl, rfl⟩ := Prod.mk.inj (Option.some.inj result)
      rw [Scheduler.preemptCount_preemptEnable]
      split_ifs <;> simp [topCritical, Frame.critical]
  | forkEnter | exitEnter | selectEnter =>
      obtain ⟨rfl, rfl⟩ := Prod.mk.inj (Option.some.inj result)
      rw [Scheduler.preemptCount_preemptDisable]
      split_ifs <;> simp [topCritical, Frame.critical]
  | exitMark | hitBlock | scheduleEnter | forkPublish | hitFinish | hitPtr | exitLeave | hitLeave |
    selectSwitch =>
      obtain ⟨rfl, rfl⟩ := Prod.mk.inj (Option.some.inj result)
      split_ifs <;> simp [topCritical, Frame.critical, Scheduler.publish, Scheduler.setTimer,
        Scheduler.switchTo]
  | hitTest call delay slot =>
      rw [advance] at result
      split_ifs at result
      all_goals obtain ⟨rfl, rfl⟩ := Prod.mk.inj (Option.some.inj result)
      all_goals simp [topCritical, Frame.critical]
  | selectTimers slot =>
      rw [advance] at result
      split_ifs at result
      all_goals obtain ⟨rfl, rfl⟩ := Prod.mk.inj (Option.some.inj result)
      all_goals simp [topCritical, Frame.critical]
  | selectScan =>
      rw [advance] at result
      split_ifs at result
      all_goals obtain ⟨rfl, rfl⟩ := Prod.mk.inj (Option.some.inj result)
      · simp [topCritical, Frame.critical]
      · rw [(Scheduler.refilled_refill scheduler task).preemptCount]

end Advance

/-! ## Ticks -/

namespace Machine

variable (machine : Machine)

/-- A tick returns at once, or the current task calls `_schedule`. -/
theorem tick_cases :
    (machine.tick.calls = machine.calls ∨
      (machine.scheduler.tasks machine.scheduler.current).preemptCount ≤ 0 ∧
        machine.tick.calls = Function.update machine.calls machine.scheduler.current
          (.selectEnter :: machine.stack)) ∧
      machine.tick.elapsed = machine.elapsed + 1 := by
  unfold tick
  dsimp only
  split_ifs with returns
  · exact ⟨Or.inl rfl, rfl⟩
  · obtain ⟨-, free⟩ := not_or.mp returns
    exact ⟨Or.inr ⟨Int.not_lt.mp free, rfl⟩, rfl⟩

@[simp] theorem current_tick : machine.tick.scheduler.current = machine.scheduler.current := by
  unfold tick
  dsimp only
  split_ifs <;> rfl

@[simp] theorem timerArr_tick : machine.tick.scheduler.timerArr = machine.scheduler.timerArr := by
  unfold tick
  dsimp only
  split_ifs <;> rfl

@[simp] theorem taskArray_tick :
    machine.tick.scheduler.taskArray = machine.scheduler.taskArray := by
  unfold tick
  dsimp only
  split_ifs <;> rfl

@[simp] theorem nTasks_tick : machine.tick.scheduler.nTasks = machine.scheduler.nTasks := by
  unfold tick
  dsimp only
  split_ifs <;> rfl

@[simp] theorem currentTick_tick :
    machine.tick.scheduler.currentTick = (machine.scheduler.currentTick + 1) % wordSize := by
  unfold tick
  dsimp only
  split_ifs <;> rfl

@[simp] theorem state_tick (task : Nat) :
    (machine.tick.scheduler.tasks task).state = (machine.scheduler.tasks task).state := by
  unfold tick
  dsimp only
  split_ifs
  · exact Scheduler.state_setCounter _ _ _
  · exact (Scheduler.state_setCounter _ _ _).trans (Scheduler.state_setCounter _ _ _)

@[simp] theorem preemptCount_tick (task : Nat) :
    (machine.tick.scheduler.tasks task).preemptCount =
      (machine.scheduler.tasks task).preemptCount := by
  unfold tick
  dsimp only
  split_ifs
  · exact Scheduler.preemptCount_setCounter _ _ _
  · exact (Scheduler.preemptCount_setCounter _ _ _).trans (Scheduler.preemptCount_setCounter _ _ _)

end Machine

/-! ## Steps -/

@[simp] theorem Machine.scheduler_next (machine : Machine) (stack : List Frame)
    (scheduler : Scheduler) : (machine.next stack scheduler).scheduler = scheduler := rfl

@[simp] theorem Machine.elapsed_next (machine : Machine) (stack : List Frame)
    (scheduler : Scheduler) : (machine.next stack scheduler).elapsed = machine.elapsed := rfl

theorem Machine.calls_next (machine : Machine) (stack : List Frame) (scheduler : Scheduler)
    (task : Nat) : (machine.next stack scheduler).calls task =
      if task = machine.scheduler.current then stack else machine.calls task := by
  rw [next]
  dsimp only
  split_ifs with same
  · rw [same, Function.update_self]
  · rw [Function.update_of_ne same]

theorem Machine.calls_forked (machine : Machine) (page : Nat) (rest : List Frame) (task : Nat) :
    (machine.forked page rest).calls task =
      if task = page then [.forkReturn]
      else if task = machine.scheduler.current then .forkPublish page :: rest
      else machine.calls task := by
  rw [forked]
  dsimp only
  split_ifs with new same
  · rw [new, Function.update_self]
  · rw [Function.update_of_ne new, same, Function.update_self]
  · rw [Function.update_of_ne new, Function.update_of_ne same]

@[simp] theorem Machine.current_forked (machine : Machine) (page : Nat) (rest : List Frame) :
    (machine.forked page rest).scheduler.current = machine.scheduler.current := rfl

theorem Machine.stack_next (machine : Machine) (stack : List Frame) {scheduler : Scheduler}
    (same : scheduler.current = machine.scheduler.current) :
    (machine.next stack scheduler).stack = stack := by
  rw [Machine.stack, calls_next, scheduler_next, if_pos same]

theorem Machine.tasks_forked (machine : Machine) (page : Nat) (rest : List Frame) (task : Nat) :
    (machine.forked page rest).scheduler.tasks task =
      if task = page then machine.scheduler.forkedTask else machine.scheduler.tasks task := by
  rw [forked]
  dsimp only
  split_ifs with new
  · rw [new, Scheduler.tasks_modify_same]
  · rw [Scheduler.tasks_modify_of_ne _ _ _ new]

theorem EntryCall.calm {elapsed : Nat} {frame : Frame} (entry : EntryCall elapsed frame) :
    frame.critical = false ∧ 1 ≤ frame.layer := by
  cases entry <;> exact ⟨rfl, by simp [Frame.layer]⟩

theorem EntryCall.layered {elapsed : Nat} {frame : Frame} {rest : List Frame}
    (entry : EntryCall elapsed frame) (layered : Layered Frame.layer 2 (.running :: rest)) :
    Layered Frame.layer 2 (frame :: .running :: rest) := by
  refine List.pairwise_cons.mpr ⟨fun lower member => Or.inl ?_, layered⟩
  have high := entry.calm.2
  rcases List.mem_cons.mp member with rfl | below
  · exact high
  · exact lt_of_lt_of_le (layered.below (by decide) below) (Nat.zero_le _)

theorem topCritical_nonneg (stack : List Frame) : 0 ≤ topCritical stack := by
  cases stack with
  | nil => exact le_refl _
  | cons frame rest =>
      rw [topCritical]
      split_ifs <;> decide

/-- The stacks of all tasks are balanced. -/
def BalancedBy (excess : Nat → Int) (machine : Machine) : Prop :=
  ∀ task, Balanced (excess task) (machine.calls task)
    (machine.scheduler.tasks task).preemptCount

theorem BalancedBy.initial (task tick : Nat) :
    BalancedBy (fun _ => 0) (initialMachine task tick) := by
  intro other
  have count : ((initialMachine task tick).scheduler.tasks other).preemptCount = 0 := rfl
  rw [count, calls_initialMachine]
  split_ifs
  · refine ⟨.singleton _, ?_, rfl⟩
    intro frame member
    cases member
  · refine ⟨List.Pairwise.nil, ?_, rfl⟩
    intro frame member
    cases member

/-- Only a failed allocation raises the excess. -/
def ExcessChange (action : MachineAction) (before after : Int) : Prop :=
  after = before ∨ after = 0 ∨ action = .allocate 0 ∧ after = before + 1

theorem MachineStep.balanced {action : MachineAction} {before after : Machine}
    (step : MachineStep action before after) {excess : Nat → Int}
    (nonneg : ∀ task, 0 ≤ excess task) (balanced : BalancedBy excess before) :
    ∃ changed, BalancedBy changed after ∧
      ∀ task, ExcessChange action (excess task) (changed task) := by
  have here := balanced before.scheduler.current
  cases step with
  | tick =>
      refine ⟨excess, fun task => ?_, fun task => Or.inl rfl⟩
      rw [Machine.preemptCount_tick]
      rcases before.tick_cases.1 with same | ⟨free, pushed⟩
      · rw [same]
        exact balanced task
      · rw [pushed]
        by_cases current : task = before.scheduler.current
        · subst current
          rw [Function.update_self]
          have low := topCritical_nonneg before.stack
          have counted := here.counted
          have above := nonneg before.scheduler.current
          rw [← Machine.stack] at counted here
          exact here.push (by omega)
            (here.layered.push rfl fun other _ => other.layer_le) rfl
        · rw [Function.update_of_ne current]
          exact balanced task
  | call stack entry =>
      refine ⟨excess, fun task => ?_, fun task => Or.inl rfl⟩
      rw [Machine.calls_next]
      split_ifs with current
      · subst current
        rw [← Machine.stack, stack] at here
        exact here.push rfl (entry.layered here.layered) entry.calm.1
      · exact balanced task
  | advance stack result =>
      refine ⟨excess, fun task => ?_, fun task => Or.inl rfl⟩
      have change := advance_preemptCount result task
      rw [Machine.calls_next]
      split_ifs at change ⊢ with current
      · subst current
        rw [← Machine.stack, stack] at here
        obtain ⟨layered, high, settled⟩ := (flow_of_advance result).sound
        exact here.replace layered high settled change
      · have same := balanced task
        rw [Int.sub_zero, Int.sub_zero] at change
        rwa [← change] at same
  | @allocate _ rest page stack page_ne fresh =>
      refine ⟨Function.update excess page 0, fun task => ?_, fun task => ?_⟩
      · rw [Machine.calls_forked, Machine.tasks_forked]
        split_ifs with new current
        · rw [new, Function.update_self]
          refine ⟨.singleton _, ?_, rfl⟩
          intro other member
          cases member
        · rw [Function.update_of_ne new]
          subst current
          rw [← Machine.stack, stack] at here
          refine here.replace (.singleton (Frame.forkPublish page)) ?_ ?_ rfl
          · intro other member
            rw [List.mem_singleton.mp member]
            exact le_refl _
          · intro other member
            cases member
        · rw [Function.update_of_ne new]
          exact balanced task
      · by_cases new : task = page
        · rw [new, Function.update_self]
          exact Or.inr (Or.inl rfl)
        · rw [Function.update_of_ne new]
          exact Or.inl rfl
  | @allocateFails _ rest stack =>
      refine ⟨Function.update excess before.scheduler.current
        (excess before.scheduler.current + 1), fun task => ?_, fun task => ?_⟩
      · rw [Machine.calls_next]
        split_ifs with current
        · subst current
          rw [Function.update_self]
          rw [← Machine.stack, stack] at here
          have counted := here.counted
          refine ⟨here.layered.tail, fun other member =>
            here.settled other (List.mem_of_mem_tail member), ?_⟩
          rw [here.topCritical_rest]
          have top : topCritical (Frame.forkAllocate :: rest) = 1 := rfl
          rw [top] at counted
          rw [Machine.scheduler_next]
          omega
        · rw [Function.update_of_ne current]
          exact balanced task
      · by_cases current : task = before.scheduler.current
        · rw [current, Function.update_self]
          exact Or.inr (Or.inr ⟨rfl, rfl⟩)
        · rw [Function.update_of_ne current]
          exact Or.inl rfl

end PellOs
