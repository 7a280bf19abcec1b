import PellOs.Scheduler.Switching

/-!
# Timers and the calls that wait for them

A timer that points to a task belongs to a call of `register_one_hit` which that task is still
executing, and the task is not ready once the call has blocked it.  So no timer points to a task
that has left `register_one_hit`.
-/

namespace PellOs

/-- The call has stored its task in the timer: it is about to block it, or has done so. -/
def HoldsSlot (machine : Machine) (task slot : Nat) : Prop :=
  ∃ call delay, Frame.hitBlock call delay slot ∈ machine.calls task ∨
    Frame.hitLeave call delay slot ∈ machine.calls task

/-- Timers point to tasks that wait for them. -/
structure Slotted (machine : Machine) : Prop where
  claimed : ∀ slot, (machine.scheduler.timerArr slot).taskPtr ≠ 0 →
    HoldsSlot machine (machine.scheduler.timerArr slot).taskPtr slot
  asleep : ∀ slot call delay, (machine.scheduler.timerArr slot).taskPtr ≠ 0 →
    Frame.hitLeave call delay slot ∈ machine.calls (machine.scheduler.timerArr slot).taskPtr →
      (machine.scheduler.tasks (machine.scheduler.timerArr slot).taskPtr).state ≠ .running

namespace Slotted

variable {action : MachineAction} {before after : Machine}

theorem slot_unique {machine : Machine} (well : WellStacked machine) {task left right : Nat}
    (left_held : HoldsSlot machine task left) (right_held : HoldsSlot machine task right) :
    left = right := by
  have layered := well.layered task
  obtain ⟨call, delay, left_mem | left_mem⟩ := left_held <;>
    obtain ⟨other, wait, right_mem | right_mem⟩ := right_held
  · exact (Frame.hitBlock.inj (layered.unique left_mem right_mem rfl Nat.one_lt_two)).2.2
  · cases layered.unique left_mem right_mem rfl Nat.one_lt_two
  · cases layered.unique left_mem right_mem rfl Nat.one_lt_two
  · exact (Frame.hitLeave.inj (layered.unique left_mem right_mem rfl Nat.one_lt_two)).2.2

/-- A call that is topmost and has been chosen again returns to a ready task. -/
theorem running_of_leave {machine : Machine} (well : WellStacked machine)
    (controlled : Controlled machine) {frame : Frame} {rest : List Frame}
    (stack : machine.stack = frame :: rest) (low : frame.layer = 1)
    (decided : frame.pending = false) :
    (machine.scheduler.tasks machine.scheduler.current).state = .running := by
  rcases controlled.runs with running | ⟨other, member, pending⟩
  · exact running
  · rw [stack] at member
    rcases List.mem_cons.mp member with rfl | below
    · rw [decided] at pending
      cases pending
    · have layered := well.layered machine.scheduler.current
      rw [← Machine.stack, stack] at layered
      have base := layered.below (by rw [low]; decide) below
      have high := Frame.one_le_layer pending
      omega

/-- No timer points to the current task when it returns from `register_one_hit`. -/
theorem not_claimed_of_leave (slotted : Slotted before) (well : WellStacked before)
    (controlled : Controlled before) {call delay slot other : Nat} {rest : List Frame}
    (stack : before.stack = .hitLeave call delay slot :: rest)
    (present : (before.scheduler.timerArr other).taskPtr ≠ 0) :
    (before.scheduler.timerArr other).taskPtr ≠ before.scheduler.current := by
  intro same
  have running := running_of_leave well controlled stack rfl rfl
  have member : Frame.hitLeave call delay slot ∈ before.calls before.scheduler.current := by
    rw [← Machine.stack, stack]
    exact List.mem_cons_self
  have held := slotted.claimed other present
  rw [same] at held
  obtain rfl := slot_unique well held ⟨call, delay, Or.inr member⟩
  rw [← same] at member running
  exact slotted.asleep other call delay present member running

/-- A task keeps waiting for its timer until it returns from `register_one_hit`. -/
theorem holdsSlot_step (step : MachineStep action before after) {task slot : Nat}
    (held : HoldsSlot before task slot) :
    HoldsSlot after task slot ∨
      task = before.scheduler.current ∧
        ∃ call delay rest, before.stack = .hitLeave call delay slot :: rest := by
  obtain ⟨call, delay, block | leave⟩ := held
  · rcases step.mem_calls block with stays | impossible |
      ⟨rfl, rest, frames, scheduler, _, result, rfl⟩
    · exact Or.inl ⟨call, delay, Or.inl stays⟩
    · cases impossible
    · obtain ⟨rfl, -⟩ := Prod.mk.inj (Option.some.inj result)
      refine Or.inl ⟨call, delay, Or.inr ?_⟩
      rw [Machine.calls_next, if_pos rfl]
      exact List.mem_append_left _ (List.mem_cons_of_mem _ List.mem_cons_self)
  · rcases step.mem_calls leave with stays | impossible | ⟨rfl, rest, _, _, stack, _⟩
    · exact Or.inl ⟨call, delay, Or.inr stays⟩
    · cases impossible
    · exact Or.inr ⟨rfl, call, delay, rest, stack⟩

/-- A timer whose task stays the same still belongs to a call of that task. -/
private theorem claimed_of_same (slotted : Slotted before) (well : WellStacked before)
    (controlled : Controlled before) (step : MachineStep action before after) {slot : Nat}
    (same : (after.scheduler.timerArr slot).taskPtr = (before.scheduler.timerArr slot).taskPtr)
    (present : (after.scheduler.timerArr slot).taskPtr ≠ 0) :
    HoldsSlot after (after.scheduler.timerArr slot).taskPtr slot := by
  rw [same] at present ⊢
  rcases holdsSlot_step step (slotted.claimed slot present) with
    held | ⟨current, call, delay, rest, stack⟩
  · exact held
  · exact absurd current (slotted.not_claimed_of_leave well controlled stack present)

/-- The task of a timer changes when `register_one_hit` stores it and when the timer elapses. -/
theorem taskPtr_step (step : MachineStep action before after) (slot : Nat) :
    (after.scheduler.timerArr slot).taskPtr = (before.scheduler.timerArr slot).taskPtr ∨
      (after.scheduler.timerArr slot).taskPtr = 0 ∨
      ((after.scheduler.timerArr slot).taskPtr = before.scheduler.current ∧
        ∃ call delay rest, after.stack = .hitBlock call delay slot :: rest ∧
          after.scheduler.current = before.scheduler.current) := by
  cases step with
  | tick => exact Or.inl (by rw [Machine.timerArr_tick])
  | call | allocate | allocateFails => exact Or.inl rfl
  | @advance _ top frames rest scheduler stack result =>
      rw [Machine.scheduler_next]
      cases effect_of_advance result with
      | quiet plain quiet => exact Or.inl (by rw [quiet.timerArr])
      | publish | mark | block | timers | switch => exact Or.inl rfl
      | finish call delay stored =>
          rw [Scheduler.timerArr_setTimer]
          split_ifs with same
          · rw [same]
            exact Or.inl rfl
          · exact Or.inl rfl
      | ptr call delay stored =>
          rw [Scheduler.timerArr_setTimer]
          split_ifs with same
          · subst same
            refine Or.inr (Or.inr ⟨rfl, call, delay, rest, ?_, rfl⟩)
            exact Machine.stack_next _ _ rfl
          · exact Or.inl rfl
      | timer checked inside =>
          rw [Scheduler.timerArr_checkTimer]
          split_ifs
          · exact Or.inr (Or.inl rfl)
          · exact Or.inl rfl

private theorem claimed_step (slotted : Slotted before) (well : WellStacked before)
    (controlled : Controlled before) (step : MachineStep action before after) (slot : Nat)
    (present : (after.scheduler.timerArr slot).taskPtr ≠ 0) :
    HoldsSlot after (after.scheduler.timerArr slot).taskPtr slot := by
  rcases taskPtr_step step slot with same | zero | ⟨stored, call, delay, rest, stack, current⟩
  · exact slotted.claimed_of_same well controlled step same present
  · exact absurd zero present
  · refine ⟨call, delay, Or.inl ?_⟩
    rw [stored, ← current, ← Machine.stack, stack]
    exact List.mem_cons_self

/-- How a task becomes ready: its timer elapses, or it is created. -/
theorem running_step (step : MachineStep action before after) {task : Nat}
    (running : (after.scheduler.tasks task).state = .running) :
    (before.scheduler.tasks task).state = .running ∨ before.calls task = [] ∨
      ∃ slot, before.scheduler.Elapsed slot ∧ (before.scheduler.timerArr slot).taskPtr = task ∧
        (after.scheduler.timerArr slot).taskPtr = 0 := by
  cases step with
  | tick =>
      rw [Machine.state_tick] at running
      exact Or.inl running
  | call | allocateFails => exact Or.inl running
  | allocate stack page_ne fresh =>
      rw [Machine.tasks_forked] at running
      split_ifs at running with new
      · exact Or.inr (Or.inl (by rw [new]; exact fresh))
      · exact Or.inl running
  | advance stack result =>
      rw [Machine.scheduler_next] at running
      rw [Machine.scheduler_next]
      cases effect_of_advance result with
      | quiet plain quiet => exact Or.inl ((quiet.state task).symm.trans running)
      | publish | finish | ptr | timers | switch => exact Or.inl running
      | mark =>
          rw [Scheduler.state_setState] at running
          split_ifs at running
          exact Or.inl running
      | block =>
          rw [Scheduler.state_setState] at running
          split_ifs at running
          exact Or.inl running
      | timer slot inside =>
          rw [Scheduler.state_checkTimer] at running
          split_ifs at running with both
          · refine Or.inr (Or.inr ⟨slot, both.1, both.2.symm, ?_⟩)
            rw [Scheduler.timerArr_checkTimer, if_pos ⟨both.1, rfl⟩]
          · exact Or.inl running

private theorem asleep_step (slotted : Slotted before) (well : WellStacked before)
    (step : MachineStep action before after) (slot call delay : Nat)
    (present : (after.scheduler.timerArr slot).taskPtr ≠ 0)
    (leave : Frame.hitLeave call delay slot ∈
      after.calls (after.scheduler.timerArr slot).taskPtr) :
    (after.scheduler.tasks (after.scheduler.timerArr slot).taskPtr).state ≠ .running := by
  have well_after := well.step step
  rcases taskPtr_step step slot with same | zero | ⟨stored, other, wait, rest, stack, current⟩
  · rw [same] at present leave ⊢
    have held := slotted.claimed slot present
    intro running
    rcases running_step step running with was_running | none | ⟨fired, elapsed, ptr, cleared⟩
    · obtain ⟨other, wait, block | left⟩ := held
      · rcases step.mem_calls block with stays | impossible |
          ⟨here, rest, frames, scheduler, _, result, rfl⟩
        · cases (well_after.layered _).unique stays leave rfl Nat.one_lt_two
        · cases impossible
        · obtain ⟨rfl, rfl⟩ := Prod.mk.inj (Option.some.inj result)
          rw [Machine.scheduler_next, Scheduler.state_setState, if_pos here] at running
          cases running
      · exact slotted.asleep slot other wait present left was_running
    · obtain ⟨other, wait, member | member⟩ := held
      · rw [none] at member
        cases member
      · rw [none] at member
        cases member
    · have fired_held := slotted.claimed fired (by rwa [ptr])
      rw [ptr] at fired_held
      obtain rfl := slot_unique well held fired_held
      rw [same] at cleared
      exact present cleared
  · exact absurd zero present
  · rw [stored, ← current, ← Machine.stack, stack] at leave
    have layered := well_after.layered after.scheduler.current
    rw [← Machine.stack, stack] at layered
    cases layered.unique leave List.mem_cons_self rfl Nat.one_lt_two

theorem step (slotted : Slotted before) (well : WellStacked before)
    (controlled : Controlled before) (step : MachineStep action before after) : Slotted after where
  claimed := slotted.claimed_step well controlled step
  asleep := slotted.asleep_step well step

end Slotted

/-! ## Runs -/

/-- What holds in every machine reached from boot. -/
structure MachineInv (machine : Machine) : Prop where
  well : WellStacked machine
  controlled : Controlled machine
  slotted : Slotted machine

namespace MachineInv

theorem initial (task tick : Nat) : MachineInv (initialMachine task tick) where
  well := ⟨fun _ => 0, fun _ => le_refl _, .initial task tick⟩
  controlled := by
    refine ⟨fun other differ frame rest stack => ?_, fun next rest stack => ?_, Or.inl rfl⟩
    · have differ : other ≠ task := differ
      rw [calls_initialMachine, if_neg differ] at stack
      cases stack
    · rw [stack_initialMachine] at stack
      cases stack
  slotted := ⟨fun _ present => absurd rfl present, fun _ _ _ present _ => absurd rfl present⟩

theorem step {action : MachineAction} {before after : Machine} (inv : MachineInv before)
    (step : MachineStep action before after) : MachineInv after where
  well := inv.well.step step
  controlled := inv.controlled.step inv.well step
  slotted := inv.slotted.step inv.well inv.controlled step

theorem of_run {condition : MachineAction → Machine → Prop} {task tick : Nat} {machine : Machine}
    (run : ReachesWhere condition (initialMachine task tick) machine) : MachineInv machine := by
  induction run with
  | refl => exact .initial task tick
  | tail _ last ih =>
      obtain ⟨action, -, step⟩ := last
      exact ih.step step

end MachineInv

end PellOs
