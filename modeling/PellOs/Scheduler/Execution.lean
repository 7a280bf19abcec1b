import PellOs.Scheduler.CallStacks

/-!
# Execution of the machine

An action that is possible leads to one machine, which `perform` computes.  So a run of the machine
is computed from its actions.
-/

namespace PellOs

/-- Whether code of a task may make the call. -/
def Frame.isEntry (elapsed : Nat) : Frame → Bool
  | .forkEnter | .exitEnter | .scheduleEnter => true
  | .hitTest call delay slot => call = elapsed && delay < 2 ^ 32 && slot = 0
  | _ => false

theorem Frame.isEntry_iff {elapsed : Nat} {frame : Frame} :
    frame.isEntry elapsed = true ↔ EntryCall elapsed frame := by
  constructor
  · intro entry
    cases frame with
    | forkEnter => exact .fork
    | exitEnter => exact .exit
    | scheduleEnter => exact .schedule
    | hitTest call delay slot =>
        simp only [isEntry, Bool.and_eq_true, decide_eq_true_eq] at entry
        obtain ⟨⟨rfl, small⟩, rfl⟩ := entry
        exact .hit small
    | _ => cases entry
  · rintro (_ | _ | small | _)
    · rfl
    · rfl
    · simpa [isEntry] using small
    · rfl

/-- Whether the next statement of the current task is allowed, if the action executes one. -/
def NextStatement (allowed : Machine → Frame → Prop) : MachineAction → Machine → Prop
  | .advance, machine => ∀ frame ∈ machine.stack.head?, allowed machine frame
  | _, _ => True

instance (allowed : Machine → Frame → Prop) [∀ machine frame, Decidable (allowed machine frame)]
    (action : MachineAction) (machine : Machine) :
    Decidable (NextStatement allowed action machine) := by
  unfold NextStatement
  split <;> infer_instance

theorem NextStatement.allowed {allowed : Machine → Frame → Prop} {machine : Machine}
    (next : NextStatement allowed .advance machine) {frame : Frame} {rest : List Frame}
    (stack : machine.stack = frame :: rest) : allowed machine frame := by
  refine next frame ?_
  rw [stack]
  rfl

namespace Machine

/-- The machine after an action, if the action is possible. -/
def perform (machine : Machine) : MachineAction → Option Machine
  | .tick => some machine.tick
  | .call frame =>
      match machine.stack with
      | .running :: rest =>
          if frame.isEntry machine.elapsed then
            some (machine.next (frame :: .running :: rest) machine.scheduler)
          else none
      | _ => none
  | .advance =>
      match machine.stack with
      | frame :: rest =>
          (PellOs.advance machine.scheduler frame).map fun (frames, scheduler) =>
            machine.next (frames ++ rest) scheduler
      | [] => none
  | .allocate page =>
      match machine.stack with
      | .forkAllocate :: rest =>
          if page = 0 then some (machine.next rest machine.scheduler)
          else if machine.calls page = [] then some (machine.forked page rest)
          else none
      | _ => none

private theorem step_of_perform {machine after : Machine} {action : MachineAction}
    (result : machine.perform action = some after) : MachineStep action machine after := by
  cases action with
  | tick =>
      obtain rfl := Option.some.inj result
      exact .tick
  | call frame =>
      rw [perform] at result
      split at result
      case h_1 rest stack =>
        split_ifs at result with entry
        obtain rfl := Option.some.inj result
        exact .call stack (Frame.isEntry_iff.mp entry)
      case h_2 => cases result
  | advance =>
      rw [perform] at result
      split at result
      case h_1 frame rest stack =>
        obtain ⟨⟨frames, scheduler⟩, here, rfl⟩ := Option.map_eq_some_iff.mp result
        exact .advance stack here
      case h_2 => cases result
  | allocate page =>
      rw [perform] at result
      split at result
      case h_1 rest stack =>
        split_ifs at result with failed fresh
        · obtain rfl := Option.some.inj result
          rw [failed]
          exact .allocateFails stack
        · obtain rfl := Option.some.inj result
          exact .allocate stack failed fresh
      case h_2 => cases result

private theorem perform_of_step {machine after : Machine} {action : MachineAction}
    (step : MachineStep action machine after) : machine.perform action = some after := by
  cases step with
  | tick => rfl
  | call stack entry => simp [perform, stack, Frame.isEntry_iff.mpr entry]
  | advance stack result => simp [perform, stack, result]
  | allocate stack page_ne fresh => simp [perform, stack, page_ne, fresh]
  | allocateFails stack => simp [perform, stack]

theorem perform_eq_some_iff {machine after : Machine} {action : MachineAction} :
    machine.perform action = some after ↔ MachineStep action machine after :=
  ⟨step_of_perform, perform_of_step⟩

/-- Perform the actions one after another, as long as they meet a condition. -/
def execute (condition : MachineAction → Machine → Prop)
    [∀ action machine, Decidable (condition action machine)] :
    Machine → List MachineAction → Option Machine
  | machine, [] => some machine
  | machine, action :: actions =>
      if condition action machine then
        (machine.perform action).bind (execute condition · actions)
      else
        none

section Execute

variable {condition : MachineAction → Machine → Prop}
  [∀ action machine, Decidable (condition action machine)]

theorem reaches_of_execute {actions : List MachineAction} {machine after : Machine}
    (result : machine.execute condition actions = some after) :
    ReachesWhere condition machine after := by
  induction actions generalizing machine with
  | nil =>
      obtain rfl := Option.some.inj result
      exact .refl
  | cons action actions ih =>
      rw [execute] at result
      split_ifs at result with met
      obtain ⟨middle, performed, rest⟩ := Option.bind_eq_some_iff.mp result
      exact (ih rest).head ⟨action, met, perform_eq_some_iff.mp performed⟩

/-- What is observed after an execution is observed in a machine that is reached. -/
theorem exists_of_execute {α : Type*} {observe : Machine → α} {value : α}
    {actions : List MachineAction} {machine : Machine}
    (result : (machine.execute condition actions).map observe = some value) :
    ∃ after, ReachesWhere condition machine after ∧ observe after = value := by
  obtain ⟨after, executed, observed⟩ := Option.map_eq_some_iff.mp result
  exact ⟨after, reaches_of_execute executed, observed⟩

end Execute

end Machine

/-- The current task forks a task at `page`. -/
def forkActions (page : Nat) : List MachineAction :=
  [.call .forkEnter, .advance, .allocate page, .advance, .advance]

/-- The current task waits for one tick, and `steps` statements follow. -/
def waitActions (steps : Nat) : List MachineAction :=
  .call (.hitTest 0 100 0) :: List.replicate steps .advance

/-- The current task makes the call, and `steps` statements follow. -/
def callActions (frame : Frame) (steps : Nat) : List MachineAction :=
  .call frame :: List.replicate steps .advance

end PellOs
