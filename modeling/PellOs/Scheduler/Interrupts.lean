import PellOs.Scheduler.Coroutines

/-!
# Interrupts

`handle_irq` on the tasks of the machine.  A call of it belongs to the task that it interrupts, runs
with interrupts masked until `scheduler_tick` enables them, and stays below the `_schedule` that may
switch to another task.  Every call keeps the value that it read from `GICC_IAR`, what it has
written to `GICC_EOIR` and how often it has called `scheduler_tick`.
-/

namespace PellOs

/-! ## Acknowledged values -/

/-- `SYSTEM_TIMER_IRQ_1`. -/
def systemTimerIrq1 : Nat := 0x61

/-- `ARM_GENERIC_TIMER`. -/
def armGenericTimer : Nat := 0x1E

/-- `irq` in `handle_irq`. -/
def irqOf (irqAck : Nat) : Nat := irqAck &&& 0x2FF

/-- The ten bits of a value of `GICC_IAR` that hold the interrupt id. -/
def interruptId (irqAck : Nat) : Nat := irqAck % 2 ^ 10

/-- The id is the one of a timer. -/
def IsTimerId (id : Nat) : Prop := id = systemTimerIrq1 ∨ id = armGenericTimer

instance (id : Nat) : Decidable (IsTimerId id) := inferInstanceAs (Decidable (_ ∨ _))

/-- The mask of `handle_irq` lacks bit eight of the id. -/
theorem isTimerId_irqOf {irqAck : Nat} :
    IsTimerId (irqOf irqAck) ↔ IsTimerId (interruptId irqAck) ∨
      interruptId irqAck = 353 ∨ interruptId irqAck = 286 := by
  have masked : irqOf irqAck = irqOf (interruptId irqAck) := by
    rw [irqOf, irqOf, interruptId, ← Nat.and_two_pow_sub_one_eq_mod, Nat.and_assoc]
    rfl
  have every : ∀ id < 2 ^ 10, IsTimerId (irqOf id) ↔ IsTimerId id ∨ id = 353 ∨ id = 286 := by
    decide +kernel
  rw [masked]
  exact every _ (Nat.mod_lt _ (by decide))

/-! ## Calls of `handle_irq` -/

/-- The statement of `handle_irq` or of a handler that is executed next. -/
inductive IrqPoint
  /-- The `switch` of `handle_irq`. -/
  | dispatch
  | handleTimerC0Isr
  | handleGenericTimerIrq
  /-- The call of `_schedule` in `scheduler_tick`, above that many calls of the task. -/
  | schedule (height : Nat)
  /-- The return to the interrupted code. -/
  | leave

/-- A call of `handle_irq`. -/
structure Activation where
  irqAck : Nat
  point : IrqPoint
  /-- Values written to `GICC_EOIR`, latest first. -/
  eoirs : List Nat
  /-- Number of calls of `scheduler_tick`. -/
  ticks : Nat

/-- The machine with the calls of `handle_irq` of every task, topmost first.  `left` has the calls
as they were whenever they returned or lost the core to another task, latest first. -/
structure InterruptMachine where
  machine : Machine
  /-- Interrupts are masked. -/
  masked : Bool
  activations : Nat → List Activation
  left : List Activation

namespace Machine

/-- `scheduler_tick` returns before it enables interrupts. -/
def TickReturns (machine : Machine) : Prop :=
  0 < (machine.scheduler.tasks machine.scheduler.current).counter - 1 ∨
    0 < (machine.scheduler.tasks machine.scheduler.current).preemptCount

instance (machine : Machine) : Decidable machine.TickReturns :=
  inferInstanceAs (Decidable (_ ∨ _))

end Machine

namespace InterruptMachine

/-- The calls of `handle_irq` of the current task. -/
def active (interrupts : InterruptMachine) : List Activation :=
  interrupts.activations interrupts.machine.scheduler.current

/-- Replace the calls of `handle_irq` of the current task. -/
def withActive (interrupts : InterruptMachine) (active : List Activation) : InterruptMachine :=
  { interrupts with
    activations :=
      Function.update interrupts.activations interrupts.machine.scheduler.current active }

/-- The current task is at a statement of `handle_irq` or of a handler, not in a call of `_schedule`
above it. -/
def InHandler (interrupts : InterruptMachine) : Prop :=
  match interrupts.active with
  | [] => False
  | activation :: _ =>
      match activation.point with
      | .schedule height => interrupts.machine.stack.length ≤ height
      | _ => True

/-- The next statement of the topmost call. -/
def handleIrqNext (interrupts : InterruptMachine) (activation : Activation)
    (rest : List Activation) : InterruptMachine :=
  let irqAck := activation.irqAck
  match activation.point with
  | .dispatch =>
      if irqOf irqAck = systemTimerIrq1 then
        interrupts.withActive
          (⟨irqAck, .handleTimerC0Isr, irqAck :: activation.eoirs, activation.ticks⟩ :: rest)
      else if irqOf irqAck = armGenericTimer then
        interrupts.withActive
          (⟨irqAck, .handleGenericTimerIrq, irqAck :: activation.eoirs, activation.ticks⟩ :: rest)
      else
        interrupts.withActive (⟨irqAck, .leave, activation.eoirs, activation.ticks⟩ :: rest)
  | .handleTimerC0Isr | .handleGenericTimerIrq =>
      let machine := interrupts.machine.tick
      if interrupts.machine.TickReturns then
        { interrupts.withActive
            (⟨irqAck, .leave, activation.eoirs, activation.ticks + 1⟩ :: rest) with machine }
      else
        let point := IrqPoint.schedule interrupts.machine.stack.length
        { interrupts.withActive
            (⟨irqAck, point, activation.eoirs, activation.ticks + 1⟩ :: rest) with
          machine
          masked := false }
  | .schedule _ =>
      { interrupts.withActive
          (⟨irqAck, .leave, activation.eoirs, activation.ticks⟩ :: rest) with masked := true }
  | .leave =>
      { interrupts.withActive rest with
        masked := false
        left := activation :: interrupts.left }

/-- The machine after a statement of a task.  A switch takes the core from all calls of
`handle_irq` of the task. -/
def afterTask (interrupts : InterruptMachine) (machine : Machine) : InterruptMachine :=
  { interrupts with
    machine
    left :=
      if machine.scheduler.current = interrupts.machine.scheduler.current then interrupts.left
      else interrupts.active ++ interrupts.left }

end InterruptMachine

/-- One statement.  `handle_irq` begins with a read of `GICC_IAR`, which may return any value; code
outside of it may mask and unmask interrupts. -/
inductive InterruptStep : InterruptMachine → InterruptMachine → Prop
  | acknowledge {interrupts : InterruptMachine} {irqAck : Nat}
      (unmasked : interrupts.masked = false) (word : irqAck < 2 ^ 32) :
      InterruptStep interrupts
        { interrupts.withActive (⟨irqAck, .dispatch, [], 0⟩ :: interrupts.active) with
          masked := true }
  | handle {interrupts : InterruptMachine} {activation : Activation} {rest : List Activation}
      (active : interrupts.active = activation :: rest) (inside : interrupts.InHandler) :
      InterruptStep interrupts (interrupts.handleIrqNext activation rest)
  | task {interrupts : InterruptMachine} {action : MachineAction} {machine : Machine}
      (outside : ¬interrupts.InHandler) (statement : action ≠ .tick)
      (step : MachineStep action interrupts.machine machine) :
      InterruptStep interrupts (interrupts.afterTask machine)
  | mask {interrupts : InterruptMachine} {masked : Bool} (outside : ¬interrupts.InHandler) :
      InterruptStep interrupts { interrupts with masked }

/-- The machine at boot. -/
def initialInterrupts (task tick : Nat) : InterruptMachine :=
  ⟨initialMachine task tick, true, fun _ => [], []⟩

/-- A sequence of statements. -/
def InterruptReaches : InterruptMachine → InterruptMachine → Prop :=
  Relation.ReflTransGen InterruptStep

/-! ## The machine below -/

/-- A statement is a step of the machine, where `handle_irq` is a tick at most, or leaves it
alone. -/
theorem InterruptStep.machine {before after : InterruptMachine}
    (step : InterruptStep before after) :
    after.machine = before.machine ∨
      ∃ action, MachineStep action before.machine after.machine := by
  cases step with
  | acknowledge unmasked word => exact Or.inl rfl
  | @handle activation rest active inside =>
      rw [InterruptMachine.handleIrqNext]
      split
      · split_ifs <;> exact Or.inl rfl
      · split_ifs <;> exact Or.inr ⟨.tick, .tick⟩
      · split_ifs <;> exact Or.inr ⟨.tick, .tick⟩
      · exact Or.inl rfl
      · exact Or.inl rfl
  | @task action machine outside statement step => exact Or.inr ⟨action, step⟩
  | mask outside => exact Or.inl rfl

theorem InterruptReaches.machine {before after : InterruptMachine}
    (run : InterruptReaches before after) :
    ReachesWhere (fun _ _ => True) before.machine after.machine := by
  induction run with
  | refl => exact .refl
  | tail _ step ih =>
      rcases step.machine with same | ⟨action, statement⟩
      · rwa [same]
      · exact ih.tail ⟨action, trivial, statement⟩

/-! ## Invariant -/

namespace Activation

/-- The call has completed its interrupt and has called `scheduler_tick` if it took the interrupt
for a timer's, and has done neither otherwise. -/
def Settled (activation : Activation) : Prop :=
  if IsTimerId (irqOf activation.irqAck) then
    activation.eoirs = [activation.irqAck] ∧ activation.ticks = 1
  else activation.eoirs = [] ∧ activation.ticks = 0

/-- The call waits for `_schedule`. -/
def Waiting (activation : Activation) : Prop := ∃ height, activation.point = .schedule height

/-- What a call has done when it reaches a statement. -/
def Consistent (activation : Activation) : Prop :=
  match activation.point with
  | .dispatch => activation.eoirs = [] ∧ activation.ticks = 0
  | .handleTimerC0Isr | .handleGenericTimerIrq =>
      IsTimerId (irqOf activation.irqAck) ∧ activation.eoirs = [activation.irqAck] ∧
        activation.ticks = 0
  | .schedule _ | .leave => activation.Settled

theorem settled_of_tick {irqAck ticks : Nat} {eoirs : List Nat}
    (before : IsTimerId (irqOf irqAck) ∧ eoirs = [irqAck] ∧ ticks = 0) (next : IrqPoint) :
    Settled ⟨irqAck, next, eoirs, ticks + 1⟩ := by
  obtain ⟨timer, rfl, rfl⟩ := before
  rw [Settled, if_pos timer]
  exact ⟨rfl, rfl⟩

theorem Consistent.settled {activation : Activation} (consistent : activation.Consistent)
    (waiting : activation.Waiting) : activation.Settled := by
  obtain ⟨height, point⟩ := waiting
  rw [Consistent, point] at consistent
  exact consistent

end Activation

/-- Calls have done what their statement requires, only the topmost one of the current task may run,
and it waits while interrupts are enabled. -/
structure InterruptInv (interrupts : InterruptMachine) : Prop where
  consistent : ∀ task, ∀ activation ∈ interrupts.activations task, activation.Consistent
  below : ∀ task, ∀ activation ∈ (interrupts.activations task).tail, activation.Waiting
  suspended : ∀ task, task ≠ interrupts.machine.scheduler.current →
    ∀ activation ∈ interrupts.activations task, activation.Waiting
  unmasked : interrupts.masked = false → ∀ activation ∈ interrupts.active, activation.Waiting
  settled : ∀ activation ∈ interrupts.left, activation.Settled

theorem InterruptInv.initial (task tick : Nat) : InterruptInv (initialInterrupts task tick) := by
  constructor
  · exact fun _ _ member => absurd member List.not_mem_nil
  · exact fun _ _ member => absurd member List.not_mem_nil
  · exact fun _ _ _ member => absurd member List.not_mem_nil
  · exact fun _ _ member => absurd member List.not_mem_nil
  · exact fun _ member => absurd member List.not_mem_nil

section Step

variable {interrupts : InterruptMachine} {activation : Activation} {rest : List Activation}

theorem activations_withActive (active : List Activation) (task : Nat) :
    (interrupts.withActive active).activations task =
      if task = interrupts.machine.scheduler.current then active
      else interrupts.activations task := by
  rw [InterruptMachine.withActive]
  split_ifs with same
  · rw [same]
    exact Function.update_self _ _ _
  · exact Function.update_of_ne same _ _

theorem current_tick (machine : Machine) :
    machine.tick.scheduler.current = machine.scheduler.current := by
  rw [Machine.tick]
  split_ifs <;> rfl

theorem InterruptInv.replace (inv : InterruptInv interrupts) {active left : List Activation}
    {machine : Machine} {masked : Bool}
    (same : machine.scheduler.current = interrupts.machine.scheduler.current)
    (consistent : ∀ activation ∈ active, activation.Consistent)
    (below : ∀ activation ∈ active.tail, activation.Waiting)
    (unmasked : masked = false → ∀ activation ∈ active, activation.Waiting)
    (settled : ∀ activation ∈ left, activation.Settled) :
    InterruptInv { interrupts.withActive active with machine, masked, left } where
  consistent := by
    intro task
    dsimp only
    rw [activations_withActive]
    split_ifs
    · exact consistent
    · exact inv.consistent task
  below := by
    intro task
    dsimp only
    rw [activations_withActive]
    split_ifs
    · exact below
    · exact inv.below task
  suspended := by
    intro task other
    dsimp only at other ⊢
    rw [same] at other
    rw [activations_withActive, if_neg other]
    exact inv.suspended task other
  unmasked := by
    intro enabled
    rw [InterruptMachine.active]
    dsimp only
    rw [same, activations_withActive, if_pos rfl]
    exact unmasked enabled
  settled := settled

theorem InterruptInv.waiting (inv : InterruptInv interrupts) (outside : ¬interrupts.InHandler) :
    ∀ activation ∈ interrupts.active, activation.Waiting := by
  intro activation member
  rw [InterruptMachine.InHandler] at outside
  have below := inv.below interrupts.machine.scheduler.current
  rw [← InterruptMachine.active] at below
  cases active : interrupts.active with
  | nil =>
      rw [active] at member
      cases member
  | cons top rest =>
      rw [active] at member outside below
      rcases List.mem_cons.mp member with rfl | lower
      · dsimp only at outside
        split at outside
        · exact ⟨_, ‹_›⟩
        · exact absurd trivial outside
      · exact below activation lower

theorem InterruptInv.acknowledge (inv : InterruptInv interrupts)
    (unmasked : interrupts.masked = false) (irqAck : Nat) :
    InterruptInv { interrupts.withActive (⟨irqAck, .dispatch, [], 0⟩ :: interrupts.active) with
      masked := true } := by
  refine inv.replace rfl ?_ (inv.unmasked unmasked) (fun enabled => by cases enabled) inv.settled
  intro activation member
  rcases List.mem_cons.mp member with rfl | lower
  · exact ⟨rfl, rfl⟩
  · exact inv.consistent _ activation lower

theorem InterruptInv.advance (inv : InterruptInv interrupts)
    (active : interrupts.active = activation :: rest) {next : Activation} {machine : Machine}
    {masked : Bool} (same : machine.scheduler.current = interrupts.machine.scheduler.current)
    (consistent : next.Consistent) (waits : masked = false → next.Waiting) :
    InterruptInv { interrupts.withActive (next :: rest) with machine, masked } := by
  have below := inv.below interrupts.machine.scheduler.current
  rw [← InterruptMachine.active, active] at below
  have before := inv.consistent interrupts.machine.scheduler.current
  rw [← InterruptMachine.active, active] at before
  refine inv.replace same ?_ below ?_ inv.settled
  · intro other member
    rcases List.mem_cons.mp member with rfl | lower
    · exact consistent
    · exact before other (List.mem_cons_of_mem _ lower)
  · intro enabled other member
    rcases List.mem_cons.mp member with rfl | lower
    · exact waits enabled
    · exact below other lower

/-- While the topmost call is at a statement of its own, interrupts are masked, or the call has just
come back from `_schedule`. -/
theorem InterruptInv.masked (inv : InterruptInv interrupts)
    (active : interrupts.active = activation :: rest) (busy : ¬activation.Waiting) :
    interrupts.masked = true := by
  by_contra enabled
  refine busy (inv.unmasked (Bool.not_eq_true _ ▸ enabled) activation ?_)
  rw [active]
  exact List.mem_cons_self

theorem InterruptInv.handle (inv : InterruptInv interrupts)
    (active : interrupts.active = activation :: rest) :
    InterruptInv (interrupts.handleIrqNext activation rest) := by
  have consistent : activation.Consistent := inv.consistent interrupts.machine.scheduler.current
    activation (by rw [← InterruptMachine.active, active]; exact List.mem_cons_self)
  obtain ⟨irqAck, point, eoirs, ticks⟩ := activation
  have busy : ∀ {next : Activation}, (∀ height, point ≠ .schedule height) →
      interrupts.masked = false → next.Waiting := by
    intro next not_schedule enabled
    have masked := inv.masked active fun ⟨height, here⟩ => not_schedule height here
    rw [masked] at enabled
    cases enabled
  cases point with
  | dispatch =>
      obtain ⟨rfl, rfl⟩ : eoirs = [] ∧ ticks = 0 := consistent
      rw [InterruptMachine.handleIrqNext]
      dsimp only
      split_ifs with system generic
      · exact inv.advance active rfl ⟨Or.inl system, rfl, rfl⟩ (busy (by simp))
      · exact inv.advance active rfl ⟨Or.inr generic, rfl, rfl⟩ (busy (by simp))
      · refine inv.advance active rfl ?_ (busy (by simp))
        have unknown : ¬IsTimerId (irqOf irqAck) := not_or.mpr ⟨system, generic⟩
        rw [Activation.Consistent, Activation.Settled, if_neg unknown]
        exact ⟨rfl, rfl⟩
  | handleTimerC0Isr | handleGenericTimerIrq =>
      rw [InterruptMachine.handleIrqNext]
      dsimp only
      split_ifs
      · exact inv.advance active (current_tick _) (Activation.settled_of_tick consistent _)
          (busy (by simp))
      · exact inv.advance active (current_tick _)
          (Activation.settled_of_tick consistent _) fun _ => ⟨_, rfl⟩
  | schedule height =>
      exact inv.advance active rfl consistent fun enabled => by cases enabled
  | leave =>
      have below := inv.below interrupts.machine.scheduler.current
      rw [← InterruptMachine.active, active] at below
      have before := inv.consistent interrupts.machine.scheduler.current
      rw [← InterruptMachine.active, active] at before
      refine inv.replace rfl (fun other member => before other (List.mem_cons_of_mem _ member))
        (fun other member => below other (List.mem_of_mem_tail member)) (fun _ => below) ?_
      intro other member
      rcases List.mem_cons.mp member with rfl | earlier
      · exact consistent
      · exact inv.settled other earlier

theorem InterruptInv.task (inv : InterruptInv interrupts) (outside : ¬interrupts.InHandler)
    (machine : Machine) : InterruptInv (interrupts.afterTask machine) where
  consistent := inv.consistent
  below := inv.below
  suspended := by
    intro task other
    by_cases before : task = interrupts.machine.scheduler.current
    · rw [before]
      exact inv.waiting outside
    · exact inv.suspended task before
  unmasked := by
    intro _
    by_cases same : machine.scheduler.current = interrupts.machine.scheduler.current
    · rw [InterruptMachine.active, InterruptMachine.afterTask, same]
      exact inv.waiting outside
    · exact inv.suspended _ same
  settled := by
    intro activation member
    rw [InterruptMachine.afterTask] at member
    split_ifs at member
    · exact inv.settled activation member
    · rcases List.mem_append.mp member with switched | earlier
      · exact (inv.consistent _ activation switched).settled
          (inv.waiting outside activation switched)
      · exact inv.settled activation earlier

theorem InterruptInv.step {after : InterruptMachine} (inv : InterruptInv interrupts)
    (step : InterruptStep interrupts after) : InterruptInv after := by
  cases step with
  | acknowledge unmasked word => exact inv.acknowledge unmasked _
  | handle active inside => exact inv.handle active
  | task outside statement step => exact inv.task outside _
  | mask outside =>
      exact ⟨inv.consistent, inv.below, inv.suspended, fun _ => inv.waiting outside, inv.settled⟩

theorem InterruptInv.run {after : InterruptMachine} (inv : InterruptInv interrupts)
    (run : InterruptReaches interrupts after) : InterruptInv after := by
  induction run with
  | refl => exact inv
  | tail _ step ih => exact ih.step step

end Step

/-! ## Balance -/

namespace Activation

/-- The interrupt has been completed exactly once if it is not a spurious one, and
`scheduler_tick` has been called exactly if it is a timer's. -/
structure Balanced (activation : Activation) : Prop where
  completed : interruptId activation.irqAck < 1020 → activation.eoirs = [activation.irqAck]
  ticked : activation.ticks = if IsTimerId (interruptId activation.irqAck) then 1 else 0

/-- The interrupt is a timer's or a spurious one. -/
def Known (activation : Activation) : Prop :=
  IsTimerId (interruptId activation.irqAck) ∨ 1020 ≤ interruptId activation.irqAck

/-- A call that is settled is balanced exactly if its interrupt is a timer's or a spurious one. -/
theorem Settled.balanced_iff {activation : Activation} (settled : activation.Settled) :
    activation.Balanced ↔ activation.Known := by
  simp only [Settled, isTimerId_irqOf] at settled
  rw [Known]
  by_cases timer : IsTimerId (interruptId activation.irqAck)
  · rw [if_pos (Or.inl timer)] at settled
    exact iff_of_true ⟨fun _ => settled.1, by rw [settled.2, if_pos timer]⟩ (Or.inl timer)
  by_cases aliased : interruptId activation.irqAck = 353 ∨ interruptId activation.irqAck = 286
  · rw [if_pos (Or.inr aliased)] at settled
    refine iff_of_false ?_ ?_
    · intro balanced
      have ticked := balanced.ticked
      rw [settled.2, if_neg timer] at ticked
      cases ticked
    · rintro (isTimer | spurious)
      · exact timer isTimer
      · omega
  · rw [if_neg (not_or.mpr ⟨timer, aliased⟩)] at settled
    constructor
    · intro balanced
      by_contra unknown
      have completed := balanced.completed (by omega)
      rw [settled.1] at completed
      cases completed
    · rintro (isTimer | spurious)
      · exact absurd isTimer timer
      · exact ⟨fun small => by omega, by rw [settled.2, if_neg timer]⟩

end Activation

/-- In every run, whatever is acknowledged and however the calls of `handle_irq` nest, the calls
that have returned or lost the core are balanced if and only if each of their interrupts is a
timer's or a spurious one. -/
theorem handleIrq_balanced_iff {task tick : Nat} {interrupts : InterruptMachine}
    (run : InterruptReaches (initialInterrupts task tick) interrupts) :
    (∀ activation ∈ interrupts.left, activation.Balanced) ↔
      ∀ activation ∈ interrupts.left, activation.Known :=
  forall₂_congr fun activation member =>
    (((InterruptInv.initial task tick).run run).settled activation member).balanced_iff

/-! ## Two runs -/

/-- The machine with interrupts enabled after boot, and with an interrupt acknowledged. -/
def acknowledged (irqAck : Nat) : InterruptMachine :=
  { (initialInterrupts 1 0).withActive [⟨irqAck, .dispatch, [], 0⟩] with masked := true }

theorem reaches_acknowledged {irqAck : Nat} (word : irqAck < 2 ^ 32) :
    InterruptReaches (initialInterrupts 1 0) (acknowledged irqAck) := by
  have outside : ¬(initialInterrupts 1 0).InHandler := id
  have enabled : InterruptReaches (initialInterrupts 1 0)
      { initialInterrupts 1 0 with masked := false } :=
    .single (@InterruptStep.mask _ false outside)
  exact enabled.tail (@InterruptStep.acknowledge _ irqAck rfl word)

/-- An interrupt of the generic timer inside of the `_schedule` that one of the system timer has
called. -/
theorem handleIrq_balanced_nested :
    ∃ interrupts, InterruptReaches (initialInterrupts 1 0) interrupts ∧
      interrupts.left = [⟨30, .leave, [30], 1⟩] ∧
      ∀ activation ∈ interrupts.left, activation.Balanced := by
  have dispatched := (reaches_acknowledged (by decide : 97 < 2 ^ 32)).tail
    (@InterruptStep.handle _ ⟨97, .dispatch, [], 0⟩ [] rfl trivial)
  have ticked := dispatched.tail
    (@InterruptStep.handle _ ⟨97, .handleTimerC0Isr, [97], 0⟩ [] rfl trivial)
  have disabled := ticked.tail (@InterruptStep.task _ .advance _
    (fun inside => absurd inside (by decide : ¬2 ≤ 1)) (by simp) (.advance rfl rfl))
  have nested := disabled.tail (@InterruptStep.acknowledge _ 30 rfl (by decide))
  have nestedDispatched := nested.tail
    (@InterruptStep.handle _ ⟨30, .dispatch, [], 0⟩ [⟨97, .schedule 1, [97], 1⟩] rfl trivial)
  have nestedTicked := nestedDispatched.tail (@InterruptStep.handle _
    ⟨30, .handleGenericTimerIrq, [30], 0⟩ [⟨97, .schedule 1, [97], 1⟩] rfl trivial)
  have returned := nestedTicked.tail (@InterruptStep.handle _
    ⟨30, .leave, [30], 1⟩ [⟨97, .schedule 1, [97], 1⟩] rfl trivial)
  refine ⟨_, returned, rfl, (handleIrq_balanced_iff returned).mpr ?_⟩
  intro activation member
  obtain rfl := List.mem_singleton.mp member
  exact Or.inl (Or.inr rfl)

/-- A value with the id `50`: the call returns without a completion. -/
theorem handleIrq_unknown_not_balanced :
    ∃ interrupts, InterruptReaches (initialInterrupts 1 0) interrupts ∧
      interrupts.left = [⟨50, .leave, [], 0⟩] ∧
      ¬∀ activation ∈ interrupts.left, activation.Balanced := by
  have dispatched := (reaches_acknowledged (by decide : 50 < 2 ^ 32)).tail
    (@InterruptStep.handle _ ⟨50, .dispatch, [], 0⟩ [] rfl trivial)
  have returned := dispatched.tail
    (@InterruptStep.handle _ ⟨50, .leave, [], 0⟩ [] rfl trivial)
  refine ⟨_, returned, rfl, fun balanced => ?_⟩
  have completed := (balanced ⟨50, .leave, [], 0⟩ List.mem_cons_self).completed (by decide)
  cases completed

end PellOs
