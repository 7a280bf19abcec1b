import PellOs.Lib.FirstIndex
import PellOs.Scheduler.Kernel

/-!
# Choice of the next task

`_schedule` looks for the running task with the largest counter, in cyclic order from the current
one.  While no running task has a positive counter it halves every counter and adds the priority,
so a running task of positive priority ends the loop.
-/

namespace PellOs

/-- Fields of `task_struct` that the scheduler works on; the numbers are signed. -/
structure TaskControl where
  state : TaskState
  counter : Int
  priority : Int
  preemptCount : Int

/-- The static variables of the scheduler and of the software timers, and the tasks by the address
of their `task_struct`. -/
structure Scheduler where
  tasks : Nat → TaskControl
  /-- `task_array`; cells from `N_TASKS` on are the memory behind it. -/
  taskArray : Nat → Nat
  /-- `n_tasks`, a `uint8_t`. -/
  nTasks : Nat
  /-- `current`. -/
  current : Nat
  /-- `timer_arr`. -/
  timerArr : Nat → OnehitTimer
  /-- `current_tick`. -/
  currentTick : Nat

/-- Conversion to `sint32_t`. -/
def toSint32 (value : Int) : Int := value.bmod (2 ^ 32)

namespace Scheduler

/-- Change the fields of one task. -/
def modify (scheduler : Scheduler) (task : Nat) (change : TaskControl → TaskControl) : Scheduler :=
  { scheduler with
    tasks := Function.update scheduler.tasks task (change (scheduler.tasks task)) }

section Modify

variable (scheduler : Scheduler) (task : Nat) (change : TaskControl → TaskControl)

@[simp] theorem tasks_modify_same :
    (scheduler.modify task change).tasks task = change (scheduler.tasks task) := by
  rw [modify]
  exact Function.update_self _ _ _

theorem tasks_modify_of_ne {other : Nat} (differ : other ≠ task) :
    (scheduler.modify task change).tasks other = scheduler.tasks other :=
  Function.update_of_ne differ _ _

@[simp] theorem taskArray_modify :
    (scheduler.modify task change).taskArray = scheduler.taskArray := rfl

@[simp] theorem nTasks_modify : (scheduler.modify task change).nTasks = scheduler.nTasks := rfl

@[simp] theorem current_modify : (scheduler.modify task change).current = scheduler.current := rfl

@[simp] theorem timerArr_modify :
    (scheduler.modify task change).timerArr = scheduler.timerArr := rfl

@[simp] theorem currentTick_modify :
    (scheduler.modify task change).currentTick = scheduler.currentTick := rfl

end Modify

/-- `get_pid_from_ptr`. -/
def getPidFromPtr (scheduler : Scheduler) (ptr : Nat) : Nat :=
  (firstIndex (fun i => scheduler.taskArray i = ptr) nTasksMax 0).getD 0

/-- `get_pid`. -/
def getPid (scheduler : Scheduler) : Nat := scheduler.getPidFromPtr scheduler.current

/-- The scan for the largest counter from offset `i` on, with `c` and `next` so far. -/
def scanTasks (scheduler : Scheduler) (startIdx : Nat) : Nat → Nat → Int → Nat → Int × Nat
  | 0, _, c, next => (c, next)
  | remaining + 1, i, c, next =>
      let index := (startIdx + i) % nTasksMax
      let task := scheduler.tasks (scheduler.taskArray index)
      if scheduler.taskArray index ≠ 0 ∧ task.state = .running ∧ c < toSint32 task.counter then
        scanTasks scheduler startIdx remaining (i + 1) (toSint32 task.counter) index
      else
        scanTasks scheduler startIdx remaining (i + 1) c next

/-- One pass of the scan: the largest counter and the index of its task. -/
def pickTask (scheduler : Scheduler) : Int × Nat :=
  scanTasks scheduler scheduler.getPid nTasksMax 0 (-1) 0

/-- The refill of one task. -/
def refillTask (task : TaskControl) : TaskControl :=
  { task with counter := (task.counter >>> (1 : Nat)) + task.priority }

theorem counter_refillTask (task : TaskControl) :
    (refillTask task).counter = task.counter / 2 + task.priority := by
  rw [refillTask]
  exact congrArg (· + task.priority) (Int.shiftRight_eq_div_pow _ _)

/-- The loop that refills the counters, from index `i` on. -/
def refillFrom : Nat → Nat → Scheduler → Scheduler
  | 0, _, scheduler => scheduler
  | remaining + 1, i, scheduler =>
      refillFrom remaining (i + 1)
        (if scheduler.taskArray i ≠ 0 then scheduler.modify (scheduler.taskArray i) refillTask
        else scheduler)

/-- Refill the counters of all tasks. -/
def refill (scheduler : Scheduler) : Scheduler := refillFrom nTasksMax 0 scheduler

/-- The outer loop of `_schedule`: the scheduler when it ends, and the index of the next task. -/
def selectTask : Nat → Scheduler → Option (Scheduler × Nat)
  | 0, _ => none
  | fuel + 1, scheduler =>
      if 0 < (pickTask scheduler).1 then some (scheduler, (pickTask scheduler).2)
      else selectTask fuel (refill scheduler)

/-- `switch_to`, as far as the scheduler is concerned. -/
def switchTo (scheduler : Scheduler) (next : Nat) : Scheduler := { scheduler with current := next }

/-- `_schedule` from the outer loop to the task switch. -/
def selectAndSwitch (fuel : Nat) (scheduler : Scheduler) : Option Scheduler :=
  (selectTask fuel scheduler).map fun (scheduler, next) =>
    scheduler.switchTo (scheduler.taskArray next)

/-- `INIT_TASK`. -/
def initTask : TaskControl := ⟨.running, 0, 1, 0⟩

/-- The static variables at boot, with `init_task` at the given address and any current tick. -/
def initial (task tick : Nat) : Scheduler where
  tasks := fun _ => initTask
  taskArray := Function.update (fun _ => 0) 0 task
  nTasks := 1
  current := task
  timerArr := fun _ => ⟨0, 0⟩
  currentTick := tick

theorem taskArray_initial (task tick index : Nat) :
    (initial task tick).taskArray index = if index = 0 then task else 0 := by
  rw [initial]
  dsimp only
  split_ifs with same
  · rw [same, Function.update_self]
  · rw [Function.update_of_ne same]

/-! ## Tasks of the table -/

/-- A task in slot `index` that is ready to run. -/
structure Ready (scheduler : Scheduler) (index : Nat) : Prop where
  inside : index < nTasksMax
  present : scheduler.taskArray index ≠ 0
  running : (scheduler.tasks (scheduler.taskArray index)).state = .running

/-- Counter of the task in slot `index`. -/
def counterAt (scheduler : Scheduler) (index : Nat) : Int :=
  (scheduler.tasks (scheduler.taskArray index)).counter

/-- Priority of the task in slot `index`. -/
def priorityAt (scheduler : Scheduler) (index : Nat) : Int :=
  (scheduler.tasks (scheduler.taskArray index)).priority

/-- Distance of a slot from that of the current task, in cyclic order. -/
def cyclicDistance (scheduler : Scheduler) (index : Nat) : Nat :=
  (index + nTasksMax - scheduler.getPid) % nTasksMax

/-- Counters of the table fit in 32 bits and priorities are bytes. -/
def InRange (scheduler : Scheduler) : Prop :=
  ∀ index, index < nTasksMax → scheduler.taskArray index ≠ 0 →
    -2 ^ 31 ≤ scheduler.counterAt index ∧ scheduler.counterAt index < 2 ^ 31 ∧
      0 ≤ scheduler.priorityAt index ∧ scheduler.priorityAt index ≤ 255

/-- No running task has a positive counter. -/
def Exhausted (scheduler : Scheduler) : Prop :=
  ∀ index, scheduler.Ready index → scheduler.counterAt index ≤ 0

/-- The slot holds the running task with the largest counter, which is positive, and it is the
first of these in cyclic order from the current task. -/
structure Selected (scheduler : Scheduler) (index : Nat) : Prop where
  ready : scheduler.Ready index
  positive : 0 < scheduler.counterAt index
  largest : ∀ other, scheduler.Ready other → scheduler.counterAt other ≤ scheduler.counterAt index
  first : ∀ other, scheduler.Ready other →
    scheduler.counterAt other = scheduler.counterAt index →
      scheduler.cyclicDistance index ≤ scheduler.cyclicDistance other

section Pick

variable {scheduler : Scheduler}

theorem getPidFromPtr_lt (scheduler : Scheduler) (ptr : Nat) :
    scheduler.getPidFromPtr ptr < nTasksMax := by
  rw [getPidFromPtr]
  cases found : firstIndex (fun i => scheduler.taskArray i = ptr) nTasksMax 0 with
  | none => decide
  | some index =>
      obtain ⟨-, inside, -⟩ := firstIndex_eq_some_iff.mp found
      rw [Option.getD_some]
      omega

/-- Slot at an offset of the scan. -/
private def slotAt (startIdx offset : Nat) : Nat := (startIdx + offset) % nTasksMax

private theorem slotAt_cyclicDistance {index : Nat} (inside : index < nTasksMax) :
    slotAt scheduler.getPid (scheduler.cyclicDistance index) = index := by
  have pid := scheduler.getPidFromPtr_lt scheduler.current
  rw [slotAt, cyclicDistance, getPid]
  simp only [nTasksMax] at inside pid ⊢
  omega

private theorem cyclicDistance_slotAt {offset : Nat} (inside : offset < nTasksMax) :
    scheduler.cyclicDistance (slotAt scheduler.getPid offset) = offset := by
  have pid := scheduler.getPidFromPtr_lt scheduler.current
  rw [slotAt, cyclicDistance, getPid]
  simp only [nTasksMax] at inside pid ⊢
  omega

/-- The scan keeps what it has when no ready task exceeds it, and otherwise ends with the first of
the largest. -/
private theorem scanTasks_spec (startIdx remaining i : Nat) (c : Int) (next : Nat) :
    ((∀ offset, i ≤ offset → offset < i + remaining → scheduler.Ready (slotAt startIdx offset) →
        toSint32 (scheduler.counterAt (slotAt startIdx offset)) ≤ c) ∧
      scheduler.scanTasks startIdx remaining i c next = (c, next)) ∨
    ∃ best, i ≤ best ∧ best < i + remaining ∧ scheduler.Ready (slotAt startIdx best) ∧
      c < toSint32 (scheduler.counterAt (slotAt startIdx best)) ∧
      (∀ offset, i ≤ offset → offset < i + remaining → scheduler.Ready (slotAt startIdx offset) →
        toSint32 (scheduler.counterAt (slotAt startIdx offset)) ≤
            toSint32 (scheduler.counterAt (slotAt startIdx best)) ∧
          (toSint32 (scheduler.counterAt (slotAt startIdx offset)) =
            toSint32 (scheduler.counterAt (slotAt startIdx best)) → best ≤ offset)) ∧
      scheduler.scanTasks startIdx remaining i c next =
        (toSint32 (scheduler.counterAt (slotAt startIdx best)), slotAt startIdx best) := by
  induction remaining generalizing i c next with
  | zero => exact Or.inl ⟨fun offset lower upper => absurd upper (by omega), rfl⟩
  | succ remaining ih =>
      have bound : slotAt startIdx i < nTasksMax := Nat.mod_lt _ (by decide)
      rw [scanTasks]
      by_cases better : scheduler.Ready (slotAt startIdx i) ∧
          c < toSint32 (scheduler.counterAt (slotAt startIdx i))
      · obtain ⟨ready, exceeds⟩ := better
        rw [if_pos ⟨ready.present, ready.running, exceeds⟩]
        rcases ih (i + 1) (toSint32 (scheduler.counterAt (slotAt startIdx i))) (slotAt startIdx i)
          with ⟨none_better, result⟩ | ⟨best, lower, upper, best_ready, larger, all, result⟩
        · refine Or.inr ⟨i, le_refl _, by omega, ready, exceeds, fun offset low high other => ?_,
            result⟩
          rcases Nat.eq_or_lt_of_le low with rfl | later
          · exact ⟨le_refl _, fun _ => le_refl _⟩
          · exact ⟨none_better offset later (by omega) other, fun _ => by omega⟩
        · refine Or.inr ⟨best, by omega, by omega, best_ready, lt_trans exceeds larger,
            fun offset low high other => ?_, result⟩
          rcases Nat.eq_or_lt_of_le low with rfl | later
          · exact ⟨le_of_lt larger, fun same => absurd same (ne_of_lt larger)⟩
          · exact all offset later (by omega) other
      · rw [if_neg fun both => better ⟨⟨bound, both.1, both.2.1⟩, both.2.2⟩]
        have here : scheduler.Ready (slotAt startIdx i) →
            toSint32 (scheduler.counterAt (slotAt startIdx i)) ≤ c :=
          fun ready => le_of_not_gt fun exceeds => better ⟨ready, exceeds⟩
        rcases ih (i + 1) c next with
          ⟨none_better, result⟩ | ⟨best, lower, upper, best_ready, larger, all, result⟩
        · refine Or.inl ⟨fun offset low high other => ?_, result⟩
          rcases Nat.eq_or_lt_of_le low with rfl | later
          · exact here other
          · exact none_better offset later (by omega) other
        · refine Or.inr ⟨best, by omega, by omega, best_ready, larger,
            fun offset low high other => ?_, result⟩
          rcases Nat.eq_or_lt_of_le low with rfl | later
          · have below := lt_of_le_of_lt (here other) larger
            exact ⟨le_of_lt below, fun same => absurd same (ne_of_lt below)⟩
          · exact all offset later (by omega) other

theorem InRange.toSint32_counterAt (inRange : scheduler.InRange) {index : Nat}
    (ready : scheduler.Ready index) :
    toSint32 (scheduler.counterAt index) = scheduler.counterAt index := by
  obtain ⟨lower, upper, -⟩ := inRange index ready.inside ready.present
  rw [toSint32]
  apply Int.bmod_eq_of_le
  · omega
  · omega

/-- A positive result of the scan comes from a ready task. -/
theorem ready_of_pickTask (positive : 0 < (pickTask scheduler).1) :
    scheduler.Ready (pickTask scheduler).2 := by
  rcases @scanTasks_spec scheduler scheduler.getPid nTasksMax 0 (-1) 0 with
    ⟨-, result⟩ | ⟨best, -, -, ready, -, -, result⟩
  · rw [pickTask, result] at positive
    exact absurd positive (by decide)
  · rw [pickTask, result]
    exact ready

/-- A positive result of the scan is the selected task, and any other shows that there is none. -/
theorem pickTask_spec (inRange : scheduler.InRange) :
    (0 < (pickTask scheduler).1 → scheduler.Selected (pickTask scheduler).2) ∧
      (¬0 < (pickTask scheduler).1 → scheduler.Exhausted) := by
  have offsets {index : Nat} (inside : index < nTasksMax) :
      0 ≤ scheduler.cyclicDistance index ∧ scheduler.cyclicDistance index < 0 + nTasksMax :=
    ⟨Nat.zero_le _, by rw [Nat.zero_add]; exact Nat.mod_lt _ (by decide)⟩
  rcases @scanTasks_spec scheduler scheduler.getPid nTasksMax 0 (-1) 0 with
    ⟨none_better, result⟩ | ⟨best, -, upper, ready, -, all, result⟩
  · rw [pickTask, result]
    refine ⟨fun positive => absurd positive (by decide), fun _ index other => ?_⟩
    obtain ⟨lower, upper⟩ := offsets other.inside
    have below := none_better _ lower upper (by rwa [slotAt_cyclicDistance other.inside])
    rw [slotAt_cyclicDistance other.inside, inRange.toSint32_counterAt other] at below
    omega
  · have largest : ∀ other, scheduler.Ready other →
        scheduler.counterAt other ≤ scheduler.counterAt (slotAt scheduler.getPid best) ∧
          (scheduler.counterAt other = scheduler.counterAt (slotAt scheduler.getPid best) →
            best ≤ scheduler.cyclicDistance other) := by
      intro other other_ready
      obtain ⟨low, high⟩ := offsets other_ready.inside
      have compare := all _ low high (by rwa [slotAt_cyclicDistance other_ready.inside])
      rwa [slotAt_cyclicDistance other_ready.inside, inRange.toSint32_counterAt other_ready,
        inRange.toSint32_counterAt ready] at compare
    rw [pickTask, result, inRange.toSint32_counterAt ready]
    refine ⟨fun positive => ⟨ready, positive, fun other other_ready =>
      (largest other other_ready).1,
      fun other other_ready same => ?_⟩, fun none_positive index other => ?_⟩
    · rw [cyclicDistance_slotAt (by omega)]
      exact (largest other other_ready).2 same
    · exact le_trans (largest index other).1 (le_of_not_gt none_positive)

end Pick

/-! ## Refills -/

section Refill

variable {scheduler : Scheduler}

/-- How far a counter is from being positive. -/
def deficit (counter : Int) : Nat := (1 - counter).toNat

theorem deficit_eq_zero_iff (counter : Int) : deficit counter = 0 ↔ 0 < counter := by
  rw [deficit]
  omega

/-- Halving and adding a positive priority brings a counter closer to being positive. -/
theorem deficit_refillTask {task : TaskControl} (priority : 1 ≤ task.priority) :
    deficit (refillTask task).counter ≤ deficit task.counter - 1 := by
  rw [deficit, deficit, counter_refillTask]
  omega

/-- What a refill may change of a task. -/
structure Refilled (before after : TaskControl) : Prop where
  state : after.state = before.state
  priority : after.priority = before.priority
  preemptCount : after.preemptCount = before.preemptCount
  closer : 1 ≤ before.priority → deficit after.counter ≤ deficit before.counter
  range : -2 ^ 31 ≤ before.counter → before.counter < 2 ^ 31 → 0 ≤ before.priority →
    before.priority ≤ 255 → -2 ^ 31 ≤ after.counter ∧ after.counter < 2 ^ 31

theorem Refilled.refl (task : TaskControl) : Refilled task task :=
  ⟨rfl, rfl, rfl, fun _ => le_refl _, fun lower upper _ _ => ⟨lower, upper⟩⟩

theorem Refilled.trans {first second third : TaskControl} (left : Refilled first second)
    (right : Refilled second third) : Refilled first third where
  state := right.state.trans left.state
  priority := right.priority.trans left.priority
  preemptCount := right.preemptCount.trans left.preemptCount
  closer positive := by
    have same := left.priority
    exact le_trans (right.closer (by omega)) (left.closer positive)
  range lower upper low high := by
    obtain ⟨lower, upper⟩ := left.range lower upper low high
    have same := left.priority
    exact right.range lower upper (by omega) (by omega)

theorem refilled_refillTask (task : TaskControl) : Refilled task (refillTask task) where
  state := rfl
  priority := rfl
  preemptCount := rfl
  closer positive := le_trans (deficit_refillTask positive) (Nat.sub_le _ _)
  range lower upper low high := by
    rw [counter_refillTask]
    omega

/-- A refill changes nothing but counters, and those of tasks that it reaches come closer. -/
private theorem refillFrom_spec (remaining i : Nat) (scheduler : Scheduler) :
    (∃ tasks, refillFrom remaining i scheduler = { scheduler with tasks }) ∧
      (∀ task, Refilled (scheduler.tasks task)
        ((refillFrom remaining i scheduler).tasks task)) ∧
      ∀ index, i ≤ index → index < i + remaining → scheduler.taskArray index ≠ 0 →
        1 ≤ scheduler.priorityAt index →
        deficit ((refillFrom remaining i scheduler).counterAt index) ≤
          deficit (scheduler.counterAt index) - 1 := by
  induction remaining generalizing i scheduler with
  | zero =>
      exact ⟨⟨scheduler.tasks, rfl⟩, fun task => .refl _,
        fun index lower upper => absurd upper (by omega)⟩
  | succ remaining ih =>
      rw [refillFrom]
      by_cases present : scheduler.taskArray i ≠ 0
      · rw [if_pos present]
        obtain ⟨⟨tasks, same⟩, refilled, closer⟩ :=
          ih (i + 1) (scheduler.modify (scheduler.taskArray i) refillTask)
        have here : ∀ task, Refilled (scheduler.tasks task)
            ((scheduler.modify (scheduler.taskArray i) refillTask).tasks task) := by
          intro task
          by_cases this : task = scheduler.taskArray i
          · rw [this, tasks_modify_same]
            exact refilled_refillTask _
          · rw [tasks_modify_of_ne _ _ _ this]
            exact .refl _
        refine ⟨⟨tasks, same⟩, fun task => (here task).trans (refilled task),
          fun index lower upper occupied priority => ?_⟩
        have now := here (scheduler.taskArray index)
        rcases Nat.eq_or_lt_of_le lower with rfl | later
        · have table : (refillFrom remaining (i + 1)
              (scheduler.modify (scheduler.taskArray i) refillTask)).taskArray i =
              scheduler.taskArray i := by
            rw [same]
            rfl
          have rest := (refilled (scheduler.taskArray i)).closer (by
            rw [tasks_modify_same]
            exact priority)
          rw [tasks_modify_same] at rest
          rw [counterAt, table]
          exact le_trans rest (deficit_refillTask priority)
        · have rest := closer index later (by omega) occupied
            (le_of_le_of_eq priority now.priority.symm)
          exact le_trans rest (Nat.sub_le_sub_right (now.closer priority) 1)
      · rw [if_neg present]
        obtain ⟨same, refilled, closer⟩ := ih (i + 1) scheduler
        refine ⟨same, refilled, fun index lower upper occupied => ?_⟩
        rcases Nat.eq_or_lt_of_le lower with rfl | later
        · exact absurd occupied present
        · exact closer index later (by omega) occupied

@[simp] theorem taskArray_refill (scheduler : Scheduler) :
    (refill scheduler).taskArray = scheduler.taskArray := by
  obtain ⟨⟨tasks, same⟩, -⟩ := refillFrom_spec nTasksMax 0 scheduler
  rw [refill, same]

@[simp] theorem current_refill (scheduler : Scheduler) :
    (refill scheduler).current = scheduler.current := by
  obtain ⟨⟨tasks, same⟩, -⟩ := refillFrom_spec nTasksMax 0 scheduler
  rw [refill, same]

@[simp] theorem timerArr_refill (scheduler : Scheduler) :
    (refill scheduler).timerArr = scheduler.timerArr := by
  obtain ⟨⟨tasks, same⟩, -⟩ := refillFrom_spec nTasksMax 0 scheduler
  rw [refill, same]

@[simp] theorem currentTick_refill (scheduler : Scheduler) :
    (refill scheduler).currentTick = scheduler.currentTick := by
  obtain ⟨⟨tasks, same⟩, -⟩ := refillFrom_spec nTasksMax 0 scheduler
  rw [refill, same]

@[simp] theorem nTasks_refill (scheduler : Scheduler) :
    (refill scheduler).nTasks = scheduler.nTasks := by
  obtain ⟨⟨tasks, same⟩, -⟩ := refillFrom_spec nTasksMax 0 scheduler
  rw [refill, same]

theorem refilled_refill (scheduler : Scheduler) (task : Nat) :
    Refilled (scheduler.tasks task) ((refill scheduler).tasks task) := by
  rw [refill]
  exact (refillFrom_spec nTasksMax 0 scheduler).2.1 task

theorem refilled_counterAt (scheduler : Scheduler) (index : Nat) :
    Refilled (scheduler.tasks (scheduler.taskArray index))
      ((refill scheduler).tasks ((refill scheduler).taskArray index)) := by
  rw [taskArray_refill]
  exact refilled_refill scheduler _

theorem InRange.refill (inRange : scheduler.InRange) : (refill scheduler).InRange := by
  intro index inside present
  rw [taskArray_refill] at present
  obtain ⟨lower, upper, low, high⟩ := inRange index inside present
  have refilled := refilled_counterAt scheduler index
  have priority : (Scheduler.refill scheduler).priorityAt index = scheduler.priorityAt index :=
    refilled.priority
  obtain ⟨lower, upper⟩ := refilled.range lower upper low high
  exact ⟨lower, upper, by omega, by omega⟩

theorem ready_refill (scheduler : Scheduler) (index : Nat) :
    (refill scheduler).Ready index ↔ scheduler.Ready index := by
  have state := (refilled_counterAt scheduler index).state
  constructor
  · rintro ⟨inside, present, running⟩
    rw [taskArray_refill] at present
    exact ⟨inside, present, state ▸ running⟩
  · rintro ⟨inside, present, running⟩
    exact ⟨inside, by rwa [taskArray_refill], state.trans running⟩

theorem deficit_refill {index : Nat} (inside : index < nTasksMax)
    (present : scheduler.taskArray index ≠ 0) (priority : 1 ≤ scheduler.priorityAt index) :
    deficit ((refill scheduler).counterAt index) ≤ deficit (scheduler.counterAt index) - 1 := by
  rw [refill]
  exact (refillFrom_spec nTasksMax 0 scheduler).2.2 index (Nat.zero_le _) (by omega) present
    priority

end Refill

/-! ## The loop -/

/-- The loop ends after a number of refills, each of them made while no running task has a positive
counter, with the selected task. -/
theorem selectTask_spec {scheduler : Scheduler} (inRange : scheduler.InRange) {index : Nat}
    (ready : scheduler.Ready index) (priority : 1 ≤ scheduler.priorityAt index) :
    ∃ refills next, (∀ extra, selectTask (refills + 1 + extra) scheduler =
        some (refill^[refills] scheduler, next)) ∧
      (∀ earlier, earlier < refills → (refill^[earlier] scheduler).Exhausted) ∧
      (refill^[refills] scheduler).Selected next := by
  induction bound : deficit (scheduler.counterAt index) using Nat.strong_induction_on
    generalizing scheduler with
  | h bound ih =>
      obtain ⟨selected, exhausted⟩ := pickTask_spec inRange
      by_cases positive : 0 < (pickTask scheduler).1
      · refine ⟨0, (pickTask scheduler).2, fun extra => ?_, fun earlier low => by omega,
          selected positive⟩
        rw [Nat.zero_add, Nat.add_comm, selectTask, if_pos positive]
        rfl
      · have none_ready := exhausted positive
        have dry : deficit (scheduler.counterAt index) ≠ 0 := by
          rw [Ne, deficit_eq_zero_iff]
          have := none_ready index ready
          omega
        have closer := deficit_refill ready.inside ready.present priority
        have still : 1 ≤ (refill scheduler).priorityAt index :=
          le_of_le_of_eq priority (refilled_counterAt scheduler index).priority.symm
        obtain ⟨refills, next, ends, waits, picked⟩ := ih _ (by omega) inRange.refill
          ((ready_refill scheduler index).mpr ready) still rfl
        refine ⟨refills + 1, next, fun extra => ?_, fun earlier low => ?_, picked⟩
        · rw [show refills + 1 + 1 + extra = refills + 1 + extra + 1 by omega, selectTask,
            if_neg positive]
          exact ends extra
        · cases earlier with
          | zero => exact none_ready
          | succ earlier => exact waits earlier (by omega)

theorem taskArray_iterate_refill (scheduler : Scheduler) (refills : Nat) :
    (refill^[refills] scheduler).taskArray = scheduler.taskArray := by
  induction refills generalizing scheduler with
  | zero => rfl
  | succ refills ih =>
      rw [Function.iterate_succ_apply, ih, taskArray_refill]

/-- `_schedule` ends its loop and switches to the running task that has the largest counter after
the last refill, the first of them in cyclic order.  It refills the counters only while no running
task has a positive one. -/
theorem schedule_switches_to_largest {scheduler : Scheduler} (inRange : scheduler.InRange)
    {index : Nat} (ready : scheduler.Ready index) (priority : 1 ≤ scheduler.priorityAt index) :
    ∃ refills next, (∀ extra, selectAndSwitch (refills + 1 + extra) scheduler =
        some ((refill^[refills] scheduler).switchTo (scheduler.taskArray next))) ∧
      (∀ earlier, earlier < refills → (refill^[earlier] scheduler).Exhausted) ∧
      (refill^[refills] scheduler).Selected next := by
  obtain ⟨refills, next, ends, waits, selected⟩ := selectTask_spec inRange ready priority
  refine ⟨refills, next, fun extra => ?_, waits, selected⟩
  simp only [selectAndSwitch, ends extra, Option.map_some, taskArray_iterate_refill]

/-- Four tasks: one that is blocked, two that run with used up counters, and the current one. -/
def fourTasks : Scheduler where
  tasks task :=
    if task = 8192 then ⟨.blocked, 9, 1, 0⟩
    else if task = 12288 then ⟨.running, 0, 2, 0⟩
    else if task = 16384 then ⟨.running, -1, 4, 0⟩
    else ⟨.running, 0, 1, 0⟩
  taskArray index := if index < 4 then 4096 * (index + 1) else 0
  nTasks := 4
  current := 4096
  timerArr _ := ⟨0, 0⟩
  currentTick := 0

/-- The blocked task has the largest counter and is passed over; after a refill the largest counter
is that of the last task. -/
theorem schedule_switches_to_largest_of_four :
    ∃ refills next, (∀ extra, selectAndSwitch (refills + 1 + extra) fourTasks =
        some ((refill^[refills] fourTasks).switchTo (fourTasks.taskArray next))) ∧
      (∀ earlier, earlier < refills → (refill^[earlier] fourTasks).Exhausted) ∧
      (refill^[refills] fourTasks).Selected next := by
  have inRange : fourTasks.InRange := by
    intro index _ _
    simp only [counterAt, priorityAt, fourTasks]
    split_ifs <;> decide
  have waiting : fourTasks.Ready 2 := ⟨by decide, by decide, rfl⟩
  exact schedule_switches_to_largest inRange waiting (by decide)

end Scheduler

end PellOs
