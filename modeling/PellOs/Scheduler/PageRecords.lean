import PellOs.Scheduler.KernelRuns

/-!
# The page lists of a task

`map_page` stores at `userpages[userpages_count]` and `kernelpages[kernelpages_count + 1]` without
looking at the size of the arrays.  Calls that find room for what they record keep both counts
within the arrays and leave the file descriptors behind them alone; a process that touches pages
far apart needs no more than five page faults to fill the list of its tables.
-/

namespace PellOs

/-- Any call. -/
def AnyStep (image : Image) (before after : Kernel) : Prop :=
  ∃ call, KernelStep image call before after

/-- A call that finds no page, or finds all its pages and room for what it records. -/
def RoomyStep (image : Image) (before after : Kernel) : Prop :=
  ∃ call, KernelStep image call before after ∧
    (freeCount before.mm = 0 ∨ KernelCall.Supplied before call ∧ KernelCall.Fits before call)

/-- The counts of every task are within its arrays. -/
def CountsInBounds (kernel : Kernel) : Prop :=
  ∀ {pid}, pid < kernel.nTasks →
    Task.userpagesCount.get kernel.memory (kernel.taskArray pid) ≤ maxProcessPages ∧
      Task.kernelpagesCount.get kernel.memory (kernel.taskArray pid) < maxProcessPages

/-- `sizeof(file_desc_table_t)`. -/
def sizeofFdTable : Nat := 16

section Steps

variable {image : Image} {kernel after : Kernel} {owner : Nat → Option PageRole}
  {call : KernelCall}

theorem SpacesInv.countsInBounds (inv : SpacesInv image kernel owner) : CountsInBounds kernel :=
  fun known => ⟨inv.limits.users known, inv.limits.tables known⟩

theorem SpacesInv.roomy_run {boot : Kernel} (inv : SpacesInv image boot owner)
    (run : Relation.ReflTransGen (RoomyStep image) boot kernel) :
    ∃ grown, SpacesInv image kernel grown := by
  induction run with
  | refl => exact ⟨owner, inv⟩
  | tail _ step ih =>
      obtain ⟨between, inv⟩ := ih
      obtain ⟨call, step, roomy⟩ := step
      obtain ⟨grown, final, -⟩ := inv.step step roomy
      exact ⟨grown, final⟩

theorem SpacesInv.counts_step (inv : SpacesInv image kernel owner)
    (step : KernelStep image call kernel after) (enough : call.Supplied kernel)
    (fits : call.Fits kernel) {task virtAdr : Nat}
    (target : call.target kernel = some (task, virtAdr)) :
    Task.userpagesCount.get after.memory task = Task.userpagesCount.get kernel.memory task + 1 ∧
      Task.kernelpagesCount.get after.memory task = Task.kernelpagesCount.get kernel.memory task +
        tablesNeeded kernel.memory task virtAdr := by
  rcases inv.step_cases step with ⟨cloneFlags, fn, args, new, rfl, -⟩ |
    ⟨pid, address, frame, mm, known, same_target, fits_iff, pages, inside, free, mapped, rfl⟩ |
    ⟨pid, known, rfl, -⟩ | ⟨-, ⟨idle, -⟩ | starved⟩
  · cases target
  · obtain ⟨rfl, rfl⟩ := Prod.mk.inj (Option.some.inj (target.symm.trans same_target))
    rw [KernelCall.Supplied, pages] at enough
    obtain ⟨room, tables⟩ := fits_iff.mp fits
    obtain ⟨grown, added, -⟩ := inv.map known inside free enough room tables mapped
    exact ⟨added.userpages, added.kernelpages⟩
  · cases target
  · rw [idle] at target
    cases target
  · exact absurd enough starved

/-- A call that maps pages for a task leaves the file descriptors of every task alone. -/
theorem SpacesInv.fdTable_step (inv : SpacesInv image kernel owner)
    (step : KernelStep image call kernel after)
    (roomy : freeCount kernel.mm = 0 ∨ call.Supplied kernel ∧ call.Fits kernel) {pid : Nat}
    (known : pid < kernel.nTasks) :
    kernel.memory.AgreeOn after.memory
      (kernel.taskArray pid + Task.fdTableBitmap.offset) sizeofFdTable := by
  have range := inv.roles.task_range known
  rcases inv.step_cases step with ⟨cloneFlags, fn, args, new, rfl, result⟩ |
    ⟨other, virtAdr, frame, mm, other_known, -, fits, pages, inside, free, mapped, rfl⟩ |
    ⟨next, next_known, -, rfl⟩ | ⟨rfl, -⟩
  · rcases roomy with none_left | ⟨enough, room, -⟩
    · rw [kernelFork_full none_left] at result
      obtain ⟨rfl, -⟩ := Prod.mk.inj (Option.some.inj result)
      obtain ⟨current_pid, current_known, current⟩ := inv.current
      intro address lower upper
      refine Field.set_outside ?_ ?_
      · have current_range := inv.roles.task_range current_known
        rw [← current] at current_range
        exact Field.InPage.fits (by decide) current_range.2
      · simp only [Task.fdTableBitmap, sizeofFdTable, Task.preemptCount] at lower upper ⊢
        by_cases same : pid = current_pid
        · rw [current, ← same]
          omega
        · have apart := inv.roles.tasks_apart known current_known same
          rw [← current] at apart
          simp only [pageSize] at apart
          omega
    · obtain ⟨current_pid, current_known, current⟩ := inv.current
      obtain ⟨index, grown, -, made⟩ := kernelFork_made inv.roles current_known current room
        (by rw [current]; exact inv.limits.users current_known) enough result
      exact (made.forked.other_tasks known).mono (by omega) (by
        simp only [Task.fdTableBitmap, sizeofFdTable, pageSize]
        omega)
  · rcases roomy with none_left | ⟨enough, room⟩
    · exact absurd free ((freeCount_eq_zero_iff _).mp none_left frame inside)
    rw [KernelCall.Supplied, pages] at enough
    obtain ⟨users, tables⟩ := fits.mp room
    obtain ⟨grown, added, -⟩ := inv.map other_known inside free enough users tables mapped
    by_cases same : pid = other
    · subst same
      have counted := added.kernelpages
      rw [Kernel.memory] at users tables
      intro address lower upper
      simp only [Task.fdTableBitmap, sizeofFdTable, maxProcessPages] at lower upper users tables
      exact added.own_task address (by omega) (by simp only [pageSize]; omega) (by omega)
        (by omega) (by omega)
    · exact (added.other_tasks known same).mono (by omega) (by
        simp only [Task.fdTableBitmap, sizeofFdTable, pageSize]
        omega)
  · rw [switchTo]
    split_ifs
    · exact Memory.AgreeOn.refl _ _ _
    · obtain ⟨prev, prev_known, current⟩ := inv.current
      have prev_range := inv.roles.task_range prev_known
      rw [← current] at prev_range
      intro address lower upper
      refine cpuSwitchTo_outside _ prev_range.2 ?_
      simp only [Task.fdTableBitmap, sizeofFdTable] at lower upper
      by_cases same : pid = prev
      · rw [current, ← same]
        omega
      · have apart := inv.roles.tasks_apart known prev_known same
        rw [← current] at apart
        simp only [pageSize] at apart
        omega
  · exact Memory.AgreeOn.refl _ _ _

end Steps

/-- In every run whose calls find no page, or find their pages and room for what they record, the
counts of every task stay within its arrays.  Of the calls that find their pages, those with room
are exactly the ones after which that still holds; each uses the records behind the last ones, and
the file descriptors of no task change. -/
theorem page_records_in_bounds {image : Image} {boot kernel : Kernel}
    (booted : AtBoot image boot) (run : Relation.ReflTransGen (RoomyStep image) boot kernel) :
    CountsInBounds kernel ∧
    ∀ {call after}, KernelStep image call kernel after →
      (call.Supplied kernel → (WithinLimits after ↔ call.Fits kernel)) ∧
      (call.Supplied kernel → call.Fits kernel → ∀ {task virtAdr},
        call.target kernel = some (task, virtAdr) →
          Task.userpagesCount.get after.memory task =
            Task.userpagesCount.get kernel.memory task + 1 ∧
          Task.kernelpagesCount.get after.memory task =
            Task.kernelpagesCount.get kernel.memory task +
              tablesNeeded kernel.memory task virtAdr) ∧
      (freeCount kernel.mm = 0 ∨ call.Supplied kernel ∧ call.Fits kernel →
        ∀ {pid}, pid < kernel.nTasks → kernel.memory.AgreeOn after.memory
          (kernel.taskArray pid + Task.fdTableBitmap.offset) sizeofFdTable) := by
  obtain ⟨owner, inv⟩ := booted.spaces.roomy_run run
  refine ⟨inv.countsInBounds, fun step => ⟨fun enough => ⟨?_, ?_⟩, ?_, ?_⟩⟩
  · intro limits
    exact inv.fits_of_limits enough step limits
  · intro fits
    obtain ⟨grown, final, -⟩ := inv.step step (Or.inr ⟨enough, fits⟩)
    exact final.limits
  · intro enough fits task virtAdr target
    exact inv.counts_step step enough fits target
  · intro roomy pid known
    exact inv.fdTable_step step roomy known

/-- The bounds after the first user page of the initial task. -/
theorem page_records_in_bounds_one_page : ∃ kernel,
    Relation.ReflTransGen (RoomyStep smallImage) bootKernel kernel ∧ CountsInBounds kernel := by
  have step := @KernelStep.allocate smallImage bootKernel 0 0 Nat.zero_lt_one
  have run := Relation.ReflTransGen.single
    (show RoomyStep smallImage bootKernel _ from ⟨_, step, Or.inr bootKernel_allocate⟩)
  exact ⟨_, run, (page_records_in_bounds atBoot_bootKernel run).1⟩

/-! ## Pages far apart -/

/-- Addresses below different entries of the page directory. -/
def spreadAddress (number : Nat) : Nat := number * 2 ^ 39

/-- The positions of the tables on the way to the first of these addresses. -/
def spreadTables (count : Nat) : Finset (List Nat) :=
  (Finset.range count).biUnion fun number => tablePositions (spreadAddress number)

theorem spreadTables_succ (count : Nat) :
    spreadTables (count + 1) = spreadTables count ∪ tablePositions (spreadAddress count) := by
  rw [spreadTables, Finset.range_add_one, Finset.biUnion_insert, Finset.union_comm]
  rfl

theorem card_spreadTables_le (count : Nat) : (spreadTables count).card ≤ 4 * count := by
  induction count with
  | zero => exact le_refl _
  | succ count ih =>
      have few : (tablePositions (spreadAddress count)).card ≤ 4 := Finset.card_image_le
      have total := Finset.card_union_le (spreadTables count) (tablePositions (spreadAddress count))
      rw [spreadTables_succ]
      omega

/-- The first task after page faults at the first of these addresses. -/
structure Spread (kernel : Kernel) (count : Nat) (owner : Nat → Option PageRole) : Prop where
  run : Relation.ReflTransGen (AnyStep smallImage) bootKernel kernel
  roles : PageRoles smallImage kernel.mm kernel.taskArray kernel.nTasks owner
  nTasks : kernel.nTasks = 1
  current : kernel.current = kernel.taskArray 0
  userpages : Task.userpagesCount.get kernel.mm.memory (kernel.taskArray 0) = count
  kernelpages : Task.kernelpagesCount.get kernel.mm.memory (kernel.taskArray 0) =
    (spreadTables count).card
  tables : ∀ {path}, path.length < 4 →
    ((walk kernel.mm.memory (kernel.taskArray 0) path).isSome ↔ path ∈ spreadTables count)
  left : freeCount kernel.mm + count + (spreadTables count).card =
    mmNumOfPages - kernelHeapSizePages

theorem Spread.start : Spread bootKernel 0 (emptyOwner bootKernel.mm bootKernel.taskArray
    bootKernel.nTasks) where
  run := .refl
  roles := atBoot_bootKernel.emptyTasks.roles
  nTasks := rfl
  current := rfl
  userpages := bootKernel_field _ _
  kernelpages := by
    rw [← Kernel.memory, bootKernel_field, spreadTables, Finset.range_zero, Finset.biUnion_empty,
      Finset.card_empty]
  tables := by
    intro path _
    have absent := bootKernel_field Task.pagedirectory (bootKernel.taskArray 0)
    rw [Kernel.memory] at absent
    rw [walk, if_pos absent, spreadTables]
    simp
  left := by
    rw [atBoot_bootKernel.freeCount_eq, spreadTables, Finset.range_zero, Finset.biUnion_empty,
      Finset.card_empty, Nat.add_zero]

theorem Spread.fault {kernel : Kernel} {count : Nat} {owner : Nat → Option PageRole}
    (spread : Spread kernel count owner) (few : count < 5) :
    ∃ after grown, Spread after (count + 1) grown := by
  have known : 0 < kernel.nTasks := by
    rw [spread.nTasks]
    exact Nat.zero_lt_one
  have more := @card_add_tablesNeeded _ _ (spreadAddress count) _ spread.tables
  have bound := card_spreadTables_le count
  have next_bound := card_spreadTables_le (count + 1)
  have left := spread.left
  have users := spread.userpages
  have own := spread.kernelpages
  have pages : 64 ≤ mmNumOfPages - kernelHeapSizePages := by decide
  rw [← spreadTables_succ] at more
  obtain ⟨frame, inside, free, call⟩ := getNextFreePage_of_pos (by omega : 0 < freeCount kernel.mm)
  obtain ⟨grown, added⟩ := @mapPage_takePage_spec _ _ _ _ (spreadAddress count) _ _ _ spread.roles
    known inside free (by omega) (by omega) (by simp only [maxProcessPages]; omega)
  generalize mapped : mapPage (takePage kernel.mm frame) (kernel.taskArray 0) (spreadAddress count)
    (pageAt frame) = mm at added
  rw [← spread.current] at mapped
  have aligned : spreadAddress count &&& pageMask = spreadAddress count := by
    interval_cases count <;> decide
  have step : AnyStep smallImage kernel { kernel with mm } := by
    have fault := @KernelStep.abort smallImage kernel (spreadAddress count) 4
    rw [doMemAbort] at fault
    simp only [show 4 &&& 63 &&& 60 = 4 by decide, if_true, call, pageAt_ne_zero, if_false, aligned,
      mapped] at fault
    exact ⟨_, fault⟩
  have now_tables := added.kernelpages
  have now_left := added.left
  refine ⟨{ kernel with mm }, grown, spread.run.tail step, added.roles, spread.nTasks,
    spread.current, ?_, ?_, ?_, ?_⟩
  · change Task.userpagesCount.get mm.memory (kernel.taskArray 0) = count + 1
    rw [added.userpages, users]
  · change Task.kernelpagesCount.get mm.memory (kernel.taskArray 0) = _
    omega
  · intro path short
    change (walk mm.memory (kernel.taskArray 0) path).isSome ↔ _
    rw [added.tables short, spread.tables short, spreadTables_succ, Finset.mem_union]
  · change freeCount mm + (count + 1) + _ = _
    omega

/-- Five page faults of the first task, at addresses 2^39 bytes apart, record a table page behind
the end of `kernelpages`. -/
theorem five_faults_overflow : ∃ kernel, AtBoot smallImage bootKernel ∧
    Relation.ReflTransGen (AnyStep smallImage) bootKernel kernel ∧ ¬CountsInBounds kernel := by
  obtain ⟨first, _, spread⟩ := Spread.start.fault (by decide)
  obtain ⟨second, _, spread⟩ := spread.fault (by decide)
  obtain ⟨third, _, spread⟩ := spread.fault (by decide)
  obtain ⟨fourth, _, spread⟩ := spread.fault (by decide)
  obtain ⟨kernel, _, spread⟩ := spread.fault (by decide)
  refine ⟨kernel, atBoot_bootKernel, spread.run, fun bounds => ?_⟩
  have tables := (bounds (by rw [spread.nTasks]; exact Nat.zero_lt_one)).2
  rw [Kernel.memory, spread.kernelpages] at tables
  exact absurd tables (by decide)

end PellOs
