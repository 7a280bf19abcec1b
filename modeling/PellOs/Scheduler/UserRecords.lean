import PellOs.Scheduler.KernelRuns

/-!
# Complete page records

A fork copies what the list of user pages records.  Page faults, allocations and forks keep that
list complete: it names every page that is mapped and nothing else.
-/

namespace PellOs

/-- The list of user pages of a task names the pages that are mapped. -/
structure RecordsWhole (memory : Memory) (task : Nat) : Prop extends RecordsMapped memory task where
  complete : ∀ {path page}, path.length = 4 → walk memory task path = some page →
    ∃ number, number < Task.userpagesCount.get memory task ∧
      path = vaPath (recordedVirtual memory task number)

theorem RecordsWhole.empty {memory : Memory} {task : Nat}
    (directory : Task.pagedirectory.get memory task = 0)
    (userpages : Task.userpagesCount.get memory task = 0) : RecordsWhole memory task where
  few := by
    rw [userpages]
    exact Nat.zero_le _
  aligned bound := by
    rw [userpages] at bound
    exact absurd bound (Nat.not_lt_zero _)
  user bound := by
    rw [userpages] at bound
    exact absurd bound (Nat.not_lt_zero _)
  mapped bound := by
    rw [userpages] at bound
    exact absurd bound (Nat.not_lt_zero _)
  complete _ reached := by
    rw [walk, if_pos directory] at reached
    cases reached

theorem RecordsWhole.congr {memory after : Memory} {task : Nat} (records : RecordsWhole memory task)
    (fits : task + 2 * pageSize ≤ wordSize) (same : memory.AgreeOn after (task + 160) 264)
    (walks : ∀ {path}, path.length = 4 → walk after task path = walk memory task path) :
    RecordsWhole after task := by
  simp only [pageSize] at fits
  have few := records.few
  simp only [maxProcessPages] at few
  have count : Task.userpagesCount.get after task = Task.userpagesCount.get memory task := by
    refine Field.get_congr ?_ (same.mono ?_ ?_) <;> simp only [Task.userpagesCount] <;> omega
  have virtual : ∀ {number}, number < Task.userpagesCount.get memory task →
      recordedVirtual after task number = recordedVirtual memory task number := by
    intro number bound
    refine Field.get_congr ?_ (same.mono ?_ ?_) <;>
      simp only [Task.userpageVirtual, Task.userpagesOffset] <;> omega
  constructor
  · constructor
    · rw [count]
      exact records.few
    · intro number bound
      rw [count] at bound
      rw [virtual bound]
      exact records.aligned bound
    · intro number bound
      rw [count] at bound
      rw [virtual bound]
      exact records.user bound
    · intro number bound
      rw [count] at bound
      rw [virtual bound, walks (length_vaPath _)]
      exact records.mapped bound
  · intro path page long reached
    rw [walks long] at reached
    obtain ⟨number, bound, same_path⟩ := records.complete long reached
    exact ⟨number, by rw [count]; exact bound, by rw [virtual bound]; exact same_path⟩

section Added

variable {image : Image} {tasks : Nat → Nat} {count pid virtAdr frame : Nat} {mm after : Mm}
  {owner grown : Nat → Option PageRole}

theorem PageAdded.earlier
    (added : PageAdded image tasks count pid virtAdr mm owner frame after grown)
    (known : pid < count)
    (room : Task.userpagesCount.get mm.memory (tasks pid) < maxProcessPages) {number : Nat}
    (bound : number < Task.userpagesCount.get mm.memory (tasks pid)) :
    recordedVirtual after.memory (tasks pid) number =
      recordedVirtual mm.memory (tasks pid) number := by
  have range := added.roles.task_range known
  simp only [maxProcessPages, pageSize] at room range
  apply Field.get_congr
  · simp only [Task.userpageVirtual, Task.userpagesOffset]
    omega
  · intro address lower upper
    simp only [Task.userpageVirtual, Task.userpagesOffset] at lower upper
    exact added.own_task address (by omega) (by simp only [pageSize]; omega) (by omega)
      (by omega) (by omega)

theorem PageAdded.recordsWhole
    (added : PageAdded image tasks count pid virtAdr mm owner frame after grown)
    (known : pid < count) (records : RecordsWhole mm.memory (tasks pid))
    (aligned : virtAdr % pageSize = 0) (user : virtAdr < 2 ^ 48)
    (room : Task.userpagesCount.get mm.memory (tasks pid) < maxProcessPages) :
    RecordsWhole after.memory (tasks pid) := by
  have uses := added.userpages
  have last := added.virtual (user.trans (by decide))
  have earlier : ∀ {number}, number < Task.userpagesCount.get mm.memory (tasks pid) →
      recordedVirtual after.memory (tasks pid) number =
        recordedVirtual mm.memory (tasks pid) number := added.earlier known room
  simp only [maxProcessPages] at room
  have walks : ∀ {path}, path.length = 4 → walk after.memory (tasks pid) path =
      if path = vaPath virtAdr then some (pageAt frame) else walk mm.memory (tasks pid) path := by
    intro path long
    rw [added.walks known long]
    simp only [true_and]
  have cases_number : ∀ {number}, number < Task.userpagesCount.get after.memory (tasks pid) →
      number < Task.userpagesCount.get mm.memory (tasks pid) ∨
        number = Task.userpagesCount.get mm.memory (tasks pid) := by
    intro number bound
    omega
  constructor
  · constructor
    · rw [uses, maxProcessPages]
      omega
    · intro number bound
      rcases cases_number bound with before | rfl
      · rw [earlier before]
        exact records.aligned before
      · rw [recordedVirtual, last]
        exact aligned
    · intro number bound
      rcases cases_number bound with before | rfl
      · rw [earlier before]
        exact records.user before
      · rw [recordedVirtual, last]
        exact user
    · intro number bound
      rcases cases_number bound with before | rfl
      · rw [earlier before, walks (length_vaPath _)]
        split_ifs
        · exact Option.isSome_some
        · exact records.mapped before
      · rw [recordedVirtual, last, walks (length_vaPath _), if_pos rfl, Option.isSome_some]
  · intro path page long reached
    rw [walks long] at reached
    split_ifs at reached with here
    · exact ⟨_, by rw [uses]; exact Nat.lt_succ_self _, by rw [recordedVirtual, last, here]⟩
    · obtain ⟨number, bound, same⟩ := records.complete long reached
      exact ⟨number, by omega, by rw [earlier bound]; exact same⟩

end Added

/-! ## The records of a copy -/

section Copied

variable {image : Image} {tasks : Nat → Nat} {child parent copied fuel ttbr0 : Nat}
  {start mm after : Mm} {owner grown : Nat → Option PageRole} {status : Int}

/-- There are pages, tables and records left for the next page of the copy. -/
theorem PagesTaken.next_fits
    (taken : PagesTaken image tasks child parent start owner copied mm grown)
    (few : Task.userpagesCount.get start.memory (tasks parent) ≤ maxProcessPages)
    (enough : Task.userpagesCount.get start.memory (tasks parent) +
      (recordedTables start.memory (tasks parent)
        (Task.userpagesCount.get start.memory (tasks parent))).card ≤ freeCount start)
    (more : copied < Task.userpagesCount.get start.memory (tasks parent)) :
    tablesNeeded mm.memory (tasks child) (recordedVirtual start.memory (tasks parent) copied) + 1 ≤
        freeCount mm ∧
      Task.kernelpagesCount.get mm.memory (tasks child) + 4 ≤ 128 ∧
      Task.userpagesCount.get mm.memory (tasks child) < maxProcessPages := by
  have tables := Finset.card_le_card
    (recordedTables_mono start.memory (tasks parent) (Nat.succ_le_of_lt more))
  have needed := taken.tablesNeeded_eq
  have left := taken.left
  have uses := taken.userpages
  have own := taken.kernelpages
  have own_le := card_recordedTables_le start.memory (tasks parent) copied
  simp only [maxProcessPages, Nat.succ_eq_add_one] at few tables ⊢
  omega

/-- One pass of the loop of `copy_virtual_memory`, whatever it copies. -/
theorem copyPages_next
    (taken : PagesTaken image tasks child parent start owner copied mm grown)
    (parent_known : parent < child)
    (few : Task.userpagesCount.get start.memory (tasks parent) ≤ maxProcessPages)
    (enough : Task.userpagesCount.get start.memory (tasks parent) +
      (recordedTables start.memory (tasks parent)
        (Task.userpagesCount.get start.memory (tasks parent))).card ≤ freeCount start)
    (more : copied < Task.userpagesCount.get start.memory (tasks parent))
    (result : copyPages (tasks parent) (tasks child) ttbr0 (fuel + 1) copied mm =
      some (after, status)) :
    ∃ frame mapped next memory,
      allocateUserPage mm (tasks child) (recordedVirtual start.memory (tasks parent) copied) =
        (mapped, kernelAdr frame) ∧
      PageAdded image tasks (child + 1) child (recordedVirtual start.memory (tasks parent) copied)
        mm grown frame mapped next ∧
      (∀ address, address < kernelAdr frame ∨ kernelAdr frame + pageSize ≤ address →
        memory address = mapped.memory address) ∧
      copyPages (tasks parent) (tasks child) ttbr0 fuel (copied + 1) (mapped.setMemory memory) =
        some (after, status) := by
  have same_count := @PagesTaken.parent_field _ _ _ _ _ _ _ _ _ taken parent_known
    Task.userpagesCount (by decide)
  obtain ⟨pages, tables, users⟩ := taken.next_fits few enough more
  simp only [maxProcessPages] at few
  obtain ⟨frame, mapped, next, call, added⟩ := @allocateUserPage_spec _ _ _ _
    (recordedVirtual start.memory (tasks parent) copied) _ _ taken.roles
    (Nat.lt_succ_self child) pages tables users
  have virtual : (Task.userpageVirtual copied).get mm.memory (tasks parent) =
      recordedVirtual start.memory (tasks parent) copied := by
    apply taken.parent_field parent_known
    simp only [Task.userpageVirtual, Task.userpagesOffset, pageSize]
    omega
  rw [copyPages, same_count] at result
  simp only [virtual, call] at result
  rw [if_pos ⟨by omega, more⟩, if_neg (kernelAdr_ne_zero frame)] at result
  split at result
  · cases result
  · next memory copy =>
      have range := kernelAdr_range added.fresh.1
      have low : 0 < pageSize := by decide
      exact ⟨frame, mapped, next, memory, call, added,
        fun address off => memcpyVirtual_outside (by omega) copy off, result⟩

/-- The child records the addresses that its parent records, in the same order. -/
theorem copyPages_virtuals
    (taken : PagesTaken image tasks child parent start owner copied mm grown)
    (parent_known : parent < child)
    (few : Task.userpagesCount.get start.memory (tasks parent) ≤ maxProcessPages)
    (enough : Task.userpagesCount.get start.memory (tasks parent) +
      (recordedTables start.memory (tasks parent)
        (Task.userpagesCount.get start.memory (tasks parent))).card ≤ freeCount start)
    (begun : copied ≤ Task.userpagesCount.get start.memory (tasks parent))
    (same : ∀ {number}, number < copied → recordedVirtual mm.memory (tasks child) number =
      recordedVirtual start.memory (tasks parent) number)
    (result : copyPages (tasks parent) (tasks child) ttbr0 fuel copied mm = some (after, status))
    {number : Nat} (bound : number < Task.userpagesCount.get start.memory (tasks parent)) :
    recordedVirtual after.memory (tasks child) number =
      recordedVirtual start.memory (tasks parent) number := by
  induction fuel generalizing copied mm grown with
  | zero => cases result
  | succ fuel ih =>
      by_cases more : copied < Task.userpagesCount.get start.memory (tasks parent)
      · obtain ⟨frame, mapped, next, memory, -, added, confined, rest⟩ :=
          copyPages_next taken parent_known few enough more result
        have uses := taken.userpages
        have room : copied < maxProcessPages := lt_of_lt_of_le more few
        refine ih (taken.extend room added confined) more ?_ rest
        intro place earlier
        have task_same : mapped.memory.AgreeOn memory (tasks child) pageSize := by
          intro address lower upper
          have apart := added.roles.task_apart (Nat.lt_succ_self child) added.fresh.1
            (by rw [added.owned]; simp)
          exact confined address (by omega)
        have range := added.roles.task_range (Nat.lt_succ_self child)
        have small : Task.userpagesCount.get start.memory (tasks parent) ≤ 16 := few
        have kept : recordedVirtual memory (tasks child) place =
            recordedVirtual mapped.memory (tasks child) place := by
          simp only [pageSize] at range task_same
          refine Field.get_congr ?_ (task_same.mono ?_ ?_) <;>
            simp only [Task.userpageVirtual, Task.userpagesOffset] <;> omega
        rw [Mm.memory_setMemory, kept]
        by_cases last : place = copied
        · have user : recordedVirtual start.memory (tasks parent) copied < wordSize :=
            Field.get_lt _ _ _
          have recorded := added.virtual user
          rw [uses] at recorded
          rw [last]
          exact recorded
        · rw [added.earlier (Nat.lt_succ_self child) (by rw [uses]; exact room) (by omega),
            same (by omega)]
      · have same_count := @PagesTaken.parent_field _ _ _ _ _ _ _ _ _ taken parent_known
          Task.userpagesCount (by decide)
        rw [copyPages, same_count, if_neg (fun both => more both.2)] at result
        obtain ⟨rfl, -⟩ := Prod.mk.inj (Option.some.inj result)
        exact same (by omega)

end Copied

/-! ## Forks -/

section Fork

variable {image : Image} {kernel after : Kernel} {owner : Nat → Option PageRole}
  {parent cloneFlags fn args pid : Nat}

/-- A user fork that has not faulted: the task has a page, and the loop of `copy_virtual_memory` has
taken a page for every record. -/
structure UserForkTaken (image : Image) (kernel : Kernel) (owner : Nat → Option PageRole)
    (parent index : Nat) (mm : Mm) (status : Int) (grown : Nat → Option PageRole) : Prop where
  fork : ForkBegun image kernel owner index (takePage (preemptDisable kernel).mm index)
  start : PagesTaken image (withTask kernel index) kernel.nTasks parent (userForkStart kernel index)
    (Function.update owner index (some (.taskStruct kernel.nTasks))) 0 (userForkStart kernel index)
    (Function.update owner index (some (.taskStruct kernel.nTasks)))
  fields : ∀ {field : Field}, field.InPage → field.Apart Task.preemptCount →
    field.get (userForkStart kernel index).memory (withTask kernel index parent) =
      field.get kernel.memory kernel.current
  enough : Task.userpagesCount.get (userForkStart kernel index).memory
      (withTask kernel index parent) +
    (recordedTables (userForkStart kernel index).memory (withTask kernel index parent)
      (Task.userpagesCount.get (userForkStart kernel index).memory
        (withTask kernel index parent))).card ≤ freeCount (userForkStart kernel index)
  run : copyPages (withTask kernel index parent) (withTask kernel index kernel.nTasks) kernel.ttbr0
    (2 ^ 31) 0 (userForkStart kernel index) = some (mm, status)
  taken : PagesTaken image (withTask kernel index) kernel.nTasks parent (userForkStart kernel index)
    (Function.update owner index (some (.taskStruct kernel.nTasks)))
    (Task.userpagesCount.get (userForkStart kernel index).memory (withTask kernel index parent))
    mm grown

theorem kernelFork_taken (roles : PageRoles image kernel.mm kernel.taskArray kernel.nTasks owner)
    (known : parent < kernel.nTasks) (current : kernel.current = kernel.taskArray parent)
    (few : Task.userpagesCount.get kernel.memory kernel.current ≤ maxProcessPages)
    (user : ¬cloneFlags &&& taskFlagsKernelThread ≠ 0)
    (enough : forkPages kernel cloneFlags ≤ freeCount kernel.mm)
    (result : kernelFork image kernel cloneFlags fn args = some (after, pid)) :
    ∃ index mm status grown, UserForkTaken image kernel owner parent index mm status grown ∧
      after = forkEnd image kernel mm (kernelAdr index) cloneFlags := by
  have some_page := one_le_forkPages kernel cloneFlags
  obtain ⟨index, inside, free, call⟩ :=
    getNextFreePage_preemptDisable (by omega : 0 < freeCount kernel.mm)
  have fork := forkBegun roles known current inside free
  have begun_left := fork.left
  obtain ⟨mm, context, rfl, rfl⟩ := kernelFork_result inside call result
  obtain ⟨copied, status, same, run⟩ := forkContext_copies user context
  obtain rfl := congrArg Kernel.mm same
  simp only [maxProcessPages] at few
  rw [forkPages, if_neg user, userForkPages] at enough
  have current_task : withTask kernel index parent = kernel.current := by
    rw [withTask_old kernel index known, current]
  have fields : ∀ {field : Field}, field.InPage → field.Apart Task.preemptCount →
      field.get (userForkStart kernel index).memory (withTask kernel index parent) =
        field.get kernel.memory kernel.current := by
    intro field within apart
    rw [current_task]
    exact userForkStart_current fork known current within apart
  have same_count := @fields Task.userpagesCount (by decide) (by decide)
  have same_tables := userForkStart_tables fork known current
    (by omega : Task.userpagesCount.get kernel.memory kernel.current ≤ 128)
  have start_left : freeCount (userForkStart kernel index) =
      freeCount (takePage (preemptDisable kernel).mm index) :=
    freeCount_congr (Mm.pageBitmap_setMemory _ _)
  have start := @PagesTaken.refl _ _ _ parent _ _ (userForkStart_roles fork).1
    (by rw [withTask_new]; exact userForkStart_blank fork (by decide))
    (by rw [withTask_new]; exact userForkStart_blank fork (by decide))
    (by rw [withTask_new]; exact userForkStart_blank fork (by decide))
  change copyPages kernel.current (kernelAdr index) kernel.ttbr0 (2 ^ 31) 0
    (userForkStart kernel index) = some (mm, status) at run
  rw [← current_task, ← withTask_new kernel index] at run
  have few_start : Task.userpagesCount.get (userForkStart kernel index).memory
      (withTask kernel index parent) ≤ maxProcessPages := by
    rw [same_count]
    exact few
  have enough_start : Task.userpagesCount.get (userForkStart kernel index).memory
        (withTask kernel index parent) +
      (recordedTables (userForkStart kernel index).memory (withTask kernel index parent)
        (Task.userpagesCount.get (userForkStart kernel index).memory
          (withTask kernel index parent))).card ≤ freeCount (userForkStart kernel index) := by
    rw [same_count, current_task, same_tables]
    omega
  obtain ⟨grown, taken⟩ := copyPages_taken start known few_start enough_start (Nat.zero_le _) run
  exact ⟨index, mm, status, grown, ⟨fork, start, fields, enough_start, run, taken⟩, rfl⟩

/-- The child of a user fork records the addresses that its parent records. -/
theorem kernelFork_virtuals (roles : PageRoles image kernel.mm kernel.taskArray kernel.nTasks owner)
    (known : parent < kernel.nTasks) (current : kernel.current = kernel.taskArray parent)
    (few : Task.userpagesCount.get kernel.memory kernel.current ≤ maxProcessPages)
    (user : ¬cloneFlags &&& taskFlagsKernelThread ≠ 0)
    (enough : forkPages kernel cloneFlags ≤ freeCount kernel.mm)
    (result : kernelFork image kernel cloneFlags fn args = some (after, pid)) {number : Nat}
    (bound : number < Task.userpagesCount.get kernel.memory kernel.current) :
    recordedVirtual after.memory (after.taskArray kernel.nTasks) number =
      recordedVirtual kernel.memory kernel.current number := by
  obtain ⟨index, mm, status, grown, parts, rfl⟩ :=
    kernelFork_taken roles known current few user enough result
  have same_count := @UserForkTaken.fields _ _ _ _ _ _ _ _ parts Task.userpagesCount (by decide)
    (by decide)
  have virtuals := @copyPages_virtuals _ _ _ _ _ _ _ _ _ _ _ _ _ parts.start known
    (by rw [same_count]; exact few) parts.enough (Nat.zero_le _)
    (fun below => absurd below (Nat.not_lt_zero _)) parts.run number
    (by rw [same_count]; exact bound)
  have filled := userFork_filled parts.fork parts.taken
  simp only [maxProcessPages] at few
  rw [withTask_new] at virtuals
  rw [taskArray_forkEnd, Function.update_self]
  refine (forkEnd_field parts.fork filled known current ?_ ?_).trans
    (virtuals.trans (parts.fields ?_ ?_))
  all_goals
    simp only [Field.InPage, Field.Apart, Task.userpageVirtual, Task.userpagesOffset,
      Task.preemptCount, pageSize]
    omega

theorem kernelFork_thread_directory
    (roles : PageRoles image kernel.mm kernel.taskArray kernel.nTasks owner)
    (known : parent < kernel.nTasks) (current : kernel.current = kernel.taskArray parent)
    (thread : cloneFlags &&& taskFlagsKernelThread ≠ 0) (left : 0 < freeCount kernel.mm)
    (result : kernelFork image kernel cloneFlags fn args = some (after, pid)) :
    Task.pagedirectory.get after.memory (after.taskArray kernel.nTasks) = 0 := by
  obtain ⟨index, inside, free, call⟩ := getNextFreePage_preemptDisable left
  have fork := forkBegun roles known current inside free
  have page := kernelAdr_range inside
  obtain ⟨mm, context, rfl, rfl⟩ := kernelFork_result inside call result
  rw [forkContext_thread thread] at context
  obtain rfl := congrArg Kernel.mm (Option.some.inj context)
  have filled := @threadFork_filled _ _ _ _ fn args _ fork
  simp only [pageSize] at page
  rw [taskArray_forkEnd, Function.update_self,
    forkEnd_field fork filled known current (by decide) (by decide), Mm.memory_setMemory,
    Field.get_eq (by simp only [Task.pagedirectory]; omega)]
  apply Memory.read_zero
  intro address lower upper
  simp only [Task.pagedirectory] at lower upper
  rw [threadMemory_outside _ (by simp only [pageSize]; omega) (by omega)]
  exact fork.zero address (by omega) (by simp only [pageSize]; omega)

end Fork

end PellOs
