import PellOs.Scheduler.KernelRuns

/-!
# Atomicity of `kernel_fork`

A fork that has a slot in `task_array` and finds all the pages it takes makes a whole task.  No
other fork is atomic: without any page preemption stays disabled, and a task that is entered in the
table although pages were missing has fewer pages than its parent.
-/

namespace PellOs

/-- The user pages of the current task as `copy_virtual_memory` finds them: each is recorded once
and mapped in the user half of the address space that `ttbr0_el1` describes. -/
structure PagesRecorded (kernel : Kernel) : Prop where
  ttbr0 : kernel.ttbr0 = Task.pagedirectory.get kernel.memory kernel.current
  records : RecordsMapped kernel.memory kernel.current
  distinct : ∀ {left right}, left < Task.userpagesCount.get kernel.memory kernel.current →
    right < Task.userpagesCount.get kernel.memory kernel.current →
      vaPath (recordedVirtual kernel.memory kernel.current left) =
        vaPath (recordedVirtual kernel.memory kernel.current right) → left = right

/-- The new task is entered in the table and has everything that `kernel_fork` builds: its fields,
the start values of its registers and, for a user process, a copy of every user page.  Its tables
and user pages are different pages that were free before. -/
structure TaskBuilt (image : Image) (kernel : Kernel) (cloneFlags fn args index : Nat)
    (after : Kernel) : Prop where
  fresh : index < mmNumOfPages ∧ IsFree kernel.mm index
  taskArray : after.taskArray = withTask kernel index
  nTasks : after.nTasks = kernel.nTasks + 1
  started : TaskStarted image after.memory (kernelAdr index) cloneFlags
    (Task.priority.get kernel.memory kernel.current)
  thread : cloneFlags &&& taskFlagsKernelThread ≠ 0 →
    Task.x19.get after.memory (kernelAdr index) = fn % wordSize ∧
      Task.x20.get after.memory (kernelAdr index) = args % wordSize
  regs : cloneFlags &&& taskFlagsKernelThread = 0 → ∀ offset, offset < sizeofPtRegs →
    after.memory (getTaskPtRegs (kernelAdr index) + offset) =
      if offset < 8 then 0 else kernel.memory (getTaskPtRegs kernel.current + offset)
  copies : cloneFlags &&& taskFlagsKernelThread = 0 →
    ∀ {number}, number < Task.userpagesCount.get kernel.memory kernel.current →
      let path := vaPath (recordedVirtual kernel.memory kernel.current number)
      ∃ frame original, walk after.memory (kernelAdr index) path = some (pageAt frame) ∧
        walk kernel.memory kernel.current path = some (pageAt original) ∧
        ∀ offset, offset < pageSize →
          after.memory (kernelAdr frame + offset) = kernel.memory (kernelAdr original + offset)
  tree : ∀ {path page}, path.length ≤ 4 → walk after.memory (kernelAdr index) path = some page →
    ∃ other, page = pageAt other ∧ other < mmNumOfPages ∧ IsFree kernel.mm other ∧ other ≠ index
  apart : ∀ {path other page}, path.length ≤ 4 → other.length ≤ 4 →
    walk after.memory (kernelAdr index) path = some page →
      walk after.memory (kernelAdr index) other = some page → path = other

/-- `kernel_fork` returns, either with a slot that holds a fully built task or with `0xFF` and the
task table and the current task's `preempt_count` as before the call. -/
def ForkAtomic (image : Image) (kernel : Kernel) (cloneFlags fn args : Nat) : Prop :=
  ∃ after pid, kernelFork image kernel cloneFlags fn args = some (after, pid) ∧
    ((pid < nTasksMax ∧ ∃ index, after.taskArray pid = kernelAdr index ∧
        TaskBuilt image kernel cloneFlags fn args index after) ∨
      pid = 0xFF ∧ after.taskArray = kernel.taskArray ∧ after.nTasks = kernel.nTasks ∧
        Task.preemptCount.get after.memory kernel.current =
          Task.preemptCount.get kernel.memory kernel.current)

/-! ## Pages of a whole task -/

/-- Positions of the tables and user pages of a copied address space. -/
def forkPositions (kernel : Kernel) (cloneFlags : Nat) : Finset (List Nat) :=
  if cloneFlags &&& taskFlagsKernelThread ≠ 0 then ∅
  else
    recordedTables kernel.memory kernel.current
        (Task.userpagesCount.get kernel.memory kernel.current) ∪
      (Finset.range (Task.userpagesCount.get kernel.memory kernel.current)).image fun number =>
        vaPath (recordedVirtual kernel.memory kernel.current number)

section Pages

variable {image : Image} {kernel after : Kernel} {cloneFlags fn args index : Nat}

theorem card_forkPositions
    (user : cloneFlags &&& taskFlagsKernelThread = 0 → PagesRecorded kernel) :
    1 + (forkPositions kernel cloneFlags).card = forkPages kernel cloneFlags := by
  rw [forkPositions, forkPages]
  split_ifs with thread
  · rfl
  · have recorded := user (not_not.mp thread)
    have pages : ((Finset.range (Task.userpagesCount.get kernel.memory kernel.current)).image
        fun number => vaPath (recordedVirtual kernel.memory kernel.current number)).card =
          Task.userpagesCount.get kernel.memory kernel.current := by
      rw [Finset.card_image_of_injOn, Finset.card_range]
      intro left left_bound right right_bound same
      exact recorded.distinct (Finset.mem_range.mp left_bound) (Finset.mem_range.mp right_bound)
        same
    have levels : Disjoint (recordedTables kernel.memory kernel.current
        (Task.userpagesCount.get kernel.memory kernel.current))
        ((Finset.range (Task.userpagesCount.get kernel.memory kernel.current)).image
          fun number => vaPath (recordedVirtual kernel.memory kernel.current number)) := by
      rw [Finset.disjoint_left]
      intro path table page
      obtain ⟨number, _, on_path⟩ := mem_recordedTables.mp table
      obtain ⟨other, _, rfl⟩ := Finset.mem_image.mp page
      have short := (mem_tablePositions.mp on_path).1
      rw [length_vaPath] at short
      omega
    rw [Finset.card_union_of_disjoint levels, pages, userForkPages]
    omega

theorem TaskBuilt.reaches (built : TaskBuilt image kernel cloneFlags fn args index after)
    {path : List Nat} (needed : path ∈ forkPositions kernel cloneFlags) :
    path.length ≤ 4 ∧ ∃ page, walk after.memory (kernelAdr index) path = some page := by
  rw [forkPositions] at needed
  split_ifs at needed with thread
  · exact absurd needed (Finset.notMem_empty path)
  · have copies := @built.copies (not_not.mp thread)
    rcases Finset.mem_union.mp needed with table | page
    · obtain ⟨number, bound, on_path⟩ := mem_recordedTables.mp table
      obtain ⟨short, rest, whole⟩ := mem_tablePositions.mp on_path
      obtain ⟨frame, original, reached, _⟩ := copies bound
      rw [← whole] at reached
      exact ⟨by omega, Option.isSome_iff_exists.mp (walk_isSome_of_append reached)⟩
    · obtain ⟨number, bound, rfl⟩ := Finset.mem_image.mp page
      obtain ⟨frame, original, reached, _⟩ := copies (Finset.mem_range.mp bound)
      exact ⟨(length_vaPath _).le, _, reached⟩

/-- A whole task takes a free page for itself and one for every position. -/
theorem TaskBuilt.supplied (built : TaskBuilt image kernel cloneFlags fn args index after)
    (user : cloneFlags &&& taskFlagsKernelThread = 0 → PagesRecorded kernel) :
    forkPages kernel cloneFlags ≤ freeCount kernel.mm := by
  have own : index ∈ (Finset.range mmNumOfPages).filter (IsFree kernel.mm) :=
    Finset.mem_filter.mpr ⟨Finset.mem_range.mpr built.fresh.1, built.fresh.2⟩
  have injective : Set.InjOn (walk after.memory (kernelAdr index))
      (forkPositions kernel cloneFlags) := by
    intro path needed other other_needed same
    obtain ⟨short, page, reached⟩ := built.reaches needed
    exact built.apart short (built.reaches other_needed).1 reached (same.symm.trans reached)
  have pages : (forkPositions kernel cloneFlags).image (walk after.memory (kernelAdr index)) ⊆
      (((Finset.range mmNumOfPages).filter (IsFree kernel.mm)).erase index).image
        fun other => some (pageAt other) := by
    intro target member
    obtain ⟨path, needed, rfl⟩ := Finset.mem_image.mp member
    obtain ⟨short, page, reached⟩ := built.reaches needed
    obtain ⟨other, rfl, inside, free, differ⟩ := built.tree short reached
    refine Finset.mem_image.mpr ⟨other, Finset.mem_erase.mpr ⟨differ, ?_⟩, reached.symm⟩
    exact Finset.mem_filter.mpr ⟨Finset.mem_range.mpr inside, free⟩
  have few := (Finset.card_le_card pages).trans Finset.card_image_le
  rw [Finset.card_image_of_injOn injective, Finset.card_erase_of_mem own] at few
  have some_page := Finset.card_pos.mpr ⟨index, own⟩
  have total := card_forkPositions user
  rw [freeCount]
  omega

end Pages

/-! ## Roles of known tasks -/

/-- The role without pages in the tree of a task that does not exist. -/
def knownRole (count : Nat) (role : PageRole) : PageRole :=
  match role with
  | .table pid path => if pid < count then .table pid path else .heap
  | .user pid path => if pid < count then .user pid path else .heap
  | other => other

section Known

variable {image : Image} {mm : Mm} {tasks : Nat → Nat} {count : Nat}
  {owner : Nat → Option PageRole}

theorem knownRole_treeRole {pid : Nat} (known : pid < count) (path : List Nat) :
    knownRole count (treeRole pid path) = treeRole pid path := by
  unfold treeRole
  split_ifs
  · exact if_pos known
  · exact if_pos known

/-- The roles in the trees of tasks are those from before, and their tasks exist. -/
theorem knownRole_eq_treeRole {role : PageRole} {pid : Nat} {path : List Nat}
    (same : knownRole count role = treeRole pid path) :
    pid < count ∧ role = treeRole pid path := by
  have not_heap : treeRole pid path ≠ .heap := by
    unfold treeRole
    split_ifs <;> simp
  cases role with
  | heap => exact absurd same.symm not_heap
  | taskStruct other => exact absurd same.symm (treeRole_ne_taskStruct pid other path)
  | table other position =>
      rw [knownRole] at same
      split_ifs at same with known
      · unfold treeRole at same ⊢
        split_ifs at same ⊢
        exact ⟨(PageRole.table.inj same).1 ▸ known, same⟩
      · exact absurd same.symm not_heap
  | user other position =>
      rw [knownRole] at same
      split_ifs at same with known
      · unfold treeRole at same ⊢
        split_ifs at same ⊢
        exact ⟨(PageRole.user.inj same).1 ▸ known, same⟩
      · exact absurd same.symm not_heap

/-- Only the trees of tasks that exist matter. -/
theorem PageRoles.known_only (roles : PageRoles image mm tasks count owner) :
    PageRoles image mm tasks count fun index => (owner index).map (knownRole count) := by
  have table_owned : ∀ {index pid path},
      (owner index).map (knownRole count) = some (.table pid path) →
        pid < count ∧ owner index = some (.table pid path) := by
    intro index pid path owned
    obtain ⟨role, old, same⟩ := Option.map_eq_some_iff.mp owned
    cases role with
    | heap => cases same
    | taskStruct other => cases same
    | table other position =>
        rw [knownRole] at same
        split_ifs at same with known
        obtain ⟨rfl, rfl⟩ := PageRole.table.inj same
        exact ⟨known, old⟩
    | user other position =>
        rw [knownRole] at same
        split_ifs at same
  constructor
  · intro index role owned
    obtain ⟨old, old_owned, _⟩ := Option.map_eq_some_iff.mp owned
    exact roles.inside old_owned
  · intro index inside
    rw [← roles.unused inside, Option.map_eq_none_iff]
  · intro pid known
    rcases roles.task known with first | ⟨later, index, same, owned⟩
    · exact Or.inl first
    · exact Or.inr ⟨later, index, same, congrArg (Option.map (knownRole count)) owned⟩
  · intro pid known
    rcases roles.directory known with zero | ⟨index, same, owned⟩
    · exact Or.inl zero
    · refine Or.inr ⟨index, same, ?_⟩
      rw [owned, Option.map_some, knownRole, if_pos known]
  · intro index pid path owned
    exact roles.depth (table_owned owned).2
  · intro index pid path slot owned bound
    obtain ⟨known, old⟩ := table_owned owned
    rcases roles.entry old bound with zero | ⟨next, next_owned, same⟩
    · exact Or.inl zero
    · refine Or.inr ⟨next, ?_, same⟩
      rw [next_owned, Option.map_some, knownRole_treeRole known]

end Known

/-! ## Forks that are atomic -/

section Build

variable {image : Image} {kernel after : Kernel} {owner grown : Nat → Option PageRole}
  {cloneFlags fn args index pid parent : Nat}

theorem Forked.tree
    (forked : Forked image kernel owner index after grown)
    (roles : PageRoles image kernel.mm kernel.taskArray kernel.nTasks owner)
    (known_only : ∀ {other path}, owner other ≠ some (treeRole kernel.nTasks path))
    {path : List Nat} {page : Nat} (short : path.length ≤ 4)
    (reached : walk after.memory (kernelAdr index) path = some page) :
    ∃ other, page = pageAt other ∧ other < mmNumOfPages ∧ IsFree kernel.mm other ∧
      other ≠ index ∧ grown other = some (treeRole kernel.nTasks path) := by
  have child : after.taskArray kernel.nTasks = kernelAdr index := by
    rw [forked.taskArray, withTask_new]
  obtain ⟨other, rfl, owned⟩ := forked.roles.walk_placed
    (by rw [forked.nTasks]; omega : kernel.nTasks < after.nTasks) short
    (by rw [child]; exact reached)
  have inside := forked.roles.inside owned
  refine ⟨other, rfl, inside, ?_, ?_, owned⟩
  · rcases forked.added owned with before | ⟨unused, _⟩
    · exact absurd before known_only
    · exact (roles.unused inside).mp unused
  · rintro rfl
    exact treeRole_ne_taskStruct _ _ _ (Option.some.inj (owned.symm.trans forked.task))

theorem Forked.tree_taken (forked : Forked image kernel owner index after grown)
    (roles : PageRoles image kernel.mm kernel.taskArray kernel.nTasks owner)
    (known_only : ∀ {other path}, owner other ≠ some (treeRole kernel.nTasks path))
    {path : List Nat} {page : Nat} (short : path.length ≤ 4)
    (reached : walk after.memory (kernelAdr index) path = some page) :
    ∃ other, page = pageAt other ∧ other < mmNumOfPages ∧ IsFree kernel.mm other ∧
      other ≠ index := by
  obtain ⟨other, same, inside, free, differ, _⟩ := forked.tree roles known_only short reached
  exact ⟨other, same, inside, free, differ⟩

theorem Forked.tree_apart (forked : Forked image kernel owner index after grown)
    (roles : PageRoles image kernel.mm kernel.taskArray kernel.nTasks owner)
    (known_only : ∀ {other path}, owner other ≠ some (treeRole kernel.nTasks path))
    {path other : List Nat} {page : Nat} (short : path.length ≤ 4) (other_short : other.length ≤ 4)
    (reached : walk after.memory (kernelAdr index) path = some page)
    (other_reached : walk after.memory (kernelAdr index) other = some page) : path = other := by
  obtain ⟨left, rfl, _, _, _, owned⟩ := forked.tree roles known_only short reached
  obtain ⟨right, same, _, _, _, other_owned⟩ :=
    forked.tree roles known_only other_short other_reached
  rw [← pageAt_injective same, owned] at other_owned
  exact (treeRole_inj (Option.some.inj other_owned)).2

/-- A kernel thread starts with the function and its argument in `x19` and `x20`. -/
theorem threadFork_registers {begun : Mm} (fork : ForkBegun image kernel owner index begun)
    (known : parent < kernel.nTasks) (current : kernel.current = kernel.taskArray parent) :
    let mm := begun.setMemory (threadMemory begun.memory (kernelAdr index) fn args)
    let after := forkEnd image kernel mm (kernelAdr index) cloneFlags
    Task.x19.get after.memory (kernelAdr index) = fn % wordSize ∧
      Task.x20.get after.memory (kernelAdr index) = args % wordSize := by
  intro mm after
  have filled := @threadFork_filled _ _ _ _ fn args _ fork
  have range := filled.roles.task_range (by omega : parent < _)
  have apart := filled.roles.tasks_apart (by omega : parent < _) (Nat.lt_succ_self _)
    (Nat.ne_of_lt known)
  rw [withTask_old kernel index known, ← current] at range apart
  rw [withTask_new] at apart
  exact forkEnd_threadMemory image cloneFlags (Mm.memory_setMemory _ _)
    (kernelAdr_range fork.fresh.1).2 range.2 apart

/-- A fork with a slot and enough pages returns the slot of a whole task, and preemption of the
current task is as before. -/
theorem kernelFork_built
    (roles : PageRoles image kernel.mm kernel.taskArray kernel.nTasks owner)
    (known_only : ∀ {other path}, owner other ≠ some (treeRole kernel.nTasks path))
    (known : parent < kernel.nTasks) (current : kernel.current = kernel.taskArray parent)
    (small : cloneFlags < wordSize)
    (user : cloneFlags &&& taskFlagsKernelThread = 0 → PagesRecorded kernel)
    (room : kernel.nTasks < nTasksMax)
    (enough : forkPages kernel cloneFlags ≤ freeCount kernel.mm) :
    ∃ index after, kernelFork image kernel cloneFlags fn args = some (after, kernel.nTasks) ∧
      TaskBuilt image kernel cloneFlags fn args index after := by
  have word : wordSize = 256 ^ 8 := by decide
  rw [word] at small
  have some_page := one_le_forkPages kernel cloneFlags
  by_cases thread : cloneFlags &&& taskFlagsKernelThread ≠ 0
  · obtain ⟨index, inside, free, call⟩ :=
      getNextFreePage_preemptDisable (by omega : 0 < freeCount kernel.mm)
    have fork := forkBegun roles known current inside free
    have filled := @threadFork_filled _ _ _ _ fn args _ fork
    have forked := @forkEnd_forked _ _ _ _ _ _ cloneFlags _ _ fork filled known current room
    refine ⟨index, _, kernelFork_eq inside call (forkContext_thread thread), ?_⟩
    exact
      { fresh := ⟨inside, free⟩
        taskArray := forked.taskArray
        nTasks := forked.nTasks
        started := forkEnd_started fork filled known current small
        thread := fun _ => threadFork_registers fork known current
        regs := fun not_thread => absurd not_thread thread
        copies := fun not_thread => absurd not_thread thread
        tree := forked.tree_taken roles known_only
        apart := forked.tree_apart roles known_only }
  · have not_thread := not_not.mp thread
    have recorded := user not_thread
    rw [forkPages, if_neg thread] at enough
    obtain ⟨index, after, grown, call, forked, copied⟩ := @kernelFork_user _ _ _ _ cloneFlags fn
      args roles known current room recorded.ttbr0 not_thread small recorded.records enough
    have page := kernelAdr_range forked.fresh.1
    have range := roles.task_range known
    rw [← current] at range
    refine ⟨index, after, call, ?_⟩
    exact
      { fresh := ⟨forked.fresh.1, (roles.unused forked.fresh.1).mp forked.fresh.2⟩
        taskArray := forked.taskArray
        nTasks := forked.nTasks
        started := copied.started
        thread := fun is_thread => absurd not_thread is_thread
        regs := by
          intro _ offset inside
          rw [getTaskPtRegs_eq page.2, getTaskPtRegs_eq range.2]
          exact copied.regs offset inside
        copies := by
          intro _ number bound path
          obtain ⟨frame, original, reached, _, parent_reached, contents⟩ := copied.copies bound
          exact ⟨frame, original, reached, parent_reached, contents⟩
        tree := forked.tree_taken roles known_only
        apart := forked.tree_apart roles known_only }

theorem TaskBuilt.room (built : TaskBuilt image kernel cloneFlags fn args index after)
    (roles : PageRoles image kernel.mm kernel.taskArray kernel.nTasks owner)
    (slot : pid < nTasksMax) (holds : after.taskArray pid = kernelAdr index) :
    kernel.nTasks < nTasksMax := by
  obtain ⟨inside, free⟩ := built.fresh
  by_contra full
  have old : pid < kernel.nTasks := by omega
  rw [built.taskArray, withTask_old kernel index old] at holds
  have apart := roles.task_apart old inside (by rw [(roles.unused inside).mpr free]; simp)
  simp only [pageSize] at apart
  omega

/-- `kernel_fork` never fails cleanly: without a page it leaves preemption disabled, and with one it
counts a new task. -/
theorem kernelFork_failure_leaves
    (roles : PageRoles image kernel.mm kernel.taskArray kernel.nTasks owner)
    (known : parent < kernel.nTasks) (current : kernel.current = kernel.taskArray parent)
    (result : kernelFork image kernel cloneFlags fn args = some (after, pid))
    (uncounted : after.nTasks = kernel.nTasks) :
    Task.preemptCount.get after.memory kernel.current ≠
      Task.preemptCount.get kernel.memory kernel.current := by
  rcases Nat.eq_zero_or_pos (freeCount kernel.mm) with none_left | left
  · rw [kernelFork_full none_left] at result
    obtain ⟨rfl, -⟩ := Prod.mk.inj (Option.some.inj result)
    have range := roles.task_range known
    rw [← current] at range
    have small := Task.preemptCount.get_lt kernel.memory kernel.current
    have disabled : Task.preemptCount.get (preemptDisable kernel).memory kernel.current =
        (Task.preemptCount.get kernel.memory kernel.current + 1) % wordSize :=
      Field.get_set range.2 (by decide) (Nat.mod_lt _ (by decide))
    rw [disabled]
    simp only [Task.preemptCount, wordSize] at small ⊢
    omega
  · have counted := kernelFork_nTasks result left
    omega

/-- `kernel_fork` is atomic exactly when a slot of `task_array` is left and the page of the task, a
page for every user page of the current task and the tables on the way to them can be had. -/
theorem kernelFork_atomic_iff
    (roles : PageRoles image kernel.mm kernel.taskArray kernel.nTasks owner)
    (known : parent < kernel.nTasks) (current : kernel.current = kernel.taskArray parent)
    (small : cloneFlags < wordSize)
    (user : cloneFlags &&& taskFlagsKernelThread = 0 → PagesRecorded kernel) :
    ForkAtomic image kernel cloneFlags fn args ↔
      kernel.nTasks < nTasksMax ∧ forkPages kernel cloneFlags ≤ freeCount kernel.mm := by
  constructor
  · rintro ⟨after, pid, result, ⟨slot, index, holds, built⟩ | ⟨_, _, uncounted, same⟩⟩
    · exact ⟨built.room roles slot holds, built.supplied user⟩
    · exact absurd same (kernelFork_failure_leaves roles known current result uncounted)
  · rintro ⟨room, enough⟩
    obtain ⟨index, after, result, built⟩ := @kernelFork_built _ _ _ cloneFlags fn args _
      roles.known_only (fun owned => by
        obtain ⟨role, _, same⟩ := Option.map_eq_some_iff.mp owned
        exact Nat.lt_irrefl _ (knownRole_eq_treeRole same).1) known current small user room enough
    refine ⟨after, kernel.nTasks, result, Or.inl ⟨room, index, ?_, built⟩⟩
    rw [built.taskArray, withTask_new]

end Build

theorem pagesRecorded_onePageKernel {mm : Mm}
    (records : RecordsMapped mm.memory smallImage.initTask)
    (uses : Task.userpagesCount.get mm.memory smallImage.initTask = 1) :
    PagesRecorded (onePageKernel mm) where
  ttbr0 := rfl
  records := records
  distinct := by
    change ∀ {left right}, left < Task.userpagesCount.get mm.memory smallImage.initTask →
      right < Task.userpagesCount.get mm.memory smallImage.initTask → _
    rw [uses]
    intro left right left_bound right_bound _
    omega

/-- The first task forks with one user page. -/
theorem kernelFork_atomic_one_page :
    ∃ mm, Task.userpagesCount.get mm.memory smallImage.initTask = 1 ∧
      ForkAtomic smallImage (onePageKernel mm) 0 0 0 := by
  obtain ⟨mm, owner, roles, records, uses, _, enough⟩ := onePageKernel_recorded
  have mapped := @RecordsExactly.recordsMapped _
      (onePageKernel mm) _ 0 roles Nat.zero_lt_one records
  refine ⟨mm, uses, ?_⟩
  exact (@kernelFork_atomic_iff _ (onePageKernel mm) _ 0 0 0 0 roles Nat.zero_lt_one rfl (by decide)
    fun _ => pagesRecorded_onePageKernel mapped uses).mpr ⟨show 1 < nTasksMax by decide, enough⟩

/-! ## No page left -/

/-- The first task running when every page is in use. -/
def noPageKernel : Kernel := onePageKernel ⟨blankMm.memory, fun _ => 1⟩

theorem not_isFree_noPageKernel (index : Nat) : ¬IsFree noPageKernel.mm index :=
  (by decide : ¬(1 : UInt8) &&& 1 = 0)

/-- Without a page `kernel_fork` returns `0xFF` with preemption of the current task disabled. -/
theorem fork_without_pages_not_atomic :
    (∃ owner, SpacesInv smallImage noPageKernel owner) ∧
      (∃ after, kernelFork smallImage noPageKernel 2 0 0 = some (after, 0xFF) ∧
        Task.preemptCount.get noPageKernel.memory noPageKernel.current = 0 ∧
        Task.preemptCount.get after.memory noPageKernel.current = 1) ∧
      ¬ForkAtomic smallImage noPageKernel 2 0 0 := by
  have spaces : ∃ owner, SpacesInv smallImage noPageKernel owner :=
    onePageKernel_spaces fun index _ => not_isFree_noPageKernel index
  have zero : Task.preemptCount.get noPageKernel.memory noPageKernel.current = 0 :=
    blank_field _ _
  have call := @kernelFork_full smallImage noPageKernel 2 0 0
    ((freeCount_eq_zero_iff _).mpr fun index _ => not_isFree_noPageKernel index)
  have disabled : Task.preemptCount.get (preemptDisable noPageKernel).memory
      noPageKernel.current = 1 := by
    change Task.preemptCount.get (Task.preemptCount.set noPageKernel.memory noPageKernel.current
      ((Task.preemptCount.get noPageKernel.memory noPageKernel.current + 1) % wordSize))
      noPageKernel.current = 1
    rw [zero]
    exact Field.get_set (by decide) (by decide) (by decide)
  refine ⟨spaces, ⟨_, call, zero, disabled⟩, ?_⟩
  rintro ⟨after, pid, result, ⟨slot, _⟩ | ⟨_, _, _, same⟩⟩
  · rw [call] at result
    obtain ⟨-, rfl⟩ := Prod.mk.inj (Option.some.inj result)
    exact absurd slot (by decide)
  · rw [call] at result
    obtain ⟨rfl, -⟩ := Prod.mk.inj (Option.some.inj result)
    rw [disabled, zero] at same
    cases same

end PellOs
