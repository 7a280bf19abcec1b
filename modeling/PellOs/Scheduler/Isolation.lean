import PellOs.Scheduler.KernelRuns

/-!
# Address-space isolation

While the allocator has pages and no array of a task overflows, every physical page is used in one
role only.  So no two tasks share a page, and no user mapping reaches a table, a task or the kernel
heap.
-/

namespace PellOs

/-- A call that finds every page it takes, with no task table or page list overflowing. -/
def LimitedStep (image : Image) (before after : Kernel) : Prop :=
  ∃ call, KernelCall.Supplied before call ∧ KernelStep image call before after ∧
    WithinLimits after

/-- A physical page holds a part of the kernel heap or of a task, or is found in the tree of page
tables of a task. -/
inductive UsedAs (kernel : Kernel) : PageRole → Nat → Prop
  | heap {index : Nat} (low : index < kernelHeapSizePages) : UsedAs kernel .heap (pageAt index)
  | taskStruct {pid page : Nat} (known : pid < kernel.nTasks) (aligned : pageSize ∣ page)
      (lower : kernel.taskArray pid < page + virtualAddressStart + pageSize)
      (upper : page + virtualAddressStart < kernel.taskArray pid + taskSize) :
      UsedAs kernel (.taskStruct pid) page
  | table {pid page : Nat} {path : List Nat} (known : pid < kernel.nTasks)
      (short : path.length ≤ 3)
      (reached : walk kernel.memory (kernel.taskArray pid) path = some page) :
      UsedAs kernel (.table pid path) page
  | user {pid page : Nat} {path : List Nat} (known : pid < kernel.nTasks)
      (long : path.length = 4)
      (reached : walk kernel.memory (kernel.taskArray pid) path = some page) :
      UsedAs kernel (.user pid path) page

section Steps

variable {image : Image} {kernel : Kernel} {owner : Nat → Option PageRole}

theorem SpacesInv.limited_run {boot : Kernel} (inv : SpacesInv image boot owner)
    (run : Relation.ReflTransGen (LimitedStep image) boot kernel) :
    ∃ grown, SpacesInv image kernel grown := by
  induction run with
  | refl => exact ⟨owner, inv⟩
  | tail _ step ih =>
      obtain ⟨between, inv⟩ := ih
      obtain ⟨call, enough, step, limits⟩ := step
      obtain ⟨grown, final, -⟩ := inv.step step
        (Or.inr ⟨enough, inv.fits_of_limits enough step limits⟩)
      exact ⟨grown, final⟩

/-! ## One role for each page -/

theorem pageSize_dvd_pageAt (index : Nat) : pageSize ∣ pageAt index :=
  Nat.dvd_add (by decide) (Nat.dvd_mul_right _ _)

/-- A page is used in its role, or holds the initial task below the pages of the allocator. -/
theorem SpacesInv.owned (inv : SpacesInv image kernel owner) {role : PageRole} {page : Nat}
    (used : UsedAs kernel role page) :
    (∃ index, page = pageAt index ∧ owner index = some role) ∨
      role = .taskStruct 0 ∧ pageSize ∣ page ∧ page < lowMemory := by
  cases used with
  | heap low => exact Or.inl ⟨_, rfl, inv.heap low⟩
  | table known short reached =>
      obtain ⟨index, same, owned⟩ := inv.roles.walk_placed known (by omega) reached
      rw [treeRole_table short] at owned
      exact Or.inl ⟨index, same, owned⟩
  | user known long reached =>
      obtain ⟨index, same, owned⟩ := inv.roles.walk_placed known (by omega) reached
      rw [treeRole, if_neg (by omega)] at owned
      exact Or.inl ⟨index, same, owned⟩
  | taskStruct known aligned lower upper =>
      rcases inv.roles.task known with ⟨rfl, same⟩ | ⟨_, index, same, owned⟩
      · have below := image.below_pages
        exact Or.inr ⟨rfl, aligned, by omega⟩
      · refine Or.inl ⟨index, ?_, owned⟩
        have index_aligned := pageSize_dvd_pageAt index
        rw [same, kernelAdr] at lower upper
        simp only [pageSize, taskSize] at aligned index_aligned lower upper
        omega

theorem SpacesInv.aligned (inv : SpacesInv image kernel owner) {role : PageRole} {page : Nat}
    (used : UsedAs kernel role page) : pageSize ∣ page := by
  rcases inv.owned used with ⟨index, rfl, -⟩ | ⟨-, aligned, -⟩
  · exact pageSize_dvd_pageAt index
  · exact aligned

theorem SpacesInv.role_unique (inv : SpacesInv image kernel owner) {left right : PageRole}
    {page : Nat} (left_used : UsedAs kernel left page) (right_used : UsedAs kernel right page) :
    left = right := by
  rcases inv.owned left_used with ⟨index, rfl, left_owned⟩ | ⟨rfl, -, left_low⟩
  · rcases inv.owned right_used with ⟨other, same, right_owned⟩ | ⟨-, -, low⟩
    · rw [← pageAt_injective same, left_owned] at right_owned
      exact Option.some.inj right_owned
    · simp only [pageAt] at low
      omega
  · rcases inv.owned right_used with ⟨other, rfl, -⟩ | ⟨rfl, -, -⟩
    · simp only [pageAt] at left_low
      omega
    · rfl

theorem UsedAs.of_walk {pid page : Nat} {path : List Nat} (known : pid < kernel.nTasks)
    (short : path.length ≤ 4)
    (reached : walk kernel.memory (kernel.taskArray pid) path = some page) :
    UsedAs kernel (treeRole pid path) page := by
  rw [treeRole]
  split_ifs with inner
  · exact .table known inner reached
  · exact .user known (by omega) reached

end Steps

/-- In every state reached from boot while pages are left and no list overflows, a physical page
has at most one role.  So the trees of page tables of two tasks have no page in common, and what
the hardware finds at a user address is neither a table nor a task nor the kernel heap. -/
theorem address_spaces_isolated {image : Image} {boot kernel : Kernel}
    (booted : AtBoot image boot)
    (run : Relation.ReflTransGen (LimitedStep image) boot kernel) :
    (∀ {left right page}, UsedAs kernel left page → UsedAs kernel right page → left = right) ∧
    (∀ {pid other path position page}, pid < kernel.nTasks → other < kernel.nTasks → pid ≠ other →
      path.length ≤ 4 → position.length ≤ 4 →
      walk kernel.memory (kernel.taskArray pid) path = some page →
        walk kernel.memory (kernel.taskArray other) position ≠ some page) ∧
    ∀ {pid virtAdr physical role page}, pid < kernel.nTasks → virtAdr < 2 ^ 48 →
      Task.pagedirectory.get kernel.memory (kernel.taskArray pid) ≠ 0 →
      translate kernel.memory
        (Task.pagedirectory.get kernel.memory (kernel.taskArray pid)) virtAdr =
        some physical →
      UsedAs kernel role page → page ≤ physical → physical < page + pageSize →
        role = .user pid (vaPath virtAdr) := by
  obtain ⟨owner, inv⟩ := booted.spaces.limited_run run
  refine ⟨fun left right => inv.role_unique left right, ?_, ?_⟩
  · intro pid other path position page known other_known differ short other_short reached
      other_reached
    have same := inv.role_unique (.of_walk known short reached)
      (.of_walk other_known other_short other_reached)
    exact differ (treeRole_inj same).1
  · intro pid virtAdr physical role page known user present translated used lower upper
    rw [Kernel.memory, inv.roles.translate_directory known user present] at translated
    obtain ⟨found, reached, rfl⟩ := Option.map_eq_some_iff.mp translated
    have found_used : UsedAs kernel (.user pid (vaPath virtAdr)) found :=
      .user known (length_vaPath virtAdr) reached
    have aligned := inv.aligned used
    have found_aligned := inv.aligned found_used
    have same : page = found := by
      simp only [pageSize] at aligned found_aligned lower upper
      omega
    exact inv.role_unique (same ▸ used) found_used

/-! ## Two tasks -/

section Two

variable {image : Image} {kernel : Kernel} {owner : Nat → Option PageRole}

theorem SpacesInv.fork_thread (inv : SpacesInv image kernel owner)
    (room : kernel.nTasks < nTasksMax) (left : 0 < freeCount kernel.mm) :
    ∃ after index grown, LimitedStep image kernel after ∧ SpacesInv image after grown ∧
      ForkMade image kernel owner index taskFlagsKernelThread after grown := by
  obtain ⟨pid, known, current⟩ := inv.current
  have thread : taskFlagsKernelThread &&& taskFlagsKernelThread ≠ 0 := by decide
  have enough : forkPages kernel taskFlagsKernelThread ≤ freeCount kernel.mm := by
    rw [forkPages, if_pos thread]
    exact left
  obtain ⟨index, inside, -, call⟩ := getNextFreePage_preemptDisable left
  have result : kernelFork image kernel taskFlagsKernelThread 0 0 = _ :=
    kernelFork_eq inside call (forkContext_thread thread)
  obtain ⟨index, grown, -, made⟩ := kernelFork_made inv.roles known current room
    (by rw [current]; exact inv.limits.users known) enough result
  have after := inv.fork room (by rw [forkTables, if_pos thread]; decide) made
  exact ⟨_, index, grown, ⟨.fork taskFlagsKernelThread 0 0, enough, .fork result, after.limits⟩,
    after, made⟩

/-- A page is allocated to a task whose lists have room for it and its tables. -/
theorem SpacesInv.allocate_page (inv : SpacesInv image kernel owner) {pid virtAdr : Nat}
    (known : pid < kernel.nTasks) (left : 5 ≤ freeCount kernel.mm)
    (users : Task.userpagesCount.get kernel.memory (kernel.taskArray pid) = 0)
    (tables : Task.kernelpagesCount.get kernel.memory (kernel.taskArray pid) = 0) :
    ∃ mm frame taken grown, LimitedStep image kernel { kernel with mm } ∧
      SpacesInv image { kernel with mm } grown ∧
      PageAdded image kernel.taskArray kernel.nTasks pid virtAdr kernel.mm owner frame mm
        taken := by
  have few := tablesNeeded_le kernel.memory (kernel.taskArray pid) virtAdr
  have supplied : (KernelCall.allocate pid virtAdr).Supplied kernel := by
    change tablesNeeded kernel.memory (kernel.taskArray pid) virtAdr + 1 ≤ freeCount kernel.mm
    omega
  have fits : (KernelCall.allocate pid virtAdr).Fits kernel := by
    intro task address target
    obtain ⟨rfl, rfl⟩ := Prod.mk.inj (Option.some.inj target)
    rw [users, tables, maxProcessPages]
    omega
  have step := @KernelStep.allocate image kernel pid virtAdr known
  obtain ⟨grown, after, -⟩ := inv.step step (Or.inr ⟨supplied, fits⟩)
  rw [Kernel.memory] at users tables
  obtain ⟨frame, mm, taken, call, added⟩ := @allocateUserPage_spec _ _ _ _ virtAdr _ _ inv.roles
    known supplied (by rw [tables]; decide) (by rw [users]; decide)
  have limited : LimitedStep image kernel _ := ⟨_, supplied, step, after.limits⟩
  rw [call] at after limited
  exact ⟨mm, frame, taken, grown, limited, after, added⟩

end Two

/-- The first task forks a thread, and each of the two gets a page at address zero. -/
theorem address_spaces_isolated_two_tasks : ∃ kernel page other,
    Relation.ReflTransGen (LimitedStep smallImage) bootKernel kernel ∧
      walk kernel.memory (kernel.taskArray 0) (vaPath 0) = some page ∧
      walk kernel.memory (kernel.taskArray 1) (vaPath 0) = some other ∧ page ≠ other ∧
      ∀ role, UsedAs kernel role page → role = .user 0 (vaPath 0) := by
  have boot_left : 64 ≤ freeCount bootKernel.mm := by
    rw [atBoot_bootKernel.freeCount_eq]
    decide
  have zero := fun field => bootKernel_field field smallImage.initTask
  obtain ⟨forked, index, _, first, inv, made⟩ := atBoot_bootKernel.spaces.fork_thread
    (show 1 < nTasksMax by decide) (by omega)
  have forked_left := made.left
  rw [forkPages, if_pos (by decide)] at forked_left
  have two : forked.nTasks = 2 := made.forked.nTasks
  have known : 0 < forked.nTasks ∧ 1 < forked.nTasks := by
    rw [two]
    decide
  have task_zero : forked.taskArray 0 = smallImage.initTask :=
    (congrFun made.forked.taskArray 0).trans (withTask_old _ _ Nat.zero_lt_one)
  have task_one : forked.taskArray 1 = kernelAdr index :=
    (congrFun made.forked.taskArray 1).trans (withTask_new _ _)
  have kept : ∀ {field : Field}, field.InPage →
      field.get forked.memory (forked.taskArray 0) = 0 := fun within => by
    rw [task_zero]
    exact (within.get_congr (by decide) (made.forked.other_tasks Nat.zero_lt_one)).trans (zero _)
  obtain ⟨mm, frame, _, _, second, inv, added⟩ := @SpacesInv.allocate_page _ _ _ inv 0 0
    known.1 (by omega) (kept (by decide)) (kept (by decide))
  have added_left := added.left
  have few := tablesNeeded_le forked.memory (forked.taskArray 0) 0
  rw [Kernel.memory] at few
  have range := inv.roles.task_range known.2
  have child : ∀ {field : Field}, field.InPage → field.get mm.memory (forked.taskArray 1) =
      field.get forked.memory (forked.taskArray 1) := fun within =>
    within.get_congr range.2 (added.other_tasks known.2 (by decide))
  obtain ⟨final, other, _, _, third, inv, more⟩ := @SpacesInv.allocate_page _ _ _ inv 1 0
    known.2 (by dsimp only; omega)
    ((child (by decide)).trans (by rw [task_one, made.userpages, forkUsers, if_pos (by decide)]))
    ((child (by decide)).trans (by rw [task_one, made.kernelpages, forkTables, if_pos (by decide)]))
  have reached := added.walks known.1 (length_vaPath 0)
  rw [if_pos ⟨rfl, rfl⟩] at reached
  have still := more.walks known.1 (length_vaPath 0)
  rw [if_neg (by decide), reached] at still
  have own := more.walks known.2 (length_vaPath 0)
  rw [if_pos ⟨rfl, rfl⟩] at own
  have run := ((Relation.ReflTransGen.single first).tail second).tail third
  obtain ⟨unique, apart, -⟩ := address_spaces_isolated atBoot_bootKernel run
  refine ⟨_, pageAt frame, pageAt other, run, still, own, fun same => ?_, fun role used =>
    unique used (.user known.1 (length_vaPath 0) still)⟩
  rw [← same] at own
  exact apart known.1 known.2 Nat.zero_ne_one (le_of_eq (length_vaPath 0))
    (le_of_eq (length_vaPath 0)) still own

end PellOs
