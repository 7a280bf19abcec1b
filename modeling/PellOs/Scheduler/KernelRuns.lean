import PellOs.Mm.AllocationOrder
import PellOs.Scheduler.ForkRoles

/-!
# Runs of the kernel's memory functions

Forks, user pages, page faults and task switches in any order, from the state in which `main` has
taken the pages of the kernel heap.  While pages are left and the tasks keep to their arrays, every
page in use has one role.
-/

namespace PellOs

/-! ## Calls -/

/-- A call that can take pages, or a task switch. -/
inductive KernelCall
  | fork (cloneFlags fn args : Nat)
  | allocate (pid virtAdr : Nat)
  | abort (addr esr : Nat)
  | switch (pid : Nat)

/-- One call. -/
inductive KernelStep (image : Image) : KernelCall → Kernel → Kernel → Prop
  | fork {kernel after : Kernel} {cloneFlags fn args pid : Nat}
      (result : kernelFork image kernel cloneFlags fn args = some (after, pid)) :
      KernelStep image (.fork cloneFlags fn args) kernel after
  | allocate {kernel : Kernel} {pid virtAdr : Nat} (known : pid < kernel.nTasks) :
      KernelStep image (.allocate pid virtAdr) kernel
        { kernel with mm := (allocateUserPage kernel.mm (kernel.taskArray pid) virtAdr).1 }
  | abort {kernel : Kernel} {addr esr : Nat} :
      KernelStep image (.abort addr esr) kernel (doMemAbort kernel addr esr).1
  | switch {kernel : Kernel} {pid : Nat} (known : pid < kernel.nTasks) :
      KernelStep image (.switch pid) kernel (switchTo kernel (kernel.taskArray pid))

/-- The task for which a call maps a page, and the address. -/
def KernelCall.target (kernel : Kernel) : KernelCall → Option (Nat × Nat)
  | .fork _ _ _ => none
  | .allocate pid virtAdr => some (kernel.taskArray pid, virtAdr)
  | .abort addr esr =>
      if esr &&& 63 &&& 60 = 4 then some (kernel.current, addr &&& pageMask) else none
  | .switch _ => none

/-- Pages that a call takes. -/
def KernelCall.pages (kernel : Kernel) : KernelCall → Nat
  | .fork cloneFlags _ _ => forkPages kernel cloneFlags
  | call =>
      match call.target kernel with
      | some (task, virtAdr) => tablesNeeded kernel.memory task virtAdr + 1
      | none => 0

/-- A call finds every page that it takes. -/
def KernelCall.Supplied (kernel : Kernel) (call : KernelCall) : Prop :=
  call.pages kernel ≤ freeCount kernel.mm

/-- The arrays have room for what a call records. -/
def KernelCall.Fits (kernel : Kernel) : KernelCall → Prop
  | .fork cloneFlags _ _ => kernel.nTasks < nTasksMax ∧
      forkTables kernel cloneFlags < maxProcessPages
  | call => ∀ {task virtAdr}, call.target kernel = some (task, virtAdr) →
      Task.userpagesCount.get kernel.memory task < maxProcessPages ∧
        Task.kernelpagesCount.get kernel.memory task + tablesNeeded kernel.memory task virtAdr <
          maxProcessPages

theorem KernelCall.fits_iff {kernel : Kernel} {call : KernelCall} {task virtAdr : Nat}
    (target : call.target kernel = some (task, virtAdr))
    (not_fork : ∀ cloneFlags fn args, call ≠ .fork cloneFlags fn args) :
    call.Fits kernel ↔ Task.userpagesCount.get kernel.memory task < maxProcessPages ∧
      Task.kernelpagesCount.get kernel.memory task + tablesNeeded kernel.memory task virtAdr <
        maxProcessPages := by
  have same : call.Fits kernel ↔ ∀ {task virtAdr}, call.target kernel = some (task, virtAdr) →
      Task.userpagesCount.get kernel.memory task < maxProcessPages ∧
        Task.kernelpagesCount.get kernel.memory task + tablesNeeded kernel.memory task virtAdr <
          maxProcessPages := by
    cases call with
    | fork cloneFlags fn args => exact absurd rfl (not_fork cloneFlags fn args)
    | allocate => exact Iff.rfl
    | abort => exact Iff.rfl
    | switch => exact Iff.rfl
  rw [same]
  constructor
  · intro fits
    exact fits target
  · intro both other address other_target
    obtain ⟨rfl, rfl⟩ := Prod.mk.inj (Option.some.inj (target.symm.trans other_target))
    exact both

/-- The state when `main` has taken the pages of the heap. -/
structure AtBoot (image : Image) (kernel : Kernel) : Prop where
  pages : ∃ memory, kernel.mm.pageBitmap =
    (afterCalls kernelHeapSizePages ⟨memory, fun _ => 0⟩).pageBitmap
  nTasks : kernel.nTasks = 1
  task : kernel.taskArray 0 = image.initTask
  current : kernel.current = image.initTask
  directory : Task.pagedirectory.get kernel.memory image.initTask = 0
  userpages : Task.userpagesCount.get kernel.memory image.initTask = 0
  kernelpages : Task.kernelpagesCount.get kernel.memory image.initTask = 0

/-! ## Invariant -/

/-- Neither the task table nor the page lists of a task have overflowed. -/
structure WithinLimits (kernel : Kernel) : Prop where
  tasks : kernel.nTasks ≤ nTasksMax
  users : ∀ {pid}, pid < kernel.nTasks →
    Task.userpagesCount.get kernel.memory (kernel.taskArray pid) ≤ maxProcessPages
  tables : ∀ {pid}, pid < kernel.nTasks →
    Task.kernelpagesCount.get kernel.memory (kernel.taskArray pid) < maxProcessPages

/-- Every page in use has a role, and the pages of the heap have kept theirs. -/
structure SpacesInv (image : Image) (kernel : Kernel) (owner : Nat → Option PageRole) : Prop where
  roles : PageRoles image kernel.mm kernel.taskArray kernel.nTasks owner
  heap : ∀ {index}, index < kernelHeapSizePages → owner index = some .heap
  current : ∃ pid, pid < kernel.nTasks ∧ kernel.current = kernel.taskArray pid
  limits : WithinLimits kernel

theorem AtBoot.isFree_iff {image : Image} {kernel : Kernel} (booted : AtBoot image kernel)
    (index : Nat) : IsFree kernel.mm index ↔ kernelHeapSizePages ≤ index := by
  obtain ⟨memory, same⟩ := booted.pages
  rw [IsFree, same, @pageBitmap_afterCalls ⟨memory, fun _ => 0⟩ 0 kernelHeapSizePages
    (fun _ => rfl) (by decide)]
  split_ifs with low
  · simp only [Nat.zero_add] at low
    simp [low]
  · simp only [Nat.zero_add] at low
    simp [Nat.le_of_not_lt low]

theorem AtBoot.freeCount_eq {image : Image} {kernel : Kernel} (booted : AtBoot image kernel) :
    freeCount kernel.mm = mmNumOfPages - kernelHeapSizePages := by
  have left : (Finset.range mmNumOfPages).filter (IsFree kernel.mm) =
      Finset.Ico kernelHeapSizePages mmNumOfPages := by
    ext index
    rw [Finset.mem_filter, Finset.mem_range, booted.isFree_iff, Finset.mem_Ico, and_comm]
  rw [freeCount, left, Nat.card_Ico]

theorem AtBoot.emptyTasks {image : Image} {kernel : Kernel} (booted : AtBoot image kernel) :
    EmptyTasks image kernel.mm kernel.taskArray kernel.nTasks := by
  have only : ∀ {pid}, pid < kernel.nTasks → pid = 0 := by
    intro pid known
    rw [booted.nTasks] at known
    omega
  constructor
  · intro pid known
    obtain rfl := only known
    exact Or.inl ⟨rfl, booted.task⟩
  · intro pid other known other_known _
    rw [only known, only other_known]
  · intro pid known
    rw [only known, booted.task]
    exact booted.directory
  · intro pid known
    rw [only known, booted.task]
    exact booted.userpages
  · intro pid known
    rw [only known, booted.task]
    exact booted.kernelpages

theorem AtBoot.spaces {image : Image} {kernel : Kernel} (booted : AtBoot image kernel) :
    SpacesInv image kernel (emptyOwner kernel.mm kernel.taskArray kernel.nTasks) where
  roles := booted.emptyTasks.roles
  heap := by
    intro index low
    have inside : index < mmNumOfPages := lt_of_lt_of_le low (by decide)
    have taken : ¬IsFree kernel.mm index := by
      rw [booted.isFree_iff]
      omega
    rw [emptyOwner, if_pos ⟨inside, taken⟩, dif_neg]
    rintro ⟨pid, known, later, _⟩
    rw [booted.nTasks] at known
    omega
  current := ⟨0, by rw [booted.nTasks]; decide, by rw [booted.current, booted.task]⟩
  limits := by
    refine ⟨by rw [booted.nTasks]; decide, ?_, ?_⟩
    · intro pid known
      rw [Kernel.memory, booted.emptyTasks.userpages known]
      decide
    · intro pid known
      rw [Kernel.memory, booted.emptyTasks.kernelpages known]
      decide

/-- The first task running without pages of its own, whichever pages above the heap are left. -/
theorem onePageKernel_spaces {bitmap : Nat → UInt8}
    (heap : ∀ index, index < kernelHeapSizePages → ¬IsFree ⟨blankMm.memory, bitmap⟩ index) :
    ∃ owner, SpacesInv smallImage (onePageKernel ⟨blankMm.memory, bitmap⟩) owner := by
  have zero : ∀ field : Field, field.get (onePageKernel ⟨blankMm.memory, bitmap⟩).memory
      smallImage.initTask = 0 := fun field => blank_field field _
  have empty : EmptyTasks smallImage ⟨blankMm.memory, bitmap⟩ (fun _ => smallImage.initTask) 1 :=
    { placed := fun known => Or.inl ⟨by omega, rfl⟩
      distinct := fun known other_known _ => by omega
      directory := fun _ => zero _
      userpages := fun _ => zero _
      kernelpages := fun _ => zero _ }
  refine ⟨emptyOwner ⟨blankMm.memory, bitmap⟩ (fun _ => smallImage.initTask) 1, empty.roles, ?_,
    ⟨0, Nat.zero_lt_one, rfl⟩, show 1 ≤ nTasksMax by decide, ?_, ?_⟩
  · intro index low
    have inside : index < mmNumOfPages := lt_of_lt_of_le low (by decide)
    rw [emptyOwner, if_pos ⟨inside, heap index low⟩, dif_neg]
    rintro ⟨pid, known, later, _⟩
    omega
  · intro pid _
    exact (zero _).trans_le (Nat.zero_le _)
  · intro pid _
    exact (zero _).trans_lt (by decide)

theorem pageBitmap_onePageKernel (memory : Memory) (bitmap : Nat → UInt8) :
    (onePageKernel ⟨memory, bitmap⟩).mm.pageBitmap = bitmap := rfl

/-- The first task running after `main` has taken the pages of the heap, all memory zero. -/
def bootKernel : Kernel :=
  onePageKernel ⟨blankMm.memory, (afterCalls kernelHeapSizePages blankMm).pageBitmap⟩

theorem bootKernel_field (field : Field) (task : Nat) : field.get bootKernel.memory task = 0 :=
  blank_field field task

theorem atBoot_bootKernel : AtBoot smallImage bootKernel where
  pages := ⟨blankMm.memory, pageBitmap_onePageKernel _ _⟩
  nTasks := rfl
  task := rfl
  current := rfl
  directory := bootKernel_field _ _
  userpages := bootKernel_field _ _
  kernelpages := bootKernel_field _ _

theorem bootKernel_allocate :
    (KernelCall.allocate 0 0).Supplied bootKernel ∧ (KernelCall.allocate 0 0).Fits bootKernel := by
  have needed : tablesNeeded bootKernel.memory (bootKernel.taskArray 0) 0 = 4 := by
    rw [tablesNeeded, if_pos (bootKernel_field _ _)]
  constructor
  · change tablesNeeded bootKernel.memory (bootKernel.taskArray 0) 0 + 1 ≤ freeCount bootKernel.mm
    rw [needed, atBoot_bootKernel.freeCount_eq]
    decide
  · intro task virtAdr target
    obtain ⟨rfl, rfl⟩ := Prod.mk.inj (Option.some.inj target)
    rw [needed, bootKernel_field, bootKernel_field]
    decide

/-! ## Steps -/

section Steps

variable {image : Image} {kernel after : Kernel} {owner : Nat → Option PageRole}
  {call : KernelCall}

/-- `cpu_switch_to` writes to the `cpu_context` of the old task only. -/
theorem cpuSwitchTo_outside (kernel : Kernel) {prev next address : Nat}
    (fits : prev + 2 * pageSize ≤ wordSize) (off : address < prev ∨ prev + 104 ≤ address) :
    (cpuSwitchTo kernel prev next).memory address = kernel.memory address := by
  have outside : ∀ (indices : List Nat) (memory : Memory), (∀ index ∈ indices, index < 13) →
      indices.foldl (fun memory index =>
        (Task.cpuContext index).set memory prev (kernel.registers index)) memory address =
          memory address := by
    intro indices
    induction indices with
    | nil => exact fun _ _ => rfl
    | cons index indices ih =>
        intro memory bounds
        have bound := bounds index List.mem_cons_self
        simp only [pageSize] at fits
        rw [List.foldl_cons, ih _ fun other member => bounds other (List.mem_cons_of_mem _ member),
          Field.set_outside (by simp only [Task.cpuContext]; omega)
            (by simp only [Task.cpuContext]; omega)]
  exact outside _ _ fun index member => List.mem_range.mp member

/-- What a call does, apart from the case in which it changes nothing. -/
theorem SpacesInv.step_cases (inv : SpacesInv image kernel owner)
    (step : KernelStep image call kernel after) :
    (∃ cloneFlags fn args pid, call = .fork cloneFlags fn args ∧
      kernelFork image kernel cloneFlags fn args = some (after, pid)) ∨
    (∃ pid virtAdr frame mm, pid < kernel.nTasks ∧
      call.target kernel = some (kernel.taskArray pid, virtAdr) ∧
      (call.Fits kernel ↔
        Task.userpagesCount.get kernel.memory (kernel.taskArray pid) < maxProcessPages ∧
        Task.kernelpagesCount.get kernel.memory (kernel.taskArray pid) +
          tablesNeeded kernel.memory (kernel.taskArray pid) virtAdr < maxProcessPages) ∧
      call.pages kernel = tablesNeeded kernel.memory (kernel.taskArray pid) virtAdr + 1 ∧
      frame < mmNumOfPages ∧ IsFree kernel.mm frame ∧
      mapPage (takePage kernel.mm frame) (kernel.taskArray pid) virtAdr (pageAt frame) = mm ∧
      after = { kernel with mm }) ∨
    (∃ pid, pid < kernel.nTasks ∧ call = .switch pid ∧
      after = switchTo kernel (kernel.taskArray pid)) ∨
    after = kernel ∧ (call.target kernel = none ∧ call.Fits kernel ∨ ¬call.Supplied kernel) := by
  cases step with
  | fork result => exact Or.inl ⟨_, _, _, _, rfl, result⟩
  | switch known => exact Or.inr (Or.inr (Or.inl ⟨_, known, rfl, rfl⟩))
  | @allocate _ pid virtAdr known =>
      have pages : (KernelCall.allocate pid virtAdr).pages kernel =
          tablesNeeded kernel.memory (kernel.taskArray pid) virtAdr + 1 := rfl
      rcases Nat.eq_zero_or_pos (freeCount kernel.mm) with none_left | left
      · refine Or.inr (Or.inr (Or.inr ⟨?_, Or.inr fun supplied => ?_⟩))
        · unfold allocateUserPage
          rw [getNextFreePage_of_zero none_left]
          rfl
        · rw [KernelCall.Supplied, none_left, pages] at supplied
          exact absurd supplied (Nat.not_succ_le_zero _)
      · obtain ⟨frame, inside, free, taken⟩ := getNextFreePage_of_pos left
        refine Or.inr (Or.inl ⟨_, _, frame, _, known, rfl, KernelCall.fits_iff rfl (by simp), pages,
          inside, free, rfl, ?_⟩)
        unfold allocateUserPage
        rw [taken]
        simp only [pageAt_ne_zero, if_false]
  | @abort _ addr esr =>
      obtain ⟨pid, known, current⟩ := inv.current
      by_cases fault : esr &&& 63 &&& 60 = 4
      · have target : (KernelCall.abort addr esr).target kernel =
            some (kernel.taskArray pid, addr &&& pageMask) := by
          rw [KernelCall.target, if_pos fault, current]
        have pages : (KernelCall.abort addr esr).pages kernel =
            tablesNeeded kernel.memory (kernel.taskArray pid) (addr &&& pageMask) + 1 := by
          simp only [KernelCall.pages, target]
        rcases Nat.eq_zero_or_pos (freeCount kernel.mm) with none_left | left
        · refine Or.inr (Or.inr (Or.inr ⟨?_, Or.inr fun supplied => ?_⟩))
          · simp only [doMemAbort, if_pos fault, getNextFreePage_of_zero none_left, if_true]
          · rw [KernelCall.Supplied, none_left, pages] at supplied
            exact absurd supplied (Nat.not_succ_le_zero _)
        · obtain ⟨frame, inside, free, taken⟩ := getNextFreePage_of_pos left
          refine Or.inr (Or.inl ⟨_, _, frame, _, known, target,
            KernelCall.fits_iff target (by simp), pages, inside, free, rfl, ?_⟩)
          simp only [doMemAbort, if_pos fault, taken, pageAt_ne_zero, if_false, current]
      · have target : (KernelCall.abort addr esr).target kernel = none := by
          rw [KernelCall.target, if_neg fault]
        refine Or.inr (Or.inr (Or.inr ⟨?_, Or.inl ⟨target, fun {task virtAdr} found => ?_⟩⟩))
        · simp only [doMemAbort, if_neg fault]
        · rw [target] at found
          cases found

theorem SpacesInv.edit (inv : SpacesInv image kernel owner) {pid : Nat}
    (known : pid < kernel.nTasks)
    (mm : after.mm = kernel.mm.setMemory after.memory) (tasks : after.taskArray = kernel.taskArray)
    (count : after.nTasks = kernel.nTasks)
    (current : ∃ pid, pid < kernel.nTasks ∧ after.current = kernel.taskArray pid)
    (confined : ∀ address, address < kernel.taskArray pid ∨ kernel.taskArray pid + 152 ≤ address →
      after.memory address = kernel.memory address) : SpacesInv image after owner := by
  obtain ⟨roles, -⟩ := @PageRoles.edit_task _ _ _ _ _ inv.roles after.memory _ known (by
    intro address off
    exact confined address (by simp only [pageSize] at off; omega))
  have same : ∀ {other}, other < kernel.nTasks → ∀ {field : Field}, 152 ≤ field.offset →
      field.InPage → field.get after.memory (kernel.taskArray other) =
        field.get kernel.memory (kernel.taskArray other) := by
    intro other other_known field low inside
    have range := inv.roles.task_range other_known
    apply Field.get_congr (inside.fits range.2)
    intro address lower upper
    simp only [Field.InPage, pageSize] at inside
    by_cases here : other = pid
    · subst here
      exact confined address (by omega)
    · have apart := inv.roles.tasks_apart other_known known here
      simp only [pageSize] at apart
      exact confined address (by omega)
  refine ⟨by rw [mm, tasks, count]; exact roles, inv.heap, by rw [tasks, count]; exact current, ?_⟩
  refine ⟨by rw [count]; exact inv.limits.tasks, ?_, ?_⟩
  · rw [tasks, count]
    intro other other_known
    rw [same other_known (by decide) (by decide)]
    exact inv.limits.users other_known
  · rw [tasks, count]
    intro other other_known
    rw [same other_known (by decide) (by decide)]
    exact inv.limits.tables other_known

theorem SpacesInv.preemptDisable (inv : SpacesInv image kernel owner) :
    SpacesInv image (preemptDisable kernel) owner := by
  obtain ⟨pid, known, current⟩ := inv.current
  have range := inv.roles.task_range known
  refine inv.edit known rfl rfl rfl inv.current ?_
  intro address off
  rw [← current] at range off
  exact Field.set_outside (Field.InPage.fits (by decide) range.2)
    (by simp only [Task.preemptCount]; omega)

theorem SpacesInv.switch (inv : SpacesInv image kernel owner) {pid : Nat}
    (known : pid < kernel.nTasks) :
    SpacesInv image (switchTo kernel (kernel.taskArray pid)) owner := by
  obtain ⟨prev, prev_known, current⟩ := inv.current
  have range := inv.roles.task_range prev_known
  rw [switchTo]
  split_ifs
  · exact inv
  · refine inv.edit prev_known rfl rfl rfl ⟨pid, known, rfl⟩ ?_
    intro address off
    rw [← current] at range off
    exact cpuSwitchTo_outside _ range.2 (by omega)

theorem SpacesInv.map (inv : SpacesInv image kernel owner) {pid virtAdr frame : Nat} {mm : Mm}
    (known : pid < kernel.nTasks) (inside : frame < mmNumOfPages) (free : IsFree kernel.mm frame)
    (enough : tablesNeeded kernel.memory (kernel.taskArray pid) virtAdr + 1 ≤ freeCount kernel.mm)
    (room : Task.userpagesCount.get kernel.memory (kernel.taskArray pid) < maxProcessPages)
    (fits : Task.kernelpagesCount.get kernel.memory (kernel.taskArray pid) +
      tablesNeeded kernel.memory (kernel.taskArray pid) virtAdr < maxProcessPages)
    (mapped : mapPage (takePage kernel.mm frame) (kernel.taskArray pid) virtAdr (pageAt frame) =
      mm) :
    ∃ grown, PageAdded image kernel.taskArray kernel.nTasks pid virtAdr kernel.mm owner frame mm
        grown ∧ SpacesInv image { kernel with mm } grown := by
  have few := inv.limits.tables known
  simp only [maxProcessPages] at few fits
  rw [Kernel.memory] at few enough fits room
  obtain ⟨grown, added⟩ := @mapPage_takePage_spec _ _ _ _ virtAdr _ _ _ inv.roles known inside free
    enough (by omega) room
  rw [mapped] at added
  have other_field : ∀ {other}, other < kernel.nTasks → other ≠ pid → ∀ {field : Field},
      field.InPage → field.get mm.memory (kernel.taskArray other) =
        field.get kernel.mm.memory (kernel.taskArray other) := by
    intro other other_known differ field within
    exact within.get_congr (inv.roles.task_range other_known).2
      (added.other_tasks other_known differ)
  refine ⟨grown, added, added.roles, fun low => added.kept (inv.heap low), inv.current,
    inv.limits.tasks, ?_, ?_⟩
  · intro other other_known
    by_cases same : other = pid
    · subst same
      rw [Kernel.memory, added.userpages]
      omega
    · rw [Kernel.memory, other_field other_known same (by decide)]
      exact inv.limits.users other_known
  · intro other other_known
    by_cases same : other = pid
    · subst same
      rw [Kernel.memory, added.kernelpages, maxProcessPages]
      omega
    · rw [Kernel.memory, other_field other_known same (by decide)]
      exact inv.limits.tables other_known

theorem SpacesInv.fork (inv : SpacesInv image kernel owner) {index cloneFlags : Nat}
    {grown : Nat → Option PageRole} (room : kernel.nTasks < nTasksMax)
    (fits : forkTables kernel cloneFlags < maxProcessPages)
    (made : ForkMade image kernel owner index cloneFlags after grown) :
    SpacesInv image after grown := by
  obtain ⟨pid, known, current⟩ := inv.current
  have forked := made.forked
  have child : after.taskArray kernel.nTasks = kernelAdr index := by
    rw [forked.taskArray, withTask_new]
  have old : ∀ {other}, other < kernel.nTasks →
      after.taskArray other = kernel.taskArray other := by
    intro other other_known
    rw [forked.taskArray, withTask_old kernel index other_known]
  have same : ∀ {other}, other < kernel.nTasks → ∀ {field : Field}, field.InPage →
      field.get after.memory (kernel.taskArray other) =
        field.get kernel.memory (kernel.taskArray other) := by
    intro other other_known field within
    exact within.get_congr (inv.roles.task_range other_known).2 (forked.other_tasks other_known)
  refine ⟨forked.roles, fun low => forked.kept (inv.heap low),
    ⟨pid, by rw [forked.nTasks]; omega, by rw [forked.current, old known, current]⟩, ?_, ?_, ?_⟩
  · rw [forked.nTasks]
    exact room
  · rw [forked.nTasks]
    intro other other_known
    by_cases new : other = kernel.nTasks
    · rw [new, child, made.userpages, forkUsers]
      split_ifs
      · exact Nat.zero_le _
      · rw [current]
        exact inv.limits.users known
    · rw [old (by omega), same (by omega) (by decide)]
      exact inv.limits.users (by omega)
  · rw [forked.nTasks]
    intro other other_known
    by_cases new : other = kernel.nTasks
    · rw [new, child, made.kernelpages]
      exact fits
    · rw [old (by omega), same (by omega) (by decide)]
      exact inv.limits.tables (by omega)

/-- One call that finds its pages, or none at all, and has room for what it records. -/
theorem SpacesInv.step (inv : SpacesInv image kernel owner)
    (step : KernelStep image call kernel after)
    (supplied : freeCount kernel.mm = 0 ∨ call.Supplied kernel ∧ call.Fits kernel) :
    ∃ grown, SpacesInv image after grown ∧
      ∀ {index role}, owner index = some role → grown index = some role := by
  rcases inv.step_cases step with ⟨cloneFlags, fn, args, new, rfl, result⟩ |
    ⟨pid, virtAdr, frame, mm, known, -, fits, pages, inside, free, mapped, rfl⟩ |
    ⟨pid, known, -, rfl⟩ | ⟨rfl, -⟩
  · rcases supplied with none_left | ⟨enough, room, fits⟩
    · rw [kernelFork_full none_left] at result
      obtain ⟨rfl, -⟩ := Prod.mk.inj (Option.some.inj result)
      exact ⟨owner, inv.preemptDisable, id⟩
    · obtain ⟨pid, known, current⟩ := inv.current
      obtain ⟨index, grown, -, made⟩ := kernelFork_made inv.roles known current room
        (by rw [current]; exact inv.limits.users known) enough result
      exact ⟨grown, inv.fork room fits made, made.forked.kept⟩
  · rcases supplied with none_left | ⟨enough, room⟩
    · exact absurd free ((freeCount_eq_zero_iff _).mp none_left frame inside)
    · rw [KernelCall.Supplied, pages] at enough
      obtain ⟨grown, added, final⟩ := inv.map known inside free enough (fits.mp room).1
        (fits.mp room).2 mapped
      exact ⟨grown, final, added.kept⟩
  · exact ⟨owner, inv.switch known, id⟩
  · exact ⟨owner, inv, id⟩

/-- A call that finds its pages and overflows neither the task table nor a page list has room for
what it records. -/
theorem SpacesInv.fits_of_limits (inv : SpacesInv image kernel owner)
    (enough : call.Supplied kernel) (step : KernelStep image call kernel after)
    (limits : WithinLimits after) : call.Fits kernel := by
  rcases inv.step_cases step with ⟨cloneFlags, fn, args, new, rfl, result⟩ |
    ⟨pid, virtAdr, frame, mm, known, -, fits, pages, inside, free, mapped, rfl⟩ |
    ⟨pid, known, rfl, -⟩ | ⟨-, ⟨-, fits⟩ | starved⟩
  · obtain ⟨pid, known, current⟩ := inv.current
    have tasks := inv.limits.tasks
    have later := limits.tasks
    have room : kernel.nTasks < nTasksMax := by
      rw [kernelFork_nTasks result (lt_of_lt_of_le Nat.zero_lt_one
        ((one_le_forkPages kernel cloneFlags).trans enough))] at later
      simp only [nTasksMax] at tasks later ⊢
      omega
    obtain ⟨index, grown, -, made⟩ := kernelFork_made inv.roles known current room
      (by rw [current]; exact inv.limits.users known) enough result
    have tables := limits.tables (by rw [made.forked.nTasks]; omega : kernel.nTasks < after.nTasks)
    rw [made.forked.taskArray, withTask_new, made.kernelpages] at tables
    exact ⟨room, tables⟩
  · rw [KernelCall.Supplied, pages] at enough
    have few := inv.limits.tables known
    have later := limits.users known
    have tables := limits.tables known
    have left := freeCount_takePage inside free
    simp only [maxProcessPages] at few
    rw [Kernel.memory] at fits enough few later tables
    have counted := @userpagesCount_mapPage _ _ _ _ virtAdr frame _ _
      (@PageRoles.take _ _ _ _ _ inv.roles _ .heap inside free (by simp)) known inside
      (by rw [tablesNeeded_takePage inv.roles known inside free]; omega)
      (by rw [inv.roles.take_field known inside free (by decide)]; omega)
      (by rw [inv.roles.take_field known inside free (by decide)]; exact inv.limits.users known)
    rw [inv.roles.take_field known inside free (by decide), mapped] at counted
    rw [counted] at later
    have room : Task.userpagesCount.get kernel.mm.memory (kernel.taskArray pid) <
        maxProcessPages := by omega
    obtain ⟨grown, added⟩ := @mapPage_takePage_spec _ _ _ _ virtAdr _ _ _ inv.roles known inside
      free enough (by omega) room
    rw [mapped] at added
    rw [added.kernelpages] at tables
    exact fits.mpr ⟨room, tables⟩
  · intro task virtAdr target
    cases target
  · exact fits
  · exact absurd enough starved

end Steps

end PellOs
