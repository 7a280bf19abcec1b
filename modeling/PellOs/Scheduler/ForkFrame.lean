import PellOs.Scheduler.FaultResolution
import PellOs.Scheduler.UserRecords

/-!
# What a fork leaves in memory

A fork writes nothing into the kernel image but the initial task.  A user process starts with the
saved registers of its parent, where only `x0` differs, and with zero in `x19`.
-/

namespace PellOs

/-- Bytes of the kernel image outside the initial task. -/
structure InImage (image : Image) (address : Nat) : Prop where
  low : address < virtualAddressStart + lowMemory
  apart : image.initTask + taskSize ≤ address ∨ address < image.initTask

section Pages

variable {image : Image} {tasks : Nat → Nat} {count pid virtAdr frame address : Nat} {mm after : Mm}
  {owner : Nat → Option PageRole}

theorem InImage.below (inside : InImage image address) {index : Nat}
    (known : index < mmNumOfPages) : address < kernelAdr index := by
  have range := kernelAdr_range known
  have low := inside.low
  omega

theorem InImage.off_task (inside : InImage image address)
    (roles : PageRoles image mm tasks count owner) (known : pid < count) :
    address < tasks pid ∨ tasks pid + pageSize ≤ address := by
  have apart := inside.apart
  rcases roles.task known with ⟨-, same⟩ | ⟨-, index, same, owned⟩
  · rw [same]
    simp only [taskSize, pageSize] at apart ⊢
    omega
  · rw [same]
    exact Or.inl (inside.below (roles.inside owned))

theorem allocateUserPage_image (inside : InImage image address)
    (roles : PageRoles image mm tasks count owner) (known : pid < count)
    (enough : tablesNeeded mm.memory (tasks pid) virtAdr + 1 ≤ freeCount mm)
    (small : Task.kernelpagesCount.get mm.memory (tasks pid) + 4 ≤ 128)
    (room : Task.userpagesCount.get mm.memory (tasks pid) < maxProcessPages)
    (call : allocateUserPage mm (tasks pid) virtAdr = (after, kernelAdr frame)) :
    after.memory address = mm.memory address := by
  obtain ⟨page, bound, free, found⟩ := getNextFreePage_of_pos (by omega : 0 < freeCount mm)
  have left := freeCount_takePage bound free
  have needed := tablesNeeded_le mm.memory (tasks pid) virtAdr
  have taken := @PageRoles.take _ _ _ _ _ roles _ (.user pid (vaPath virtAdr)) bound free (by simp)
  have tables := @PageRoles.take_field _ _ _ _ _ roles _ _ known bound free Task.kernelpagesCount
    (by decide)
  have users := @PageRoles.take_field _ _ _ _ _ roles _ _ known bound free Task.userpagesCount
    (by decide)
  obtain ⟨grown, entered, -⟩ := @mapPage_entered _ _ _ _ virtAdr _ _ _ taken known
    (Function.update_self ..)
    (by rw [tablesNeeded_takePage roles known bound free]; omega)
    (by rw [tables]; exact small)
    (by rw [users]; exact room.le)
  have fresh : FreshPageEntered image tasks count pid virtAdr mm owner page
      (mapPage (takePage mm page) (tasks pid) virtAdr (pageAt page)) grown :=
    ⟨roles, known, bound, free, room.le, by omega, entered⟩
  unfold allocateUserPage at call
  rw [found] at call
  simp only [pageAt_ne_zero, if_false] at call
  obtain ⟨rfl, -⟩ := Prod.mk.inj call
  exact fresh.image_kept inside.low inside.apart

end Pages

section Copied

variable {image : Image} {tasks : Nat → Nat} {child parent copied fuel ttbr0 address : Nat}
  {start mm after : Mm} {owner grown : Nat → Option PageRole} {status : Int}

theorem copyPages_image (inside : InImage image address)
    (taken : PagesTaken image tasks child parent start owner copied mm grown)
    (parent_known : parent < child)
    (few : Task.userpagesCount.get start.memory (tasks parent) ≤ maxProcessPages)
    (enough : Task.userpagesCount.get start.memory (tasks parent) +
      (recordedTables start.memory (tasks parent)
        (Task.userpagesCount.get start.memory (tasks parent))).card ≤ freeCount start)
    (begun : copied ≤ Task.userpagesCount.get start.memory (tasks parent))
    (result : copyPages (tasks parent) (tasks child) ttbr0 fuel copied mm =
      some (after, status)) : after.memory address = mm.memory address := by
  induction fuel generalizing copied mm grown with
  | zero => cases result
  | succ fuel ih =>
      by_cases more : copied < Task.userpagesCount.get start.memory (tasks parent)
      · obtain ⟨frame, mapped, next, memory, call, added, confined, rest⟩ :=
          copyPages_next taken parent_known few enough more result
        have room : copied < maxProcessPages := lt_of_lt_of_le more few
        obtain ⟨pages, tables, users⟩ := taken.next_fits few enough more
        have here := allocateUserPage_image inside taken.roles (Nat.lt_succ_self child) pages tables
          users call
        rw [ih (taken.extend room added confined) more rest, Mm.memory_setMemory,
          confined address (Or.inl (inside.below added.fresh.1)), here]
      · have same_count := @PagesTaken.parent_field _ _ _ _ _ _ _ _ _ taken parent_known
          Task.userpagesCount (by decide)
        rw [copyPages, same_count, if_neg (fun both => more both.2)] at result
        obtain ⟨rfl, -⟩ := Prod.mk.inj (Option.some.inj result)
        rfl

end Copied

section Fork

variable {image : Image} {kernel after : Kernel} {owner : Nat → Option PageRole}
  {parent cloneFlags fn args pid : Nat}

theorem kernelFork_image (roles : PageRoles image kernel.mm kernel.taskArray kernel.nTasks owner)
    (known : parent < kernel.nTasks) (current : kernel.current = kernel.taskArray parent)
    (few : Task.userpagesCount.get kernel.memory kernel.current ≤ maxProcessPages)
    (enough : forkPages kernel cloneFlags ≤ freeCount kernel.mm)
    (result : kernelFork image kernel cloneFlags fn args = some (after, pid)) {address : Nat}
    (inside : InImage image address) : after.memory address = kernel.memory address := by
  have off_current := inside.off_task roles known
  rw [← current] at off_current
  simp only [pageSize] at off_current
  have finish {index : Nat} {mm : Mm} {grown : Nat → Option PageRole}
      (fork : ForkBegun image kernel owner index (takePage (preemptDisable kernel).mm index))
      (filled : ForkFilled image kernel owner index (takePage (preemptDisable kernel).mm index) mm
        grown)
      (same : mm.memory address = (takePage (preemptDisable kernel).mm index).memory address) :
      (forkEnd image kernel mm (kernelAdr index) cloneFlags).memory address =
        kernel.memory address := by
    have below := inside.below fork.fresh.1
    rw [(forkEnd_memory fork filled known current).1 address (by omega) (by omega) (by omega),
      same, fork.outside address (Or.inl below) (by omega)]
  by_cases thread : cloneFlags &&& taskFlagsKernelThread ≠ 0
  · have some_page := one_le_forkPages kernel cloneFlags
    obtain ⟨index, bound, free, call⟩ :=
      getNextFreePage_preemptDisable (by omega : 0 < freeCount kernel.mm)
    have fork := forkBegun roles known current bound free
    obtain ⟨mm, context, rfl, rfl⟩ := kernelFork_result bound call result
    rw [forkContext_thread thread] at context
    obtain rfl := congrArg Kernel.mm (Option.some.inj context)
    refine finish fork (threadFork_filled fork) ?_
    rw [Mm.memory_setMemory]
    exact threadMemory_outside _ (kernelAdr_range bound).2 (Or.inl (inside.below bound))
  · obtain ⟨index, mm, status, grown, parts, rfl⟩ :=
      kernelFork_taken roles known current few thread enough result
    have same_count := @UserForkTaken.fields _ _ _ _ _ _ _ _ parts Task.userpagesCount (by decide)
      (by decide)
    have below := inside.below parts.fork.fresh.1
    have copied := copyPages_image inside parts.start known (by rw [same_count]; exact few)
      parts.enough (Nat.zero_le _) parts.run
    refine finish parts.fork (userFork_filled parts.fork parts.taken) (copied.trans ?_)
    rw [userForkStart, Mm.memory_setMemory]
    exact ptRegsMemory_outside (kernelAdr_range parts.fork.fresh.1).2 (Or.inl (by omega))

/-- A forked task that starts in `ret_from_fork`, with zero in `x19` and with the saved registers of
its parent, where only `x0` is zero. -/
structure UserChild (image : Image) (kernel after : Kernel) (task : Nat) : Prop where
  regs : ∀ offset < sizeofPtRegs, after.memory (task + 3824 + offset) =
    if offset < 8 then 0 else kernel.memory (kernel.current + 3824 + offset)
  x19 : ∀ offset < 8, after.memory (task + offset) = 0
  pc : Task.pc.get after.memory task = image.retFromFork % wordSize
  sp : Task.sp.get after.memory task = getTaskPtRegs task

theorem kernelFork_userChild
    (roles : PageRoles image kernel.mm kernel.taskArray kernel.nTasks owner)
    (known : parent < kernel.nTasks) (current : kernel.current = kernel.taskArray parent)
    (few : Task.userpagesCount.get kernel.memory kernel.current ≤ maxProcessPages)
    (small : cloneFlags < wordSize) (user : ¬cloneFlags &&& taskFlagsKernelThread ≠ 0)
    (enough : forkPages kernel cloneFlags ≤ freeCount kernel.mm)
    (result : kernelFork image kernel cloneFlags fn args = some (after, pid)) :
    UserChild image kernel after (after.taskArray kernel.nTasks) := by
  obtain ⟨index, mm, status, grown, parts, rfl⟩ :=
    kernelFork_taken roles known current few user enough result
  have fork := parts.fork
  have filled := userFork_filled fork parts.taken
  have page := kernelAdr_range fork.fresh.1
  have range := fork.roles.task_range (by omega : parent < _)
  have apart := fork.roles.tasks_apart (by omega : parent < _) (Nat.lt_succ_self _)
    (Nat.ne_of_lt known)
  have own := parts.taken.own_task
  rw [withTask_old kernel index known, ← current] at range apart
  rw [withTask_new] at apart own
  have started := forkFields_started image mm.memory page.2 range.2 apart small
  have kept := @forkEnd_get image kernel mm _ cloneFlags page.2 range.2 apart
  rw [taskArray_forkEnd, Function.update_self]
  simp only [pageSize] at apart own
  refine ⟨?_, ?_, (kept (by decide)).trans started.pc, (kept (by decide)).trans started.sp⟩
  · intro offset inside
    have short := inside
    rw [sizeofPtRegs] at short
    rw [(forkEnd_memory fork filled known current).1 _ (by omega) (by omega) (by omega),
      own _ (by omega) (by omega) (by omega), userForkStart, Mm.memory_setMemory,
      ptRegsMemory_regs page.2 range.2 inside]
    split_ifs
    · rfl
    · exact fork.outside _ (by simp only [pageSize]; omega) (by omega)
  · intro offset inside
    rw [(forkEnd_memory fork filled known current).1 _ (by omega) (by omega) (by omega),
      own _ (by omega) (by omega) (by omega), userForkStart, Mm.memory_setMemory,
      ptRegsMemory_outside page.2 (Or.inl (by omega))]
    exact fork.zero _ (by omega) (by simp only [pageSize]; omega)

end Fork

end PellOs
