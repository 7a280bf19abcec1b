import PellOs.Scheduler.FaultResolution
import PellOs.Scheduler.UserRecords

/-!
# What a task sees

The bytes that a task reads at the addresses of the user half, and what each change of the kernel's
memory does to them: a store to a field of a task nothing, a new page a page of zeros, a store to a
user page just that, a fork a second task with the same bytes.
-/

namespace PellOs

/-- What a task reads at an address of the user half through its page directory. -/
def userView (memory : Memory) (task virtAdr : Nat) : Option UInt8 :=
  if Task.pagedirectory.get memory task = 0 then none
  else readVirtual memory (Task.pagedirectory.get memory task) virtAdr

/-- Two addresses of the user half have the same table indices when they are in the same page. -/
theorem vaPath_eq_iff_page {left right : Nat} (left_user : left < 2 ^ 48)
    (right_user : right < 2 ^ 48) :
    vaPath left = vaPath right ↔ left / pageSize = right / pageSize := by
  rw [vaPath_eq_iff]
  simp only [pageSize]
  omega

theorem linear_address {index offset : Nat} (inside : index < mmNumOfPages)
    (small : offset < pageSize) :
    (pageAt index + offset + virtualAddressStart) % wordSize = kernelAdr index + offset := by
  have range := kernelAdr_range inside
  simp only [kernelAdr, pageSize] at range small ⊢
  rw [Nat.mod_eq_of_lt (by omega)]
  omega

section View

variable {image : Image} {mm after : Mm} {tasks : Nat → Nat} {count pid virtAdr index : Nat}
  {owner grown : Nat → Option PageRole}

theorem userView_unmapped (roles : PageRoles image mm tasks count owner) (known : pid < count)
    (user : virtAdr < 2 ^ 48) (absent : walk mm.memory (tasks pid) (vaPath virtAdr) = none) :
    userView mm.memory (tasks pid) virtAdr = none := by
  rw [userView]
  split_ifs with directory
  · rfl
  · have low : ¬virtualAddressStart ≤ virtAdr := by
      have : 2 ^ 48 ≤ virtualAddressStart := by decide
      omega
    rw [readVirtual, if_neg low, roles.translate_directory known user directory, absent,
      Option.map_none, Option.map_none]

theorem userView_mapped (roles : PageRoles image mm tasks count owner) (known : pid < count)
    (user : virtAdr < 2 ^ 48)
    (reached : walk mm.memory (tasks pid) (vaPath virtAdr) = some (pageAt index)) :
    userView mm.memory (tasks pid) virtAdr =
      some (mm.memory (kernelAdr index + virtAdr % pageSize)) := by
  have directory : Task.pagedirectory.get mm.memory (tasks pid) ≠ 0 := by
    intro absent
    rw [walk, if_pos absent] at reached
    cases reached
  obtain ⟨placed, same, owned⟩ := roles.walk_placed known (length_vaPath _).le reached
  obtain rfl := pageAt_injective same
  have low : ¬virtualAddressStart ≤ virtAdr := by
    have : 2 ^ 48 ≤ virtualAddressStart := by decide
    omega
  rw [userView, if_neg directory, readVirtual, if_neg low,
    roles.translate_directory known user directory, reached]
  simp only [Option.map_some, linear_address (roles.inside owned) (Nat.mod_lt _ (by decide))]

/-- The bytes of a task stay as they are with its mappings and its user pages. -/
theorem userView_congr (roles : PageRoles image mm tasks count owner) (known : pid < count)
    {tasks' : Nat → Nat} {count' : Nat} (after_roles : PageRoles image after tasks' count' grown)
    (after_known : pid < count') (same_task : tasks' pid = tasks pid) (user : virtAdr < 2 ^ 48)
    (walks : walk after.memory (tasks pid) (vaPath virtAdr) =
      walk mm.memory (tasks pid) (vaPath virtAdr))
    (pages : ∀ {index}, owner index = some (.user pid (vaPath virtAdr)) →
      mm.memory.AgreeOn after.memory (kernelAdr index) pageSize) :
    userView after.memory (tasks pid) virtAdr = userView mm.memory (tasks pid) virtAdr := by
  rw [← same_task] at walks ⊢
  cases reached : walk mm.memory (tasks pid) (vaPath virtAdr) with
  | none =>
      rw [same_task] at walks
      rw [userView_unmapped after_roles after_known user (by rw [same_task, walks, reached]),
        same_task, userView_unmapped roles known user reached]
  | some page =>
      obtain ⟨index, rfl, owned⟩ := roles.walk_placed known (length_vaPath _).le reached
      rw [treeRole, if_neg (by simp)] at owned
      have offset : virtAdr % pageSize < pageSize := Nat.mod_lt _ (by decide)
      rw [same_task] at walks
      rw [userView_mapped after_roles after_known user (by rw [same_task, walks, reached]),
        same_task, userView_mapped roles known user reached,
        pages owned (kernelAdr index + virtAdr % pageSize) (by omega) (by omega)]

end View

/-! ## Changes -/

/-- The pages, the records and the bytes that the tasks see. -/
structure SpacesShown (image : Image) (kernel : Kernel) (space : Nat → Nat → Option UInt8) :
    Prop where
  inv : ∃ owner, SpacesInv image kernel owner
  records : ∀ {pid}, pid < kernel.nTasks → RecordsWhole kernel.memory (kernel.taskArray pid)
  shown : ∀ {pid virtAdr}, pid < kernel.nTasks → virtAdr < 2 ^ 48 →
    userView kernel.memory (kernel.taskArray pid) virtAdr = space pid virtAdr

section Changes

variable {image : Image} {kernel after : Kernel} {owner : Nat → Option PageRole}
  {space : Nat → Nat → Option UInt8} {pid virtAdr frame : Nat}

/-- Bytes of one task change outside its page records. -/
structure FieldsEdited (kernel after : Kernel) (pid : Nat) : Prop where
  mm : after.mm = kernel.mm.setMemory after.memory
  taskArray : after.taskArray = kernel.taskArray
  nTasks : after.nTasks = kernel.nTasks
  confined : ∀ address, address < kernel.taskArray pid ∨
    kernel.taskArray pid + 152 ≤ address ∧ address < kernel.taskArray pid + 560 ∨
    kernel.taskArray pid + pageSize ≤ address → after.memory address = kernel.memory address

theorem FieldsEdited.records_same (edited : FieldsEdited kernel after pid)
    (inv : SpacesInv image kernel owner) (known : pid < kernel.nTasks) {other : Nat}
    (other_known : other < kernel.nTasks) :
    kernel.memory.AgreeOn after.memory (kernel.taskArray other + 152) 408 := by
  intro address lower upper
  by_cases here : other = pid
  · subst here
    exact edited.confined address (by omega)
  · have apart := inv.roles.tasks_apart other_known known here
    simp only [pageSize] at apart
    exact edited.confined address (by simp only [pageSize]; omega)

theorem FieldsEdited.spaces (edited : FieldsEdited kernel after pid)
    (inv : SpacesInv image kernel owner) (known : pid < kernel.nTasks)
    (current : ∃ pid, pid < kernel.nTasks ∧ after.current = kernel.taskArray pid) :
    SpacesInv image after owner := by
  obtain ⟨roles, -⟩ := @PageRoles.edit_task _ _ _ _ _ inv.roles after.memory _ known (by
    intro address off
    exact edited.confined address (by omega))
  have same : ∀ {other}, other < kernel.nTasks → ∀ {field : Field}, 152 ≤ field.offset →
      field.offset + field.width ≤ 560 → field.get after.memory (kernel.taskArray other) =
        field.get kernel.memory (kernel.taskArray other) := by
    intro other other_known field low high
    have range := inv.roles.task_range other_known
    simp only [pageSize] at range
    exact Field.get_congr (by omega)
      ((edited.records_same inv known other_known).mono (by omega) (by omega))
  rw [← edited.mm, ← edited.taskArray, ← edited.nTasks] at roles
  refine ⟨roles, inv.heap, ?_, ?_, ?_, ?_⟩
  · rw [edited.taskArray, edited.nTasks]
    exact current
  · rw [edited.nTasks]
    exact inv.limits.tasks
  · rw [edited.taskArray, edited.nTasks]
    intro other other_known
    rw [same other_known (by decide) (by decide)]
    exact inv.limits.users other_known
  · rw [edited.taskArray, edited.nTasks]
    intro other other_known
    rw [same other_known (by decide) (by decide)]
    exact inv.limits.tables other_known

theorem SpacesShown.edit (shown : SpacesShown image kernel space) (known : pid < kernel.nTasks)
    (edited : FieldsEdited kernel after pid)
    (current : ∃ pid, pid < kernel.nTasks ∧ after.current = kernel.taskArray pid) :
    SpacesShown image after space := by
  obtain ⟨owner, inv⟩ := shown.inv
  have after_inv := edited.spaces inv known current
  obtain ⟨-, walks⟩ := @PageRoles.edit_task _ _ _ _ _ inv.roles after.memory _ known (by
    intro address off
    exact edited.confined address (by omega))
  refine ⟨⟨owner, after_inv⟩, ?_, ?_⟩
  · rw [edited.nTasks, edited.taskArray]
    intro other other_known
    exact (shown.records other_known).congr (inv.roles.task_range other_known).2
      ((edited.records_same inv known other_known).mono (by omega) (by omega))
      (fun long => walks other_known (by omega))
  · rw [edited.nTasks, edited.taskArray]
    intro other address other_known user
    rw [← shown.shown other_known user]
    refine userView_congr inv.roles other_known after_inv.roles
      (by rw [edited.nTasks]; exact other_known) (by rw [edited.taskArray]) user
      (walks other_known (length_vaPath _).le) ?_
    intro index owned target lower upper
    have apart := inv.roles.task_apart known (inv.roles.inside owned) (by rw [owned]; simp)
    exact edited.confined target (by omega)

theorem SpacesShown.map (shown : SpacesShown image kernel space) (known : pid < kernel.nTasks)
    (aligned : virtAdr % pageSize = 0) (user : virtAdr < 2 ^ 48) {mm : Mm}
    (inside : frame < mmNumOfPages) (free : IsFree kernel.mm frame)
    (enough : tablesNeeded kernel.memory (kernel.taskArray pid) virtAdr + 1 ≤ freeCount kernel.mm)
    (room : Task.userpagesCount.get kernel.memory (kernel.taskArray pid) < maxProcessPages)
    (fits : Task.kernelpagesCount.get kernel.memory (kernel.taskArray pid) +
      tablesNeeded kernel.memory (kernel.taskArray pid) virtAdr < maxProcessPages)
    (mapped : mapPage (takePage kernel.mm frame) (kernel.taskArray pid) virtAdr (pageAt frame) =
      mm) :
    SpacesShown image { kernel with mm } (Function.update space pid fun address =>
        if address / pageSize = virtAdr / pageSize then some 0 else space pid address) ∧
      walk mm.memory (kernel.taskArray pid) (vaPath virtAdr) = some (pageAt frame) := by
  obtain ⟨owner, inv⟩ := shown.inv
  obtain ⟨grown, added, after_inv⟩ := inv.map known inside free enough room fits mapped
  obtain ⟨_, fresh⟩ := inv.enter known inside free enough
  rw [mapped] at fresh
  refine ⟨⟨⟨grown, after_inv⟩, ?_, ?_⟩, ?_⟩
  · intro other other_known
    by_cases here : other = pid
    · subst here
      exact added.recordsWhole known (shown.records known) aligned user room
    · have range := inv.roles.task_range other_known
      refine (shown.records other_known).congr range.2
        ((added.other_tasks other_known here).mono (by omega) (by simp only [pageSize]; omega)) ?_
      intro path long
      exact (added.walks other_known long).trans (if_neg fun both => here both.1)
  · intro other address other_known address_user
    change userView mm.memory (kernel.taskArray other) address = _
    by_cases here : other = pid ∧ vaPath address = vaPath virtAdr
    · obtain ⟨rfl, same⟩ := here
      have offset : address % pageSize < pageSize := Nat.mod_lt _ (by decide)
      rw [Function.update_self, if_pos ((vaPath_eq_iff_page address_user user).mp same),
        userView_mapped added.roles known address_user
          ((added.walks known (length_vaPath _)).trans (if_pos ⟨rfl, same⟩)),
        fresh.zeroed (by omega) (by omega)]
    · have same_view : userView mm.memory (kernel.taskArray other) address =
          userView kernel.mm.memory (kernel.taskArray other) address := by
        refine userView_congr inv.roles other_known added.roles other_known rfl address_user
          ((added.walks other_known (length_vaPath _)).trans (if_neg here)) ?_
        intro index owned
        exact added.pages owned (by simp) (by simp)
      have before : userView kernel.mm.memory (kernel.taskArray other) address =
          space other address := shown.shown other_known address_user
      rw [same_view, before]
      by_cases same : other = pid
      · subst same
        rw [Function.update_self, if_neg]
        intro same_page
        exact here ⟨rfl, (vaPath_eq_iff_page address_user user).mpr same_page⟩
      · rw [Function.update_of_ne same]
  · exact (added.walks known (length_vaPath _)).trans (if_pos ⟨rfl, rfl⟩)

theorem SpacesInv.of_roles (inv : SpacesInv image kernel owner) {memory : Memory}
    (roles : PageRoles image (kernel.mm.setMemory memory) kernel.taskArray kernel.nTasks owner)
    (task_same : ∀ {other}, other < kernel.nTasks →
      kernel.memory.AgreeOn memory (kernel.taskArray other) pageSize) :
    SpacesInv image (kernel.setMemory memory) owner := by
  have field_same : ∀ {other}, other < kernel.nTasks → ∀ {field : Field}, field.InPage →
      field.get memory (kernel.taskArray other) =
        field.get kernel.memory (kernel.taskArray other) := by
    intro other other_known field within
    refine Field.get_congr (within.fits (inv.roles.task_range other_known).2)
      ((task_same other_known).mono (by omega) ?_)
    simp only [Field.InPage] at within
    omega
  refine ⟨roles, inv.heap, inv.current, inv.limits.tasks, ?_, ?_⟩
  · intro other other_known
    rw [Kernel.memory_setMemory, Kernel.taskArray_setMemory, field_same other_known (by decide)]
    exact inv.limits.users other_known
  · intro other other_known
    rw [Kernel.memory_setMemory, Kernel.taskArray_setMemory, field_same other_known (by decide)]
    exact inv.limits.tables other_known

theorem SpacesInv.write (inv : SpacesInv image kernel owner)
    (owned : owner frame = some (.user pid (vaPath virtAdr))) {memory : Memory}
    (confined : ∀ address, address < kernelAdr frame ∨ kernelAdr frame + pageSize ≤ address →
      memory address = kernel.memory address) :
    SpacesInv image (kernel.setMemory memory) owner ∧
      (∀ {other}, other < kernel.nTasks →
        kernel.memory.AgreeOn memory (kernel.taskArray other) pageSize) ∧
      ∀ {other path}, other < kernel.nTasks → path.length ≤ 4 →
        walk memory (kernel.taskArray other) path =
          walk kernel.memory (kernel.taskArray other) path := by
  obtain ⟨roles, walks⟩ := inv.roles.edit_page owned (by simp) (by simp) confined
  have task_same : ∀ {other}, other < kernel.nTasks →
      kernel.memory.AgreeOn memory (kernel.taskArray other) pageSize := by
    intro other other_known address lower upper
    have apart := inv.roles.task_apart other_known (inv.roles.inside owned) (by rw [owned]; simp)
    exact confined address (by omega)
  exact ⟨inv.of_roles roles task_same, task_same, walks⟩

theorem SpacesShown.write (shown : SpacesShown image kernel space) (known : pid < kernel.nTasks)
    (user : virtAdr < 2 ^ 48)
    (reached : walk kernel.memory (kernel.taskArray pid) (vaPath virtAdr) = some (pageAt frame))
    {memory : Memory}
    (confined : ∀ address, address < kernelAdr frame ∨ kernelAdr frame + pageSize ≤ address →
      memory address = kernel.memory address) :
    SpacesShown image (kernel.setMemory memory) (Function.update space pid fun address =>
      if address / pageSize = virtAdr / pageSize then
        some (memory (kernelAdr frame + address % pageSize)) else space pid address) := by
  obtain ⟨owner, inv⟩ := shown.inv
  obtain ⟨placed, same, owned⟩ := inv.roles.walk_placed known (length_vaPath _).le reached
  obtain rfl := pageAt_injective same
  rw [treeRole, if_neg (by simp)] at owned
  obtain ⟨after_inv, task_same, walks⟩ := inv.write owned confined
  refine ⟨⟨owner, after_inv⟩, ?_, ?_⟩
  · intro other other_known
    have same_records := (task_same other_known).mono
      (by omega : _ ≤ kernel.taskArray other + 160)
      (by simp only [pageSize]; omega : kernel.taskArray other + 160 + 264 ≤ _)
    exact (shown.records other_known).congr (inv.roles.task_range other_known).2 same_records
      fun long => walks other_known (by omega)
  · intro other address other_known address_user
    by_cases here : other = pid ∧ vaPath address = vaPath virtAdr
    · obtain ⟨rfl, same⟩ := here
      rw [Function.update_self, if_pos ((vaPath_eq_iff_page address_user user).mp same)]
      exact userView_mapped after_inv.roles known address_user
        ((walks known (length_vaPath _).le).trans (by rw [same]; exact reached))
    · have same_view := @userView_congr _ _ _ _ _ _ address _ _ inv.roles other_known _ _
        after_inv.roles other_known rfl address_user (walks other_known (length_vaPath _).le) (by
          intro index other_owned target lower upper
          have differ : index ≠ frame := by
            rintro rfl
            have clash := PageRole.user.inj (Option.some.inj (other_owned.symm.trans owned))
            exact here clash
          have apart := kernelAdr_apart differ
          exact confined target (by omega))
      refine same_view.trans ((shown.shown other_known address_user).trans ?_)
      by_cases same : other = pid
      · subst same
        rw [Function.update_self, if_neg]
        intro same_page
        exact here ⟨rfl, (vaPath_eq_iff_page address_user user).mpr same_page⟩
      · rw [Function.update_of_ne same]

end Changes

/-! ## Forks -/

section Fork

variable {image : Image} {kernel after : Kernel} {owner grown : Nat → Option PageRole}
  {space : Nat → Nat → Option UInt8} {parent index cloneFlags fn args pid : Nat}

theorem Forked.keeps (forked : Forked image kernel owner index after grown)
    (inv : SpacesInv image kernel owner) (shown : SpacesShown image kernel space)
    (known : pid < kernel.nTasks) :
    RecordsWhole after.memory (after.taskArray pid) ∧
      ∀ {virtAdr}, virtAdr < 2 ^ 48 →
        userView after.memory (after.taskArray pid) virtAdr = space pid virtAdr := by
  have old : after.taskArray pid = kernel.taskArray pid := by
    rw [forked.taskArray, withTask_old kernel index known]
  have after_known : pid < after.nTasks := by
    rw [forked.nTasks]
    omega
  have range := inv.roles.task_range known
  rw [old]
  constructor
  · exact (shown.records known).congr range.2
      ((forked.other_tasks known).mono (by omega) (by simp only [pageSize]; omega))
      (fun long => forked.walks known long)
  · intro virtAdr user
    rw [← shown.shown known user]
    exact userView_congr inv.roles known forked.roles after_known old user
      (forked.walks known (length_vaPath _)) fun owned => forked.pages owned (by simp) (by simp)

/-- What a fork leaves: one task more, which sees the given bytes, and all else as before. -/
structure ForkShown (image : Image) (kernel : Kernel) (space : Nat → Nat → Option UInt8)
    (memory : Nat → Option UInt8) (after : Kernel) : Prop where
  shown : SpacesShown image after (Function.update space kernel.nTasks memory)
  nTasks : after.nTasks = kernel.nTasks + 1
  current : after.current = kernel.current
  ttbr0 : after.ttbr0 = kernel.ttbr0
  taskArray : ∀ {pid}, pid < kernel.nTasks → after.taskArray pid = kernel.taskArray pid
  directory : ∀ {pid}, pid < kernel.nTasks →
    Task.pagedirectory.get after.memory (kernel.taskArray pid) =
      Task.pagedirectory.get kernel.memory (kernel.taskArray pid)

theorem Forked.forkShown (forked : Forked image kernel owner index after grown)
    (inv : SpacesInv image kernel owner) (shown : SpacesShown image kernel space)
    (after_inv : SpacesInv image after grown) {memory : Nat → Option UInt8}
    (records : RecordsWhole after.memory (after.taskArray kernel.nTasks))
    (seen : ∀ {virtAdr}, virtAdr < 2 ^ 48 →
      userView after.memory (after.taskArray kernel.nTasks) virtAdr = memory virtAdr) :
    ForkShown image kernel space memory after := by
  refine ⟨⟨⟨grown, after_inv⟩, ?_, ?_⟩, forked.nTasks, forked.current, forked.ttbr0, ?_, ?_⟩
  · rw [forked.nTasks]
    intro pid known
    by_cases new : pid = kernel.nTasks
    · rw [new]
      exact records
    · exact (forked.keeps inv shown (by omega)).1
  · rw [forked.nTasks]
    intro pid virtAdr known user
    by_cases new : pid = kernel.nTasks
    · rw [new, Function.update_self]
      exact seen user
    · rw [Function.update_of_ne new]
      exact (forked.keeps inv shown (by omega)).2 user
  · intro pid known
    rw [forked.taskArray, withTask_old kernel index known]
  · intro pid known
    refine Field.get_congr (inv.roles.directory_fits known)
      ((forked.other_tasks known).mono (by omega) ?_)
    simp only [Task.pagedirectory, pageSize]
    omega

theorem SpacesShown.fork_thread (shown : SpacesShown image kernel space)
    (thread : cloneFlags &&& taskFlagsKernelThread ≠ 0) (room : kernel.nTasks < nTasksMax)
    (fits : forkTables kernel cloneFlags < maxProcessPages)
    (enough : forkPages kernel cloneFlags ≤ freeCount kernel.mm)
    (result : kernelFork image kernel cloneFlags fn args = some (after, pid)) :
    ForkShown image kernel space (fun _ => none) after := by
  obtain ⟨owner, inv⟩ := shown.inv
  obtain ⟨parent, known, current⟩ := inv.current
  obtain ⟨index, grown, -, made⟩ := kernelFork_made inv.roles known current room
    (by rw [current]; exact inv.limits.users known) enough result
  have forked := made.forked
  have child : after.taskArray kernel.nTasks = kernelAdr index := by
    rw [forked.taskArray, withTask_new]
  have some_page := one_le_forkPages kernel cloneFlags
  have directory := kernelFork_thread_directory inv.roles known current thread (by omega) result
  have users := made.userpages
  rw [forkUsers, if_pos thread, ← child] at users
  refine forked.forkShown inv shown (inv.fork room fits made) (.empty directory users) ?_
  intro virtAdr _
  rw [userView, if_pos directory]

theorem SpacesShown.fork_user (shown : SpacesShown image kernel space)
    (known : parent < kernel.nTasks) (current : kernel.current = kernel.taskArray parent)
    (ttbr0 : kernel.ttbr0 = Task.pagedirectory.get kernel.memory kernel.current)
    (room : kernel.nTasks < nTasksMax) (fits : forkTables kernel 0 < maxProcessPages)
    (enough : forkPages kernel 0 ≤ freeCount kernel.mm)
    (result : kernelFork image kernel 0 0 0 = some (after, pid)) :
    ForkShown image kernel space (space parent) after := by
  obtain ⟨owner, inv⟩ := shown.inv
  have user : ¬0 &&& taskFlagsKernelThread ≠ 0 := by decide
  have whole := shown.records known
  have few := inv.limits.users known
  rw [← current] at whole few
  obtain ⟨index, grown, same_pid, made⟩ := kernelFork_made inv.roles known current room few enough
    result
  have pages := enough
  rw [forkPages, if_neg user] at pages
  obtain ⟨_, made_after, _, call, user_forked, copied⟩ := @kernelFork_user _ _ _ _ 0 0 0 inv.roles
    known current room ttbr0 (by decide) (by decide) whole.toRecordsMapped pages
  obtain ⟨rfl, -⟩ := Prod.mk.inj (Option.some.inj (result.symm.trans call))
  have forked := made.forked
  have child : after.taskArray kernel.nTasks = kernelAdr index := by
    rw [forked.taskArray, withTask_new]
  have same_index := child.symm.trans (by rw [user_forked.taskArray, withTask_new])
  obtain rfl := kernelAdr_injective same_index
  have virtuals : ∀ {number}, number < Task.userpagesCount.get kernel.memory kernel.current →
      recordedVirtual after.memory (kernelAdr index) number =
        recordedVirtual kernel.memory kernel.current number := by
    intro number bound
    rw [← child]
    exact kernelFork_virtuals inv.roles known current few user enough result bound
  have child_known : kernel.nTasks < after.nTasks := by
    rw [forked.nTasks]
    exact Nat.lt_succ_self _
  refine forked.forkShown inv shown (inv.fork room fits made) ?_ ?_
  · rw [child]
    refine ⟨⟨?_, ?_, ?_, ?_⟩, ?_⟩
    · rw [copied.userpages]
      exact few
    · intro number bound
      rw [copied.userpages] at bound
      rw [virtuals bound]
      exact whole.aligned bound
    · intro number bound
      rw [copied.userpages] at bound
      rw [virtuals bound]
      exact whole.user bound
    · intro number bound
      rw [copied.userpages] at bound
      obtain ⟨frame, -, reached, -⟩ := copied.copies bound
      rw [virtuals bound, reached, Option.isSome_some]
    · intro path page long reached
      obtain ⟨number, bound, same⟩ := copied.only long reached
      exact ⟨number, by rw [copied.userpages]; exact bound, by rw [virtuals bound]; exact same⟩
  · intro address address_user
    rw [← shown.shown known address_user]
    cases reached : walk kernel.memory kernel.current (vaPath address) with
    | none =>
        refine (userView_unmapped forked.roles child_known address_user ?_).trans
          (userView_unmapped inv.roles known address_user (by rw [← current]; exact reached)).symm
        by_contra present
        obtain ⟨page, found⟩ := Option.ne_none_iff_exists'.mp present
        rw [← Kernel.memory, child] at found
        obtain ⟨number, bound, same⟩ := copied.only (length_vaPath _) found
        have mapped := whole.mapped bound
        rw [← same, reached] at mapped
        cases mapped
    | some page =>
        obtain ⟨number, bound, same⟩ := whole.complete (length_vaPath _) reached
        obtain ⟨frame, original, copy_reached, -, original_reached, contents⟩ :=
          copied.copies bound
        rw [← same] at copy_reached original_reached
        refine (userView_mapped forked.roles child_known address_user
          (by rw [child]; exact copy_reached)).trans (Eq.trans ?_
            (userView_mapped inv.roles known address_user
              (by rw [← current]; exact original_reached)).symm)
        exact congrArg some (contents _ (Nat.mod_lt _ (by decide)))

end Fork

end PellOs
