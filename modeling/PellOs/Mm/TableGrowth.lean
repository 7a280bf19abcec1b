import PellOs.Mm.Walk

/-!
# Building page tables on demand

While pages are left, `map_page` adds the tables that are missing on the path of an address and
records them in the task.  Nothing but empty tables is added, so no user page moves, and everything
that is written belongs to the task or was unused.
-/

namespace PellOs

/-! ## The records in the task -/

section Records

variable {memory : Memory} {task page virtAdr : Nat}

theorem recordKernelPage_spec (fits : task + 2 * pageSize ≤ wordSize)
    (small : Task.kernelpagesCount.get memory task < 128) :
    Task.kernelpagesCount.get (recordKernelPage memory task page) task =
        Task.kernelpagesCount.get memory task + 1 ∧
      ∀ address, address < task + 424 ∨
        task + 440 + 8 * (Task.kernelpagesCount.get memory task + 1) ≤ address →
          recordKernelPage memory task page address = memory address := by
  have next : (Task.kernelpagesCount.get memory task + 1) % 2 ^ 32 =
      Task.kernelpagesCount.get memory task + 1 := Nat.mod_eq_of_lt (by omega)
  have index : signExtend (Task.kernelpagesCount.get memory task + 1) =
      Task.kernelpagesCount.get memory task + 1 := signExtend_of_lt (by omega)
  simp only [pageSize] at fits
  simp only [recordKernelPage, next, index]
  set count := Task.kernelpagesCount.get memory task with count_eq
  have count_fits : task + Task.kernelpagesCount.offset < wordSize := by
    simp only [Task.kernelpagesCount]
    omega
  have slot_fits : task + (Task.kernelpage (count + 1)).offset < wordSize := by
    simp only [Task.kernelpage, Task.kernelpagesOffset]
    omega
  constructor
  · rw [Field.get_congr count_fits (Field.agreeOn_set slot_fits _ (by
      simp only [Task.kernelpage, Task.kernelpagesOffset, Task.kernelpagesCount]; omega)),
      Field.get_set_same count_fits]
    simp only [Task.kernelpagesCount]
    omega
  · intro address outside
    rw [Field.set_eq slot_fits, Memory.write_outside _ (by
      simp only [Task.kernelpage, Task.kernelpagesOffset]; omega), Field.set_eq count_fits,
      Memory.write_outside _ (by simp only [Task.kernelpagesCount]; omega)]

theorem recordUserPage_spec (fits : task + 2 * pageSize ≤ wordSize)
    (small : Task.userpagesCount.get memory task < 128) :
    let count := Task.userpagesCount.get memory task
    Task.userpagesCount.get (recordUserPage memory task page virtAdr) task = count + 1 ∧
      (page < wordSize → (Task.userpagePhysical count).get
        (recordUserPage memory task page virtAdr) task = page) ∧
      (virtAdr < wordSize → (Task.userpageVirtual count).get
        (recordUserPage memory task page virtAdr) task = virtAdr) ∧
      ∀ address, address < task + 160 ∨ task + 164 ≤ address →
        address < task + 168 + 16 * count ∨ task + 184 + 16 * count ≤ address →
          recordUserPage memory task page virtAdr address = memory address := by
  intro count
  have count_eq : count = Task.userpagesCount.get memory task := rfl
  clear_value count
  rw [← count_eq] at small
  have next : (count + 1) % 2 ^ 32 = count + 1 := Nat.mod_eq_of_lt (by omega)
  have index : signExtend count = count := signExtend_of_lt (by omega)
  simp only [pageSize] at fits
  have count_fits : task + Task.userpagesCount.offset < wordSize := by
    simp only [Task.userpagesCount]
    omega
  have physical_fits : task + (Task.userpagePhysical count).offset < wordSize := by
    simp only [Task.userpagePhysical, Task.userpagesOffset]
    omega
  have virtual_fits : task + (Task.userpageVirtual count).offset < wordSize := by
    simp only [Task.userpageVirtual, Task.userpagesOffset]
    omega
  have same : recordUserPage memory task page virtAdr =
      (Task.userpageVirtual count).set ((Task.userpagePhysical count).set
        (Task.userpagesCount.set memory task (count + 1)) task page) task virtAdr := by
    rw [recordUserPage, ← count_eq, next, index]
  rw [same]
  refine ⟨?_, ?_, ?_, ?_⟩
  · rw [Field.get_congr count_fits (Field.agreeOn_set virtual_fits _ (by
      simp only [Task.userpageVirtual, Task.userpagesOffset, Task.userpagesCount]; omega)),
      Field.get_congr count_fits (Field.agreeOn_set physical_fits _ (by
        simp only [Task.userpagePhysical, Task.userpagesOffset, Task.userpagesCount]; omega)),
      Field.get_set_same count_fits]
    simp only [Task.userpagesCount]
    omega
  · intro page_small
    rw [Field.get_congr physical_fits (Field.agreeOn_set virtual_fits _ (by
      simp only [Task.userpagePhysical, Task.userpageVirtual]; omega)),
      Field.get_set_same physical_fits page_small]
  · intro virtual_small
    rw [Field.get_set_same virtual_fits virtual_small]
  · intro address off_count off_record
    rw [Field.set_eq virtual_fits, Memory.write_outside _ (by
      simp only [Task.userpageVirtual, Task.userpagesOffset]; omega),
      Field.set_eq physical_fits, Memory.write_outside _ (by
        simp only [Task.userpagePhysical, Task.userpagesOffset]; omega),
      Field.set_eq count_fits, Memory.write_outside _ (by
        simp only [Task.userpagesCount]; omega)]

end Records

/-! ## Adding tables -/

/-- Outcome of adding tables to the tree of one task along a path: nothing but tables is added,
the user pages of every task stay where they are, and only the task's own records and tables and
formerly unused pages are written. -/
structure TablesGrown (image : Image) (tasks : Nat → Nat) (count pid : Nat) (goal : List Nat)
    (mm : Mm) (owner : Nat → Option PageRole) (after : Mm)
    (grown : Nat → Option PageRole) : Prop where
  roles : PageRoles image after tasks count grown
  kept : ∀ {index role}, owner index = some role → grown index = some role
  added : ∀ {index role}, grown index = some role →
    owner index = some role ∨ owner index = none ∧ ∃ path, role = .table pid path
  walks : ∀ {other path}, other < count → path.length = 4 →
    walk after.memory (tasks other) path = walk mm.memory (tasks other) path
  tables : ∀ {path page}, path.length < 4 → walk mm.memory (tasks pid) path = some page →
    walk after.memory (tasks pid) path = some page
  along : ∀ {path page}, path.length < 4 → walk after.memory (tasks pid) path = some page →
    walk mm.memory (tasks pid) path = some page ∨ path <+: goal
  counted : Task.kernelpagesCount.get after.memory (tasks pid) + freeCount after =
    Task.kernelpagesCount.get mm.memory (tasks pid) + freeCount mm
  fewer : freeCount after ≤ freeCount mm
  frame : ∀ address,
    address < tasks pid + 152 ∨ tasks pid + 160 ≤ address →
    address < tasks pid + 424 ∨
      tasks pid + 440 + 8 * Task.kernelpagesCount.get after.memory (tasks pid) ≤ address →
    (∀ index, index < mmNumOfPages → kernelAdr index ≤ address →
      address < kernelAdr index + pageSize →
        ∃ role, owner index = some role ∧ ∀ path, role ≠ .table pid path) →
    after.memory address = mm.memory address

namespace TablesGrown

variable {image : Image} {tasks : Nat → Nat} {count pid : Nat} {mm middle after : Mm}
  {owner between grown : Nat → Option PageRole} {goal : List Nat}

theorem refl (roles : PageRoles image mm tasks count owner) :
    TablesGrown image tasks count pid goal mm owner mm owner where
  roles := roles
  kept owned := owned
  added owned := Or.inl owned
  walks _ _ := rfl
  tables _ reached := reached
  along _ reached := Or.inl reached
  counted := rfl
  fewer := le_refl _
  frame _ _ _ _ := rfl

theorem trans (first : TablesGrown image tasks count pid goal mm owner middle between)
    (second : TablesGrown image tasks count pid goal middle between after grown) :
    TablesGrown image tasks count pid goal mm owner after grown where
  roles := second.roles
  kept owned := second.kept (first.kept owned)
  added owned := by
    rcases second.added owned with old | ⟨unused, position⟩
    · exact first.added old
    · refine Or.inr ⟨?_, position⟩
      by_contra used
      obtain ⟨role, was_owned⟩ := Option.ne_none_iff_exists'.mp used
      rw [first.kept was_owned] at unused
      cases unused
  walks known long := (second.walks known long).trans (first.walks known long)
  tables short reached := second.tables short (first.tables short reached)
  along short reached := by
    rcases second.along short reached with before | new
    · exact first.along short before
    · exact Or.inr new
  counted := second.counted.trans first.counted
  fewer := second.fewer.trans first.fewer
  frame address off_directory off_records untouched := by
    have more : Task.kernelpagesCount.get middle.memory (tasks pid) ≤
        Task.kernelpagesCount.get after.memory (tasks pid) := by
      have := second.counted
      have := second.fewer
      omega
    rw [second.frame address off_directory off_records, first.frame address off_directory
      (by omega) untouched]
    intro index inside lower upper
    obtain ⟨role, owned, other⟩ := untouched index inside lower upper
    exact ⟨role, first.kept owned, other⟩

theorem count_le (grown_from : TablesGrown image tasks count pid goal mm owner after grown) :
    Task.kernelpagesCount.get mm.memory (tasks pid) ≤
      Task.kernelpagesCount.get after.memory (tasks pid) := by
  have := grown_from.counted
  have := grown_from.fewer
  omega

end TablesGrown

section NewTable

variable {image : Image} {tasks : Nat → Nat} {count pid : Nat} {mm : Mm}
  {owner : Nat → Option PageRole} {index slot next : Nat} {path : List Nat}

/-- Memory after a fresh page has been hung into a table. -/
private def linkedMemory (mm : Mm) (index slot next : Nat) : Memory :=
  (takePage mm next).memory.write (kernelAdr index + 8 * slot) 8
    (pageAt next ||| mmTypePageTable)

/-- Memory after the new table has also been recorded. -/
private def tableMemory (mm : Mm) (task index slot next : Nat) : Memory :=
  recordKernelPage (linkedMemory mm index slot next) task (pageAt next)

private theorem owner_next_ne (roles : PageRoles image mm tasks count owner)
    (inside : next < mmNumOfPages) (free : IsFree mm next) {other : Nat} {role : PageRole}
    (owned : owner other = some role) : other ≠ next := by
  rintro rfl
  rw [(roles.unused inside).mpr free] at owned
  cases owned

private theorem grown_kept (roles : PageRoles image mm tasks count owner)
    (inside : next < mmNumOfPages) (free : IsFree mm next) {other : Nat} {role new : PageRole}
    (owned : owner other = some role) :
    Function.update owner next (some new) other = some role := by
  rw [Function.update_of_ne (owner_next_ne roles inside free owned), owned]

private theorem grown_added (roles : PageRoles image mm tasks count owner)
    (inside : next < mmNumOfPages) (free : IsFree mm next) {other : Nat} {role new : PageRole}
    (grown : Function.update owner next (some new) other = some role) :
    owner other = some role ∨ owner other = none ∧ role = new := by
  by_cases same : other = next
  · subst same
    rw [Function.update_self] at grown
    exact Or.inr ⟨(roles.unused inside).mpr free, (Option.some.inj grown).symm⟩
  · rw [Function.update_of_ne same] at grown
    exact Or.inl grown

private theorem linkedMemory_apply (mm : Mm) (index slot next : Nat) {address : Nat}
    (off_slot : address < kernelAdr index + 8 * slot ∨ kernelAdr index + 8 * slot + 8 ≤ address)
    (off_page : address < kernelAdr next ∨ kernelAdr next + pageSize ≤ address) :
    linkedMemory mm index slot next address = mm.memory address := by
  rw [linkedMemory, Memory.write_outside _ off_slot, memory_takePage]
  rw [kernelAdr] at off_page
  exact Memory.fill_outside _ off_page

private theorem linkedMemory_count (roles : PageRoles image mm tasks count owner)
    (known : pid < count) (owned : owner index = some (.table pid path))
    (bound : slot < ptrsPerTable) (inside : next < mmNumOfPages) (free : IsFree mm next) :
    Task.kernelpagesCount.get (linkedMemory mm index slot next) (tasks pid) =
      Task.kernelpagesCount.get mm.memory (tasks pid) := by
  have range := roles.task_range known
  have apart_index := roles.task_apart known (roles.inside owned) (by rw [owned]; simp)
  have apart_next := roles.task_apart known inside (by rw [(roles.unused inside).mpr free]; simp)
  simp only [ptrsPerTable] at bound
  apply Field.get_congr
  · simp only [Task.kernelpagesCount, pageSize] at range ⊢
    omega
  · intro address lower upper
    simp only [Task.kernelpagesCount, pageSize] at lower upper apart_index apart_next
    exact linkedMemory_apply mm index slot next (by omega) (by simp only [pageSize]; omega)

private theorem tableMemory_frame (roles : PageRoles image mm tasks count owner)
    (known : pid < count) (owned : owner index = some (.table pid path))
    (bound : slot < ptrsPerTable) (inside : next < mmNumOfPages) (free : IsFree mm next)
    (small : Task.kernelpagesCount.get mm.memory (tasks pid) < 128) :
    Task.kernelpagesCount.get (tableMemory mm (tasks pid) index slot next) (tasks pid) =
        Task.kernelpagesCount.get mm.memory (tasks pid) + 1 ∧
      ∀ address, address < tasks pid + 424 ∨
          tasks pid + 440 + 8 * (Task.kernelpagesCount.get mm.memory (tasks pid) + 1) ≤ address →
        tableMemory mm (tasks pid) index slot next address =
          linkedMemory mm index slot next address := by
  have same := linkedMemory_count roles known owned bound inside free
  have recorded := @recordKernelPage_spec _ _ (pageAt next) (roles.task_range known).2
    (same.trans_lt small)
  rw [same] at recorded
  exact recorded

private theorem tableMemory_stored (roles : PageRoles image mm tasks count owner)
    (known : pid < count) (owned : owner index = some (.table pid path))
    (bound : slot < ptrsPerTable) (inside : next < mmNumOfPages) (free : IsFree mm next)
    (small : Task.kernelpagesCount.get mm.memory (tasks pid) < 128) :
    EntryStored mm tasks count owner (tableMemory mm (tasks pid) index slot next) index slot := by
  have frame : ∀ address, address < tasks pid + 424 ∨
      tasks pid + 440 + 8 * (Task.kernelpagesCount.get mm.memory (tasks pid) + 1) ≤ address →
      address < kernelAdr index + 8 * slot ∨ kernelAdr index + 8 * slot + 8 ≤ address →
      address < kernelAdr next ∨ kernelAdr next + pageSize ≤ address →
        tableMemory mm (tasks pid) index slot next address = mm.memory address :=
    fun address off_records off_slot off_page =>
      ((tableMemory_frame roles known owned bound inside free small).2 address off_records).trans
        (linkedMemory_apply mm index slot next off_slot off_page)
  simp only [ptrsPerTable] at bound
  constructor
  · intro other other_known
    have apart_index := roles.task_apart other_known (roles.inside owned) (by rw [owned]; simp)
    have apart_next := roles.task_apart other_known inside
      (by rw [(roles.unused inside).mpr free]; simp)
    apply Field.get_congr (roles.directory_fits other_known)
    intro address lower upper
    have off_records : address < tasks pid + 424 ∨ tasks pid + 440 +
        8 * (Task.kernelpagesCount.get mm.memory (tasks pid) + 1) ≤ address := by
      simp only [Task.pagedirectory] at lower upper
      by_cases same : other = pid
      · subst same
        omega
      · have apart := roles.tasks_apart other_known known same
        simp only [pageSize] at apart
        omega
    simp only [Task.pagedirectory, pageSize] at lower upper apart_index apart_next
    exact frame address off_records (by omega) (by simp only [pageSize]; omega)
  · intro table owner_pid base place table_owned place_bound other
    have apart_task := roles.task_apart known (roles.inside table_owned) (by rw [table_owned]; simp)
    have apart_next := kernelAdr_apart (owner_next_ne roles inside free table_owned)
    apply roles.descriptor_congr table_owned place_bound
    intro address lower upper
    simp only [ptrsPerTable, pageSize] at place_bound apart_task apart_next
    refine frame address (by omega) ?_ (by simp only [pageSize]; omega)
    by_cases same : table = index
    · subst same
      have : place ≠ slot := fun equal => other ⟨rfl, equal⟩
      omega
    · have apart := kernelAdr_apart same
      simp only [pageSize] at apart
      omega

private theorem tableMemory_roles (roles : PageRoles image mm tasks count owner)
    (known : pid < count) (owned : owner index = some (.table pid path))
    (short : path.length < 3) (bound : slot < ptrsPerTable) (inside : next < mmNumOfPages)
    (free : IsFree mm next) (small : Task.kernelpagesCount.get mm.memory (tasks pid) < 128) :
    PageRoles image ((takePage mm next).setMemory (tableMemory mm (tasks pid) index slot next))
      tasks count (Function.update owner next (some (.table pid (path ++ [slot])))) := by
  have length : (path ++ [slot]).length ≤ 3 := by
    rw [List.length_append, List.length_singleton]
    omega
  have index_ne := owner_next_ne roles inside free owned
  have taken := @PageRoles.take _ _ _ _ _ roles _ (.table pid (path ++ [slot])) inside free (by
    intro other position same
    obtain ⟨-, rfl⟩ := PageRole.table.inj same
    exact length)
  have linked := @PageRoles.link _ _ _ _ _ taken index next pid _ path
    (by rw [Function.update_of_ne index_ne, owned])
    (by rw [Function.update_self, treeRole_table length]) bound
  rw [descriptorFlags, if_pos length] at linked
  have recorded := tableMemory_frame roles known owned bound inside free small
  have range := roles.task_range known
  have edited := @PageRoles.edit _ _ _ _ _ linked (tableMemory mm (tasks pid) index slot next)
    (tasks pid + 424) (tasks pid + 440 + 8 * (Task.kernelpagesCount.get mm.memory (tasks pid) + 1))
    recorded.2 ?_ ?_
  · rw [Mm.setMemory_setMemory] at edited
    exact edited
  · intro table owner_pid base table_owned
    have apart := taken.task_apart known (taken.inside table_owned) (by rw [table_owned]; simp)
    simp only [pageSize] at apart ⊢
    omega
  · intro other other_known
    by_cases same : other = pid
    · subst same
      omega
    · have apart := roles.tasks_apart other_known known same
      simp only [pageSize] at apart
      omega

private theorem tableMemory_entries (roles : PageRoles image mm tasks count owner)
    (known : pid < count) (owned : owner index = some (.table pid path))
    (bound : slot < ptrsPerTable) (inside : next < mmNumOfPages) (free : IsFree mm next)
    (small : Task.kernelpagesCount.get mm.memory (tasks pid) < 128) :
    tableChild (tableMemory mm (tasks pid) index slot next) (pageAt index) slot =
        some (pageAt next) ∧
      ∀ place, tableChild (tableMemory mm (tasks pid) index slot next) (pageAt next) place =
        none := by
  have recorded := (tableMemory_frame roles known owned bound inside free small).2
  have apart_index := roles.task_apart known (roles.inside owned) (by rw [owned]; simp)
  have apart_next := roles.task_apart known inside (by rw [(roles.unused inside).mpr free]; simp)
  have apart := kernelAdr_apart (owner_next_ne roles inside free owned)
  have place_bound := bound
  simp only [ptrsPerTable, pageSize] at place_bound apart apart_index apart_next
  constructor
  · refine @tableChild_of_descriptor _ _ _ _ mmTypePageTable bound inside (by decide) ?_
    have same : (linkedMemory mm index slot next).AgreeOn
        (tableMemory mm (tasks pid) index slot next) (kernelAdr index + 8 * slot) 8 := by
      intro address lower upper
      exact recorded address (by omega)
    rw [descriptor_pageAt (roles.inside owned) bound, Memory.read_congr same, linkedMemory,
      Memory.read_write_same, Nat.mod_eq_of_lt (pageAt_or_lt inside (by decide))]
  · intro place
    by_cases inner : place < ptrsPerTable
    · apply tableChild_zero
      rw [descriptor_pageAt inside inner]
      simp only [ptrsPerTable] at inner
      apply Memory.read_zero
      intro address lower upper
      rw [recorded address (by omega), linkedMemory, Memory.write_outside _ (by omega),
        memory_takePage]
      rw [kernelAdr] at lower upper
      exact Memory.fill_inside _ (by omega) (by simp only [pageSize]; omega)
    · rw [tableChild, if_neg (fun both => inner both.1)]

private theorem tableMemory_grown (roles : PageRoles image mm tasks count owner)
    (known : pid < count) (reached : walk mm.memory (tasks pid) path = some (pageAt index))
    (owned : owner index = some (.table pid path)) (short : path.length < 3)
    (bound : slot < ptrsPerTable) (missing : descriptor mm.memory (pageAt index) slot = 0)
    (inside : next < mmNumOfPages) (free : IsFree mm next)
    (small : Task.kernelpagesCount.get mm.memory (tasks pid) < 128) {goal : List Nat}
    (on_path : path ++ [slot] <+: goal) :
    TablesGrown image tasks count pid goal mm owner
        ((takePage mm next).setMemory (tableMemory mm (tasks pid) index slot next))
        (Function.update owner next (some (.table pid (path ++ [slot])))) ∧
      walk (tableMemory mm (tasks pid) index slot next) (tasks pid) (path ++ [slot]) =
        some (pageAt next) := by
  have stored := tableMemory_stored roles known owned bound inside free small
  obtain ⟨child, empty⟩ := tableMemory_entries roles known owned bound inside free small
  have counted := tableMemory_frame roles known owned bound inside free small
  have taken := freeCount_takePage inside free
  have unchanged : EntryStored mm tasks count owner mm.memory index slot := .refl
  have none_before : ∀ rest, walk mm.memory (tasks pid) (path ++ slot :: rest) = none := by
    intro rest
    rw [unchanged.walk_over roles known (by omega) reached, tableChild_zero missing,
      Option.bind_none]
  have after_over : ∀ rest, walk (tableMemory mm (tasks pid) index slot next) (tasks pid)
      (path ++ slot :: rest) = RadixTree.lookup
        (tableChild (tableMemory mm (tasks pid) index slot next)) (pageAt next) rest := by
    intro rest
    rw [stored.walk_over roles known (by omega) reached, child, Option.bind_some]
  refine ⟨⟨tableMemory_roles roles known owned short bound inside free small, ?_, ?_, ?_, ?_, ?_,
    ?_, ?_, ?_⟩, ?_⟩
  · exact grown_kept roles inside free
  · intro other role grown
    exact (grown_added roles inside free grown).imp_right (And.imp_right fun new => ⟨_, new⟩)
  · intro other position other_known long
    rw [Mm.memory_setMemory]
    by_cases passes : other = pid ∧ path ++ [slot] <+: position
    · obtain ⟨rfl, rest, rfl⟩ := passes
      have rest_ne : rest ≠ [] := by
        rintro rfl
        rw [List.append_nil, List.length_append, List.length_singleton] at long
        omega
      obtain ⟨place, rest, rfl⟩ := List.exists_cons_of_ne_nil rest_ne
      rw [← List.append_cons, none_before, after_over, RadixTree.lookup_cons, empty,
        Option.bind_none]
    · refine stored.walk_avoid roles owned other_known (by omega) ?_
      by_contra both
      push Not at both
      exact passes both
  · intro position page position_short position_reached
    rw [Mm.memory_setMemory]
    by_cases passes : path ++ [slot] <+: position
    · obtain ⟨rest, rfl⟩ := passes
      rw [← List.append_cons, none_before] at position_reached
      cases position_reached
    · rw [stored.walk_avoid roles owned known (by omega) (Or.inr passes)]
      exact position_reached
  · intro position page position_short position_reached
    rw [Mm.memory_setMemory] at position_reached
    by_cases passes : path ++ [slot] <+: position
    · obtain ⟨rest, rfl⟩ := passes
      cases rest with
      | nil => exact Or.inr (by rw [List.append_nil]; exact on_path)
      | cons place rest =>
          rw [← List.append_cons, after_over, RadixTree.lookup_cons, empty,
            Option.bind_none] at position_reached
          cases position_reached
    · rw [stored.walk_avoid roles owned known (by omega) (Or.inr passes)] at position_reached
      exact Or.inl position_reached
  · rw [Mm.memory_setMemory, counted.1, freeCount_congr (Mm.pageBitmap_setMemory _ _)]
    omega
  · rw [freeCount_congr (Mm.pageBitmap_setMemory _ _)]
    omega
  · intro address off_directory off_records untouched
    rw [Mm.memory_setMemory] at off_records ⊢
    rw [counted.1] at off_records
    rw [counted.2 address off_records]
    apply linkedMemory_apply
    · by_contra inner
      simp only [ptrsPerTable] at bound
      obtain ⟨role, role_owned, other⟩ := untouched index (roles.inside owned) (by omega)
        (by simp only [pageSize]; omega)
      rw [owned] at role_owned
      exact other path (Option.some.inj role_owned).symm
    · by_contra inner
      obtain ⟨role, role_owned, -⟩ := untouched next inside (by omega) (by omega)
      rw [(roles.unused inside).mpr free] at role_owned
      cases role_owned
  · exact after_over []

end NewTable

/-! ## The three levels below the directory -/

/-- The number of tables to add below `table` for the tables along a path to exist. -/
def missingTables (memory : Memory) : Nat → List Nat → Nat
  | _, [] => 0
  | table, slot :: rest =>
      if descriptor memory table slot = 0 then rest.length + 1
      else missingTables memory (descriptor memory table slot &&& pageMask) rest

theorem mapTable_of_ne {mm : Mm} {table shift virtAdr : Nat}
    (present : mm.memory.read (tableSlot table virtAdr shift) 8 ≠ 0) :
    mapTable mm table shift virtAdr =
      (mm, mm.memory.read (tableSlot table virtAdr shift) 8 &&& pageMask, false) := by
  unfold mapTable
  simp only [present, if_false]

theorem mapTable_of_eq {mm taken : Mm} {table shift virtAdr page : Nat}
    (missing : mm.memory.read (tableSlot table virtAdr shift) 8 = 0)
    (allocated : getNextFreePage mm = (taken, page)) :
    mapTable mm table shift virtAdr =
      (taken.setMemory (taken.memory.write (tableSlot table virtAdr shift) 8
        (page ||| mmTypePageTable)), page, true) := by
  unfold mapTable
  rw [allocated]
  simp only [missing, if_true]

theorem mapLevel_of_new {mm taken : Mm} {table shift virtAdr page : Nat}
    {memory : Memory} (task : Nat)
    (call : mapTable mm ((table + virtualAddressStart) % wordSize) shift virtAdr =
      (taken.setMemory memory, page, true)) :
    mapLevel mm task table shift virtAdr =
      (taken.setMemory (recordKernelPage memory task page), page) := by
  unfold mapLevel
  rw [call]
  simp only [if_true, Mm.memory_setMemory, Mm.setMemory_setMemory]

theorem mapLevel_of_old {mm : Mm} {table shift virtAdr page : Nat} (task : Nat)
    (call : mapTable mm ((table + virtualAddressStart) % wordSize) shift virtAdr =
      (mm, page, false)) :
    mapLevel mm task table shift virtAdr = (mm, page) := by
  unfold mapLevel
  rw [call]
  simp only [Bool.false_eq_true, if_false]

theorem isFree_of_mapLevel {mm : Mm} {task table shift virtAdr index : Nat}
    (free : IsFree (mapLevel mm task table shift virtAdr).1 index) : IsFree mm index := by
  by_cases missing : mm.memory.read
      (tableSlot ((table + virtualAddressStart) % wordSize) virtAdr shift) 8 = 0
  · rw [mapLevel_of_new task (mapTable_of_eq missing Prod.mk.eta.symm),
      isFree_congr (Mm.pageBitmap_setMemory _ _)] at free
    exact isFree_of_getNextFreePage free
  · rwa [mapLevel_of_old task (mapTable_of_ne missing)] at free

theorem mapLevels_cons (task virtAdr : Nat) (mm : Mm) (table shift : Nat) (shifts : List Nat) :
    mapLevels task virtAdr mm table (shift :: shifts) =
      mapLevels task virtAdr (mapLevel mm task table shift virtAdr).1
        (mapLevel mm task table shift virtAdr).2 shifts := by
  rw [mapLevels]

theorem isFree_of_mapLevels {task virtAdr : Nat} {mm : Mm} {table : Nat} {shifts : List Nat}
    {index : Nat} (free : IsFree (mapLevels task virtAdr mm table shifts).1 index) :
    IsFree mm index := by
  induction shifts generalizing mm table with
  | nil => rwa [mapLevels] at free
  | cons shift shifts ih =>
      rw [mapLevels_cons] at free
      exact isFree_of_mapLevel (ih free)

section Levels

variable {image : Image} {tasks : Nat → Nat} {count pid : Nat} {mm : Mm}
  {owner : Nat → Option PageRole} {index next shift virtAdr : Nat} {path : List Nat}

private theorem read_tableSlot (inside : index < mmNumOfPages) (memory : Memory) :
    memory.read (tableSlot ((pageAt index + virtualAddressStart) % wordSize) virtAdr shift) 8 =
      descriptor memory (pageAt index) (tableIndex virtAdr shift) := by
  rw [kernelAdr_eq inside, tableSlot_kernelAdr inside,
    descriptor_pageAt inside (tableIndex_lt virtAdr shift)]

private theorem mapLevel_missing (inside : index < mmNumOfPages) (task : Nat)
    (missing : descriptor mm.memory (pageAt index) (tableIndex virtAdr shift) = 0)
    (call : getNextFreePage mm = (takePage mm next, pageAt next)) :
    mapLevel mm task (pageAt index) shift virtAdr =
      ((takePage mm next).setMemory
        (tableMemory mm task index (tableIndex virtAdr shift) next), pageAt next) := by
  rw [mapLevel_of_new task (mapTable_of_eq ((read_tableSlot inside _).trans missing) call),
    kernelAdr_eq inside, tableSlot_kernelAdr inside, tableMemory, linkedMemory]

theorem tableIndices_lt {virtAdr : Nat} (shifts : List Nat) :
    ∀ place ∈ shifts.map (tableIndex virtAdr), place < ptrsPerTable := by
  intro place member
  obtain ⟨shift, _, rfl⟩ := List.mem_map.mp member
  exact tableIndex_lt virtAdr shift

theorem missingTables_empty {memory : Memory} {table : Nat}
    (empty : ∀ place, tableChild memory table place = none) (shifts : List Nat) :
    missingTables memory table (shifts.map (tableIndex virtAdr)) = shifts.length := by
  cases shifts with
  | nil => rw [List.map_nil, missingTables, List.length_nil]
  | cons shift shifts =>
      rw [List.map_cons, missingTables, if_pos (descriptor_of_tableChild
        (tableIndex_lt virtAdr shift) (empty _)), List.length_map, List.length_cons]

private theorem entry_present (roles : PageRoles image mm tasks count owner) (known : pid < count)
    (reached : walk mm.memory (tasks pid) path = some (pageAt index))
    (owned : owner index = some (.table pid path)) (short : path.length < 3) {slot : Nat}
    (bound : slot < ptrsPerTable) (present : descriptor mm.memory (pageAt index) slot ≠ 0) :
    ∃ next, owner next = some (.table pid (path ++ [slot])) ∧
      descriptor mm.memory (pageAt index) slot &&& pageMask = pageAt next ∧
      walk mm.memory (tasks pid) (path ++ [slot]) = some (pageAt next) := by
  rcases roles.entry owned bound with zero | ⟨next, next_owned, points⟩
  · exact absurd zero present
  have length : (path ++ [slot]).length ≤ 3 := by
    rw [List.length_append, List.length_singleton]
    omega
  refine ⟨next, ?_, ?_, ?_⟩
  · rw [next_owned, treeRole_table length]
  · rw [points, pageAt_or_and_pageMask (roles.inside next_owned) (descriptorFlags_lt _)]
  · rw [EntryStored.refl.walk_over roles known (by omega) reached,
      tableChild_of_descriptor bound (roles.inside next_owned) (descriptorFlags_lt _) points,
      Option.bind_some, RadixTree.lookup_nil]

theorem mapLevel_present (roles : PageRoles image mm tasks count owner) (known : pid < count)
    (reached : walk mm.memory (tasks pid) path = some (pageAt index))
    (owned : owner index = some (.table pid path)) (short : path.length < 3)
    (present : descriptor mm.memory (pageAt index) (tableIndex virtAdr shift) ≠ 0) :
    ∃ next, owner next = some (.table pid (path ++ [tableIndex virtAdr shift])) ∧
      descriptor mm.memory (pageAt index) (tableIndex virtAdr shift) &&& pageMask = pageAt next ∧
      walk mm.memory (tasks pid) (path ++ [tableIndex virtAdr shift]) = some (pageAt next) ∧
      mapLevel mm (tasks pid) (pageAt index) shift virtAdr = (mm, pageAt next) := by
  have inside := roles.inside owned
  obtain ⟨next, next_owned, target, below⟩ :=
    entry_present roles known reached owned short (tableIndex_lt virtAdr shift) present
  refine ⟨next, next_owned, target, below, ?_⟩
  rw [mapLevel_of_old _ (mapTable_of_ne (by rw [read_tableSlot inside]; exact present)),
    read_tableSlot inside, target]

/-- One call on a table whose entry is not set hangs a fresh table into it while pages are left. -/
theorem mapLevel_added (roles : PageRoles image mm tasks count owner) (known : pid < count)
    (reached : walk mm.memory (tasks pid) path = some (pageAt index))
    (owned : owner index = some (.table pid path)) (short : path.length < 3)
    (missing : descriptor mm.memory (pageAt index) (tableIndex virtAdr shift) = 0)
    (left : 0 < freeCount mm) (small : Task.kernelpagesCount.get mm.memory (tasks pid) < 128)
    {goal : List Nat} (on_path : path ++ [tableIndex virtAdr shift] <+: goal) :
    ∃ next after, next < mmNumOfPages ∧ IsFree mm next ∧
      mapLevel mm (tasks pid) (pageAt index) shift virtAdr = (after, pageAt next) ∧
      TablesGrown image tasks count pid goal mm owner after
        (Function.update owner next (some (.table pid (path ++ [tableIndex virtAdr shift])))) ∧
      walk after.memory (tasks pid) (path ++ [tableIndex virtAdr shift]) = some (pageAt next) ∧
      Task.kernelpagesCount.get after.memory (tasks pid) =
        Task.kernelpagesCount.get mm.memory (tasks pid) + 1 ∧
      freeCount after + 1 = freeCount mm ∧
      ∀ place, tableChild after.memory (pageAt next) place = none := by
  have inside := roles.inside owned
  have bound := tableIndex_lt virtAdr shift
  obtain ⟨next, next_inside, free, call⟩ := getNextFreePage_of_pos left
  obtain ⟨grown, placed⟩ := tableMemory_grown roles known reached owned short bound missing
    next_inside free small on_path
  refine ⟨next, _, next_inside, free, mapLevel_missing inside _ missing call, grown, placed,
    (tableMemory_frame roles known owned bound next_inside free small).1, ?_,
    (tableMemory_entries roles known owned bound next_inside free small).2⟩
  rw [freeCount_congr (Mm.pageBitmap_setMemory _ _), freeCount_takePage next_inside free]

/-- With enough pages left, the tables along a path exist afterwards and one page is used for
each table that was missing. -/
theorem mapLevels_spec (roles : PageRoles image mm tasks count owner) (known : pid < count)
    (reached : walk mm.memory (tasks pid) path = some (pageAt index))
    (owned : owner index = some (.table pid path)) {shifts : List Nat}
    (short : path.length + shifts.length ≤ 3)
    (enough : missingTables mm.memory (pageAt index) (shifts.map (tableIndex virtAdr)) ≤
      freeCount mm)
    (small : Task.kernelpagesCount.get mm.memory (tasks pid) + shifts.length ≤ 128)
    {goal : List Nat} (on_path : path ++ shifts.map (tableIndex virtAdr) <+: goal) :
    ∃ after last grown,
      mapLevels (tasks pid) virtAdr mm (pageAt index) shifts = (after, pageAt last) ∧
      TablesGrown image tasks count pid goal mm owner after grown ∧
      grown last = some (.table pid (path ++ shifts.map (tableIndex virtAdr))) ∧
      walk after.memory (tasks pid) (path ++ shifts.map (tableIndex virtAdr)) =
        some (pageAt last) ∧
      freeCount after +
          missingTables mm.memory (pageAt index) (shifts.map (tableIndex virtAdr)) =
        freeCount mm := by
  induction shifts generalizing mm owner index path with
  | nil =>
      refine ⟨mm, index, owner, by rw [mapLevels], .refl roles, ?_, ?_, ?_⟩
      · simpa using owned
      · simpa using reached
      · rw [List.map_nil, missingTables, Nat.add_zero]
  | cons shift shifts ih =>
      have longer : (path ++ [tableIndex virtAdr shift]).length + shifts.length ≤ 3 := by
        simp only [List.length_append, List.length_cons, List.length_nil] at short ⊢
        omega
      rw [List.length_cons] at short small
      rw [List.map_cons, List.append_cons] at on_path
      simp only [List.map_cons, missingTables] at enough ⊢
      rw [mapLevels_cons]
      by_cases missing : descriptor mm.memory (pageAt index) (tableIndex virtAdr shift) = 0
      · rw [if_pos missing] at enough ⊢
        obtain ⟨next, middle, -, -, call, first, placed, counted, taken, empty⟩ :=
          mapLevel_added roles known reached owned (by omega) missing (by omega) (by omega)
            ((List.prefix_append _ _).trans on_path)
        have below := @missingTables_empty virtAdr _ _ empty shifts
        obtain ⟨after, last, grown, run, second, last_owned, last_reached, left⟩ :=
          ih first.roles placed (Function.update_self _ _ _) longer
            (by rw [List.length_map] at enough; omega) (by omega) on_path
        rw [call]
        refine ⟨after, last, grown, run, first.trans second, ?_, ?_, ?_⟩
        · simpa using last_owned
        · simpa using last_reached
        · rw [List.length_map]
          omega
      · rw [if_neg missing] at enough ⊢
        obtain ⟨next, next_owned, target, below, call⟩ :=
          mapLevel_present roles known reached owned (by omega) missing
        rw [target] at enough ⊢
        obtain ⟨after, last, grown, run, growth, last_owned, last_reached, left⟩ :=
          ih roles below next_owned longer enough (by omega) on_path
        rw [call]
        refine ⟨after, last, grown, run, growth, ?_, ?_, left⟩
        · simpa using last_owned
        · simpa using last_reached

/-- With too few pages for the missing tables, the calls come to a table of the task with a
missing entry and no page left. -/
theorem mapLevels_runsDry (roles : PageRoles image mm tasks count owner) (known : pid < count)
    (reached : walk mm.memory (tasks pid) path = some (pageAt index))
    (owned : owner index = some (.table pid path)) {shifts : List Nat}
    (short : path.length + shifts.length ≤ 3)
    (lacking : freeCount mm <
      missingTables mm.memory (pageAt index) (shifts.map (tableIndex virtAdr)))
    (small : Task.kernelpagesCount.get mm.memory (tasks pid) + shifts.length ≤ 128)
    {goal : List Nat} (on_path : path ++ shifts.map (tableIndex virtAdr) <+: goal) :
    ∃ before shift rest dry last grown, shifts = before ++ shift :: rest ∧
      mapLevels (tasks pid) virtAdr mm (pageAt index) before = (dry, pageAt last) ∧
      TablesGrown image tasks count pid goal mm owner dry grown ∧
      grown last = some (.table pid (path ++ before.map (tableIndex virtAdr))) ∧
      walk dry.memory (tasks pid) (path ++ before.map (tableIndex virtAdr)) =
        some (pageAt last) ∧
      descriptor dry.memory (pageAt last) (tableIndex virtAdr shift) = 0 ∧
      freeCount dry = 0 ∧
      Task.kernelpagesCount.get dry.memory (tasks pid) ≤
        Task.kernelpagesCount.get mm.memory (tasks pid) + before.length := by
  induction shifts generalizing mm owner index path with
  | nil =>
      rw [List.map_nil, missingTables] at lacking
      omega
  | cons shift shifts ih =>
      have longer : (path ++ [tableIndex virtAdr shift]).length + shifts.length ≤ 3 := by
        simp only [List.length_append, List.length_cons, List.length_nil] at short ⊢
        omega
      rw [List.length_cons] at short small
      rw [List.map_cons, List.append_cons] at on_path
      rw [List.map_cons, missingTables] at lacking
      by_cases missing : descriptor mm.memory (pageAt index) (tableIndex virtAdr shift) = 0
      · rcases Nat.eq_zero_or_pos (freeCount mm) with empty | left
        · refine ⟨[], shift, shifts, mm, index, owner, rfl, by rw [mapLevels], .refl roles, ?_, ?_,
            missing, empty, le_refl _⟩
          · simpa using owned
          · simpa using reached
        · rw [if_pos missing, List.length_map] at lacking
          obtain ⟨next, middle, -, -, call, first, placed, counted, taken, empty⟩ :=
            mapLevel_added roles known reached owned (by omega) missing left (by omega)
              ((List.prefix_append _ _).trans on_path)
          have below := @missingTables_empty virtAdr _ _ empty shifts
          obtain ⟨before, last_shift, rest, dry, last, grown, split, run, second, last_owned,
            last_reached, last_missing, none_left, few⟩ :=
            ih first.roles placed (Function.update_self _ _ _) longer (by omega) (by omega) on_path
          refine ⟨shift :: before, last_shift, rest, dry, last, grown, ?_, ?_, first.trans second,
            ?_, ?_, last_missing, none_left, ?_⟩
          · rw [split, List.cons_append]
          · rw [mapLevels_cons, call]
            exact run
          · simpa using last_owned
          · simpa using last_reached
          · rw [List.length_cons]
            omega
      · rw [if_neg missing] at lacking
        obtain ⟨next, next_owned, target, below, call⟩ :=
          mapLevel_present roles known reached owned (by omega) missing
        rw [target] at lacking
        obtain ⟨before, last_shift, rest, dry, last, grown, split, run, second, last_owned,
          last_reached, last_missing, none_left, few⟩ :=
          ih roles below next_owned longer lacking (by omega) on_path
        refine ⟨shift :: before, last_shift, rest, dry, last, grown, ?_, ?_, second, ?_, ?_,
          last_missing, none_left, ?_⟩
        · rw [split, List.cons_append]
        · rw [mapLevels_cons, call]
          exact run
        · simpa using last_owned
        · simpa using last_reached
        · rw [List.length_cons]
          omega

theorem mapLevels_append (task virtAdr : Nat) (mm : Mm) (table : Nat) (left right : List Nat) :
    mapLevels task virtAdr mm table (left ++ right) =
      mapLevels task virtAdr (mapLevels task virtAdr mm table left).1
        (mapLevels task virtAdr mm table left).2 right := by
  induction left generalizing mm table with
  | nil => rw [List.nil_append, mapLevels]
  | cons shift left ih => rw [List.cons_append, mapLevels_cons, ih, mapLevels_cons]

end Levels

/-! ## The page directory -/

section Directory

variable {image : Image} {tasks : Nat → Nat} {count pid : Nat} {mm : Mm}
  {owner : Nat → Option PageRole} {next : Nat}

/-- Memory after a fresh page has become the page directory. -/
private def rootMemory (mm : Mm) (task next : Nat) : Memory :=
  Task.pagedirectory.set (takePage mm next).memory task (pageAt next)

/-- Memory after the new directory has also been recorded. -/
private def directoryMemory (mm : Mm) (task next : Nat) : Memory :=
  recordKernelPage (rootMemory mm task next) task (pageAt next)

private theorem rootMemory_apply (roles : PageRoles image mm tasks count owner)
    (known : pid < count) {address : Nat}
    (off_directory : address < tasks pid + 152 ∨ tasks pid + 160 ≤ address)
    (off_page : address < kernelAdr next ∨ kernelAdr next + pageSize ≤ address) :
    rootMemory mm (tasks pid) next address = mm.memory address := by
  rw [rootMemory, Field.set_eq (roles.directory_fits known), Memory.write_outside _ (by
    simp only [Task.pagedirectory]; omega), memory_takePage]
  rw [kernelAdr] at off_page
  exact Memory.fill_outside _ off_page

private theorem directoryMemory_frame (roles : PageRoles image mm tasks count owner)
    (known : pid < count) (inside : next < mmNumOfPages) (free : IsFree mm next)
    (small : Task.kernelpagesCount.get mm.memory (tasks pid) < 128) :
    Task.kernelpagesCount.get (directoryMemory mm (tasks pid) next) (tasks pid) =
        Task.kernelpagesCount.get mm.memory (tasks pid) + 1 ∧
      ∀ address, address < tasks pid + 424 ∨
          tasks pid + 440 + 8 * (Task.kernelpagesCount.get mm.memory (tasks pid) + 1) ≤ address →
        directoryMemory mm (tasks pid) next address = rootMemory mm (tasks pid) next address := by
  have range := roles.task_range known
  have apart := roles.task_apart known inside (by rw [(roles.unused inside).mpr free]; simp)
  have same : Task.kernelpagesCount.get (rootMemory mm (tasks pid) next) (tasks pid) =
      Task.kernelpagesCount.get mm.memory (tasks pid) := by
    apply Field.get_congr
    · simp only [Task.kernelpagesCount, pageSize] at range ⊢
      omega
    · intro address lower upper
      simp only [Task.kernelpagesCount, pageSize] at lower upper apart
      exact rootMemory_apply roles known (by omega) (by simp only [pageSize]; omega)
  have recorded := @recordKernelPage_spec _ _ (pageAt next) range.2 (same.trans_lt small)
  rw [same] at recorded
  exact recorded

private theorem directoryMemory_directory (roles : PageRoles image mm tasks count owner)
    (known : pid < count) (inside : next < mmNumOfPages) (free : IsFree mm next)
    (small : Task.kernelpagesCount.get mm.memory (tasks pid) < 128) :
    Task.pagedirectory.get (directoryMemory mm (tasks pid) next) (tasks pid) = pageAt next := by
  have fits := roles.directory_fits known
  have same : (rootMemory mm (tasks pid) next).AgreeOn (directoryMemory mm (tasks pid) next)
      (tasks pid + Task.pagedirectory.offset) Task.pagedirectory.width := by
    intro address lower upper
    simp only [Task.pagedirectory] at lower upper
    exact (directoryMemory_frame roles known inside free small).2 address (by omega)
  rw [Field.get_congr fits same, rootMemory, Field.get_set_same fits (pageAt_lt inside)]

private theorem directoryMemory_other (roles : PageRoles image mm tasks count owner)
    (known : pid < count) (inside : next < mmNumOfPages) (free : IsFree mm next)
    (small : Task.kernelpagesCount.get mm.memory (tasks pid) < 128) {other : Nat}
    (other_known : other < count) (differ : other ≠ pid) :
    Task.pagedirectory.get (directoryMemory mm (tasks pid) next) (tasks other) =
      Task.pagedirectory.get mm.memory (tasks other) := by
  have apart := roles.tasks_apart other_known known differ
  have apart_page := roles.task_apart other_known inside
    (by rw [(roles.unused inside).mpr free]; simp)
  apply Field.get_congr (roles.directory_fits other_known)
  intro address lower upper
  simp only [Task.pagedirectory, pageSize] at lower upper apart apart_page
  rw [(directoryMemory_frame roles known inside free small).2 address (by omega)]
  exact rootMemory_apply roles known (by omega) (by simp only [pageSize]; omega)

/-- Tables are not touched by a new directory, which is empty itself. -/
private theorem directoryMemory_page (roles : PageRoles image mm tasks count owner)
    (known : pid < count) (inside : next < mmNumOfPages) (free : IsFree mm next)
    (small : Task.kernelpagesCount.get mm.memory (tasks pid) < 128) :
    (∀ {index owner_pid path}, owner index = some (.table owner_pid path) →
      mm.memory.AgreeOn (directoryMemory mm (tasks pid) next) (kernelAdr index) pageSize) ∧
    ∀ address, kernelAdr next ≤ address → address < kernelAdr next + pageSize →
      directoryMemory mm (tasks pid) next address = 0 := by
  have recorded := (directoryMemory_frame roles known inside free small).2
  constructor
  · intro index owner_pid path owned address lower upper
    have apart := roles.task_apart known (roles.inside owned) (by rw [owned]; simp)
    have apart_next := kernelAdr_apart (owner_next_ne roles inside free owned)
    simp only [pageSize] at upper apart apart_next
    rw [recorded address (by omega)]
    exact rootMemory_apply roles known (by omega) (by simp only [pageSize]; omega)
  · intro address lower upper
    have apart := roles.task_apart known inside (by rw [(roles.unused inside).mpr free]; simp)
    simp only [pageSize] at upper apart
    rw [recorded address (by omega), rootMemory, Field.set_eq (roles.directory_fits known),
      Memory.write_outside _ (by simp only [Task.pagedirectory]; omega), memory_takePage]
    rw [kernelAdr] at lower upper
    exact Memory.fill_inside _ lower upper

private theorem directoryMemory_roles (roles : PageRoles image mm tasks count owner)
    (known : pid < count) (inside : next < mmNumOfPages) (free : IsFree mm next)
    (small : Task.kernelpagesCount.get mm.memory (tasks pid) < 128) :
    PageRoles image ((takePage mm next).setMemory (directoryMemory mm (tasks pid) next)) tasks
      count (Function.update owner next (some (.table pid []))) := by
  have taken := @PageRoles.take _ _ _ _ _ roles _ (.table pid []) inside free (by
    intro other path same
    obtain ⟨-, rfl⟩ := PageRole.table.inj same
    exact Nat.zero_le _)
  obtain ⟨tables, empty⟩ := directoryMemory_page roles known inside free small
  refine taken.congr_directories (Mm.pageBitmap_setMemory _ _) ?_ ?_
  · intro index owner_pid path owned address lower upper
    rw [Mm.memory_setMemory, memory_takePage]
    by_cases same : index = next
    · subst same
      rw [empty address lower upper]
      rw [kernelAdr] at lower upper
      exact (Memory.fill_inside _ lower upper).symm
    · rw [Function.update_of_ne same] at owned
      have apart := kernelAdr_apart same
      rw [tables owned address lower upper, Memory.fill_outside]
      rw [← kernelAdr]
      omega
  · intro other other_known
    rw [Mm.memory_setMemory]
    by_cases same : other = pid
    · subst same
      exact Or.inr ⟨next, directoryMemory_directory roles known inside free small,
        Function.update_self _ _ _⟩
    · left
      rw [directoryMemory_other roles known inside free small other_known same]
      have apart := roles.task_apart other_known inside
        (by rw [(roles.unused inside).mpr free]; simp)
      symm
      apply Field.get_congr (roles.directory_fits other_known)
      intro address lower upper
      simp only [Task.pagedirectory, pageSize] at lower upper apart
      rw [memory_takePage, Memory.fill_outside]
      rw [← kernelAdr]
      simp only [pageSize]
      omega

private theorem directoryMemory_grown (roles : PageRoles image mm tasks count owner)
    (known : pid < count) (absent : Task.pagedirectory.get mm.memory (tasks pid) = 0)
    (inside : next < mmNumOfPages) (free : IsFree mm next)
    (small : Task.kernelpagesCount.get mm.memory (tasks pid) < 128) (goal : List Nat) :
    TablesGrown image tasks count pid goal mm owner
      ((takePage mm next).setMemory (directoryMemory mm (tasks pid) next))
      (Function.update owner next (some (.table pid []))) := by
  have counted := directoryMemory_frame roles known inside free small
  have taken := freeCount_takePage inside free
  obtain ⟨tables, empty⟩ := directoryMemory_page roles known inside free small
  have no_walk : ∀ path, walk mm.memory (tasks pid) path = none := by
    intro path
    rw [walk, if_pos absent]
  have over_root : ∀ slot rest, walk (directoryMemory mm (tasks pid) next) (tasks pid)
      (slot :: rest) = none := by
    intro slot rest
    rw [walk, directoryMemory_directory roles known inside free small,
      if_neg (pageAt_ne_zero next), RadixTree.lookup_cons, tableChild]
    split_ifs with present
    · exfalso
      apply present.2
      rw [descriptor_pageAt inside present.1]
      have bound := present.1
      simp only [ptrsPerTable] at bound
      apply Memory.read_zero
      intro address lower upper
      exact empty address (by omega) (by simp only [pageSize]; omega)
    · rfl
  refine ⟨directoryMemory_roles roles known inside free small, ?_, ?_, ?_, ?_, ?_, ?_, ?_, ?_⟩
  · exact grown_kept roles inside free
  · intro other role grown
    exact (grown_added roles inside free grown).imp_right (And.imp_right fun new => ⟨_, new⟩)
  · intro other path other_known long
    rw [Mm.memory_setMemory]
    by_cases same : other = pid
    · subst same
      obtain ⟨slot, rest, rfl⟩ := List.exists_cons_of_length_eq_add_one long
      rw [no_walk, over_root]
    · refine roles.walk_congr other_known (by omega)
        (directoryMemory_other roles known inside free small other_known same) ?_
      intro index base slot owned _ bound
      apply roles.descriptor_congr owned bound
      simp only [ptrsPerTable] at bound
      exact (tables owned).mono (by omega) (by simp only [pageSize]; omega)
  · intro path page _ reached
    rw [no_walk] at reached
    cases reached
  · intro path page _ reached
    rw [Mm.memory_setMemory] at reached
    cases path with
    | nil => exact Or.inr (List.nil_prefix)
    | cons slot rest =>
        rw [over_root] at reached
        cases reached
  · rw [Mm.memory_setMemory, counted.1, freeCount_congr (Mm.pageBitmap_setMemory _ _)]
    omega
  · rw [freeCount_congr (Mm.pageBitmap_setMemory _ _)]
    omega
  · intro address off_directory off_records untouched
    rw [Mm.memory_setMemory] at off_records ⊢
    rw [counted.1] at off_records
    rw [counted.2 address off_records]
    apply rootMemory_apply roles known off_directory
    by_contra inner
    obtain ⟨role, owned, -⟩ := untouched next inside (by omega) (by omega)
    rw [(roles.unused inside).mpr free] at owned
    cases owned

private theorem ensureDirectory_absent {task : Nat}
    (absent : Task.pagedirectory.get mm.memory task = 0)
    (call : getNextFreePage mm = (takePage mm next, pageAt next))
    (stored : Task.pagedirectory.get (rootMemory mm task next) task = pageAt next) :
    ensureDirectory mm task = (takePage mm next).setMemory (directoryMemory mm task next) := by
  unfold rootMemory at stored
  unfold ensureDirectory
  rw [if_pos absent, call, directoryMemory, rootMemory]
  simp only [stored]

private theorem rootMemory_directory (roles : PageRoles image mm tasks count owner)
    (known : pid < count) (inside : next < mmNumOfPages) :
    Task.pagedirectory.get (rootMemory mm (tasks pid) next) (tasks pid) = pageAt next :=
  Field.get_set_same (roles.directory_fits known) (pageAt_lt inside)

/-- With a page left, the task has a page directory afterwards; a new one is empty. -/
theorem ensureDirectory_spec (roles : PageRoles image mm tasks count owner) (known : pid < count)
    (enough : Task.pagedirectory.get mm.memory (tasks pid) = 0 → 0 < freeCount mm)
    (small : Task.kernelpagesCount.get mm.memory (tasks pid) < 128) (goal : List Nat) :
    ∃ root grown,
      TablesGrown image tasks count pid goal mm owner (ensureDirectory mm (tasks pid)) grown ∧
      Task.pagedirectory.get (ensureDirectory mm (tasks pid)).memory (tasks pid) = pageAt root ∧
      grown root = some (.table pid []) ∧
      (Task.pagedirectory.get mm.memory (tasks pid) ≠ 0 → ensureDirectory mm (tasks pid) = mm) ∧
      (Task.pagedirectory.get mm.memory (tasks pid) = 0 → IsFree mm root ∧
        freeCount (ensureDirectory mm (tasks pid)) + 1 = freeCount mm ∧
        ∀ slots : List Nat, (∀ slot ∈ slots, slot < ptrsPerTable) →
          missingTables (ensureDirectory mm (tasks pid)).memory (pageAt root) slots =
            slots.length) := by
  by_cases absent : Task.pagedirectory.get mm.memory (tasks pid) = 0
  · obtain ⟨next, inside, free, call⟩ := getNextFreePage_of_pos (enough absent)
    rw [ensureDirectory_absent absent call (rootMemory_directory roles known inside)]
    refine ⟨next, _, directoryMemory_grown roles known absent inside free small goal, ?_,
      Function.update_self _ _ _, fun present => absurd absent present, fun _ => ⟨free, ?_, ?_⟩⟩
    · rw [Mm.memory_setMemory, directoryMemory_directory roles known inside free small]
    · rw [freeCount_congr (Mm.pageBitmap_setMemory _ _), freeCount_takePage inside free]
    · intro slots slots_lt
      rw [Mm.memory_setMemory]
      cases slots with
      | nil => rw [missingTables, List.length_nil]
      | cons slot slots =>
          have bound := slots_lt slot List.mem_cons_self
          rw [missingTables, if_pos, List.length_cons]
          rw [descriptor_pageAt inside bound]
          simp only [ptrsPerTable] at bound
          apply Memory.read_zero
          intro address lower upper
          exact (directoryMemory_page roles known inside free small).2 address (by omega)
            (by simp only [pageSize]; omega)
  · rcases roles.directory known with zero | ⟨root, points, owned⟩
    · exact absurd zero absent
    have unchanged : ensureDirectory mm (tasks pid) = mm := by
      unfold ensureDirectory
      rw [if_neg absent]
    rw [unchanged]
    exact ⟨root, owner, .refl roles, points, owned, fun _ => rfl, fun zero => absurd zero absent⟩

theorem isFree_of_ensureDirectory {mm : Mm} {task index : Nat}
    (free : IsFree (ensureDirectory mm task) index) : IsFree mm index := by
  unfold ensureDirectory at free
  split_ifs at free
  · rw [isFree_congr (Mm.pageBitmap_setMemory _ _)] at free
    exact isFree_of_getNextFreePage free
  · exact free

end Directory

/-- The number of tables that `map_page` adds for an address. -/
def tablesNeeded (memory : Memory) (task virtAdr : Nat) : Nat :=
  if Task.pagedirectory.get memory task = 0 then 4
  else missingTables memory (Task.pagedirectory.get memory task)
    ([pgdShift, pudShift, pmdShift].map (tableIndex virtAdr))

end PellOs
