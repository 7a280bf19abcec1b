import PellOs.Mm.TableGrowth

/-!
# What `map_page` does

With enough pages left for the missing tables, `map_page` makes the walk of the task's tables at
one address end at the given page and changes no other walk.  With too few pages, none is left
afterwards.
-/

namespace PellOs

/-- The table indices of a virtual address, from the page directory down. -/
def vaPath (virtAdr : Nat) : List Nat :=
  [tableIndex virtAdr pgdShift, tableIndex virtAdr pudShift, tableIndex virtAdr pmdShift,
    tableIndex virtAdr pageShift]

@[simp] theorem length_vaPath (virtAdr : Nat) : (vaPath virtAdr).length = 4 := rfl

theorem vaPath_eq (virtAdr : Nat) :
    vaPath virtAdr = [pgdShift, pudShift, pmdShift].map (tableIndex virtAdr) ++
      [tableIndex virtAdr pageShift] := rfl

/-- Outcome of `map_page` while pages are left. -/
structure PageMapped (image : Image) (tasks : Nat → Nat) (count pid virtAdr frame : Nat) (mm : Mm)
    (owner : Nat → Option PageRole) (after : Mm) (grown : Nat → Option PageRole) : Prop where
  roles : PageRoles image after tasks count grown
  kept : ∀ {index role}, owner index = some role → grown index = some role
  added : ∀ {index role}, grown index = some role →
    owner index = some role ∨ owner index = none ∧ ∃ path, role = .table pid path
  walks : ∀ {other path}, other < count → path.length = 4 →
    walk after.memory (tasks other) path =
      if other = pid ∧ path = vaPath virtAdr then some (pageAt frame)
      else walk mm.memory (tasks other) path
  tables : ∀ {path page}, path.length < 4 → walk mm.memory (tasks pid) path = some page →
    walk after.memory (tasks pid) path = some page
  along : ∀ {path page}, path.length < 4 → walk after.memory (tasks pid) path = some page →
    walk mm.memory (tasks pid) path = some page ∨ path <+: vaPath virtAdr
  kernelpages : Task.kernelpagesCount.get after.memory (tasks pid) =
    Task.kernelpagesCount.get mm.memory (tasks pid) + tablesNeeded mm.memory (tasks pid) virtAdr
  userpages : Task.userpagesCount.get after.memory (tasks pid) =
    Task.userpagesCount.get mm.memory (tasks pid) + 1
  physical : (Task.userpagePhysical (Task.userpagesCount.get mm.memory (tasks pid))).get
    after.memory (tasks pid) = pageAt frame
  virtual : virtAdr < wordSize →
    (Task.userpageVirtual (Task.userpagesCount.get mm.memory (tasks pid))).get after.memory
      (tasks pid) = virtAdr
  left : freeCount after + tablesNeeded mm.memory (tasks pid) virtAdr = freeCount mm
  frame : ∀ address,
    address < tasks pid + 152 ∨ tasks pid + 164 ≤ address →
    address < tasks pid + 168 + 16 * Task.userpagesCount.get mm.memory (tasks pid) ∨
      tasks pid + 184 + 16 * Task.userpagesCount.get mm.memory (tasks pid) ≤ address →
    address < tasks pid + 424 ∨
      tasks pid + 440 + 8 * Task.kernelpagesCount.get after.memory (tasks pid) ≤ address →
    (∀ index, index < mmNumOfPages → kernelAdr index ≤ address →
      address < kernelAdr index + pageSize →
        ∃ role, owner index = some role ∧ ∀ path, role ≠ .table pid path) →
    after.memory address = mm.memory address

/-- Outcome of `map_page` while pages are left, also when the array of user pages is full. -/
structure PageEntered (image : Image) (tasks : Nat → Nat) (count pid virtAdr frame : Nat) (mm : Mm)
    (owner : Nat → Option PageRole) (after : Mm) (grown : Nat → Option PageRole) : Prop where
  roles : PageRoles image after tasks count grown
  kept : ∀ {index role}, owner index = some role → grown index = some role
  added : ∀ {index role}, grown index = some role →
    owner index = some role ∨ owner index = none ∧ ∃ path, role = .table pid path
  walks : ∀ {other path}, other < count → path.length = 4 →
    walk after.memory (tasks other) path =
      if other = pid ∧ path = vaPath virtAdr then some (pageAt frame)
      else walk mm.memory (tasks other) path
  tables : ∀ {path page}, path.length < 4 → walk mm.memory (tasks pid) path = some page →
    walk after.memory (tasks pid) path = some page
  along : ∀ {path page}, path.length < 4 → walk after.memory (tasks pid) path = some page →
    walk mm.memory (tasks pid) path = some page ∨ path <+: vaPath virtAdr
  userpages : Task.userpagesCount.get after.memory (tasks pid) =
    Task.userpagesCount.get mm.memory (tasks pid) + 1
  physical : (Task.userpagePhysical (Task.userpagesCount.get mm.memory (tasks pid))).get
    after.memory (tasks pid) = pageAt frame
  virtual : virtAdr < wordSize →
    (Task.userpageVirtual (Task.userpagesCount.get mm.memory (tasks pid))).get after.memory
      (tasks pid) = virtAdr
  left : freeCount after + tablesNeeded mm.memory (tasks pid) virtAdr = freeCount mm
  frame : ∀ address,
    address < tasks pid + 152 ∨ tasks pid + 164 ≤ address →
    address < tasks pid + 168 + 16 * Task.userpagesCount.get mm.memory (tasks pid) ∨
      tasks pid + 184 + 16 * Task.userpagesCount.get mm.memory (tasks pid) ≤ address →
    address < tasks pid + 424 ∨
      tasks pid + 440 + 8 * (Task.kernelpagesCount.get mm.memory (tasks pid) +
        tablesNeeded mm.memory (tasks pid) virtAdr) ≤ address →
    (∀ index, index < mmNumOfPages → kernelAdr index ≤ address →
      address < kernelAdr index + pageSize →
        ∃ role, owner index = some role ∧ ∀ path, role ≠ .table pid path) →
    after.memory address = mm.memory address

theorem isFree_mapPage (mm : Mm) (task virtAdr page index : Nat) :
    IsFree (mapPage mm task virtAdr page) index ↔
      IsFree (mapLevels task virtAdr (ensureDirectory mm task)
        (Task.pagedirectory.get (ensureDirectory mm task).memory task)
        [pgdShift, pudShift, pmdShift]).1 index := by
  unfold mapPage
  exact isFree_congr (Mm.pageBitmap_setMemory _ _) index

section MapPage

variable {image : Image} {tasks : Nat → Nat} {count pid virtAdr frame : Nat} {mm : Mm}
  {owner : Nat → Option PageRole}

/-- With a page left for it, the directory is there and the tables below it are still needed. -/
theorem ensureDirectory_ready (roles : PageRoles image mm tasks count owner) (known : pid < count)
    (enough : Task.pagedirectory.get mm.memory (tasks pid) = 0 → 0 < freeCount mm)
    (small : Task.kernelpagesCount.get mm.memory (tasks pid) + 4 ≤ 128) (goal : List Nat) :
    ∃ root between,
      TablesGrown image tasks count pid goal mm owner (ensureDirectory mm (tasks pid)) between ∧
      Task.pagedirectory.get (ensureDirectory mm (tasks pid)).memory (tasks pid) = pageAt root ∧
      between root = some (.table pid []) ∧
      walk (ensureDirectory mm (tasks pid)).memory (tasks pid) [] = some (pageAt root) ∧
      freeCount (ensureDirectory mm (tasks pid)) + tablesNeeded mm.memory (tasks pid) virtAdr =
        freeCount mm + missingTables (ensureDirectory mm (tasks pid)).memory (pageAt root)
          ([pgdShift, pudShift, pmdShift].map (tableIndex virtAdr)) ∧
      Task.kernelpagesCount.get (ensureDirectory mm (tasks pid)).memory (tasks pid) + 3 ≤ 128 ∧
      (Task.pagedirectory.get mm.memory (tasks pid) ≠ 0 → ensureDirectory mm (tasks pid) = mm) ∧
      (Task.pagedirectory.get mm.memory (tasks pid) = 0 → IsFree mm root) := by
  obtain ⟨root, between, first, points, root_owned, present, absent⟩ :=
    ensureDirectory_spec roles known enough (by omega) goal
  refine ⟨root, between, first, points, root_owned, ?_, ?_, ?_, present,
    fun empty => (absent empty).1⟩
  · rw [walk, points, if_neg (pageAt_ne_zero root), RadixTree.lookup_nil]
  · by_cases empty : Task.pagedirectory.get mm.memory (tasks pid) = 0
    · obtain ⟨-, used, missing⟩ := absent empty
      rw [missing _ (tableIndices_lt _), tablesNeeded, if_pos empty, List.length_map]
      simp only [List.length_cons, List.length_nil]
      omega
    · rw [tablesNeeded, if_neg empty, ← points]
      simp only [present empty]
  · have counted := first.counted
    by_cases empty : Task.pagedirectory.get mm.memory (tasks pid) = 0
    · have used := (absent empty).2.1
      omega
    · rw [present empty]
      omega

/-- Without a directory there is a page for it when all missing tables find one. -/
theorem enough_for_directory
    (enough : tablesNeeded mm.memory (tasks pid) virtAdr ≤ freeCount mm) :
    Task.pagedirectory.get mm.memory (tasks pid) = 0 → 0 < freeCount mm := by
  intro absent
  rw [tablesNeeded, if_pos absent] at enough
  omega

/-- The tables for the address exist after the first part of `map_page`. -/
theorem mapTables_spec (roles : PageRoles image mm tasks count owner) (known : pid < count)
    (enough : tablesNeeded mm.memory (tasks pid) virtAdr ≤ freeCount mm)
    (small : Task.kernelpagesCount.get mm.memory (tasks pid) + 4 ≤ 128) :
    ∃ after last grown,
      mapLevels (tasks pid) virtAdr (ensureDirectory mm (tasks pid))
        (Task.pagedirectory.get (ensureDirectory mm (tasks pid)).memory (tasks pid))
        [pgdShift, pudShift, pmdShift] = (after, pageAt last) ∧
      TablesGrown image tasks count pid (vaPath virtAdr) mm owner after grown ∧
      grown last = some (.table pid ([pgdShift, pudShift, pmdShift].map (tableIndex virtAdr))) ∧
      walk after.memory (tasks pid) ([pgdShift, pudShift, pmdShift].map (tableIndex virtAdr)) =
        some (pageAt last) ∧
      freeCount after + tablesNeeded mm.memory (tasks pid) virtAdr = freeCount mm := by
  obtain ⟨root, between, first, points, root_owned, reached, needed, few, -, -⟩ :=
    @ensureDirectory_ready _ _ _ _ virtAdr _ _ roles known (enough_for_directory enough) small
      (vaPath virtAdr)
  obtain ⟨after, last, grown, run, second, last_owned, last_reached, left⟩ :=
    @mapLevels_spec _ _ _ _ _ _ _ virtAdr _ first.roles known reached root_owned
      [pgdShift, pudShift, pmdShift] (by simp) (by omega) few (vaPath virtAdr) (by
        rw [vaPath_eq, List.nil_append]
        exact List.prefix_append _ _)
  rw [points]
  exact ⟨after, last, grown, run, first.trans second, by simpa using last_owned,
    by simpa using last_reached, by omega⟩

/-- Memory after the page has been stored in the last table. -/
private def leafMemory (memory : Memory) (last slot frame : Nat) : Memory :=
  memory.write (kernelAdr last + 8 * slot) 8 (pageAt frame ||| mmuPteFlags)

/-- Memory after the page has also been recorded. -/
private def mappedMemory (memory : Memory) (task virtAdr last slot frame : Nat) : Memory :=
  recordUserPage (leafMemory memory last slot frame) task (pageAt frame) virtAdr

section Leaf

variable {last slot : Nat} {path : List Nat}

private theorem leafMemory_apply (memory : Memory) (last slot frame : Nat) {address : Nat}
    (off : address < kernelAdr last + 8 * slot ∨ kernelAdr last + 8 * slot + 8 ≤ address) :
    leafMemory memory last slot frame address = memory address := by
  rw [leafMemory, Memory.write_outside _ off]

private theorem leafMemory_task (roles : PageRoles image mm tasks count owner)
    (known : pid < count) (owned : owner last = some (.table pid path))
    (bound : slot < ptrsPerTable) {address : Nat} (lower : tasks pid ≤ address)
    (upper : address < tasks pid + pageSize) :
    leafMemory mm.memory last slot frame address = mm.memory address := by
  have apart := roles.task_apart known (roles.inside owned) (by rw [owned]; simp)
  simp only [ptrsPerTable, pageSize] at bound upper apart
  exact leafMemory_apply _ _ _ _ (by omega)

private theorem mappedMemory_record (roles : PageRoles image mm tasks count owner)
    (known : pid < count) (owned : owner last = some (.table pid path))
    (bound : slot < ptrsPerTable) (inside : frame < mmNumOfPages)
    (few : Task.userpagesCount.get mm.memory (tasks pid) ≤ maxProcessPages) :
    let uses := Task.userpagesCount.get mm.memory (tasks pid)
    let after := mappedMemory mm.memory (tasks pid) virtAdr last slot frame
    Task.userpagesCount.get after (tasks pid) = uses + 1 ∧
      (Task.userpagePhysical uses).get after (tasks pid) = pageAt frame ∧
      (virtAdr < wordSize → (Task.userpageVirtual uses).get after (tasks pid) = virtAdr) ∧
      ∀ address, address < tasks pid + 160 ∨ tasks pid + 164 ≤ address →
        address < tasks pid + 168 + 16 * uses ∨ tasks pid + 184 + 16 * uses ≤ address →
          after address = leafMemory mm.memory last slot frame address := by
  intro uses after
  have range := roles.task_range known
  have same : Task.userpagesCount.get (leafMemory mm.memory last slot frame) (tasks pid) =
      uses := by
    apply Field.get_congr
    · simp only [Task.userpagesCount, pageSize] at range ⊢
      omega
    · intro address lower upper
      simp only [Task.userpagesCount] at lower upper
      exact leafMemory_task roles known owned bound (by omega) (by simp only [pageSize]; omega)
  have recorded := @recordUserPage_spec _ _ (pageAt frame) virtAdr range.2
    (same.trans_lt (lt_of_le_of_lt few (by decide)))
  simp only [same] at recorded
  exact ⟨recorded.1, recorded.2.1 (pageAt_lt inside), recorded.2.2.1, recorded.2.2.2⟩

private theorem mappedMemory_stored (roles : PageRoles image mm tasks count owner)
    (known : pid < count) (owned : owner last = some (.table pid path))
    (bound : slot < ptrsPerTable) (inside : frame < mmNumOfPages)
    (room : Task.userpagesCount.get mm.memory (tasks pid) ≤ maxProcessPages) :
    EntryStored mm tasks count owner
      (mappedMemory mm.memory (tasks pid) virtAdr last slot frame) last slot := by
  obtain ⟨-, -, -, recorded⟩ := @mappedMemory_record _ _ _ _ virtAdr _ _ _ _ _ _ roles known owned
    bound inside room
  simp only [maxProcessPages, ptrsPerTable] at room bound
  constructor
  · intro other other_known
    have apart := roles.task_apart other_known (roles.inside owned) (by rw [owned]; simp)
    apply Field.get_congr (roles.directory_fits other_known)
    intro address lower upper
    simp only [Task.pagedirectory, pageSize] at lower upper apart
    have off_task : address < tasks pid + 160 ∨ tasks pid + 184 +
        16 * Task.userpagesCount.get mm.memory (tasks pid) ≤ address := by
      by_cases same : other = pid
      · subst same
        omega
      · have separate := roles.tasks_apart other_known known same
        simp only [pageSize] at separate
        omega
    rw [recorded address (by omega) (by omega)]
    exact leafMemory_apply _ _ _ _ (by omega)
  · intro table owner_pid base place table_owned place_bound other
    have apart := roles.task_apart known (roles.inside table_owned) (by rw [table_owned]; simp)
    apply roles.descriptor_congr table_owned place_bound
    intro address lower upper
    simp only [ptrsPerTable, pageSize] at place_bound apart
    rw [recorded address (by omega) (by omega)]
    apply leafMemory_apply
    by_cases same : table = last
    · subst same
      have : place ≠ slot := fun equal => other ⟨rfl, equal⟩
      omega
    · have separate := kernelAdr_apart same
      simp only [pageSize] at separate
      omega

private theorem mappedMemory_child (roles : PageRoles image mm tasks count owner)
    (known : pid < count) (owned : owner last = some (.table pid path))
    (bound : slot < ptrsPerTable) (inside : frame < mmNumOfPages)
    (room : Task.userpagesCount.get mm.memory (tasks pid) ≤ maxProcessPages) :
    tableChild (mappedMemory mm.memory (tasks pid) virtAdr last slot frame) (pageAt last) slot =
      some (pageAt frame) := by
  obtain ⟨-, -, -, recorded⟩ := @mappedMemory_record _ _ _ _ virtAdr _ _ _ _ _ _ roles known owned
    bound inside room
  have apart := roles.task_apart known (roles.inside owned) (by rw [owned]; simp)
  refine @tableChild_of_descriptor _ _ _ _ mmuPteFlags bound inside (by decide) ?_
  have same : (leafMemory mm.memory last slot frame).AgreeOn
      (mappedMemory mm.memory (tasks pid) virtAdr last slot frame)
      (kernelAdr last + 8 * slot) 8 := by
    intro address lower upper
    simp only [maxProcessPages, ptrsPerTable, pageSize] at room bound apart
    exact recorded address (by omega) (by omega)
  rw [descriptor_pageAt (roles.inside owned) bound, Memory.read_congr same, leafMemory,
    Memory.read_write_same, Nat.mod_eq_of_lt (pageAt_or_lt inside (by decide))]

private theorem mappedMemory_roles (roles : PageRoles image mm tasks count owner)
    (known : pid < count) (owned : owner last = some (.table pid path)) (full : path.length = 3)
    (bound : slot < ptrsPerTable) (frame_owned : owner frame = some (.user pid (path ++ [slot])))
    (room : Task.userpagesCount.get mm.memory (tasks pid) ≤ maxProcessPages) :
    PageRoles image
      (mm.setMemory (mappedMemory mm.memory (tasks pid) virtAdr last slot frame)) tasks count
      owner := by
  have long : ¬(path ++ [slot]).length ≤ 3 := by
    rw [List.length_append, List.length_singleton]
    omega
  have linked := @PageRoles.link _ _ _ _ _ roles _ frame _ _ _ owned
    (by rw [frame_owned, treeRole, if_neg long]) bound
  rw [descriptorFlags, if_neg long] at linked
  obtain ⟨-, -, -, recorded⟩ := @mappedMemory_record _ _ _ _ virtAdr _ _ _ _ _ _ roles known owned
    bound (roles.inside frame_owned) room
  simp only [maxProcessPages] at room
  have edited := @PageRoles.edit _ _ _ _ _ linked
    (mappedMemory mm.memory (tasks pid) virtAdr last slot frame) (tasks pid + 160)
    (tasks pid + 184 + 16 * Task.userpagesCount.get mm.memory (tasks pid)) ?_ ?_ ?_
  · rw [Mm.setMemory_setMemory] at edited
    exact edited
  · intro address off
    exact recorded address (by omega) (by omega)
  · intro table owner_pid base table_owned
    have apart := roles.task_apart known (roles.inside table_owned) (by rw [table_owned]; simp)
    simp only [pageSize] at apart ⊢
    omega
  · intro other other_known
    by_cases same : other = pid
    · subst same
      omega
    · have apart := roles.tasks_apart other_known known same
      simp only [pageSize] at apart
      omega

end Leaf

private theorem mapPage_eq {after : Mm} {last : Nat} (inside : last < mmNumOfPages)
    (tables : mapLevels (tasks pid) virtAdr (ensureDirectory mm (tasks pid))
      (Task.pagedirectory.get (ensureDirectory mm (tasks pid)).memory (tasks pid))
      [pgdShift, pudShift, pmdShift] = (after, pageAt last)) :
    mapPage mm (tasks pid) virtAdr (pageAt frame) =
      after.setMemory (mappedMemory after.memory (tasks pid) virtAdr last
        (tableIndex virtAdr pageShift) frame) := by
  unfold mapPage mapTableEntry
  simp only [tables]
  rw [kernelAdr_eq inside, tableSlot_kernelAdr inside, mappedMemory, leafMemory]

theorem TablesGrown.userpages {goal : List Nat} {after : Mm} {grown : Nat → Option PageRole}
    (growth : TablesGrown image tasks count pid goal mm owner after grown)
    (roles : PageRoles image mm tasks count owner) (known : pid < count) :
    Task.userpagesCount.get after.memory (tasks pid) =
      Task.userpagesCount.get mm.memory (tasks pid) := by
  have range := roles.task_range known
  apply Field.get_congr
  · simp only [Task.userpagesCount, pageSize] at range ⊢
    omega
  · intro address lower upper
    simp only [Task.userpagesCount] at lower upper
    refine growth.frame address (by omega) (by omega) ?_
    intro index inside page_lower page_upper
    exact ⟨_, roles.task_page known (by omega) (by simp only [pageSize]; omega) inside
      page_lower page_upper, by simp⟩

/-- `map_page` counts the page, also when the array of user pages is full. -/
theorem userpagesCount_mapPage (roles : PageRoles image mm tasks count owner) (known : pid < count)
    (inside : frame < mmNumOfPages)
    (enough : tablesNeeded mm.memory (tasks pid) virtAdr ≤ freeCount mm)
    (small : Task.kernelpagesCount.get mm.memory (tasks pid) + 4 ≤ 128)
    (few : Task.userpagesCount.get mm.memory (tasks pid) ≤ maxProcessPages) :
    Task.userpagesCount.get (mapPage mm (tasks pid) virtAdr (pageAt frame)).memory (tasks pid) =
      Task.userpagesCount.get mm.memory (tasks pid) + 1 := by
  obtain ⟨after, last, grown, tables, growth, last_owned, reached, left⟩ :=
    mapTables_spec roles known enough small
  have same_uses := growth.userpages roles known
  rw [← same_uses] at few
  have uses := (@mappedMemory_record _ _ _ _ virtAdr _ _ _ _ _ _ growth.roles known last_owned
    (tableIndex_lt virtAdr pageShift) inside few).1
  rw [mapPage_eq (growth.roles.inside last_owned) tables, Mm.memory_setMemory, uses, same_uses]

/-- `map_page` while enough pages are left for the missing tables.  With a full array of user
pages only the number of tables that it keeps beside them is lost. -/
theorem mapPage_entered (roles : PageRoles image mm tasks count owner) (known : pid < count)
    (owned : owner frame = some (.user pid (vaPath virtAdr)))
    (enough : tablesNeeded mm.memory (tasks pid) virtAdr ≤ freeCount mm)
    (small : Task.kernelpagesCount.get mm.memory (tasks pid) + 4 ≤ 128)
    (few : Task.userpagesCount.get mm.memory (tasks pid) ≤ maxProcessPages) :
    ∃ grown, PageEntered image tasks count pid virtAdr frame mm owner
        (mapPage mm (tasks pid) virtAdr (pageAt frame)) grown ∧
      (Task.userpagesCount.get mm.memory (tasks pid) < maxProcessPages →
        Task.kernelpagesCount.get (mapPage mm (tasks pid) virtAdr (pageAt frame)).memory
            (tasks pid) =
          Task.kernelpagesCount.get mm.memory (tasks pid) +
            tablesNeeded mm.memory (tasks pid) virtAdr) := by
  obtain ⟨after, last, grown, tables, growth, last_owned, reached, left⟩ :=
    mapTables_spec roles known enough small
  have range := roles.task_range known
  have bound := tableIndex_lt virtAdr pageShift
  have same_uses := growth.userpages roles known
  have few_after : Task.userpagesCount.get after.memory (tasks pid) ≤ maxProcessPages := by
    rw [same_uses]
    exact few
  have frame_owned := growth.kept owned
  have inside := growth.roles.inside frame_owned
  have last_inside := growth.roles.inside last_owned
  obtain ⟨uses, physical, virtual, recorded⟩ := @mappedMemory_record _ _ _ _ virtAdr _ _ _ _ _ _
    growth.roles known last_owned bound inside few_after
  have stored := @mappedMemory_stored _ _ _ _ virtAdr _ _ _ _ _ _ growth.roles known last_owned
    bound inside few_after
  have child := @mappedMemory_child _ _ _ _ virtAdr _ _ _ _ _ _ growth.roles known last_owned bound
    inside few_after
  have mapped_roles := @mappedMemory_roles _ _ _ _ virtAdr _ _ _ _ _ _ growth.roles known last_owned
    (by simp) bound frame_owned few_after
  simp only [same_uses] at uses physical virtual recorded
  have counted := growth.counted
  rw [mapPage_eq last_inside tables]
  have shorter : ∀ {path : List Nat}, path.length < 4 →
      walk (mappedMemory after.memory (tasks pid) virtAdr last (tableIndex virtAdr pageShift) frame)
        (tasks pid) path = walk after.memory (tasks pid) path := by
    intro path short
    refine stored.walk_avoid growth.roles last_owned known (by omega) (Or.inr ?_)
    rw [← vaPath_eq]
    intro longer
    have := longer.length_le
    rw [length_vaPath] at this
    omega
  refine ⟨grown, ⟨mapped_roles, growth.kept, growth.added, ?_, ?_, ?_, ?_, ?_, ?_, ?_, ?_⟩, ?_⟩
  · intro other path other_known long
    rw [Mm.memory_setMemory]
    by_cases here : other = pid ∧ path = vaPath virtAdr
    · obtain ⟨rfl, rfl⟩ := here
      rw [if_pos ⟨rfl, rfl⟩, vaPath_eq, stored.walk_over growth.roles known (by simp) reached [],
        child, Option.bind_some, RadixTree.lookup_nil]
    · rw [if_neg here, ← growth.walks other_known long]
      refine stored.walk_avoid growth.roles last_owned other_known (by omega) ?_
      rw [← vaPath_eq]
      by_contra both
      push Not at both
      refine here ⟨both.1, ?_⟩
      exact (both.2.eq_of_length (by rw [long, length_vaPath])).symm
  · intro path page short before
    rw [Mm.memory_setMemory, shorter short]
    exact growth.tables short before
  · intro path page short present
    rw [Mm.memory_setMemory, shorter short] at present
    exact growth.along short present
  · rw [Mm.memory_setMemory, uses]
  · rw [Mm.memory_setMemory, physical]
  · intro small_va
    rw [Mm.memory_setMemory, virtual small_va]
  · rw [freeCount_congr (Mm.pageBitmap_setMemory _ _), left]
  · intro address off_directory off_user off_tables untouched
    rw [Mm.memory_setMemory]
    rw [recorded address (by omega) off_user]
    rw [leafMemory_apply, growth.frame address (by omega) (by omega) untouched]
    by_contra inside_slot
    simp only [ptrsPerTable] at bound
    obtain ⟨role, role_owned, other⟩ := untouched last last_inside (by omega)
      (by simp only [pageSize]; omega)
    have clash := (growth.kept role_owned).symm.trans last_owned
    exact other _ (Option.some.inj clash)
  · intro room
    have same_tables : Task.kernelpagesCount.get (mappedMemory after.memory (tasks pid) virtAdr last
        (tableIndex virtAdr pageShift) frame) (tasks pid) =
          Task.kernelpagesCount.get after.memory (tasks pid) := by
      simp only [maxProcessPages] at room
      apply Field.get_congr
      · simp only [Task.kernelpagesCount, pageSize] at range ⊢
        omega
      · intro address lower upper
        simp only [Task.kernelpagesCount] at lower upper
        rw [recorded address (by omega) (by omega)]
        exact leafMemory_task growth.roles known last_owned bound (by omega)
          (by simp only [pageSize]; omega)
    rw [Mm.memory_setMemory, same_tables]
    omega

/-- `map_page` while enough pages are left for the missing tables and the array of user pages has
room. -/
theorem mapPage_spec (roles : PageRoles image mm tasks count owner) (known : pid < count)
    (owned : owner frame = some (.user pid (vaPath virtAdr)))
    (enough : tablesNeeded mm.memory (tasks pid) virtAdr ≤ freeCount mm)
    (small : Task.kernelpagesCount.get mm.memory (tasks pid) + 4 ≤ 128)
    (room : Task.userpagesCount.get mm.memory (tasks pid) < maxProcessPages) :
    ∃ grown, PageMapped image tasks count pid virtAdr frame mm owner
      (mapPage mm (tasks pid) virtAdr (pageAt frame)) grown := by
  obtain ⟨grown, entered, counted⟩ := mapPage_entered roles known owned enough small room.le
  have kernelpages := counted room
  refine ⟨grown, entered.roles, entered.kept, entered.added, entered.walks, entered.tables,
    entered.along, kernelpages, entered.userpages, entered.physical, entered.virtual, entered.left,
    ?_⟩
  rw [kernelpages]
  exact entered.frame

theorem PageMapped.other_task {after : Mm} {grown : Nat → Option PageRole}
    (mapped : PageMapped image tasks count pid virtAdr frame mm owner after grown)
    (roles : PageRoles image mm tasks count owner) (known : pid < count)
    (small : Task.kernelpagesCount.get mm.memory (tasks pid) +
      tablesNeeded mm.memory (tasks pid) virtAdr ≤ 128)
    (room : Task.userpagesCount.get mm.memory (tasks pid) < maxProcessPages)
    {other : Nat} (other_known : other < count) (differ : other ≠ pid) :
    mm.memory.AgreeOn after.memory (tasks other) pageSize := by
  intro address lower upper
  have apart := roles.tasks_apart other_known known differ
  have tables := mapped.kernelpages
  simp only [maxProcessPages, pageSize] at room apart upper
  refine mapped.frame address (by omega) (by omega) (by omega) ?_
  intro index inside page_lower page_upper
  exact ⟨_, roles.task_page other_known lower (by simp only [pageSize]; omega) inside page_lower
    page_upper, by simp⟩

theorem PageMapped.other_field {after : Mm} {grown : Nat → Option PageRole}
    (mapped : PageMapped image tasks count pid virtAdr frame mm owner after grown)
    (roles : PageRoles image mm tasks count owner) (known : pid < count)
    (small : Task.kernelpagesCount.get mm.memory (tasks pid) +
      tablesNeeded mm.memory (tasks pid) virtAdr ≤ 128)
    (room : Task.userpagesCount.get mm.memory (tasks pid) < maxProcessPages)
    {other : Nat} (other_known : other < count) (differ : other ≠ pid) {field : Field}
    (fits : field.offset + field.width ≤ pageSize) :
    field.get after.memory (tasks other) = field.get mm.memory (tasks other) := by
  have range := roles.task_range other_known
  simp only [pageSize] at range fits
  refine Field.get_congr (by omega) ?_
  refine (mapped.other_task roles known small room other_known differ).mono (by omega) ?_
  simp only [pageSize]
  omega

end MapPage

end PellOs
