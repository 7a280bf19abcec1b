import PellOs.Mm.UserPage

/-!
# Copying an address space

`copy_virtual_memory` allocates one page of the child for every recorded user page of the current
task and copies through the recorded virtual address.  The records, tables and user pages of the
current task are in pages of other roles than those that are written, so every copy reads the
contents from before the first one.
-/

namespace PellOs

/-! ## Copying through virtual addresses -/

/-- `memcpy` from a virtual range whose bytes are found at a kernel address throughout. -/
theorem memcpyVirtual_eq {ttbr0 dest src source size : Nat} {memory : Memory}
    (dest_fits : dest + size < wordSize) (src_fits : src + size < wordSize)
    (apart : source + size ≤ dest ∨ dest + size ≤ source)
    (reads : ∀ other : Memory, (∀ address, address < dest ∨ dest + size ≤ address →
      other address = memory address) → ∀ offset, offset < size →
        readVirtual other ttbr0 (src + offset) = some (other (source + offset))) :
    memcpyVirtual ttbr0 memory dest src size = some (memory.copy dest source size) := by
  have run : ∀ rest copied, copied + rest = size →
      memcpyVirtual ttbr0 (memory.copy dest source copied) (dest + copied) (src + copied) rest =
        some (memory.copy dest source size) := by
    intro rest
    induction rest with
    | zero =>
        intro copied whole
        rw [memcpyVirtual, ← whole, Nat.add_zero]
    | succ rest ih =>
        intro copied whole
        have byte := reads (memory.copy dest source copied) (by
          intro address off
          exact memory.copy_outside (by omega)) copied (by omega)
        have source_byte : memory.copy dest source copied (source + copied) =
            memory (source + copied) := memory.copy_outside (by omega)
        rw [memcpyVirtual, byte, Option.bind_eq_bind, Option.bind_some, source_byte,
          ← memory.copy_succ, Nat.mod_eq_of_lt (by omega), Nat.mod_eq_of_lt (by omega),
          Nat.add_assoc, Nat.add_assoc]
        exact ih (copied + 1) (by omega)
  have start := run size 0 (by omega)
  rwa [memory.copy_zero, Nat.add_zero, Nat.add_zero] at start

theorem memcpyVirtual_outside {ttbr0 dest src size : Nat} {memory after : Memory}
    (fits : dest + size < wordSize)
    (result : memcpyVirtual ttbr0 memory dest src size = some after) {address : Nat}
    (off : address < dest ∨ dest + size ≤ address) : after address = memory address := by
  induction size generalizing memory dest src with
  | zero =>
      rw [memcpyVirtual] at result
      rw [Option.some.inj result]
  | succ size ih =>
      rw [memcpyVirtual] at result
      obtain ⟨byte, -, rest⟩ := Option.bind_eq_some_iff.mp result
      rw [Nat.mod_eq_of_lt (by omega)] at rest
      rw [ih (by omega) rest (by omega)]
      exact Memory.writeByte_of_ne _ (by omega)

/-! ## User pages of the current task -/

/-- The recorded virtual addresses. -/
def recordedVirtual (memory : Memory) (task index : Nat) : Nat :=
  (Task.userpageVirtual index).get memory task

/-- The positions of the tables on the way to the first recorded addresses. -/
def recordedTables (memory : Memory) (task count : Nat) : Finset (List Nat) :=
  (Finset.range count).biUnion fun index => tablePositions (recordedVirtual memory task index)

theorem mem_recordedTables {memory : Memory} {task count : Nat} {path : List Nat} :
    path ∈ recordedTables memory task count ↔
      ∃ index, index < count ∧ path ∈ tablePositions (recordedVirtual memory task index) := by
  simp [recordedTables]

theorem recordedTables_zero (memory : Memory) (task : Nat) : recordedTables memory task 0 = ∅ := rfl

theorem recordedTables_succ (memory : Memory) (task count : Nat) :
    recordedTables memory task (count + 1) =
      recordedTables memory task count ∪ tablePositions (recordedVirtual memory task count) := by
  rw [recordedTables, Finset.range_add_one, Finset.biUnion_insert, Finset.union_comm]
  rfl

theorem recordedTables_mono (memory : Memory) (task : Nat) {few many : Nat} (le : few ≤ many) :
    recordedTables memory task few ⊆ recordedTables memory task many := by
  intro path member
  obtain ⟨index, bound, on_path⟩ := mem_recordedTables.mp member
  exact mem_recordedTables.mpr ⟨index, by omega, on_path⟩

theorem card_recordedTables_le (memory : Memory) (task count : Nat) :
    (recordedTables memory task count).card ≤ 4 * count := by
  induction count with
  | zero => rw [recordedTables_zero, Finset.card_empty]
  | succ count ih =>
      have few : (tablePositions (recordedVirtual memory task count)).card ≤ 4 :=
        Finset.card_image_le
      have total := Finset.card_union_le (recordedTables memory task count)
        (tablePositions (recordedVirtual memory task count))
      rw [recordedTables_succ]
      omega

/-- The recorded user pages are mapped at page addresses of the user half. -/
structure RecordsMapped (memory : Memory) (task : Nat) : Prop where
  few : Task.userpagesCount.get memory task ≤ maxProcessPages
  aligned : ∀ {index}, index < Task.userpagesCount.get memory task →
    recordedVirtual memory task index % pageSize = 0
  user : ∀ {index}, index < Task.userpagesCount.get memory task →
    recordedVirtual memory task index < 2 ^ 48
  mapped : ∀ {index}, index < Task.userpagesCount.get memory task →
    (walk memory task (vaPath (recordedVirtual memory task index))).isSome

/-! ## The pages taken so far -/

/-- What the loop of `copy_virtual_memory` has taken after `copied` pages, whatever it has copied
into them: the child has a page at each of the first recorded addresses, on tables of its own. -/
structure PagesTaken (image : Image) (tasks : Nat → Nat) (child parent : Nat) (start : Mm)
    (owner : Nat → Option PageRole) (copied : Nat) (mm : Mm) (grown : Nat → Option PageRole) :
    Prop where
  roles : PageRoles image mm tasks (child + 1) grown
  kept : ∀ {index role}, owner index = some role → grown index = some role
  added : ∀ {index role}, grown index = some role → owner index = some role ∨
    owner index = none ∧ ∃ path, role = .user child path ∨ role = .table child path
  other_tasks : ∀ {other}, other < child →
    start.memory.AgreeOn mm.memory (tasks other) pageSize
  own_task : ∀ address, tasks child ≤ address → address < tasks child + pageSize →
    address < tasks child + 152 ∨ tasks child + 1024 ≤ address →
      mm.memory address = start.memory address
  pages : ∀ {index role}, owner index = some role → (∀ other, role ≠ .taskStruct other) →
    (∀ path, role ≠ .table child path) →
      start.memory.AgreeOn mm.memory (kernelAdr index) pageSize
  walks : ∀ {other path}, other < child → path.length = 4 →
    walk mm.memory (tasks other) path = walk start.memory (tasks other) path
  tables : ∀ {path}, path.length < 4 → ((walk mm.memory (tasks child) path).isSome ↔
    path ∈ recordedTables start.memory (tasks parent) copied)
  userpages : Task.userpagesCount.get mm.memory (tasks child) = copied
  kernelpages : Task.kernelpagesCount.get mm.memory (tasks child) =
    (recordedTables start.memory (tasks parent) copied).card
  left : freeCount mm + copied + (recordedTables start.memory (tasks parent) copied).card =
    freeCount start

section Take

variable {image : Image} {tasks : Nat → Nat} {child parent copied : Nat} {start mm : Mm}
  {owner grown : Nat → Option PageRole}

theorem PagesTaken.refl (roles : PageRoles image start tasks (child + 1) owner)
    (directory : Task.pagedirectory.get start.memory (tasks child) = 0)
    (userpages : Task.userpagesCount.get start.memory (tasks child) = 0)
    (kernelpages : Task.kernelpagesCount.get start.memory (tasks child) = 0) :
    PagesTaken image tasks child parent start owner 0 start owner where
  roles := roles
  kept owned := owned
  added owned := Or.inl owned
  other_tasks _ := Memory.AgreeOn.refl _ _ _
  own_task _ _ _ _ := rfl
  pages _ _ _ := Memory.AgreeOn.refl _ _ _
  walks _ _ := rfl
  tables _ := by
    rw [walk, if_pos directory, recordedTables_zero]
    simp
  userpages := userpages
  kernelpages := by
    rw [kernelpages, recordedTables_zero, Finset.card_empty]
  left := by
    have none_yet : (recordedTables start.memory (tasks parent) 0).card = 0 := Finset.card_empty
    omega

theorem PagesTaken.tablesNeeded_eq
    (taken : PagesTaken image tasks child parent start owner copied mm grown) :
    (recordedTables start.memory (tasks parent) copied).card +
        tablesNeeded mm.memory (tasks child) (recordedVirtual start.memory (tasks parent) copied) =
      (recordedTables start.memory (tasks parent) (copied + 1)).card := by
  rw [recordedTables_succ, ← card_add_tablesNeeded fun short => taken.tables short]

/-- One more page has been added, and anything may have been written to it. -/
theorem PagesTaken.extend
    (taken : PagesTaken image tasks child parent start owner copied mm grown)
    (few : copied < maxProcessPages) {frame : Nat} {after : Mm} {next : Nat → Option PageRole}
    (added : PageAdded image tasks (child + 1) child
      (recordedVirtual start.memory (tasks parent) copied) mm grown frame after next)
    {memory : Memory} (confined : ∀ address,
      address < kernelAdr frame ∨ kernelAdr frame + pageSize ≤ address →
        memory address = after.memory address) :
    PagesTaken image tasks child parent start owner (copied + 1) (after.setMemory memory) next := by
  have roles := taken.roles
  have fresh_ne : ∀ {index role}, grown index = some role → index ≠ frame := by
    rintro index role owned rfl
    rw [added.fresh.2] at owned
    cases owned
  obtain ⟨final_roles, same_walks⟩ := added.roles.edit_page added.owned (by simp) (by simp) confined
  have task_same : ∀ {pid}, pid < child + 1 →
      after.memory.AgreeOn memory (tasks pid) pageSize := by
    intro pid known address lower upper
    have apart := added.roles.task_apart known added.fresh.1 (by rw [added.owned]; simp)
    exact confined address (by omega)
  have page_same : ∀ {index role}, grown index = some role →
      after.memory.AgreeOn memory (kernelAdr index) pageSize := by
    intro index role owned address lower upper
    have apart := kernelAdr_apart (fresh_ne owned)
    exact confined address (by omega)
  have field_same : ∀ {field : Field}, field.offset + field.width ≤ pageSize →
      field.get memory (tasks child) = field.get after.memory (tasks child) := by
    intro field fits
    have range := roles.task_range (Nat.lt_succ_self child)
    simp only [pageSize] at fits range
    refine Field.get_congr (by omega) ((task_same (Nat.lt_succ_self child)).mono (by omega) ?_)
    simp only [pageSize]
    omega
  have more := taken.tablesNeeded_eq
  have uses := taken.userpages
  have tables := added.kernelpages
  rw [taken.kernelpages, more] at tables
  have tables_le := card_recordedTables_le start.memory (tasks parent) (copied + 1)
  simp only [maxProcessPages] at few
  refine ⟨final_roles, fun owned => added.kept (taken.kept owned), ?_, ?_, ?_, ?_, ?_, ?_, ?_, ?_,
    ?_⟩
  · intro index role owned
    rcases added.added owned with before | ⟨unused, user | ⟨path, table⟩⟩
    · exact taken.added before
    · refine Or.inr ⟨?_, _, Or.inl user⟩
      by_contra used
      obtain ⟨old, old_owned⟩ := Option.ne_none_iff_exists'.mp used
      rw [taken.kept old_owned] at unused
      cases unused
    · refine Or.inr ⟨?_, path, Or.inr table⟩
      by_contra used
      obtain ⟨old, old_owned⟩ := Option.ne_none_iff_exists'.mp used
      rw [taken.kept old_owned] at unused
      cases unused
  · intro other other_known
    exact ((taken.other_tasks other_known).trans
      (added.other_tasks (by omega) (by omega))).trans (task_same (by omega))
  · intro address lower upper off
    rw [Mm.memory_setMemory, task_same (Nat.lt_succ_self child) address lower upper,
      added.own_task address lower upper (by omega) (by omega) (by omega)]
    exact taken.own_task address lower upper off
  · intro index role owned not_task not_table
    have grown_owned := taken.kept owned
    exact ((taken.pages owned not_task not_table).trans
      (added.pages grown_owned not_task not_table)).trans (page_same grown_owned)
  · intro other path other_known long
    rw [Mm.memory_setMemory, same_walks (by omega) (by omega), added.walks (by omega) long,
      if_neg (fun both => Nat.ne_of_lt other_known both.1), taken.walks other_known long]
  · intro path short
    rw [Mm.memory_setMemory, same_walks (Nat.lt_succ_self child) (by omega), added.tables short,
      taken.tables short, recordedTables_succ, Finset.mem_union]
  · rw [Mm.memory_setMemory, field_same (by decide), added.userpages, uses]
  · rw [Mm.memory_setMemory, field_same (by decide), tables]
  · have left := taken.left
    have after_left := added.left
    rw [freeCount_congr (Mm.pageBitmap_setMemory _ _)]
    omega

theorem PagesTaken.parent_field
    (taken : PagesTaken image tasks child parent start owner copied mm grown)
    (parent_known : parent < child) {field : Field}
    (fits : field.offset + field.width ≤ pageSize) :
    field.get mm.memory (tasks parent) = field.get start.memory (tasks parent) := by
  have range := taken.roles.task_range (by omega : parent < _)
  simp only [pageSize] at fits range
  refine Field.get_congr (by omega) ((taken.other_tasks parent_known).mono (by omega) ?_)
  simp only [pageSize]
  omega

/-- The loop of `copy_virtual_memory` takes a page for every recorded address when enough pages are
left, and if it does not fault it has written to these pages. -/
theorem copyPages_taken {fuel ttbr0 : Nat} {after : Mm} {status : Int}
    (taken : PagesTaken image tasks child parent start owner copied mm grown)
    (parent_known : parent < child)
    (few : Task.userpagesCount.get start.memory (tasks parent) ≤ maxProcessPages)
    (enough : Task.userpagesCount.get start.memory (tasks parent) +
      (recordedTables start.memory (tasks parent)
        (Task.userpagesCount.get start.memory (tasks parent))).card ≤ freeCount start)
    (begun : copied ≤ Task.userpagesCount.get start.memory (tasks parent))
    (result : copyPages (tasks parent) (tasks child) ttbr0 fuel copied mm = some (after, status)) :
    ∃ final, PagesTaken image tasks child parent start owner
      (Task.userpagesCount.get start.memory (tasks parent)) after final := by
  induction fuel generalizing copied mm grown with
  | zero => cases result
  | succ fuel ih =>
      have same_count := @PagesTaken.parent_field _ _ _ _ _ _ _ _ _ taken parent_known
        Task.userpagesCount (by decide)
      simp only [maxProcessPages] at few
      rw [copyPages, same_count] at result
      by_cases more : copied < Task.userpagesCount.get start.memory (tasks parent)
      · have tables := Finset.card_le_card
          (recordedTables_mono start.memory (tasks parent) (Nat.succ_le_of_lt more))
        have needed := taken.tablesNeeded_eq
        have left := taken.left
        have uses := taken.userpages
        have own := taken.kernelpages
        have own_le := card_recordedTables_le start.memory (tasks parent) copied
        simp only [Nat.succ_eq_add_one] at tables
        obtain ⟨frame, mapped, next, call, added⟩ := @allocateUserPage_spec _ _ _ _
          (recordedVirtual start.memory (tasks parent) copied) _ _ taken.roles
          (Nat.lt_succ_self child) (by omega) (by omega)
          (by simp only [maxProcessPages]; omega)
        have virtual : (Task.userpageVirtual copied).get mm.memory (tasks parent) =
            recordedVirtual start.memory (tasks parent) copied := by
          apply taken.parent_field parent_known
          simp only [Task.userpageVirtual, Task.userpagesOffset, pageSize]
          omega
        simp only [virtual, call] at result
        rw [if_pos ⟨by omega, more⟩, if_neg (kernelAdr_ne_zero frame)] at result
        split at result
        · cases result
        · next memory copy =>
            have range := kernelAdr_range added.fresh.1
            have low : 0 < pageSize := by decide
            exact ih (taken.extend (by simp only [maxProcessPages]; omega) added
              fun address off => memcpyVirtual_outside (by omega) copy off) (by omega) result
      · obtain rfl : copied = Task.userpagesCount.get start.memory (tasks parent) := by omega
        simp only [lt_self_iff_false, and_false, if_false] at result
        obtain ⟨rfl, -⟩ := Prod.mk.inj (Option.some.inj result)
        exact ⟨grown, taken⟩

end Take

/-! ## The copies made so far -/

/-- State of the loop of `copy_virtual_memory` after `copied` pages: the child has a page with the
original contents at each of the first recorded addresses, on tables of its own. -/
structure PagesCopied (image : Image) (tasks : Nat → Nat) (child parent : Nat) (start : Mm)
    (owner : Nat → Option PageRole) (copied : Nat) (mm : Mm) (grown : Nat → Option PageRole) :
    Prop where
  roles : PageRoles image mm tasks (child + 1) grown
  kept : ∀ {index role}, owner index = some role → grown index = some role
  added : ∀ {index role}, grown index = some role → owner index = some role ∨
    owner index = none ∧ ∃ path, role = .user child path ∨ role = .table child path
  other_tasks : ∀ {other}, other < child →
    start.memory.AgreeOn mm.memory (tasks other) pageSize
  own_task : ∀ address, tasks child ≤ address → address < tasks child + pageSize →
    address < tasks child + 152 ∨ tasks child + 1024 ≤ address →
      mm.memory address = start.memory address
  pages : ∀ {index role}, owner index = some role → (∀ other, role ≠ .taskStruct other) →
    (∀ path, role ≠ .table child path) →
      start.memory.AgreeOn mm.memory (kernelAdr index) pageSize
  walks : ∀ {other path}, other < child → path.length = 4 →
    walk mm.memory (tasks other) path = walk start.memory (tasks other) path
  copies : ∀ {number}, number < copied →
    let path := vaPath (recordedVirtual start.memory (tasks parent) number)
    ∃ index original, walk mm.memory (tasks child) path = some (pageAt index) ∧
      owner index = none ∧ walk start.memory (tasks parent) path = some (pageAt original) ∧
      ∀ offset, offset < pageSize →
        mm.memory (kernelAdr index + offset) = start.memory (kernelAdr original + offset)
  only : ∀ {path page}, path.length = 4 → walk mm.memory (tasks child) path = some page →
    ∃ number, number < copied ∧
      path = vaPath (recordedVirtual start.memory (tasks parent) number)
  tables : ∀ {path}, path.length < 4 → ((walk mm.memory (tasks child) path).isSome ↔
    path ∈ recordedTables start.memory (tasks parent) copied)
  userpages : Task.userpagesCount.get mm.memory (tasks child) = copied
  kernelpages : Task.kernelpagesCount.get mm.memory (tasks child) =
    (recordedTables start.memory (tasks parent) copied).card
  left : freeCount mm + copied + (recordedTables start.memory (tasks parent) copied).card =
    freeCount start

section Copy

variable {image : Image} {tasks : Nat → Nat} {child parent copied : Nat} {start mm : Mm}
  {owner grown : Nat → Option PageRole}

theorem PagesCopied.taken
    (copies : PagesCopied image tasks child parent start owner copied mm grown) :
    PagesTaken image tasks child parent start owner copied mm grown :=
  ⟨copies.roles, copies.kept, copies.added, copies.other_tasks, copies.own_task, copies.pages,
    copies.walks, copies.tables, copies.userpages, copies.kernelpages, copies.left⟩

theorem PagesTaken.filled (taken : PagesTaken image tasks child parent start owner copied mm grown)
    (copies : ∀ {number}, number < copied →
      let path := vaPath (recordedVirtual start.memory (tasks parent) number)
      ∃ index original, walk mm.memory (tasks child) path = some (pageAt index) ∧
        owner index = none ∧ walk start.memory (tasks parent) path = some (pageAt original) ∧
        ∀ offset, offset < pageSize →
          mm.memory (kernelAdr index + offset) = start.memory (kernelAdr original + offset))
    (only : ∀ {path page}, path.length = 4 → walk mm.memory (tasks child) path = some page →
      ∃ number, number < copied ∧
        path = vaPath (recordedVirtual start.memory (tasks parent) number)) :
    PagesCopied image tasks child parent start owner copied mm grown :=
  ⟨taken.roles, taken.kept, taken.added, taken.other_tasks, taken.own_task, taken.pages,
    taken.walks, copies, only, taken.tables, taken.userpages, taken.kernelpages, taken.left⟩

theorem PagesCopied.refl (roles : PageRoles image start tasks (child + 1) owner)
    (directory : Task.pagedirectory.get start.memory (tasks child) = 0)
    (userpages : Task.userpagesCount.get start.memory (tasks child) = 0)
    (kernelpages : Task.kernelpagesCount.get start.memory (tasks child) = 0) :
    PagesCopied image tasks child parent start owner 0 start owner := by
  refine (PagesTaken.refl roles directory userpages kernelpages).filled ?_ ?_
  · intro number bound
    omega
  · intro path page _ reached
    rw [walk, if_pos directory] at reached
    cases reached

/-- The bytes of the current task's page at a recorded address, read through that address. -/
private theorem readVirtual_recorded (roles : PageRoles image mm tasks (child + 1) owner)
    (parent_known : parent < child + 1) {virtAdr original offset : Nat}
    (aligned : virtAdr % pageSize = 0) (user : virtAdr < 2 ^ 48) (bound : offset < pageSize)
    (reached : walk mm.memory (tasks parent) (vaPath virtAdr) = some (pageAt original)) :
    readVirtual mm.memory (Task.pagedirectory.get mm.memory (tasks parent)) (virtAdr + offset) =
      some (mm.memory (kernelAdr original + offset)) := by
  have present : Task.pagedirectory.get mm.memory (tasks parent) ≠ 0 := by
    intro absent
    rw [walk, if_pos absent] at reached
    cases reached
  obtain ⟨index, same, owned⟩ := roles.walk_placed parent_known (by simp) reached
  obtain rfl := pageAt_injective same
  have range := kernelAdr_range (roles.inside owned)
  have low : ¬virtualAddressStart ≤ virtAdr + offset := by
    have : 2 ^ 48 + pageSize ≤ virtualAddressStart := by decide
    omega
  have same_path : vaPath (virtAdr + offset) = vaPath virtAdr := by
    rw [vaPath_eq_iff]
    simp only [pageSize] at aligned bound
    omega
  have still_user : virtAdr + offset < 2 ^ 48 := by
    simp only [pageSize] at aligned bound
    omega
  have page_offset : (virtAdr + offset) % pageSize = offset := by
    simp only [pageSize] at aligned bound ⊢
    omega
  rw [readVirtual, if_neg low, roles.translate_directory parent_known still_user present, same_path,
    reached]
  simp only [Option.map_some, page_offset]
  have address : (pageAt original + offset + virtualAddressStart) % wordSize =
      kernelAdr original + offset := by
    simp only [kernelAdr, pageSize] at range bound ⊢
    rw [Nat.mod_eq_of_lt (by omega)]
    omega
  rw [address]

private theorem memcpyVirtual_recorded (roles : PageRoles image mm tasks (child + 1) owner)
    (parent_known : parent < child + 1) {virtAdr original frame : Nat} {path : List Nat}
    (aligned : virtAdr % pageSize = 0) (user : virtAdr < 2 ^ 48)
    (reached : walk mm.memory (tasks parent) (vaPath virtAdr) = some (pageAt original))
    (owned : owner frame = some (.user child path)) (differ : original ≠ frame) :
    memcpyVirtual (Task.pagedirectory.get mm.memory (tasks parent)) mm.memory (kernelAdr frame)
      virtAdr pageSize =
        some (mm.memory.copy (kernelAdr frame) (kernelAdr original) pageSize) := by
  have range := kernelAdr_range (roles.inside owned)
  have low : 2 ^ 48 + 2 * pageSize ≤ wordSize := by decide
  have task_apart := roles.task_apart parent_known (roles.inside owned) (by rw [owned]; simp)
  have small : 0 < pageSize := by decide
  apply memcpyVirtual_eq (by omega) (by omega) (kernelAdr_apart differ)
  intro other confined offset inside
  obtain ⟨other_roles, same_walks⟩ := roles.edit_page owned (by simp) (by simp) confined
  have same_directory : Task.pagedirectory.get mm.memory (tasks parent) =
      Task.pagedirectory.get other (tasks parent) := by
    symm
    apply Field.get_congr (roles.directory_fits parent_known)
    intro address lower upper
    simp only [Task.pagedirectory, pageSize] at lower upper task_apart confined
    exact confined address (by omega)
  have read := readVirtual_recorded other_roles parent_known aligned user inside (by
    rw [Mm.memory_setMemory, same_walks parent_known (by simp), reached])
  rw [Mm.memory_setMemory] at read
  rw [same_directory, read]

private theorem PagesCopied.extend
    (copies : PagesCopied image tasks child parent start owner copied mm grown)
    (parent_known : parent < child) (few : copied < maxProcessPages) {frame original : Nat}
    {after : Mm} {next : Nat → Option PageRole}
    (added : PageAdded image tasks (child + 1) child
      (recordedVirtual start.memory (tasks parent) copied) mm grown frame after next)
    (reached : walk start.memory (tasks parent)
      (vaPath (recordedVirtual start.memory (tasks parent) copied)) = some (pageAt original))
    (original_owned : grown original = some (.user parent
      (vaPath (recordedVirtual start.memory (tasks parent) copied)))) :
    PagesCopied image tasks child parent start owner (copied + 1)
      (after.setMemory (after.memory.copy (kernelAdr frame) (kernelAdr original) pageSize))
      next := by
  have roles := copies.roles
  have fresh_ne : ∀ {index role}, grown index = some role → index ≠ frame := by
    rintro index role owned rfl
    rw [added.fresh.2] at owned
    cases owned
  have confined : ∀ address, address < kernelAdr frame ∨ kernelAdr frame + pageSize ≤ address →
      after.memory.copy (kernelAdr frame) (kernelAdr original) pageSize address =
        after.memory address := fun address off => after.memory.copy_outside off
  obtain ⟨-, same_walks⟩ := added.roles.edit_page added.owned (by simp) (by simp) confined
  have page_same : ∀ {index role}, grown index = some role → after.memory.AgreeOn
      (after.memory.copy (kernelAdr frame) (kernelAdr original) pageSize) (kernelAdr index)
      pageSize := by
    intro index role owned
    apply Memory.agreeOn_copy
    exact kernelAdr_apart (fresh_ne owned)
  have child_walk : ∀ {path}, path.length = 4 →
      walk (after.memory.copy (kernelAdr frame) (kernelAdr original) pageSize) (tasks child) path =
        if path = vaPath (recordedVirtual start.memory (tasks parent) copied) then
          some (pageAt frame)
        else walk mm.memory (tasks child) path := by
    intro path long
    rw [same_walks (Nat.lt_succ_self child) (by omega), added.walks (Nat.lt_succ_self child) long]
    simp only [true_and]
  refine (copies.taken.extend few added confined).filled ?_ ?_
  · intro number bound path
    rw [Mm.memory_setMemory, child_walk (length_vaPath _)]
    by_cases here : path = vaPath (recordedVirtual start.memory (tasks parent) copied)
    · rw [if_pos here, here]
      refine ⟨frame, original, rfl, ?_, reached, ?_⟩
      · by_contra used
        obtain ⟨old, old_owned⟩ := Option.ne_none_iff_exists'.mp used
        exact fresh_ne (copies.kept old_owned) rfl
      · intro offset inside
        have owned_start : owner original = some (.user parent
            (vaPath (recordedVirtual start.memory (tasks parent) copied))) := by
          rcases copies.added original_owned with before | ⟨_, position, user | table⟩
          · exact before
          · exact absurd (PageRole.user.inj user).1 (by omega)
          · cases table
        rw [after.memory.copy_inside _ _ inside,
          added.pages original_owned (by simp) (by simp) _ (by omega) (by omega),
          copies.pages owned_start (by simp) (by simp) _ (by omega) (by omega)]
    · rw [if_neg here]
      have earlier : number < copied := by
        by_contra later
        obtain rfl : number = copied := by omega
        exact here rfl
      obtain ⟨index, source, child_reached, unused, parent_reached, same⟩ := copies.copies earlier
      refine ⟨index, source, child_reached, unused, parent_reached, ?_⟩
      obtain ⟨found, same_page, found_owned⟩ := roles.walk_placed (Nat.lt_succ_self child) (by simp)
        child_reached
      obtain rfl := pageAt_injective same_page
      rw [treeRole, if_neg (by simp)] at found_owned
      intro offset inside
      rw [page_same found_owned _ (by omega) (by omega),
        added.pages found_owned (by simp) (by simp) _ (by omega) (by omega), same offset inside]
  · intro path page long present
    rw [Mm.memory_setMemory, child_walk long] at present
    split_ifs at present with here
    · exact ⟨copied, Nat.lt_succ_self copied, here⟩
    · obtain ⟨number, bound, same⟩ := copies.only long present
      exact ⟨number, by omega, same⟩

theorem PagesCopied.step (copies : PagesCopied image tasks child parent start owner copied mm grown)
    (records : RecordsMapped start.memory (tasks parent)) (parent_known : parent < child)
    (bound : copied < Task.userpagesCount.get start.memory (tasks parent))
    (enough : copied + 1 + (recordedTables start.memory (tasks parent) (copied + 1)).card ≤
      freeCount start) :
    let virtAdr := recordedVirtual start.memory (tasks parent) copied
    ∃ frame after memory next,
      allocateUserPage mm (tasks child) virtAdr = (after, kernelAdr frame) ∧
      recordedVirtual after.memory (tasks parent) copied = virtAdr ∧
      memcpyVirtual (Task.pagedirectory.get start.memory (tasks parent)) after.memory
        (kernelAdr frame) virtAdr pageSize = some memory ∧
      PagesCopied image tasks child parent start owner (copied + 1) (after.setMemory memory)
        next := by
  intro virtAdr
  have few := records.few
  have more := copies.taken.tablesNeeded_eq
  have tables_le := card_recordedTables_le start.memory (tasks parent) (copied + 1)
  have left := copies.left
  have uses := copies.userpages
  have tables := copies.kernelpages
  simp only [maxProcessPages] at few
  obtain ⟨frame, after, next, call, added⟩ := @allocateUserPage_spec _ _ _ _ virtAdr _ _
    copies.roles (Nat.lt_succ_self child) (by simp only [virtAdr]; omega) (by omega)
    (by simp only [maxProcessPages]; omega)
  have parent_ne : parent ≠ child := by omega
  have parent_lt : parent < child + 1 := by omega
  have same_records : start.memory.AgreeOn after.memory (tasks parent) pageSize :=
    (copies.other_tasks parent_known).trans (added.other_tasks parent_lt parent_ne)
  have range := copies.roles.task_range parent_lt
  have field_same : ∀ {field : Field}, field.offset + field.width ≤ pageSize →
      field.get after.memory (tasks parent) = field.get start.memory (tasks parent) := by
    intro field fits
    simp only [pageSize] at fits range
    refine Field.get_congr (by omega) (same_records.mono (by omega) ?_)
    simp only [pageSize]
    omega
  have same_virtual : recordedVirtual after.memory (tasks parent) copied = virtAdr := by
    apply field_same
    simp only [Task.userpageVirtual, Task.userpagesOffset, pageSize]
    omega
  obtain ⟨page, reached⟩ := Option.isSome_iff_exists.mp (records.mapped bound)
  have reached_after : walk after.memory (tasks parent) (vaPath virtAdr) = some page := by
    rw [added.walks parent_lt (length_vaPath _), if_neg (fun both => parent_ne both.1),
      copies.walks parent_known (length_vaPath _), reached]
  obtain ⟨original, rfl, original_owned⟩ := copies.roles.walk_placed parent_lt (by simp)
    ((copies.walks parent_known (length_vaPath _)).trans reached)
  have differ : original ≠ frame := by
    rintro rfl
    rw [added.fresh.2] at original_owned
    cases original_owned
  have copy := memcpyVirtual_recorded added.roles parent_lt (records.aligned bound)
    (records.user bound) reached_after added.owned differ
  rw [field_same (by decide)] at copy
  exact ⟨frame, after, _, next, call, same_virtual, copy,
    copies.extend parent_known (by simp only [maxProcessPages]; omega) added reached original_owned⟩

/-- The loop of `copy_virtual_memory` copies every recorded page when enough pages are left. -/
theorem copyPages_spec {fuel : Nat}
    (copies : PagesCopied image tasks child parent start owner copied mm grown)
    (records : RecordsMapped start.memory (tasks parent)) (parent_known : parent < child)
    (enough : Task.userpagesCount.get start.memory (tasks parent) +
      (recordedTables start.memory (tasks parent)
        (Task.userpagesCount.get start.memory (tasks parent))).card ≤ freeCount start)
    (begun : copied ≤ Task.userpagesCount.get start.memory (tasks parent))
    (fueled : Task.userpagesCount.get start.memory (tasks parent) < copied + fuel) :
    ∃ after final,
      copyPages (tasks parent) (tasks child) (Task.pagedirectory.get start.memory (tasks parent))
        fuel copied mm = some (after, 0) ∧
      PagesCopied image tasks child parent start owner
        (Task.userpagesCount.get start.memory (tasks parent)) after final := by
  induction fuel generalizing copied mm grown with
  | zero => omega
  | succ fuel ih =>
      have few := records.few
      have same_count := @PagesTaken.parent_field _ _ _ _ _ _ _ _ _ copies.taken parent_known
        Task.userpagesCount (by decide)
      simp only [maxProcessPages] at few
      rw [copyPages, same_count]
      by_cases more : copied < Task.userpagesCount.get start.memory (tasks parent)
      · have tables := Finset.card_le_card
          (recordedTables_mono start.memory (tasks parent) (Nat.succ_le_of_lt more))
        obtain ⟨frame, after, memory, next, call, same_virtual, copy, extended⟩ :=
          copies.step records parent_known more
            (by simp only [Nat.succ_eq_add_one] at tables; omega)
        have virtual : (Task.userpageVirtual copied).get mm.memory (tasks parent) =
            recordedVirtual start.memory (tasks parent) copied := by
          apply copies.taken.parent_field parent_known
          simp only [Task.userpageVirtual, Task.userpagesOffset, pageSize]
          omega
        rw [recordedVirtual] at same_virtual
        simp only [virtual, call]
        rw [if_pos ⟨by omega, more⟩, if_neg (kernelAdr_ne_zero frame), same_virtual, copy]
        exact ih extended (by omega) (by omega)
      · obtain rfl : copied = Task.userpagesCount.get start.memory (tasks parent) := by omega
        simp only [lt_self_iff_false, and_false, if_false]
        exact ⟨mm, grown, rfl, copies⟩

end Copy

end PellOs
