import PellOs.Lib.RadixTree
import PellOs.Mm.Descriptor
import PellOs.Scheduler.Kernel

/-!
# What a page is used for

Every page that has been handed out has one role: part of the kernel heap, the page of a task, a
page table at a position of one task's tree, or a user page at a position of one task's tree.  The
invariant says that memory agrees with the roles: page directories and descriptors point to pages
of the role that belongs there.  Since a page has one role, two descriptors at different positions
never point to the same page.
-/

namespace PellOs

/-- What a page is used for.  Positions in the tree of a task are the table indices that lead
there. -/
inductive PageRole
  | heap
  | taskStruct (pid : Nat)
  | table (pid : Nat) (path : List Nat)
  | user (pid : Nat) (path : List Nat)
  deriving DecidableEq

/-- The role of a page below the directory: a table down to the third level, then user pages. -/
def treeRole (pid : Nat) (path : List Nat) : PageRole :=
  if path.length ≤ 3 then .table pid path else .user pid path

/-- The low bits of a descriptor for the page at a position. -/
def descriptorFlags (path : List Nat) : Nat :=
  if path.length ≤ 3 then mmTypePageTable else mmuPteFlags

theorem descriptorFlags_lt (path : List Nat) : descriptorFlags path < 2 ^ 12 := by
  unfold descriptorFlags
  split_ifs
  · decide
  · decide

theorem treeRole_table {pid : Nat} {path : List Nat} (short : path.length ≤ 3) :
    treeRole pid path = .table pid path := if_pos short

theorem treeRole_ne_taskStruct (pid other : Nat) (path : List Nat) :
    treeRole pid path ≠ .taskStruct other := by
  unfold treeRole
  split_ifs <;> simp

theorem treeRole_inj {pid other : Nat} {path position : List Nat}
    (same : treeRole pid path = treeRole other position) : pid = other ∧ path = position := by
  unfold treeRole at same
  split_ifs at same
  · exact PageRole.table.inj same
  · exact PageRole.user.inj same

/-- The initial task lies in the kernel image, every other task in a page of its own. -/
def TaskPlaced (image : Image) (owner : Nat → Option PageRole) (pid task : Nat) : Prop :=
  pid = 0 ∧ task = image.initTask ∨
    pid ≠ 0 ∧ ∃ index, task = kernelAdr index ∧ owner index = some (.taskStruct pid)

/-- Memory agrees with the roles of the pages, for the first `count` tasks. -/
structure PageRoles (image : Image) (mm : Mm) (tasks : Nat → Nat) (count : Nat)
    (owner : Nat → Option PageRole) : Prop where
  inside : ∀ {index role}, owner index = some role → index < mmNumOfPages
  unused : ∀ {index}, index < mmNumOfPages → (owner index = none ↔ IsFree mm index)
  task : ∀ {pid}, pid < count → TaskPlaced image owner pid (tasks pid)
  directory : ∀ {pid}, pid < count → Task.pagedirectory.get mm.memory (tasks pid) = 0 ∨
    ∃ index, Task.pagedirectory.get mm.memory (tasks pid) = pageAt index ∧
      owner index = some (.table pid [])
  depth : ∀ {index pid path}, owner index = some (.table pid path) → path.length ≤ 3
  entry : ∀ {index pid path slot}, owner index = some (.table pid path) → slot < ptrsPerTable →
    descriptor mm.memory (pageAt index) slot = 0 ∨
      ∃ next, owner next = some (treeRole pid (path ++ [slot])) ∧
        descriptor mm.memory (pageAt index) slot =
          pageAt next ||| descriptorFlags (path ++ [slot])

namespace PageRoles

variable {image : Image} {mm : Mm} {tasks : Nat → Nat} {count : Nat}
  {owner : Nat → Option PageRole}

/-! ## Where things lie -/

theorem task_range (roles : PageRoles image mm tasks count owner) {pid : Nat}
    (known : pid < count) :
    imageStart ≤ tasks pid ∧ tasks pid + 2 * pageSize ≤ wordSize := by
  have low : imageStart ≤ virtualAddressStart + lowMemory := by decide
  rcases roles.task known with ⟨_, same⟩ | ⟨_, index, same, owned⟩
  · have above := image.above_start
    have below := image.below_pages
    have top : virtualAddressStart + lowMemory + pageSize ≤ wordSize := by decide
    simp only [taskSize, pageSize] at below top ⊢
    omega
  · have range := kernelAdr_range (roles.inside owned)
    omega

theorem task_apart (roles : PageRoles image mm tasks count owner) {pid index : Nat}
    (known : pid < count) (inside : index < mmNumOfPages)
    (other : owner index ≠ some (.taskStruct pid)) :
    tasks pid + pageSize ≤ kernelAdr index ∨ kernelAdr index + pageSize ≤ tasks pid := by
  rcases roles.task known with ⟨_, same⟩ | ⟨_, own, same, owned⟩
  · have below := image.below_pages
    have range := kernelAdr_range inside
    simp only [taskSize, pageSize] at below ⊢
    omega
  · rw [same]
    apply kernelAdr_apart
    rintro rfl
    exact other owned

theorem task_page (roles : PageRoles image mm tasks count owner) {pid address : Nat}
    (known : pid < count) (lower : tasks pid ≤ address) (upper : address < tasks pid + pageSize)
    {index : Nat} (inside : index < mmNumOfPages) (page_lower : kernelAdr index ≤ address)
    (page_upper : address < kernelAdr index + pageSize) :
    owner index = some (.taskStruct pid) := by
  by_contra other
  have apart := roles.task_apart known inside other
  omega

theorem tasks_apart (roles : PageRoles image mm tasks count owner) {pid other : Nat}
    (known : pid < count) (other_known : other < count) (differ : pid ≠ other) :
    tasks pid + pageSize ≤ tasks other ∨ tasks other + pageSize ≤ tasks pid := by
  rcases roles.task known with ⟨first, _⟩ | ⟨_, own, same, owned⟩
  · rcases roles.task other_known with ⟨other_first, _⟩ | ⟨_, index, other_same, other_owned⟩
    · omega
    · rw [other_same]
      apply roles.task_apart known (roles.inside other_owned)
      rw [other_owned]
      intro clash
      exact differ (PageRole.taskStruct.inj (Option.some.inj clash)).symm
  · rw [same]
    apply Or.symm
    apply roles.task_apart other_known (roles.inside owned)
    rw [owned]
    intro clash
    exact differ (PageRole.taskStruct.inj (Option.some.inj clash))

theorem directory_fits (roles : PageRoles image mm tasks count owner) {pid : Nat}
    (known : pid < count) : tasks pid + Task.pagedirectory.offset < wordSize := by
  have range := roles.task_range known
  simp only [Task.pagedirectory, pageSize] at range ⊢
  omega

/-! ## Changes of memory -/

/-- The invariant reads only the tables and the page directories, and a directory may move to
any page that has the role of the directory. -/
theorem congr_directories (roles : PageRoles image mm tasks count owner) {after : Mm}
    (bitmap : after.pageBitmap = mm.pageBitmap)
    (tables : ∀ {index pid path}, owner index = some (.table pid path) →
      mm.memory.AgreeOn after.memory (kernelAdr index) pageSize)
    (directories : ∀ {pid}, pid < count →
      Task.pagedirectory.get after.memory (tasks pid) =
          Task.pagedirectory.get mm.memory (tasks pid) ∨
        ∃ index, Task.pagedirectory.get after.memory (tasks pid) = pageAt index ∧
          owner index = some (.table pid [])) :
    PageRoles image after tasks count owner where
  inside := roles.inside
  unused inside := by
    rw [roles.unused inside, isFree_congr bitmap]
  task := roles.task
  directory known := by
    rcases directories known with same | moved
    · rw [same]
      exact roles.directory known
    · exact Or.inr moved
  depth := roles.depth
  entry := by
    intro index pid path slot owned bound
    have inside := roles.inside owned
    have same : descriptor after.memory (pageAt index) slot =
        descriptor mm.memory (pageAt index) slot := by
      rw [descriptor_pageAt inside bound, descriptor_pageAt inside bound]
      apply Memory.read_congr
      simp only [ptrsPerTable] at bound
      exact (tables owned).mono (by omega) (by simp only [pageSize]; omega)
    rw [same]
    exact roles.entry owned bound

theorem edit (roles : PageRoles image mm tasks count owner) {memory : Memory} {low high : Nat}
    (confined : ∀ address, address < low ∨ high ≤ address → memory address = mm.memory address)
    (tables : ∀ {index pid path}, owner index = some (.table pid path) →
      high ≤ kernelAdr index ∨ kernelAdr index + pageSize ≤ low)
    (directories : ∀ {pid}, pid < count →
      high ≤ tasks pid + 152 ∨ tasks pid + 160 ≤ low) :
    PageRoles image (mm.setMemory memory) tasks count owner := by
  refine roles.congr_directories (mm.pageBitmap_setMemory _) ?_ ?_
  · intro index pid path owned target lower upper
    have apart := tables owned
    exact confined target (by omega)
  · intro pid known
    left
    apply Field.get_congr (roles.directory_fits known)
    intro target lower upper
    have apart := directories known
    simp only [Task.pagedirectory] at lower upper
    exact confined target (by omega)

/-- A page that is handed out gets a role.  It is cleared, so it can be an empty table. -/
theorem take (roles : PageRoles image mm tasks count owner) {index : Nat} {role : PageRole}
    (inside : index < mmNumOfPages) (free : IsFree mm index)
    (depth : ∀ pid path, role = .table pid path → path.length ≤ 3) :
    PageRoles image (takePage mm index) tasks count
      (Function.update owner index (some role)) := by
  have fresh : owner index = none := (roles.unused inside).mpr free
  have owned_ne : ∀ {other role}, owner other = some role → other ≠ index := by
    rintro other role owned rfl
    rw [fresh] at owned
    cases owned
  have keeps : ∀ {other role'}, owner other = some role' →
      Function.update owner index (some role) other = some role' := by
    intro other role' owned
    rw [Function.update_of_ne (owned_ne owned), owned]
  have frame : ∀ {address size}, address + size ≤ kernelAdr index ∨
      kernelAdr index + pageSize ≤ address →
        mm.memory.AgreeOn (takePage mm index).memory address size := by
    intro address size apart
    rw [kernelAdr] at apart
    rw [memory_takePage]
    exact Memory.agreeOn_fill _ apart
  refine ⟨?_, ?_, ?_, ?_, ?_, ?_⟩
  · intro other role' owned
    by_cases same : other = index
    · exact same ▸ inside
    · rw [Function.update_of_ne same] at owned
      exact roles.inside owned
  · intro other other_inside
    rw [isFree_takePage]
    by_cases same : other = index
    · subst same
      simp
    · rw [Function.update_of_ne same, roles.unused other_inside]
      simp [same]
  · intro pid known
    rcases roles.task known with first | ⟨later, own, same, owned⟩
    · exact Or.inl first
    · exact Or.inr ⟨later, own, same, keeps owned⟩
  · intro pid known
    have range := roles.task_range known
    have apart := roles.task_apart known inside (by rw [fresh]; simp)
    have same : Task.pagedirectory.get (takePage mm index).memory (tasks pid) =
        Task.pagedirectory.get mm.memory (tasks pid) := by
      apply Field.get_congr (roles.directory_fits known)
      apply frame
      simp only [Task.pagedirectory, pageSize] at apart ⊢
      omega
    rw [same]
    rcases roles.directory known with zero | ⟨root, points, owned⟩
    · exact Or.inl zero
    · exact Or.inr ⟨root, points, keeps owned⟩
  · intro other pid path owned
    by_cases same : other = index
    · subst same
      rw [Function.update_self] at owned
      exact depth pid path (Option.some.inj owned)
    · rw [Function.update_of_ne same] at owned
      exact roles.depth owned
  · intro other pid path slot owned bound
    by_cases same : other = index
    · subst same
      rw [descriptor_pageAt inside bound]
      simp only [ptrsPerTable] at bound
      left
      apply Memory.read_zero
      intro target lower upper
      rw [memory_takePage]
      exact Memory.fill_inside _ (by simp only [kernelAdr] at lower; omega)
        (by simp only [kernelAdr, pageSize] at upper ⊢; omega)
    · rw [Function.update_of_ne same] at owned
      have other_inside := roles.inside owned
      have unchanged : descriptor (takePage mm index).memory (pageAt other) slot =
          descriptor mm.memory (pageAt other) slot := by
        rw [descriptor_pageAt other_inside bound, descriptor_pageAt other_inside bound]
        apply Memory.read_congr
        apply frame
        have apart := kernelAdr_apart same
        simp only [ptrsPerTable, pageSize] at bound apart ⊢
        omega
      rw [unchanged]
      rcases roles.entry owned bound with zero | ⟨next, next_owned, points⟩
      · exact Or.inl zero
      · exact Or.inr ⟨next, keeps next_owned, points⟩

theorem assign (roles : PageRoles image mm tasks count owner) {index : Nat}
    (owned : owner index = some .heap) (pid : Nat) (path : List Nat) :
    PageRoles image mm tasks count (Function.update owner index (some (.user pid path))) := by
  have keeps : ∀ {other role}, owner other = some role → role ≠ .heap →
      Function.update owner index (some (.user pid path)) other = some role := by
    intro other role other_owned not_heap
    rw [Function.update_of_ne, other_owned]
    rintro rfl
    exact not_heap (Option.some.inj (other_owned.symm.trans owned))
  have comes_from : ∀ {other owner_pid base},
      Function.update owner index (some (.user pid path)) other = some (.table owner_pid base) →
        owner other = some (.table owner_pid base) := by
    intro other owner_pid base after
    by_cases same : other = index
    · rw [same, Function.update_self] at after
      cases after
    · rwa [Function.update_of_ne same] at after
  have tree_ne : ∀ owner_pid base, treeRole owner_pid base ≠ .heap := by
    intro owner_pid base
    unfold treeRole
    split_ifs <;> simp
  refine ⟨?_, ?_, ?_, ?_, ?_, ?_⟩
  · intro other role other_owned
    by_cases same : other = index
    · exact same ▸ roles.inside owned
    · rw [Function.update_of_ne same] at other_owned
      exact roles.inside other_owned
  · intro other inside
    rw [← roles.unused inside]
    by_cases same : other = index
    · rw [same, Function.update_self, owned]
      simp
    · rw [Function.update_of_ne same]
  · intro other known
    rcases roles.task known with first | ⟨later, own, same, own_owned⟩
    · exact Or.inl first
    · exact Or.inr ⟨later, own, same, keeps own_owned (by simp)⟩
  · intro other known
    rcases roles.directory known with zero | ⟨root, points, root_owned⟩
    · exact Or.inl zero
    · exact Or.inr ⟨root, points, keeps root_owned (by simp)⟩
  · intro other owner_pid base after
    exact roles.depth (comes_from after)
  · intro other owner_pid base slot after bound
    rcases roles.entry (comes_from after) bound with zero | ⟨next, next_owned, points⟩
    · exact Or.inl zero
    · exact Or.inr ⟨next, keeps next_owned (tree_ne _ _), points⟩

/-- A descriptor is stored in a table, pointing to a page of the role that belongs there. -/
theorem link (roles : PageRoles image mm tasks count owner) {index next pid slot : Nat}
    {path : List Nat} (owned : owner index = some (.table pid path))
    (next_owned : owner next = some (treeRole pid (path ++ [slot])))
    (bound : slot < ptrsPerTable) :
    PageRoles image
      (mm.setMemory (mm.memory.write (kernelAdr index + 8 * slot) 8
        (pageAt next ||| descriptorFlags (path ++ [slot])))) tasks count owner := by
  have inside := roles.inside owned
  simp only [ptrsPerTable] at bound
  refine ⟨roles.inside, ?_, roles.task, ?_, roles.depth, ?_⟩
  · intro other other_inside
    rw [roles.unused other_inside, isFree_congr (mm.pageBitmap_setMemory _)]
  · intro other known
    have range := roles.task_range known
    have apart := roles.task_apart known inside (by rw [owned]; simp)
    have same : Task.pagedirectory.get (mm.memory.write (kernelAdr index + 8 * slot) 8
        (pageAt next ||| descriptorFlags (path ++ [slot]))) (tasks other) =
          Task.pagedirectory.get mm.memory (tasks other) := by
      apply Field.get_congr (roles.directory_fits known)
      apply Memory.agreeOn_write
      simp only [Task.pagedirectory, pageSize] at apart ⊢
      omega
    rw [Mm.memory_setMemory, same]
    exact roles.directory known
  · intro other owner_pid position place other_owned other_bound
    have other_inside := roles.inside other_owned
    simp only [Mm.memory_setMemory, descriptor_pageAt other_inside other_bound]
    simp only [ptrsPerTable] at other_bound
    by_cases here : other = index ∧ place = slot
    · obtain ⟨rfl, rfl⟩ := here
      obtain ⟨rfl, rfl⟩ := PageRole.table.inj (Option.some.inj (owned.symm.trans other_owned))
      have small : pageAt next ||| descriptorFlags (path ++ [place]) < 256 ^ 8 :=
        pageAt_or_lt (roles.inside next_owned) (descriptorFlags_lt _)
      refine Or.inr ⟨next, next_owned, ?_⟩
      rw [Memory.read_write_same, Nat.mod_eq_of_lt small]
    · have apart : kernelAdr other + 8 * place + 8 ≤ kernelAdr index + 8 * slot ∨
          kernelAdr index + 8 * slot + 8 ≤ kernelAdr other + 8 * place := by
        by_cases same : other = index
        · subst same
          have : place ≠ slot := fun equal => here ⟨rfl, equal⟩
          omega
        · have apart := kernelAdr_apart same
          simp only [pageSize] at apart
          omega
      rw [Memory.read_write_disjoint _ apart, ← descriptor_pageAt other_inside
        (by simpa [ptrsPerTable] using other_bound)]
      exact roles.entry other_owned (by simpa [ptrsPerTable] using other_bound)

end PageRoles

end PellOs
