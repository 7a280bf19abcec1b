import PellOs.Mm.PageRoles

/-!
# Walks of a task's page tables

A walk follows table indices down from the page directory of a task.  Memory that agrees with the
page roles makes the tables of a task a tree in which every page knows its position, so a page that
is handed out changes no walk and a stored descriptor changes only the walks over its position.
-/

namespace PellOs

/-- The page that a table entry points to, as `map_table` reads it. -/
def tableChild (memory : Memory) (table slot : Nat) : Option Nat :=
  if slot < ptrsPerTable ∧ descriptor memory table slot ≠ 0 then
    some (descriptor memory table slot &&& pageMask)
  else
    none

/-- Follow table indices from the page directory of a task. -/
def walk (memory : Memory) (task : Nat) (path : List Nat) : Option Nat :=
  if Task.pagedirectory.get memory task = 0 then none
  else RadixTree.lookup (tableChild memory) (Task.pagedirectory.get memory task) path

theorem walk_append (memory : Memory) (task : Nat) (path rest : List Nat) :
    walk memory task (path ++ rest) =
      (walk memory task path).bind fun page => RadixTree.lookup (tableChild memory) page rest := by
  unfold walk
  split_ifs
  · rfl
  · exact RadixTree.lookup_append _ _ path rest

theorem walk_isSome_of_append {memory : Memory} {task page : Nat} {path rest : List Nat}
    (reached : walk memory task (path ++ rest) = some page) : (walk memory task path).isSome := by
  rw [walk_append] at reached
  obtain ⟨next, found, _⟩ := Option.bind_eq_some_iff.mp reached
  rw [found, Option.isSome_some]

theorem lookup_of_walk {memory : Memory} {task page : Nat} {path : List Nat}
    (reached : walk memory task path = some page) :
    RadixTree.lookup (tableChild memory) (Task.pagedirectory.get memory task) path =
      some page := by
  unfold walk at reached
  split_ifs at reached
  exact reached

/-- The page is at a position of the tree of a task. -/
def PagePlaced (owner : Nat → Option PageRole) (pid page : Nat) (path : List Nat) : Prop :=
  ∃ index, page = pageAt index ∧ owner index = some (treeRole pid path)

theorem tableChild_zero {memory : Memory} {table slot : Nat}
    (zero : descriptor memory table slot = 0) : tableChild memory table slot = none := by
  rw [tableChild, if_neg]
  exact fun nonzero => nonzero.2 zero

theorem descriptor_of_tableChild {memory : Memory} {table slot : Nat}
    (bound : slot < ptrsPerTable) (absent : tableChild memory table slot = none) :
    descriptor memory table slot = 0 := by
  by_contra present
  rw [tableChild, if_pos ⟨bound, present⟩] at absent
  cases absent

theorem tableChild_of_descriptor {memory : Memory} {table slot next flags : Nat}
    (bound : slot < ptrsPerTable) (inside : next < mmNumOfPages) (small : flags < 2 ^ 12)
    (points : descriptor memory table slot = pageAt next ||| flags) :
    tableChild memory table slot = some (pageAt next) := by
  rw [tableChild, points, if_pos ⟨bound, pageAt_or_ne_zero next flags⟩,
    pageAt_or_and_pageMask inside small]

namespace PageRoles

variable {image : Image} {mm : Mm} {tasks : Nat → Nat} {count : Nat}
  {owner : Nat → Option PageRole}

theorem placed (roles : PageRoles image mm tasks count owner) (pid : Nat) :
    RadixTree.Placed (tableChild mm.memory) 4 (PagePlaced owner pid) where
  down := by
    intro page next path slot place inner step
    obtain ⟨index, rfl, owned⟩ := place
    rw [treeRole_table (by omega)] at owned
    by_cases bound : slot < ptrsPerTable
    · rcases roles.entry owned bound with zero | ⟨target, target_owned, points⟩
      · rw [tableChild_zero zero] at step
        cases step
      · rw [tableChild_of_descriptor bound (roles.inside target_owned)
          (descriptorFlags_lt _) points] at step
        exact ⟨target, (Option.some.inj step).symm, target_owned⟩
    · rw [tableChild, if_neg (fun both => bound both.1)] at step
      cases step

theorem directory_placed (roles : PageRoles image mm tasks count owner) {pid : Nat}
    (known : pid < count) (present : Task.pagedirectory.get mm.memory (tasks pid) ≠ 0) :
    PagePlaced owner pid (Task.pagedirectory.get mm.memory (tasks pid)) [] := by
  rcases roles.directory known with zero | ⟨index, points, owned⟩
  · exact absurd zero present
  · exact ⟨index, points, owned⟩

theorem walk_placed (roles : PageRoles image mm tasks count owner) {pid page : Nat}
    {path : List Nat} (known : pid < count) (short : path.length ≤ 4)
    (reached : walk mm.memory (tasks pid) path = some page) : PagePlaced owner pid page path := by
  unfold walk at reached
  split_ifs at reached with empty
  have placed := @RadixTree.Placed.lookup _ _ _ _ (roles.placed pid) _ _ [] _
    (roles.directory_placed known empty) (by simpa using short) reached
  simpa using placed

/-- A walk depends only on the directory and on the entries along its path. -/
theorem walk_congr (roles : PageRoles image mm tasks count owner) {after : Memory} {pid : Nat}
    {path : List Nat} (known : pid < count) (short : path.length ≤ 4)
    (directory : Task.pagedirectory.get after (tasks pid) =
      Task.pagedirectory.get mm.memory (tasks pid))
    (same : ∀ {index base slot}, owner index = some (.table pid base) → base ++ [slot] <+: path →
      slot < ptrsPerTable →
        descriptor after (pageAt index) slot = descriptor mm.memory (pageAt index) slot) :
    walk after (tasks pid) path = walk mm.memory (tasks pid) path := by
  unfold walk
  rw [directory]
  split_ifs with empty
  · rfl
  · refine (roles.placed pid).lookup_congr short ?_ (roles.directory_placed known empty)
      (List.nil_append path)
    intro page base slot place here
    obtain ⟨index, rfl, owned⟩ := place
    have inner : base.length ≤ 3 := by
      have shorter := here.length_le
      rw [List.length_append, List.length_singleton] at shorter
      omega
    rw [treeRole_table inner] at owned
    by_cases bound : slot < ptrsPerTable
    · rw [tableChild, tableChild, same owned here bound]
    · rw [tableChild, tableChild, if_neg (fun both => bound both.1),
        if_neg (fun both => bound both.1)]

/-- A descriptor of a table that lies outside the changed bytes keeps its value. -/
theorem descriptor_congr (roles : PageRoles image mm tasks count owner) {after : Memory}
    {index pid slot : Nat} {path : List Nat} (owned : owner index = some (.table pid path))
    (bound : slot < ptrsPerTable)
    (agree : mm.memory.AgreeOn after (kernelAdr index + 8 * slot) 8) :
    descriptor after (pageAt index) slot = descriptor mm.memory (pageAt index) slot := by
  have inside := roles.inside owned
  rw [descriptor_pageAt inside bound, descriptor_pageAt inside bound, Memory.read_congr agree]

/-! ## Bytes outside the tables -/

/-- Bytes outside every table and every page directory change no walk. -/
theorem walk_edit (roles : PageRoles image mm tasks count owner) {memory : Memory} {low high : Nat}
    (confined : ∀ address, address < low ∨ high ≤ address → memory address = mm.memory address)
    (tables : ∀ {index pid path}, owner index = some (.table pid path) →
      high ≤ kernelAdr index ∨ kernelAdr index + pageSize ≤ low)
    (directories : ∀ {pid}, pid < count →
      high ≤ tasks pid + 152 ∨ tasks pid + 160 ≤ low)
    {pid : Nat} {path : List Nat} (known : pid < count) (short : path.length ≤ 4) :
    walk memory (tasks pid) path = walk mm.memory (tasks pid) path := by
  refine roles.walk_congr known short ?_ ?_
  · apply Field.get_congr (roles.directory_fits known)
    intro address lower upper
    have apart := directories known
    simp only [Task.pagedirectory] at lower upper
    exact confined address (by omega)
  · intro index base slot owned _ bound
    apply roles.descriptor_congr owned bound
    intro address lower upper
    have apart := tables owned
    simp only [ptrsPerTable, pageSize] at bound apart
    exact confined address (by omega)

theorem edit_page (roles : PageRoles image mm tasks count owner) {memory : Memory} {index : Nat}
    {role : PageRole} (owned : owner index = some role) (not_task : ∀ pid, role ≠ .taskStruct pid)
    (not_table : ∀ pid path, role ≠ .table pid path)
    (confined : ∀ address, address < kernelAdr index ∨ kernelAdr index + pageSize ≤ address →
      memory address = mm.memory address) :
    PageRoles image (mm.setMemory memory) tasks count owner ∧
      ∀ {pid path}, pid < count → path.length ≤ 4 →
        walk memory (tasks pid) path = walk mm.memory (tasks pid) path := by
  have tables : ∀ {other pid path}, owner other = some (.table pid path) →
      kernelAdr index + pageSize ≤ kernelAdr other ∨
        kernelAdr other + pageSize ≤ kernelAdr index := by
    intro other pid path other_owned
    apply kernelAdr_apart
    rintro rfl
    exact not_table pid path (Option.some.inj (owned.symm.trans other_owned))
  have directories : ∀ {pid}, pid < count →
      kernelAdr index + pageSize ≤ tasks pid + 152 ∨ tasks pid + 160 ≤ kernelAdr index := by
    intro pid known
    have apart := roles.task_apart known (roles.inside owned) (by
      rw [owned]
      exact fun clash => not_task pid (Option.some.inj clash))
    simp only [pageSize] at apart ⊢
    omega
  exact ⟨roles.edit confined tables directories, fun known short =>
    roles.walk_edit confined tables directories known short⟩

theorem edit_task (roles : PageRoles image mm tasks count owner) {memory : Memory} {task : Nat}
    (known : task < count)
    (confined : ∀ address, address < tasks task ∨
      tasks task + 152 ≤ address ∧ address < tasks task + 160 ∨ tasks task + pageSize ≤ address →
        memory address = mm.memory address) :
    PageRoles image (mm.setMemory memory) tasks count owner ∧
      ∀ {pid path}, pid < count → path.length ≤ 4 →
        walk memory (tasks pid) path = walk mm.memory (tasks pid) path := by
  have tables : ∀ {index pid path}, owner index = some (.table pid path) →
      mm.memory.AgreeOn memory (kernelAdr index) pageSize := by
    intro index pid path owned address lower upper
    have apart := roles.task_apart known (roles.inside owned) (by rw [owned]; simp)
    exact confined address (by omega)
  have directories : ∀ {pid}, pid < count → Task.pagedirectory.get memory (tasks pid) =
      Task.pagedirectory.get mm.memory (tasks pid) := by
    intro pid other_known
    apply Field.get_congr (roles.directory_fits other_known)
    intro address lower upper
    simp only [Task.pagedirectory] at lower upper
    apply confined
    by_cases same : pid = task
    · subst same
      omega
    · have apart := roles.tasks_apart other_known known same
      simp only [pageSize] at apart ⊢
      omega
  refine ⟨roles.congr_directories (mm.pageBitmap_setMemory _) tables
    fun known => Or.inl (directories known), ?_⟩
  intro pid path other_known short
  refine roles.walk_congr other_known short (directories other_known) ?_
  intro index base slot owned _ bound
  apply roles.descriptor_congr owned bound
  simp only [ptrsPerTable] at bound
  exact (tables owned).mono (by omega) (by simp only [pageSize]; omega)

end PageRoles

section Take

variable {image : Image} {mm : Mm} {tasks : Nat → Nat} {count : Nat}
  {owner : Nat → Option PageRole}

/-! ## Handing out a page -/

theorem agreeOn_takePage (mm : Mm) {index address size : Nat}
    (apart : address + size ≤ kernelAdr index ∨ kernelAdr index + pageSize ≤ address) :
    mm.memory.AgreeOn (takePage mm index).memory address size := by
  rw [kernelAdr] at apart
  rw [memory_takePage]
  exact Memory.agreeOn_fill _ apart

theorem PageRoles.take_task (roles : PageRoles image mm tasks count owner) {pid index : Nat}
    (known : pid < count) (inside : index < mmNumOfPages) (free : IsFree mm index) :
    mm.memory.AgreeOn (takePage mm index).memory (tasks pid) pageSize := by
  apply agreeOn_takePage
  exact roles.task_apart known inside (by rw [(roles.unused inside).mpr free]; simp)

theorem PageRoles.take_field (roles : PageRoles image mm tasks count owner) {pid index : Nat}
    (known : pid < count) (inside : index < mmNumOfPages) (free : IsFree mm index) {field : Field}
    (fits : field.offset + field.width ≤ pageSize) :
    field.get (takePage mm index).memory (tasks pid) = field.get mm.memory (tasks pid) := by
  have range := roles.task_range known
  simp only [pageSize] at range fits
  refine Field.get_congr (by omega) ?_
  refine (roles.take_task known inside free).mono (by omega) ?_
  simp only [pageSize]
  omega

theorem PageRoles.walk_take (roles : PageRoles image mm tasks count owner) {pid index : Nat}
    {path : List Nat} (known : pid < count) (short : path.length ≤ 4)
    (inside : index < mmNumOfPages) (free : IsFree mm index) :
    walk (takePage mm index).memory (tasks pid) path = walk mm.memory (tasks pid) path := by
  refine roles.walk_congr known short (roles.take_field known inside free (by decide)) ?_
  intro table base slot owned _ bound
  apply roles.descriptor_congr owned bound
  apply agreeOn_takePage
  have differ : table ≠ index := by
    rintro rfl
    rw [(roles.unused inside).mpr free] at owned
    cases owned
  have apart := kernelAdr_apart differ
  simp only [ptrsPerTable, pageSize] at bound apart ⊢
  omega

end Take

/-! ## Storing one descriptor -/

/-- Between the two memories, the tables and directories differ in at most one entry. -/
structure EntryStored (mm : Mm) (tasks : Nat → Nat) (count : Nat) (owner : Nat → Option PageRole)
    (after : Memory) (index slot : Nat) : Prop where
  directories : ∀ {pid}, pid < count → Task.pagedirectory.get after (tasks pid) =
    Task.pagedirectory.get mm.memory (tasks pid)
  others : ∀ {table pid path place}, owner table = some (.table pid path) → place < ptrsPerTable →
    ¬(table = index ∧ place = slot) →
      descriptor after (pageAt table) place = descriptor mm.memory (pageAt table) place

namespace EntryStored

variable {image : Image} {mm : Mm} {tasks : Nat → Nat} {count : Nat}
  {owner : Nat → Option PageRole} {after : Memory} {index slot pid : Nat} {path : List Nat}

theorem refl : EntryStored mm tasks count owner mm.memory index slot :=
  ⟨fun _ => rfl, fun _ _ _ => rfl⟩

theorem walk_avoid (stored : EntryStored mm tasks count owner after index slot)
    (roles : PageRoles image mm tasks count owner)
    (owned : owner index = some (.table pid path)) {other : Nat} {goal : List Nat}
    (known : other < count) (short : goal.length ≤ 4)
    (avoids : other ≠ pid ∨ ¬path ++ [slot] <+: goal) :
    walk after (tasks other) goal = walk mm.memory (tasks other) goal := by
  refine roles.walk_congr known short (stored.directories known) ?_
  intro table base place table_owned here bound
  refine stored.others table_owned bound ?_
  rintro ⟨rfl, rfl⟩
  obtain ⟨rfl, rfl⟩ := PageRole.table.inj (Option.some.inj (owned.symm.trans table_owned))
  exact avoids.elim (fun differ => differ rfl) (fun off => off here)

/-- Walks that run over the stored entry continue where it points to. -/
theorem walk_over (stored : EntryStored mm tasks count owner after index slot)
    (roles : PageRoles image mm tasks count owner) (known : pid < count)
    (short : path.length ≤ 3) (reached : walk mm.memory (tasks pid) path = some (pageAt index))
    (rest : List Nat) :
    walk after (tasks pid) (path ++ slot :: rest) =
      (tableChild after (pageAt index) slot).bind fun next =>
        RadixTree.lookup (tableChild after) next rest := by
  obtain ⟨found, same, owned⟩ := roles.walk_placed known (by omega) reached
  obtain rfl := pageAt_injective same
  rw [treeRole_table short] at owned
  have unchanged : walk after (tasks pid) path = some (pageAt index) := by
    rw [stored.walk_avoid roles owned known (by omega), reached]
    right
    intro longer
    have := longer.length_le
    simp at this
  rw [walk_append, unchanged, Option.bind_some, RadixTree.lookup_cons]

end EntryStored

end PellOs
