import PellOs.Mm.Translation

/-!
# Allocating a user page

The tables that `map_page` adds are those on the way to the address that do not exist yet, so the
number of tables of a task is the number of positions on the way to any of its user pages.
-/

namespace PellOs

/-! ## Positions of tables -/

/-- The positions of the tables on the way to an address. -/
def tablePositions (virtAdr : Nat) : Finset (List Nat) :=
  (Finset.range 4).image fun length => (vaPath virtAdr).take length

theorem mem_tablePositions {virtAdr : Nat} {path : List Nat} :
    path ∈ tablePositions virtAdr ↔ path.length < 4 ∧ path <+: vaPath virtAdr := by
  rw [tablePositions, Finset.mem_image]
  constructor
  · rintro ⟨length, bound, rfl⟩
    rw [Finset.mem_range] at bound
    refine ⟨?_, List.take_prefix _ _⟩
    rw [List.length_take, length_vaPath]
    omega
  · rintro ⟨short, prefix_of⟩
    exact ⟨path.length, Finset.mem_range.mpr short, (List.prefix_iff_eq_take.mp prefix_of).symm⟩

/-- Missing tables below a table, one for each position that cannot be looked up. -/
theorem missingTables_eq (memory : Memory) (table : Nat) {slots : List Nat}
    (bounds : ∀ slot ∈ slots, slot < ptrsPerTable) :
    missingTables memory table slots =
      ∑ length ∈ Finset.range slots.length,
        if RadixTree.lookup (tableChild memory) table (slots.take (length + 1)) = none then 1
        else 0 := by
  induction slots generalizing table with
  | nil => rfl
  | cons slot slots ih =>
      have bound := bounds slot List.mem_cons_self
      rw [missingTables, List.length_cons]
      by_cases missing : descriptor memory table slot = 0
      · rw [if_pos missing]
        simp only [List.take_succ_cons, RadixTree.lookup_cons, tableChild_zero missing,
          Option.bind_none, if_true]
        simp
      · have child : tableChild memory table slot =
            some (descriptor memory table slot &&& pageMask) := by
          rw [tableChild, if_pos ⟨bound, missing⟩]
        rw [if_neg missing, ih _ fun place member => bounds place (List.mem_cons_of_mem _ member),
          Finset.sum_range_succ']
        simp only [List.take_succ_cons, RadixTree.lookup_cons, child, Option.bind_some]
        simp

/-- The tables that `map_page` adds are the missing ones on the way to the address. -/
theorem tablesNeeded_eq (memory : Memory) (task virtAdr : Nat) :
    tablesNeeded memory task virtAdr =
      ((tablePositions virtAdr).filter fun path => walk memory task path = none).card := by
  have distinct : Set.InjOn (fun length => (vaPath virtAdr).take length)
      (Finset.range 4 : Finset Nat) := by
    intro left left_bound right right_bound same
    have lengths := congrArg List.length same
    simp only [Finset.coe_range, Set.mem_Iio] at left_bound right_bound
    simp only [List.length_take, length_vaPath] at lengths
    omega
  rw [Finset.card_filter, tablePositions, Finset.sum_image distinct, tablesNeeded]
  split_ifs with absent
  · simp [walk, absent]
  · rw [missingTables_eq _ _ (tableIndices_lt _), Finset.sum_range_succ']
    simp only [walk, if_neg absent, List.take_zero, RadixTree.lookup_nil, reduceCtorEq, if_false,
      Nat.add_zero]
    rfl

/-- At most the page directory and one table of each level are missing. -/
theorem tablesNeeded_le (memory : Memory) (task virtAdr : Nat) :
    tablesNeeded memory task virtAdr ≤ 4 := by
  rw [tablesNeeded_eq]
  refine (Finset.card_filter_le _ _).trans ?_
  exact Finset.card_image_le

/-- With the tables of a task at known positions, a mapping adds those that are still missing. -/
theorem card_add_tablesNeeded {memory : Memory} {task virtAdr : Nat} {tables : Finset (List Nat)}
    (placed : ∀ {path}, path.length < 4 → ((walk memory task path).isSome ↔ path ∈ tables)) :
    tables.card + tablesNeeded memory task virtAdr = (tables ∪ tablePositions virtAdr).card := by
  have missing : (tablePositions virtAdr).filter (fun path => walk memory task path = none) =
      tablePositions virtAdr \ tables := by
    ext path
    rw [Finset.mem_filter, Finset.mem_sdiff]
    refine and_congr_right fun member => ?_
    rw [← placed (mem_tablePositions.mp member).1, Option.not_isSome_iff_eq_none]
  rw [tablesNeeded_eq, missing, Finset.card_union, Finset.card_sdiff]
  have inter : (tables ∩ tablePositions virtAdr).card ≤ (tablePositions virtAdr).card :=
    Finset.card_le_card Finset.inter_subset_right
  omega

/-! ## A fresh page in the tables of a task -/

/-- Outcome of taking a page and mapping it for a task. -/
structure PageAdded (image : Image) (tasks : Nat → Nat) (count pid virtAdr : Nat) (mm : Mm)
    (owner : Nat → Option PageRole) (frame : Nat) (after : Mm) (grown : Nat → Option PageRole) :
    Prop where
  roles : PageRoles image after tasks count grown
  kept : ∀ {index role}, owner index = some role → grown index = some role
  fresh : frame < mmNumOfPages ∧ owner frame = none
  owned : grown frame = some (.user pid (vaPath virtAdr))
  added : ∀ {index role}, grown index = some role → owner index = some role ∨
    owner index = none ∧ (role = .user pid (vaPath virtAdr) ∨ ∃ path, role = .table pid path)
  walks : ∀ {other path}, other < count → path.length = 4 →
    walk after.memory (tasks other) path =
      if other = pid ∧ path = vaPath virtAdr then some (pageAt frame)
      else walk mm.memory (tasks other) path
  tables : ∀ {path}, path.length < 4 → ((walk after.memory (tasks pid) path).isSome ↔
    (walk mm.memory (tasks pid) path).isSome ∨ path ∈ tablePositions virtAdr)
  kernelpages : Task.kernelpagesCount.get after.memory (tasks pid) =
    Task.kernelpagesCount.get mm.memory (tasks pid) + tablesNeeded mm.memory (tasks pid) virtAdr
  userpages : Task.userpagesCount.get after.memory (tasks pid) =
    Task.userpagesCount.get mm.memory (tasks pid) + 1
  physical : (Task.userpagePhysical (Task.userpagesCount.get mm.memory (tasks pid))).get
    after.memory (tasks pid) = pageAt frame
  virtual : virtAdr < wordSize →
    (Task.userpageVirtual (Task.userpagesCount.get mm.memory (tasks pid))).get after.memory
      (tasks pid) = virtAdr
  left : freeCount after + tablesNeeded mm.memory (tasks pid) virtAdr + 1 = freeCount mm
  other_tasks : ∀ {other}, other < count → other ≠ pid →
    mm.memory.AgreeOn after.memory (tasks other) pageSize
  own_task : ∀ address, tasks pid ≤ address → address < tasks pid + pageSize →
    address < tasks pid + 152 ∨ tasks pid + 164 ≤ address →
    address < tasks pid + 168 + 16 * Task.userpagesCount.get mm.memory (tasks pid) ∨
      tasks pid + 184 + 16 * Task.userpagesCount.get mm.memory (tasks pid) ≤ address →
    address < tasks pid + 424 ∨
      tasks pid + 440 + 8 * Task.kernelpagesCount.get after.memory (tasks pid) ≤ address →
    after.memory address = mm.memory address
  pages : ∀ {index role}, owner index = some role → (∀ other, role ≠ .taskStruct other) →
    (∀ path, role ≠ .table pid path) →
      mm.memory.AgreeOn after.memory (kernelAdr index) pageSize

section AddPage

variable {image : Image} {tasks : Nat → Nat} {count pid virtAdr frame : Nat} {mm : Mm}
  {owner : Nat → Option PageRole}

theorem tablesNeeded_takePage (roles : PageRoles image mm tasks count owner) (known : pid < count)
    (inside : frame < mmNumOfPages) (free : IsFree mm frame) (virtAdr : Nat) :
    tablesNeeded (takePage mm frame).memory (tasks pid) virtAdr =
      tablesNeeded mm.memory (tasks pid) virtAdr := by
  have same : ∀ path ∈ tablePositions virtAdr,
      walk (takePage mm frame).memory (tasks pid) path = none ↔
        walk mm.memory (tasks pid) path = none := by
    intro path member
    have short := (mem_tablePositions.mp member).1
    rw [roles.walk_take known (by omega) inside free]
  rw [tablesNeeded_eq, tablesNeeded_eq, Finset.filter_congr same]

section Taken

variable {after : Mm} {grown : Nat → Option PageRole} {index : Nat} {role : PageRole}

theorem owned_of_taken (fresh : owner frame = none) (new : PageRole)
    (owned : owner index = some role) :
    Function.update owner frame (some new) index = some role := by
  rw [Function.update_of_ne, owned]
  rintro rfl
  rw [fresh] at owned
  cases owned

private theorem added_of_taken (fresh : owner frame = none)
    (mapped : PageMapped image tasks count pid virtAdr frame (takePage mm frame)
      (Function.update owner frame (some (.user pid (vaPath virtAdr)))) after grown)
    (owned : grown index = some role) :
    owner index = some role ∨ owner index = none ∧
      (role = .user pid (vaPath virtAdr) ∨ ∃ path, role = .table pid path) := by
  rcases mapped.added owned with before | ⟨unused, table⟩
  · by_cases same : index = frame
    · rw [same, Function.update_self] at before
      exact Or.inr ⟨same ▸ fresh, Or.inl (Option.some.inj before).symm⟩
    · rw [Function.update_of_ne same] at before
      exact Or.inl before
  · by_cases same : index = frame
    · rw [same, Function.update_self] at unused
      cases unused
    · rw [Function.update_of_ne same] at unused
      exact Or.inr ⟨unused, Or.inr table⟩

private theorem tables_of_taken (roles : PageRoles image mm tasks count owner) (known : pid < count)
    (inside : frame < mmNumOfPages) (free : IsFree mm frame)
    (mapped : PageMapped image tasks count pid virtAdr frame (takePage mm frame)
      (Function.update owner frame (some (.user pid (vaPath virtAdr)))) after grown)
    {path : List Nat} (short : path.length < 4) :
    (walk after.memory (tasks pid) path).isSome ↔
      (walk mm.memory (tasks pid) path).isSome ∨ path ∈ tablePositions virtAdr := by
  constructor
  · intro present
    obtain ⟨page, reached⟩ := Option.isSome_iff_exists.mp present
    rcases mapped.along short reached with before | on_path
    · rw [roles.walk_take known (by omega) inside free] at before
      exact Or.inl (Option.isSome_iff_exists.mpr ⟨page, before⟩)
    · exact Or.inr (mem_tablePositions.mpr ⟨short, on_path⟩)
  · rintro (before | on_path)
    · obtain ⟨page, reached⟩ := Option.isSome_iff_exists.mp before
      rw [← roles.walk_take known (by omega) inside free] at reached
      exact Option.isSome_iff_exists.mpr ⟨page, mapped.tables short reached⟩
    · obtain ⟨rest, whole⟩ := (mem_tablePositions.mp on_path).2
      have reached := mapped.walks known (length_vaPath virtAdr)
      rw [if_pos ⟨rfl, rfl⟩, ← whole] at reached
      exact walk_isSome_of_append reached

/-- Pages that are neither tables of the task nor its record stay as they are. -/
private theorem page_of_taken (roles : PageRoles image mm tasks count owner) (known : pid < count)
    (fresh : owner frame = none)
    (room : Task.userpagesCount.get mm.memory (tasks pid) < maxProcessPages)
    (users : Task.userpagesCount.get (takePage mm frame).memory (tasks pid) =
      Task.userpagesCount.get mm.memory (tasks pid))
    (tables : Task.kernelpagesCount.get after.memory (tasks pid) ≤ 128)
    (mapped : PageMapped image tasks count pid virtAdr frame (takePage mm frame)
      (Function.update owner frame (some (.user pid (vaPath virtAdr)))) after grown)
    (owned : owner index = some role) (not_task : ∀ other, role ≠ .taskStruct other)
    (not_table : ∀ path, role ≠ .table pid path) :
    mm.memory.AgreeOn after.memory (kernelAdr index) pageSize := by
  intro address lower upper
  have differ : index ≠ frame := by
    rintro rfl
    rw [fresh] at owned
    cases owned
  have apart := kernelAdr_apart differ
  have task_apart := roles.task_apart known (roles.inside owned) (by
    rw [owned]
    intro clash
    exact not_task pid (Option.some.inj clash))
  have kept := @agreeOn_takePage mm frame (kernelAdr index) pageSize (by omega) address lower upper
  rw [← kept]
  simp only [maxProcessPages, pageSize] at room task_apart upper
  refine mapped.frame address (by omega) (by omega) (by omega) ?_
  intro page page_inside page_lower page_upper
  have same : page = index := by
    by_contra other
    have pages_apart := kernelAdr_apart other
    simp only [pageSize] at pages_apart page_upper
    omega
  exact ⟨role, by rw [same]; exact owned_of_taken fresh _ owned, not_table⟩

end Taken

/-- A page that has been taken is mapped, with enough pages left for the missing tables. -/
theorem mapPage_takePage_spec (roles : PageRoles image mm tasks count owner) (known : pid < count)
    (inside : frame < mmNumOfPages) (free : IsFree mm frame)
    (enough : tablesNeeded mm.memory (tasks pid) virtAdr + 1 ≤ freeCount mm)
    (small : Task.kernelpagesCount.get mm.memory (tasks pid) + 4 ≤ 128)
    (room : Task.userpagesCount.get mm.memory (tasks pid) < maxProcessPages) :
    ∃ grown, PageAdded image tasks count pid virtAdr mm owner frame
      (mapPage (takePage mm frame) (tasks pid) virtAdr (pageAt frame)) grown := by
  have fresh : owner frame = none := (roles.unused inside).mpr free
  have taken := @PageRoles.take _ _ _ _ _ roles _ (.user pid (vaPath virtAdr)) inside free (by simp)
  have same_needed := tablesNeeded_takePage roles known inside free virtAdr
  have same_tables := @PageRoles.take_field _ _ _ _ _ roles _ _ known inside free
    Task.kernelpagesCount (by decide)
  have same_users := @PageRoles.take_field _ _ _ _ _ roles _ _ known inside free Task.userpagesCount
    (by decide)
  have left := freeCount_takePage inside free
  have needed_le := tablesNeeded_le mm.memory (tasks pid) virtAdr
  obtain ⟨grown, mapped⟩ := @mapPage_spec _ _ _ _ virtAdr _ _ _ taken known
    (Function.update_self ..) (by omega) (by omega) (by omega)
  have tables := mapped.kernelpages
  have users := mapped.userpages
  have physical := mapped.physical
  have virtual := mapped.virtual
  have pages_left := mapped.left
  rw [same_needed] at tables pages_left
  rw [same_tables] at tables
  rw [same_users] at users physical virtual
  refine ⟨grown, mapped.roles, fun owned => mapped.kept (owned_of_taken fresh _ owned),
    ⟨inside, fresh⟩, mapped.kept (Function.update_self ..), added_of_taken fresh mapped, ?_,
    tables_of_taken roles known inside free mapped, tables, users, physical, virtual, by omega, ?_,
    ?_, page_of_taken roles known fresh room same_users (by omega) mapped⟩
  · intro other path other_known long
    rw [mapped.walks other_known long, roles.walk_take other_known (by omega) inside free]
  · intro other other_known differ
    exact (roles.take_task other_known inside free).trans
      (mapped.other_task taken known (by omega) (by omega) other_known differ)
  · intro address lower upper off_directory off_users off_tables
    rw [← roles.take_task known inside free address lower upper]
    refine mapped.frame address off_directory (by rw [same_users]; exact off_users) off_tables ?_
    intro index page_inside page_lower page_upper
    exact ⟨_, taken.task_page known lower upper page_inside page_lower page_upper, by simp⟩

theorem allocateUserPage_spec (roles : PageRoles image mm tasks count owner) (known : pid < count)
    (enough : tablesNeeded mm.memory (tasks pid) virtAdr + 1 ≤ freeCount mm)
    (small : Task.kernelpagesCount.get mm.memory (tasks pid) + 4 ≤ 128)
    (room : Task.userpagesCount.get mm.memory (tasks pid) < maxProcessPages) :
    ∃ frame after grown, allocateUserPage mm (tasks pid) virtAdr = (after, kernelAdr frame) ∧
      PageAdded image tasks count pid virtAdr mm owner frame after grown := by
  obtain ⟨frame, inside, free, call⟩ := getNextFreePage_of_pos (by omega : 0 < freeCount mm)
  obtain ⟨grown, added⟩ := @mapPage_takePage_spec _ _ _ _ virtAdr _ _ _ roles known inside free
    enough small room
  refine ⟨frame, _, grown, ?_, added⟩
  unfold allocateUserPage
  rw [call]
  simp only [pageAt_ne_zero, if_false, kernelAdr_eq inside]

end AddPage

end PellOs
