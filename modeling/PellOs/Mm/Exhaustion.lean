import PellOs.Mm.TableReach
import PellOs.Mm.UserPage

/-!
# Running out of pages inside `map_page`

`map_page` has no result.  When `get_next_free_page` returns zero, the zero is stored and followed
like any other page, so the calls that are left work on a table at physical address zero and on
whatever its entries point to.
-/

namespace PellOs

/-! ## Stores to page tables -/

/-- The slot that one call of `map_table` stores to, if any. -/
def mapTableStores (mm : Mm) (table shift virtAdr : Nat) : List Nat :=
  if mm.memory.read (tableSlot table virtAdr shift) 8 = 0 then [tableSlot table virtAdr shift]
  else []

/-- The slots that `map_page` stores to from a table on: those of the missing tables, and that of
the page by `map_table_entry`. -/
def mapLevelsStores (task virtAdr : Nat) : Mm → Nat → List Nat → List Nat
  | _, table, [] => [tableSlot ((table + virtualAddressStart) % wordSize) virtAdr pageShift]
  | mm, table, shift :: shifts =>
      mapTableStores mm ((table + virtualAddressStart) % wordSize) shift virtAdr ++
        mapLevelsStores task virtAdr (mapLevel mm task table shift virtAdr).1
          (mapLevel mm task table shift virtAdr).2 shifts

/-- The slots of page tables that `map_page` stores to; `mapPage_traced` says what else it changes.
-/
def mapPageStores (mm : Mm) (task virtAdr : Nat) : List Nat :=
  let mm := ensureDirectory mm task
  mapLevelsStores task virtAdr mm (Task.pagedirectory.get mm.memory task)
    [pgdShift, pudShift, pmdShift]

theorem mapLevelsStores_suffix (task virtAdr : Nat) (mm : Mm) (table : Nat)
    (left right : List Nat) :
    mapLevelsStores task virtAdr (mapLevels task virtAdr mm table left).1
        (mapLevels task virtAdr mm table left).2 right <:+
      mapLevelsStores task virtAdr mm table (left ++ right) := by
  induction left generalizing mm table with
  | nil => rw [List.nil_append, mapLevels]
  | cons shift left ih =>
      rw [List.cons_append, mapLevelsStores, mapLevels_cons]
      exact (ih _ _).trans (List.suffix_append _ _)

theorem last_mem_mapLevelsStores (task virtAdr : Nat) (mm : Mm) (table : Nat) (shifts : List Nat) :
    tableSlot (((mapLevels task virtAdr mm table shifts).2 + virtualAddressStart) % wordSize)
      virtAdr
      pageShift ∈ mapLevelsStores task virtAdr mm table shifts := by
  have last := mapLevelsStores_suffix task virtAdr mm table shifts []
  rw [mapLevelsStores, List.append_nil] at last
  exact last.subset List.mem_cons_self

/-! ## Everything else -/

/-- The address is in no free page. -/
def OffFree (mm : Mm) (address : Nat) : Prop :=
  ∀ index, index < mmNumOfPages → IsFree mm index →
    address < kernelAdr index ∨ kernelAdr index + pageSize ≤ address

/-- Memory is as it was off the task, off the slots, and off the pages that were free; from its list
of user pages to its list of tables the task is as it was as well. -/
structure StoresTraced (mm : Mm) (task : Nat) (stores : List Nat) (after : Mm) : Prop where
  kept : ∀ {address}, address < task ∨ task + pageSize ≤ address →
    (∀ slot ∈ stores, address < slot ∨ slot + 8 ≤ address) → OffFree mm address →
      after.memory address = mm.memory address
  own : ∀ {address}, task + 160 ≤ address → address < task + 424 →
    after.memory address = mm.memory address
  free : ∀ {index}, IsFree after index → IsFree mm index

section Traced

variable {mm : Mm} {task virtAdr : Nat}

theorem OffFree.mono {after : Mm} {address : Nat} (off : OffFree mm address)
    (free : ∀ {index}, IsFree after index → IsFree mm index) : OffFree after address :=
  fun index inside left => off index inside (free left)

theorem StoresTraced.trans {middle after : Mm} {first second : List Nat}
    (before : StoresTraced mm task first middle) (behind : StoresTraced middle task second after) :
    StoresTraced mm task (first ++ second) after where
  kept off_task off_slots off := by
    rw [behind.kept off_task (fun slot member => off_slots slot (List.mem_append_right _ member))
      (off.mono before.free)]
    exact before.kept off_task
      (fun slot member => off_slots slot (List.mem_append_left _ member)) off
  own lower upper := (behind.own lower upper).trans (before.own lower upper)
  free left := before.free (behind.free left)

theorem memory_getNextFreePage {address : Nat} (off : OffFree mm address) :
    (getNextFreePage mm).1.memory address = mm.memory address := by
  rcases getNextFreePage_cases mm with ⟨index, inside, free, -, call⟩ | ⟨-, call⟩
  · have apart : address + 1 ≤ kernelAdr index ∨ kernelAdr index + pageSize ≤ address :=
      off index inside free
    rw [call]
    exact agreeOn_takePage mm apart address (le_refl _) (Nat.lt_succ_self _)
  · rw [call]

/-- `get_next_free_page` leaves a task alone that lies in no free page. -/
theorem get_getNextFreePage {field : Field} (fits : task + 2 * pageSize ≤ wordSize)
    (inner : field.offset + field.width ≤ pageSize)
    (used : ∀ place < pageSize, OffFree mm (task + place)) :
    field.get (getNextFreePage mm).1.memory task = field.get mm.memory task := by
  simp only [pageSize] at fits inner
  apply Field.get_congr (by omega)
  intro address lower upper
  obtain ⟨place, rfl⟩ := Nat.exists_eq_add_of_le (Nat.le_of_add_right_le lower)
  exact memory_getNextFreePage (used place (by simp only [pageSize]; omega))

theorem mapLevel_traced {table shift : Nat} (fits : task + 2 * pageSize ≤ wordSize)
    (small : Task.kernelpagesCount.get mm.memory task < 128)
    (used : ∀ place < pageSize, OffFree mm (task + place))
    (apart : ∀ slot ∈ mapTableStores mm ((table + virtualAddressStart) % wordSize) shift virtAdr,
      slot + 8 ≤ task ∨ task + pageSize ≤ slot) :
    StoresTraced mm task
        (mapTableStores mm ((table + virtualAddressStart) % wordSize) shift virtAdr)
        (mapLevel mm task table shift virtAdr).1 ∧
      Task.kernelpagesCount.get (mapLevel mm task table shift virtAdr).1.memory task ≤
        Task.kernelpagesCount.get mm.memory task + 1 := by
  have free : ∀ {index}, IsFree (mapLevel mm task table shift virtAdr).1 index → IsFree mm index :=
    isFree_of_mapLevel
  rw [mapTableStores] at apart ⊢
  generalize place : tableSlot ((table + virtualAddressStart) % wordSize) virtAdr shift = slot at *
  by_cases missing : mm.memory.read slot 8 = 0
  · rw [if_pos missing] at apart ⊢
    have slot_apart := apart _ List.mem_cons_self
    rw [← place] at missing
    rw [mapLevel_of_new task (mapTable_of_eq missing Prod.mk.eta.symm)] at free ⊢
    rw [place] at free ⊢
    generalize entry : (getNextFreePage mm).2 ||| mmTypePageTable = value at *
    have count_eq : Task.kernelpagesCount.get
        ((getNextFreePage mm).1.memory.write slot 8 value) task =
          Task.kernelpagesCount.get mm.memory task := by
      rw [← get_getNextFreePage fits (by decide) used]
      simp only [pageSize] at fits slot_apart
      apply Field.get_congr (by simp only [Task.kernelpagesCount]; omega)
      apply Memory.agreeOn_write
      simp only [Task.kernelpagesCount]
      omega
    obtain ⟨counted, recorded⟩ := @recordKernelPage_spec _ _ (getNextFreePage mm).2 fits
      (count_eq.trans_lt small)
    rw [count_eq] at counted recorded
    simp only [pageSize] at slot_apart
    refine ⟨⟨fun off_task off_slots off => ?_, fun lower upper => ?_, free⟩, ?_⟩
    · have off_slot := off_slots slot List.mem_cons_self
      simp only [pageSize] at off_task
      rw [Mm.memory_setMemory, recorded _ (by omega), Memory.write_outside _ (by omega),
        memory_getNextFreePage off]
    · obtain ⟨place, rfl⟩ := Nat.exists_eq_add_of_le (Nat.le_of_add_right_le lower)
      rw [Mm.memory_setMemory, recorded _ (by omega), Memory.write_outside _ (by omega),
        memory_getNextFreePage (used place (by simp only [pageSize]; omega))]
    · rw [Mm.memory_setMemory, counted]
  · rw [if_neg missing]
    rw [mapLevel_of_old task (mapTable_of_ne (by rw [place]; exact missing))]
    exact ⟨⟨fun _ _ _ => rfl, fun _ _ => rfl, id⟩, Nat.le_succ _⟩

/-- The calls of `map_table`, and the store of the page by `map_table_entry`. -/
theorem mapLevels_traced {table : Nat} {shifts : List Nat} (fits : task + 2 * pageSize ≤ wordSize)
    (small : Task.kernelpagesCount.get mm.memory task + shifts.length ≤ 128)
    (used : ∀ place < pageSize, OffFree mm (task + place))
    (apart : ∀ slot ∈ mapLevelsStores task virtAdr mm table shifts,
      slot + 8 ≤ task ∨ task + pageSize ≤ slot) (page : Nat) :
    StoresTraced mm task (mapLevelsStores task virtAdr mm table shifts)
      ((mapLevels task virtAdr mm table shifts).1.setMemory
        (mapTableEntry (mapLevels task virtAdr mm table shifts).1.memory
          (((mapLevels task virtAdr mm table shifts).2 + virtualAddressStart) % wordSize) virtAdr
          page)) := by
  induction shifts generalizing mm table with
  | nil =>
      rw [mapLevelsStores] at apart ⊢
      rw [mapLevels]
      dsimp only
      have last_apart := apart _ List.mem_cons_self
      simp only [pageSize] at last_apart
      have off_slot : ∀ {address}, address < tableSlot
          ((table + virtualAddressStart) % wordSize) virtAdr pageShift ∨
            tableSlot ((table + virtualAddressStart) % wordSize) virtAdr pageShift + 8 ≤ address →
          mapTableEntry mm.memory ((table + virtualAddressStart) % wordSize) virtAdr page address =
            mm.memory address := by
        intro address off
        rw [mapTableEntry]
        exact Memory.write_outside _ off
      refine ⟨fun _ off_slots _ => ?_, fun lower upper => ?_,
        (isFree_congr (Mm.pageBitmap_setMemory _ _) _).mp⟩
      · rw [Mm.memory_setMemory]
        exact off_slot (off_slots _ List.mem_cons_self)
      · rw [Mm.memory_setMemory]
        exact off_slot (by omega)
  | cons shift shifts ih =>
      rw [mapLevelsStores] at apart ⊢
      rw [List.length_cons] at small
      obtain ⟨first, counted⟩ := @mapLevel_traced _ _ virtAdr table shift fits (by omega) used
        fun slot member => apart slot (List.mem_append_left _ member)
      rw [mapLevels_cons]
      exact first.trans (ih (by omega) (fun place bound => (used place bound).mono first.free)
        fun slot member => apart slot (List.mem_append_right _ member))

theorem ensureDirectory_traced (fits : task + 2 * pageSize ≤ wordSize)
    (small : Task.kernelpagesCount.get mm.memory task < 128)
    (used : ∀ place < pageSize, OffFree mm (task + place)) :
    StoresTraced mm task [] (ensureDirectory mm task) ∧
      Task.kernelpagesCount.get (ensureDirectory mm task).memory task ≤
        Task.kernelpagesCount.get mm.memory task + 1 := by
  by_cases absent : Task.pagedirectory.get mm.memory task = 0
  · have free : ∀ {index}, IsFree (getNextFreePage mm).1 index → IsFree mm index :=
      isFree_of_getNextFreePage
    have directory_fits : task + Task.pagedirectory.offset < wordSize := by
      simp only [Task.pagedirectory, pageSize] at fits ⊢
      omega
    have ensured : ensureDirectory mm task = (getNextFreePage mm).1.setMemory (recordKernelPage
        (Task.pagedirectory.set (getNextFreePage mm).1.memory task (getNextFreePage mm).2) task
        (Task.pagedirectory.get (Task.pagedirectory.set (getNextFreePage mm).1.memory task
          (getNextFreePage mm).2) task)) := by
      unfold ensureDirectory
      rw [if_pos absent]
    have directory_only : ∀ {address}, address < task + 152 ∨ task + 160 ≤ address →
        Task.pagedirectory.set (getNextFreePage mm).1.memory task (getNextFreePage mm).2 address =
          (getNextFreePage mm).1.memory address := by
      intro address off
      rw [Field.set_eq directory_fits]
      exact Memory.write_outside _ (by simp only [Task.pagedirectory]; omega)
    have count_eq : Task.kernelpagesCount.get (Task.pagedirectory.set
        (getNextFreePage mm).1.memory task (getNextFreePage mm).2) task =
          Task.kernelpagesCount.get mm.memory task := by
      rw [← get_getNextFreePage fits (by decide) used]
      simp only [pageSize] at fits
      refine Field.get_congr (by simp only [Task.kernelpagesCount]; omega) fun address lower _ => ?_
      simp only [Task.kernelpagesCount] at lower
      exact directory_only (by omega)
    obtain ⟨counted, recorded⟩ := @recordKernelPage_spec _ _ (Task.pagedirectory.get
      (Task.pagedirectory.set (getNextFreePage mm).1.memory task (getNextFreePage mm).2) task) fits
      (count_eq.trans_lt small)
    rw [count_eq] at counted recorded
    rw [ensured]
    refine ⟨⟨fun off_task _ off => ?_, fun lower upper => ?_, free⟩, ?_⟩
    · simp only [pageSize] at off_task
      rw [Mm.memory_setMemory, recorded _ (by omega), directory_only (by omega),
        memory_getNextFreePage off]
    · obtain ⟨place, rfl⟩ := Nat.exists_eq_add_of_le (Nat.le_of_add_right_le lower)
      rw [Mm.memory_setMemory, recorded _ (by omega), directory_only (by omega),
        memory_getNextFreePage (used place (by simp only [pageSize]; omega))]
    · rw [Mm.memory_setMemory, counted]
  · have same : ensureDirectory mm task = mm := by
      unfold ensureDirectory
      rw [if_neg absent]
    rw [same]
    exact ⟨⟨fun _ _ _ => rfl, fun _ _ => rfl, id⟩, Nat.le_succ _⟩

theorem memory_mapPage {task table page : Nat} {after : Mm}
    (tables : mapLevels task virtAdr (ensureDirectory mm task)
      (Task.pagedirectory.get (ensureDirectory mm task).memory task)
      [pgdShift, pudShift, pmdShift] = (after, table)) :
    (mapPage mm task virtAdr page).memory =
      recordUserPage (mapTableEntry after.memory ((table + virtualAddressStart) % wordSize) virtAdr
        page) task page virtAdr := by
  unfold mapPage
  simp only [tables]
  rfl

theorem StoresTraced.recordUserPage {after : Mm} {stores : List Nat}
    (traced : StoresTraced mm task stores after) (fits : task + 2 * pageSize ≤ wordSize)
    (few : Task.userpagesCount.get mm.memory task < 128) (page virtAdr : Nat) {address : Nat}
    (off_task : address < task ∨ task + pageSize ≤ address)
    (off_slots : ∀ slot ∈ stores, address < slot ∨ slot + 8 ≤ address) (off : OffFree mm address) :
    recordUserPage after.memory task page virtAdr address = mm.memory address := by
  have users : Task.userpagesCount.get after.memory task =
      Task.userpagesCount.get mm.memory task := by
    simp only [pageSize] at fits
    refine Field.get_congr (by simp only [Task.userpagesCount]; omega) fun address lower upper => ?_
    simp only [Task.userpagesCount] at lower upper
    exact traced.own lower (by omega)
  obtain ⟨-, -, -, recorded⟩ := @recordUserPage_spec _ task page virtAdr fits (users.trans_lt few)
  rw [users] at recorded
  have unrecorded := traced.kept off_task off_slots off
  simp only [pageSize] at off_task
  exact (recorded address (by omega) (by omega)).trans unrecorded

/-- `map_page` changes nothing but the slots that it stores to, the task, and pages that were free.
-/
theorem mapPage_traced (fits : task + 2 * pageSize ≤ wordSize)
    (small : Task.kernelpagesCount.get mm.memory task + 4 ≤ 128)
    (few : Task.userpagesCount.get mm.memory task < 128)
    (used : ∀ place < pageSize, OffFree mm (task + place))
    (apart : ∀ slot ∈ mapPageStores mm task virtAdr, slot + 8 ≤ task ∨ task + pageSize ≤ slot)
    (page : Nat) {address : Nat} (off_task : address < task ∨ task + pageSize ≤ address)
    (off_slots : ∀ slot ∈ mapPageStores mm task virtAdr, address < slot ∨ slot + 8 ≤ address)
    (off : OffFree mm address) :
    (mapPage mm task virtAdr page).memory address = mm.memory address := by
  obtain ⟨first, counted⟩ := ensureDirectory_traced fits (by omega) used
  rw [mapPageStores] at apart off_slots
  have levels : Task.kernelpagesCount.get (ensureDirectory mm task).memory task +
      [pgdShift, pudShift, pmdShift].length ≤ 128 := by
    simp only [List.length_cons, List.length_nil]
    omega
  have second := mapLevels_traced fits levels
    (fun place bound => (used place bound).mono first.free) apart page
  have traced := first.trans second
  rw [List.nil_append] at traced
  have recorded := traced.recordUserPage fits few page virtAdr off_task off_slots off
  rw [Mm.memory_setMemory] at recorded
  rw [memory_mapPage Prod.mk.eta.symm]
  exact recorded

end Traced

/-! ## Aligned tables -/

theorem tableSlot_aligned {table : Nat} (aligned : table % pageSize = 0) (virtAdr shift : Nat) :
    tableSlot ((table + virtualAddressStart) % wordSize) virtAdr shift % 8 = 0 := by
  have bound := tableIndex_lt virtAdr shift
  simp only [pageSize, ptrsPerTable] at aligned bound
  simp only [tableSlot, virtualAddressStart, wordSize]
  omega

theorem and_pageMask_aligned {entry : Nat} (small : entry < wordSize) :
    (entry &&& pageMask) % pageSize = 0 := by
  rw [and_pageMask small, pageSize]
  exact Nat.mul_mod_right _ _

theorem pageAt_aligned (index : Nat) : pageAt index % pageSize = 0 := by
  rw [pageAt_eq_mul]
  exact Nat.mul_mod_right _ _

/-! ## Calls with enough pages -/

section Enough

variable {image : Image} {tasks : Nat → Nat} {count pid index virtAdr : Nat} {mm : Mm}
  {owner : Nat → Option PageRole} {path : List Nat}

/-- The slot lies in a page of a kind that is not free. -/
def SlotIn (mm : Mm) (kind : Nat → Prop) (slot : Nat) : Prop :=
  ∃ index, index < mmNumOfPages ∧ kind index ∧ ¬IsFree mm index ∧
    kernelAdr index ≤ slot ∧ slot + 8 ≤ kernelAdr index + pageSize

theorem slotIn_table (roles : PageRoles image mm tasks count owner) {kind : Nat → Prop}
    (owned : owner index = some (.table pid path)) (right_kind : kind index) (virtAdr shift : Nat) :
    SlotIn mm kind (tableSlot ((pageAt index + virtualAddressStart) % wordSize) virtAdr shift) := by
  have inside := roles.inside owned
  have bound := tableIndex_lt virtAdr shift
  refine ⟨index, inside, right_kind, ?_, ?_⟩
  · rw [← roles.unused inside, owned]
    simp
  · simp only [ptrsPerTable] at bound
    rw [kernelAdr_eq inside, tableSlot_kernelAdr inside, pageSize]
    omega

theorem SlotIn.mono {kind : Nat → Prop} {after : Mm} {slot : Nat} (slot_in : SlotIn mm kind slot)
    (taken : ∀ {index}, IsFree after index → IsFree mm index) : SlotIn after kind slot := by
  obtain ⟨index, inside, right_kind, used, bounds⟩ := slot_in
  exact ⟨index, inside, right_kind, fun free => used (taken free), bounds⟩

/-- With enough pages left, the calls of `map_table` store to tables that existed before and to
pages that were free. -/
theorem mapLevelsStores_owned (roles : PageRoles image mm tasks count owner) (known : pid < count)
    {kind : Nat → Prop} (fresh : ∀ {other}, IsFree mm other → kind other)
    (below : ∀ {position other}, (path ++ position).length ≤ 3 →
      walk mm.memory (tasks pid) (path ++ position) = some (pageAt other) → kind other)
    (reached : walk mm.memory (tasks pid) path = some (pageAt index))
    (owned : owner index = some (.table pid path)) {shifts : List Nat}
    (short : path.length + shifts.length ≤ 3)
    (enough : missingTables mm.memory (pageAt index) (shifts.map (tableIndex virtAdr)) ≤
      freeCount mm)
    (small : Task.kernelpagesCount.get mm.memory (tasks pid) + shifts.length ≤ 128) :
    ∀ slot ∈ mapLevelsStores (tasks pid) virtAdr mm (pageAt index) shifts,
      SlotIn (mapLevels (tasks pid) virtAdr mm (pageAt index) shifts).1 kind slot := by
  have here : kind index := @below [] index (by rw [List.append_nil]; omega)
    (by rw [List.append_nil]; exact reached)
  induction shifts generalizing mm owner index path with
  | nil =>
      intro slot member
      rw [mapLevelsStores] at member
      rw [mapLevels, List.mem_singleton.mp member]
      exact slotIn_table roles owned here virtAdr pageShift
  | cons shift shifts ih =>
      have longer : (path ++ [tableIndex virtAdr shift]).length + shifts.length ≤ 3 := by
        simp only [List.length_append, List.length_cons, List.length_nil] at short ⊢
        omega
      rw [List.length_cons] at short small
      rw [List.map_cons, missingTables] at enough
      rw [mapLevels_cons, mapLevelsStores]
      intro slot member
      rcases List.mem_append.mp member with first | later
      · rw [mapTableStores] at first
        split_ifs at first
        · rw [List.mem_singleton.mp first]
          exact (slotIn_table roles owned here virtAdr shift).mono fun free =>
            isFree_of_mapLevel (isFree_of_mapLevels free)
        · exact absurd first List.not_mem_nil
      revert slot
      by_cases missing : descriptor mm.memory (pageAt index) (tableIndex virtAdr shift) = 0
      · rw [if_pos missing, List.length_map] at enough
        obtain ⟨next, middle, -, free, call, growth, placed, counted, taken, empty⟩ :=
          mapLevel_added roles known reached owned (by omega) missing (by omega) (by omega)
            (List.prefix_refl _)
        have kept : ∀ {other}, IsFree middle other → IsFree mm other := by
          intro other other_free
          apply isFree_of_mapLevel
          rw [call]
          exact other_free
        rw [call]
        intro slot _ later
        refine ih growth.roles (fun other_free => fresh (kept other_free)) ?_ placed
          (Function.update_self ..) longer ?_ (by omega) (fresh free) slot later
        · intro position other _ found
          rw [walk_append, placed, Option.bind_some] at found
          cases position with
          | nil =>
              obtain rfl := pageAt_injective (Option.some.inj found)
              exact fresh free
          | cons place rest =>
              rw [RadixTree.lookup_cons, empty] at found
              cases found
        · rw [missingTables_empty empty]
          omega
      · obtain ⟨next, next_owned, target, found, call⟩ :=
          mapLevel_present roles known reached owned (by omega) missing
        rw [if_neg missing, target] at enough
        rw [call]
        intro slot _ later
        refine ih roles fresh ?_ found next_owned longer enough (by omega) ?_ slot later
        · intro position other fits other_found
          rw [List.append_assoc] at fits other_found
          exact below fits other_found
        · exact below (by omega) found

/-- With enough pages left, `map_page` stores descriptors to tables that existed before and to
pages that were free. -/
theorem mapPageStores_owned (roles : PageRoles image mm tasks count owner) (known : pid < count)
    {kind : Nat → Prop} (fresh : ∀ {other}, IsFree mm other → kind other)
    (below : ∀ {position other}, position.length ≤ 3 →
      walk mm.memory (tasks pid) position = some (pageAt other) → kind other)
    (enough : tablesNeeded mm.memory (tasks pid) virtAdr ≤ freeCount mm)
    (small : Task.kernelpagesCount.get mm.memory (tasks pid) + 4 ≤ 128) (page : Nat) :
    ∀ slot ∈ mapPageStores mm (tasks pid) virtAdr,
      SlotIn (mapPage mm (tasks pid) virtAdr page) kind slot := by
  obtain ⟨root, between, first, points, root_owned, reached, needed, few, present, absent⟩ :=
    @ensureDirectory_ready _ _ _ _ virtAdr _ _ roles known (enough_for_directory enough) small []
  have below_first : ∀ {position other}, ([] ++ position : List Nat).length ≤ 3 →
      walk (ensureDirectory mm (tasks pid)).memory (tasks pid) ([] ++ position) =
        some (pageAt other) → kind other := by
    intro position other short found
    rw [List.nil_append] at short found
    rcases first.along (by omega) found with before | at_root
    · exact below short before
    · obtain rfl := List.prefix_nil.mp at_root
      obtain rfl := pageAt_injective (Option.some.inj (found.symm.trans reached))
      by_cases empty : Task.pagedirectory.get mm.memory (tasks pid) = 0
      · exact fresh (absent empty)
      · rw [present empty] at found
        exact below short found
  intro slot member
  rw [mapPageStores] at member
  rw [points] at member
  refine (mapLevelsStores_owned first.roles known
    (fun free => fresh (isFree_of_ensureDirectory free)) below_first reached root_owned (by simp)
    (by omega) (by exact few) slot member).mono fun free => ?_
  rwa [isFree_mapPage, points] at free

end Enough

/-! ## Calls with no page left -/

section Dry

variable {task virtAdr : Nat} {mm : Mm}

/-- Between the two states `map_table` was called with no page left: a slot that held something
still does, an empty one may have become a table at physical address zero, and the task keeps all
that lies before its list of tables. -/
structure LeveledDry (task : Nat) (mm after : Mm) : Prop where
  slots : ∀ {address}, address % 8 = 0 → address + 8 ≤ task ∨ task + pageSize ≤ address →
    after.memory.read address 8 = mm.memory.read address 8 ∨
      mm.memory.read address 8 = 0 ∧ after.memory.read address 8 = mmTypePageTable
  own : ∀ {address}, task ≤ address → address < task + 424 →
    after.memory address = mm.memory address
  none_left : freeCount after = 0

theorem filled_once {before between after : Nat}
    (first : between = before ∨ before = 0 ∧ between = mmTypePageTable)
    (second : after = between ∨ between = 0 ∧ after = mmTypePageTable) :
    after = before ∨ before = 0 ∧ after = mmTypePageTable := by
  rcases second with same | ⟨empty, filled⟩
  · rw [same]
    exact first
  · rcases first with same | ⟨_, before_filled⟩
    · exact Or.inr ⟨same.symm.trans empty, filled⟩
    · rw [before_filled] at empty
      exact absurd empty (by decide)

theorem LeveledDry.refl (none_left : freeCount mm = 0) : LeveledDry task mm mm :=
  ⟨fun _ _ => Or.inl rfl, fun _ _ => rfl, none_left⟩

theorem LeveledDry.trans {middle after : Mm} (first : LeveledDry task mm middle)
    (second : LeveledDry task middle after) : LeveledDry task mm after where
  slots aligned apart := filled_once (first.slots aligned apart) (second.slots aligned apart)
  own lower upper := (second.own lower upper).trans (first.own lower upper)
  none_left := second.none_left

theorem LeveledDry.field {after : Mm} (dry : LeveledDry task mm after)
    (fits : task + 2 * pageSize ≤ wordSize) {field : Field}
    (inner : field.offset + field.width ≤ 424) :
    field.get after.memory task = field.get mm.memory task := by
  simp only [pageSize] at fits
  apply Field.get_congr (by omega)
  intro address lower upper
  exact dry.own (by omega) (by omega)

/-- A call that would add a table stores a table at physical address zero. -/
private theorem mapLevel_dry_missing {table shift slot : Nat} (none_left : freeCount mm = 0)
    (place : tableSlot ((table + virtualAddressStart) % wordSize) virtAdr shift = slot)
    (missing : mm.memory.read slot 8 = 0) :
    mapLevel mm task table shift virtAdr =
      (mm.setMemory (recordKernelPage (mm.memory.write slot 8 mmTypePageTable) task 0), 0) := by
  subst place
  rw [mapLevel_of_new task (mapTable_of_eq missing (getNextFreePage_of_zero none_left)),
    Nat.zero_or]

private theorem mapLevel_dry {table shift slot : Nat} (fits : task + 2 * pageSize ≤ wordSize)
    (none_left : freeCount mm = 0) (aligned : table % pageSize = 0)
    (small : Task.kernelpagesCount.get mm.memory task < 128)
    (place : tableSlot ((table + virtualAddressStart) % wordSize) virtAdr shift = slot)
    (apart : ∀ slot ∈ mapTableStores mm ((table + virtualAddressStart) % wordSize) shift virtAdr,
      slot + 8 ≤ task ∨ task + pageSize ≤ slot) :
    LeveledDry task mm (mapLevel mm task table shift virtAdr).1 ∧
      (mapLevel mm task table shift virtAdr).2 % pageSize = 0 ∧
      Task.kernelpagesCount.get (mapLevel mm task table shift virtAdr).1.memory task ≤
        Task.kernelpagesCount.get mm.memory task + 1 ∧
      (mm.memory.read slot 8 = 0 →
        (mapLevel mm task table shift virtAdr).1.memory.read slot 8 = mmTypePageTable) := by
  have slot_aligned : slot % 8 = 0 := place ▸ tableSlot_aligned aligned virtAdr shift
  rw [mapTableStores, place] at apart
  by_cases missing : mm.memory.read slot 8 = 0
  · rw [if_pos missing] at apart
    rw [mapLevel_dry_missing none_left place missing]
    have slot_apart := apart _ List.mem_cons_self
    have same : Task.kernelpagesCount.get (mm.memory.write slot 8 mmTypePageTable) task =
        Task.kernelpagesCount.get mm.memory task := by
      apply Field.get_congr
      · simp only [Task.kernelpagesCount, pageSize] at fits ⊢
        omega
      · apply Memory.agreeOn_write
        simp only [Task.kernelpagesCount, pageSize] at slot_apart ⊢
        omega
    obtain ⟨counted, recorded⟩ := @recordKernelPage_spec _ _ 0 fits (same.trans_lt small)
    rw [same] at counted recorded
    have reads : ∀ {address}, address % 8 = 0 → address + 8 ≤ task ∨ task + pageSize ≤ address →
        (recordKernelPage (mm.memory.write slot 8 mmTypePageTable) task 0).read address 8 =
          if address = slot then mmTypePageTable else mm.memory.read address 8 := by
      intro address address_aligned off_task
      simp only [pageSize] at off_task
      have unrecorded : (mm.memory.write slot 8 mmTypePageTable).AgreeOn
          (recordKernelPage (mm.memory.write slot 8 mmTypePageTable) task 0) address 8 := by
        intro byte lower upper
        exact recorded byte (by omega)
      rw [Memory.read_congr unrecorded]
      split_ifs with here
      · rw [here, Memory.read_write_same]
        rfl
      · exact Memory.read_write_disjoint _ (by omega)
    refine ⟨⟨?_, ?_, ?_⟩, Nat.zero_mod _, counted.le, fun _ => ?_⟩
    · intro address address_aligned off_task
      rw [Mm.memory_setMemory, reads address_aligned off_task]
      by_cases here : address = slot
      · rw [if_pos here, here]
        exact Or.inr ⟨missing, rfl⟩
      · exact Or.inl (if_neg here)
    · intro address lower upper
      simp only [pageSize] at slot_apart
      rw [Mm.memory_setMemory, recorded address (by omega), Memory.write_outside _ (by omega)]
    · rw [freeCount_congr (Mm.pageBitmap_setMemory _ _), none_left]
    · rw [Mm.memory_setMemory, reads slot_aligned slot_apart, if_pos rfl]
  · rw [mapLevel_of_old task (mapTable_of_ne (by rw [place]; exact missing))]
    exact ⟨.refl none_left, and_pageMask_aligned (Memory.read_lt _ _ _), Nat.le_succ _,
      fun zero => absurd zero missing⟩

/-- The calls of `map_table` in `map_page` from a point on at which no page is left. -/
theorem mapLevels_dry {table : Nat} {shifts : List Nat} (fits : task + 2 * pageSize ≤ wordSize)
    (none_left : freeCount mm = 0) (aligned : table % pageSize = 0)
    (small : Task.kernelpagesCount.get mm.memory task + shifts.length ≤ 128)
    (apart : ∀ slot ∈ mapLevelsStores task virtAdr mm table shifts,
      slot + 8 ≤ task ∨ task + pageSize ≤ slot) :
    LeveledDry task mm (mapLevels task virtAdr mm table shifts).1 ∧
      (mapLevels task virtAdr mm table shifts).2 % pageSize = 0 := by
  induction shifts generalizing mm table with
  | nil =>
      rw [mapLevels]
      exact ⟨.refl none_left, aligned⟩
  | cons shift shifts ih =>
      rw [mapLevelsStores] at apart
      rw [List.length_cons] at small
      obtain ⟨first, next_aligned, counted, -⟩ := @mapLevel_dry _ virtAdr _ _ shift _ fits
        none_left aligned (by omega) rfl fun slot member =>
          apart slot (List.mem_append_left _ member)
      obtain ⟨second, last_aligned⟩ := ih first.none_left next_aligned (by omega)
        fun slot member => apart slot (List.mem_append_right _ member)
      rw [mapLevels_cons]
      exact ⟨first.trans second, last_aligned⟩

/-- Slots of the table at physical address zero, for an address whose indices are zero, when the
first entry of that table is empty or has been stored by `map_table`. -/
theorem mapLevelsStores_zero {shifts : List Nat} (fits : task + 2 * pageSize ≤ wordSize)
    (none_left : freeCount mm = 0) (apart : virtualAddressStart + 8 ≤ task)
    (first : mm.memory.read virtualAddressStart 8 = 0 ∨
      mm.memory.read virtualAddressStart 8 = mmTypePageTable)
    (small : Task.kernelpagesCount.get mm.memory task + shifts.length ≤ 128) :
    ∀ slot ∈ mapLevelsStores task 0 mm 0 shifts, slot = virtualAddressStart := by
  have place : ∀ shift, tableSlot ((0 + virtualAddressStart) % wordSize) 0 shift =
      virtualAddressStart := by
    intro shift
    rw [tableSlot, tableIndex, Nat.zero_shiftRight, Nat.zero_and]
    decide
  induction shifts generalizing mm with
  | nil =>
      intro slot member
      rw [mapLevelsStores, place] at member
      exact List.mem_singleton.mp member
  | cons shift shifts ih =>
      rw [List.length_cons] at small
      obtain ⟨leveled, -, counted, stored⟩ := @mapLevel_dry _ 0 _ 0 shift _ fits none_left
        (Nat.zero_mod _) (by omega) (place shift) (by
          intro slot member
          rw [mapTableStores, place] at member
          split_ifs at member
          · rw [List.mem_singleton.mp member]
            exact Or.inl apart
          · exact absurd member List.not_mem_nil)
      have next : (mapLevel mm task 0 shift 0).2 = 0 := by
        rcases first with empty | table
        · rw [mapLevel_dry_missing none_left (place shift) empty]
        · rw [mapLevel_of_old task (mapTable_of_ne (by rw [place, table]; decide)), place, table]
          exact (by decide : mmTypePageTable &&& pageMask = 0)
      have first_next : (mapLevel mm task 0 shift 0).1.memory.read virtualAddressStart 8 = 0 ∨
          (mapLevel mm task 0 shift 0).1.memory.read virtualAddressStart 8 = mmTypePageTable := by
        rcases leveled.slots (by decide : virtualAddressStart % 8 = 0) (Or.inl apart) with
          same | ⟨_, filled⟩
        · rw [same]
          exact first
        · exact Or.inr filled
      intro slot member
      rw [mapLevelsStores, next] at member
      rcases List.mem_append.mp member with here | later
      · rw [mapTableStores, place] at here
        split_ifs at here
        · exact List.mem_singleton.mp here
        · exact absurd here List.not_mem_nil
      · exact ih leveled.none_left first_next (by omega) slot later

theorem recordEntry_finish {pte page : Nat} (fits : task + 2 * pageSize ≤ wordSize)
    (aligned : pte % pageSize = 0) (small : page ||| mmuPteFlags < 256 ^ 8)
    (few : Task.userpagesCount.get mm.memory task ≤ maxProcessPages)
    (apart : tableSlot ((pte + virtualAddressStart) % wordSize) virtAdr pageShift + 8 ≤ task ∨
      task + pageSize ≤ tableSlot ((pte + virtualAddressStart) % wordSize) virtAdr pageShift) :
    let slot := tableSlot ((pte + virtualAddressStart) % wordSize) virtAdr pageShift
    let final := recordUserPage (mapTableEntry mm.memory ((pte + virtualAddressStart) % wordSize)
      virtAdr page) task page virtAdr
    (∀ {address}, address % 8 = 0 → address + 8 ≤ task ∨ task + pageSize ≤ address →
      final.read address 8 =
        if address = slot then page ||| mmuPteFlags else mm.memory.read address 8) ∧
    Task.pagedirectory.get final task = Task.pagedirectory.get mm.memory task := by
  intro slot final
  have slot_aligned : slot % 8 = 0 := tableSlot_aligned aligned virtAdr pageShift
  have stored : mapTableEntry mm.memory ((pte + virtualAddressStart) % wordSize) virtAdr page =
      mm.memory.write slot 8 (page ||| mmuPteFlags) := by
    rw [mapTableEntry]
  have final_eq : final = recordUserPage (mm.memory.write slot 8 (page ||| mmuPteFlags)) task page
      virtAdr := by
    rw [← stored]
  clear_value final
  change slot + 8 ≤ task ∨ task + pageSize ≤ slot at apart
  clear_value slot
  simp only [pageSize] at apart
  have same : Task.userpagesCount.get (mm.memory.write slot 8 (page ||| mmuPteFlags)) task =
      Task.userpagesCount.get mm.memory task := by
    apply Field.get_congr
    · simp only [Task.userpagesCount, pageSize] at fits ⊢
      omega
    · apply Memory.agreeOn_write
      simp only [Task.userpagesCount]
      omega
  obtain ⟨-, -, -, recorded⟩ := @recordUserPage_spec _ _ page virtAdr fits
    (same.trans_lt (lt_of_le_of_lt few (by decide)))
  rw [same, ← final_eq] at recorded
  simp only [maxProcessPages] at few
  constructor
  · intro address address_aligned off_task
    simp only [pageSize] at off_task
    have unrecorded : (mm.memory.write slot 8 (page ||| mmuPteFlags)).AgreeOn final address 8 := by
      intro byte lower upper
      exact recorded byte (by omega) (by omega)
    rw [Memory.read_congr unrecorded]
    by_cases here : address = slot
    · rw [if_pos here, here, Memory.read_write_same, Nat.mod_eq_of_lt small]
    · rw [if_neg here, Memory.read_write_disjoint _ (by omega)]
  · apply Field.get_congr
    · simp only [Task.pagedirectory, pageSize] at fits ⊢
      omega
    · intro address lower upper
      simp only [Task.pagedirectory] at lower upper
      rw [recorded address (by omega) (by omega), Memory.write_outside _ (by omega)]

end Dry

/-! ## Walks through a table at physical address zero -/

/-- A present descriptor in a table that is reached from the root points to physical address
zero. -/
def ZeroDescriptor (memory : Memory) (root : Nat) : Prop :=
  ∃ level table index, TableAt memory root level table ∧ index < ptrsPerTable ∧
    descriptor memory table index % 2 = 1 ∧
    outputAddress (descriptor memory table index) pageShift = 0

theorem PageRoles.no_zeroDescriptor {image : Image} {tasks : Nat → Nat} {count pid : Nat} {mm : Mm}
    {owner : Nat → Option PageRole} (roles : PageRoles image mm tasks count owner)
    (known : pid < count) (directory : Task.pagedirectory.get mm.memory (tasks pid) ≠ 0) :
    ¬ZeroDescriptor mm.memory (Task.pagedirectory.get mm.memory (tasks pid)) := by
  rintro ⟨level, table, slot, reached, bound, present, target⟩
  obtain ⟨index, path, rfl, owned, -⟩ := roles.tableAt known directory reached
  rcases roles.entry owned bound with zero | ⟨next, next_owned, points⟩
  · rw [zero] at present
    exact absurd present (by decide)
  · rw [points, outputAddress_pageAt (roles.inside next_owned) (descriptorFlags_lt _)] at target
    exact pageAt_ne_zero next target

section Stuck

variable {final : Memory} {root virtAdr : Nat}

/-- No walk goes on below a page that holds nothing but descriptors of tables at zero. -/
private theorem walkTables_blank {table level : Nat} (clean : ¬ZeroDescriptor final root)
    (reached : TableAt final root level table)
    (entries : ∀ {slot}, slot < ptrsPerTable →
      descriptor final table slot = 0 ∨ descriptor final table slot = mmTypePageTable) :
    walkTables final virtAdr level table = none := by
  have bound := tableIndex_lt virtAdr (pageShift + 9 * level)
  have zero : descriptor final table (tableIndex virtAdr (pageShift + 9 * level)) = 0 := by
    rcases entries bound with zero | table_zero
    · exact zero
    · exact absurd ⟨_, _, _, reached, bound, by rw [table_zero]; decide,
        by rw [table_zero]; decide⟩ clean
  unfold walkTables
  cases level with
  | zero =>
      dsimp only
      rw [zero]
      rfl
  | succ level =>
      dsimp only
      rw [zero, if_neg (by decide), if_neg (by simp)]

variable {image : Image} {tasks : Nat → Nat} {count pid frame last slot : Nat} {mm : Mm}
  {owner : Nat → Option PageRole} {path : List Nat}

/-- The walk from a table of the task does not pass the descriptor that was stored when no page
was left: it either meets a table at physical address zero or ends in the new page. -/
theorem walkTables_broken (roles : PageRoles image mm tasks count owner)
    (clean : ¬ZeroDescriptor final root) (frame_owned : owner frame = some (.user pid path))
    (others : ∀ {index place}, index < mmNumOfPages → owner index ≠ some (.taskStruct pid) →
      place < ptrsPerTable → kernelAdr index + 8 * place ≠ slot →
        descriptor final (pageAt index) place = descriptor mm.memory (pageAt index) place ∨
          descriptor mm.memory (pageAt index) place = 0 ∧
            descriptor final (pageAt index) place = mmTypePageTable)
    (stored : ∀ {index place}, index < mmNumOfPages → owner index ≠ some (.taskStruct pid) →
      place < ptrsPerTable → kernelAdr index + 8 * place = slot →
        descriptor final (pageAt index) place = pageAt frame ||| mmuPteFlags)
    (blank : ∀ {place}, place < ptrsPerTable → descriptor mm.memory (pageAt frame) place = 0)
    {index level steps : Nat} {base : List Nat} (owned : owner index = some (.table pid base))
    (depth : base.length + level = 3) (above : steps < level)
    (passed : RadixTree.lookup (tableChild mm.memory) (pageAt index)
      ((levelIndices virtAdr level).take steps) = some (pageAt last))
    (dead : descriptor final (pageAt last) (tableIndex virtAdr (pageShift + 9 * (level - steps))) =
        mmTypePageTable ∨
      kernelAdr last + 8 * tableIndex virtAdr (pageShift + 9 * (level - steps)) = slot)
    (reached : TableAt final root level (pageAt index)) :
    walkTables final virtAdr level (pageAt index) = none := by
  have overwritten : ∀ {index level base}, owner index = some (.table pid base) →
      TableAt final root (level + 1) (pageAt index) →
      kernelAdr index + 8 * tableIndex virtAdr (pageShift + 9 * (level + 1)) = slot →
        walkTables final virtAdr (level + 1) (pageAt index) = none := by
    intro index level base owned reached here
    have bound := tableIndex_lt virtAdr (pageShift + 9 * (level + 1))
    have entry := stored (roles.inside owned) (by rw [owned]; simp) bound here
    have type := @descriptor_type frame mmuPteFlags (by decide) (by decide)
    have next : TableAt final root level (pageAt frame) := by
      have step := TableAt.next reached bound (by rw [entry]; exact type)
      rwa [entry, outputAddress_pageAt (roles.inside frame_owned) (by decide)] at step
    have differ : index ≠ frame := by
      rintro rfl
      rw [frame_owned] at owned
      cases owned
    have apart := kernelAdr_apart differ
    unfold walkTables
    dsimp only
    rw [entry, if_pos type, outputAddress_pageAt (roles.inside frame_owned) (by decide)]
    refine walkTables_blank clean next fun {place} place_bound => ?_
    rcases others (roles.inside frame_owned) (by rw [frame_owned]; simp) place_bound (by
      simp only [ptrsPerTable, pageSize] at bound place_bound apart
      omega) with same | ⟨_, table_zero⟩
    · exact Or.inl (same.trans (blank place_bound))
    · exact Or.inr table_zero
  induction steps generalizing index level base with
  | zero =>
      obtain ⟨below, rfl⟩ : ∃ below, level = below + 1 := ⟨level - 1, by omega⟩
      rw [List.take_zero, RadixTree.lookup_nil] at passed
      obtain rfl := pageAt_injective (Option.some.inj passed)
      rcases dead with table_zero | here
      · exact absurd ⟨_, _, _, reached, tableIndex_lt _ _, by rw [table_zero]; decide,
          by rw [table_zero]; decide⟩ clean
      · exact overwritten owned reached here
  | succ steps ih =>
      obtain ⟨below, rfl⟩ : ∃ below, level = below + 1 := ⟨level - 1, by omega⟩
      have bound := tableIndex_lt virtAdr (pageShift + 9 * (below + 1))
      rw [levelIndices, List.take_succ_cons, RadixTree.lookup_cons] at passed
      by_cases here : kernelAdr index + 8 * tableIndex virtAdr (pageShift + 9 * (below + 1)) = slot
      · exact overwritten owned reached here
      · rcases roles.entry owned bound with zero | ⟨next, next_owned, points⟩
        · rw [tableChild_zero zero] at passed
          cases passed
        · have next_inside := roles.inside next_owned
          have short : (base ++ [tableIndex virtAdr (pageShift + 9 * (below + 1))]).length ≤ 3 := by
            rw [List.length_append, List.length_singleton]
            omega
          rw [descriptorFlags, if_pos short] at points
          rw [treeRole_table short] at next_owned
          rw [tableChild_of_descriptor bound next_inside (by decide) points, Option.bind_some]
            at passed
          have entry : descriptor final (pageAt index)
              (tableIndex virtAdr (pageShift + 9 * (below + 1))) =
                pageAt next ||| mmTypePageTable := by
            rcases others (roles.inside owned) (by rw [owned]; simp) bound here with
              same | ⟨zero, _⟩
            · exact same.trans points
            · rw [points] at zero
              exact absurd zero (pageAt_or_ne_zero _ _)
          have type := @descriptor_type next mmTypePageTable (by decide) (by decide)
          have step := TableAt.next reached bound (by rw [entry]; exact type)
          rw [entry, outputAddress_pageAt next_inside (by decide)] at step
          unfold walkTables
          dsimp only
          rw [entry, if_pos type, outputAddress_pageAt next_inside (by decide)]
          refine ih next_owned ?_ (by omega) passed ?_ step
          · rw [List.length_append, List.length_singleton]
            omega
          · rwa [Nat.add_sub_add_right] at dead

end Stuck

/-! ## `map_page` with too few pages -/

section Starved

variable {image : Image} {tasks : Nat → Nat} {count pid virtAdr frame : Nat} {mm : Mm}
  {owner : Nat → Option PageRole} {path : List Nat}

private theorem mapLevels_finish {table page : Nat} {shifts : List Nat} {task : Nat}
    (fits : task + 2 * pageSize ≤ wordSize) (none_left : freeCount mm = 0)
    (aligned : table % pageSize = 0) (page_small : page ||| mmuPteFlags < 256 ^ 8)
    (small : Task.kernelpagesCount.get mm.memory task + shifts.length ≤ 128)
    (few : Task.userpagesCount.get mm.memory task ≤ maxProcessPages)
    (apart : ∀ slot ∈ mapLevelsStores task virtAdr mm table shifts,
      slot + 8 ≤ task ∨ task + pageSize ≤ slot) {final : Memory}
    (final_eq : final = recordUserPage (mapTableEntry
      (mapLevels task virtAdr mm table shifts).1.memory
      (((mapLevels task virtAdr mm table shifts).2 + virtualAddressStart) % wordSize) virtAdr page)
      task page virtAdr) :
    ∃ slot,
      (∀ {address}, address % 8 = 0 → address + 8 ≤ task ∨ task + pageSize ≤ address →
        address ≠ slot → final.read address 8 = mm.memory.read address 8 ∨
          mm.memory.read address 8 = 0 ∧ final.read address 8 = mmTypePageTable) ∧
      (slot + 8 ≤ task ∨ task + pageSize ≤ slot) ∧ slot % 8 = 0 ∧
      final.read slot 8 = page ||| mmuPteFlags ∧
      Task.pagedirectory.get final task = Task.pagedirectory.get mm.memory task := by
  obtain ⟨leveled, last_aligned⟩ := mapLevels_dry fits none_left aligned small apart
  have last_apart := apart _ (last_mem_mapLevelsStores task virtAdr mm table shifts)
  obtain ⟨finished, directory⟩ := recordEntry_finish fits last_aligned page_small
    (by rw [leveled.field fits (by decide)]; exact few) last_apart
  rw [← final_eq] at finished directory
  have slot_aligned := tableSlot_aligned last_aligned virtAdr pageShift
  refine ⟨_, ?_, last_apart, slot_aligned, ?_, directory.trans (leveled.field fits (by decide))⟩
  · intro address address_aligned off_task differ
    rw [finished address_aligned off_task, if_neg differ]
    exact leveled.slots address_aligned off_task
  · rw [finished slot_aligned last_apart, if_pos rfl]

/-- A directory for which no page is left is physical address zero. -/
theorem ensureDirectory_dry {task : Nat} (fits : task + 2 * pageSize ≤ wordSize)
    (none_left : freeCount mm = 0) (absent : Task.pagedirectory.get mm.memory task = 0)
    (small : Task.kernelpagesCount.get mm.memory task < 128) :
    Task.pagedirectory.get (ensureDirectory mm task).memory task = 0 ∧
      freeCount (ensureDirectory mm task) = 0 ∧
      Task.kernelpagesCount.get (ensureDirectory mm task).memory task =
        Task.kernelpagesCount.get mm.memory task + 1 ∧
      Task.userpagesCount.get (ensureDirectory mm task).memory task =
        Task.userpagesCount.get mm.memory task ∧
      ∀ address, address < task ∨ task + pageSize ≤ address →
        (ensureDirectory mm task).memory address = mm.memory address := by
  have directory_fits : task + Task.pagedirectory.offset < wordSize := by
    simp only [Task.pagedirectory, pageSize] at fits ⊢
    omega
  have stored : Task.pagedirectory.get (Task.pagedirectory.set mm.memory task 0) task = 0 :=
    Field.get_set_same directory_fits (by decide)
  have ensured : ensureDirectory mm task = mm.setMemory (recordKernelPage
      (Task.pagedirectory.set mm.memory task 0) task 0) := by
    unfold ensureDirectory
    rw [if_pos absent, getNextFreePage_of_zero none_left]
    simp only [stored]
  have set_other : ∀ {field : Field}, Task.pagedirectory.offset + 8 ≤ field.offset →
      field.offset + field.width ≤ pageSize →
        field.get (Task.pagedirectory.set mm.memory task 0) task = field.get mm.memory task := by
    intro field later inside
    simp only [pageSize] at fits inside
    apply Field.get_congr (by omega)
    exact Field.agreeOn_set directory_fits _ (Or.inr (by
      simp only [Task.pagedirectory] at later ⊢
      omega))
  have same_count := @set_other Task.kernelpagesCount (by decide) (by decide)
  obtain ⟨counted, recorded⟩ := @recordKernelPage_spec _ _ 0 fits (same_count.trans_lt small)
  have kept : ∀ {field : Field}, field.offset + field.width ≤ 424 →
      field.get (ensureDirectory mm task).memory task =
        field.get (Task.pagedirectory.set mm.memory task 0) task := by
    intro field inner
    rw [ensured, Mm.memory_setMemory]
    simp only [pageSize] at fits
    apply Field.get_congr (by omega)
    intro address lower upper
    exact recorded address (by omega)
  refine ⟨(kept (by decide)).trans stored, ?_, ?_,
    (kept (by decide)).trans (set_other (by decide) (by decide)), ?_⟩
  · rw [ensured, freeCount_congr (Mm.pageBitmap_setMemory _ _), none_left]
  · rw [ensured, Mm.memory_setMemory, counted, same_count]
  · intro address off_task
    simp only [pageSize] at off_task
    rw [ensured, Mm.memory_setMemory, recorded address (by omega), Field.set_eq directory_fits,
      Memory.write_outside _ (by simp only [Task.pagedirectory]; omega)]

/-- Without a page for the directory, the task still has none afterwards. -/
theorem mapPage_no_directory {task : Nat} (fits : task + 2 * pageSize ≤ wordSize)
    (inside : frame < mmNumOfPages) (none_left : freeCount mm = 0)
    (absent : Task.pagedirectory.get mm.memory task = 0)
    (small : Task.kernelpagesCount.get mm.memory task + 4 ≤ 128)
    (few : Task.userpagesCount.get mm.memory task ≤ maxProcessPages)
    (apart : ∀ slot ∈ mapPageStores mm task virtAdr, slot + 8 ≤ task ∨ task + pageSize ≤ slot) :
    Task.pagedirectory.get (mapPage mm task virtAdr (pageAt frame)).memory task = 0 := by
  obtain ⟨directory, dry, counted, users, -⟩ := ensureDirectory_dry fits none_left absent (by omega)
  rw [mapPageStores] at apart
  obtain ⟨-, -, -, -, -, final_directory⟩ := mapLevels_finish fits dry
    (by rw [directory, Nat.zero_mod]) (pageAt_or_lt inside (by decide))
    (by rw [counted]; simp only [List.length_cons, List.length_nil]; omega)
    (by rw [users]; exact few) apart (memory_mapPage Prod.mk.eta.symm)
  exact final_directory.trans directory

/-- The table at which the pages run out. -/
theorem split_shifts {before rest : List Nat} {shift : Nat}
    (split : [pgdShift, pudShift, pmdShift] = before ++ shift :: rest) (virtAdr : Nat) :
    before.length < 3 ∧ shift = pageShift + 9 * (3 - before.length) ∧
      (levelIndices virtAdr 3).take before.length = before.map (tableIndex virtAdr) := by
  rcases before with _ | ⟨first, _ | ⟨second, _ | ⟨third, before⟩⟩⟩
  · simp only [List.nil_append, List.cons.injEq] at split
    exact ⟨by decide, split.1.symm, rfl⟩
  · simp only [List.cons_append, List.nil_append, List.cons.injEq] at split
    obtain ⟨rfl, rfl, -⟩ := split
    exact ⟨by decide, rfl, rfl⟩
  · simp only [List.cons_append, List.nil_append, List.cons.injEq] at split
    obtain ⟨rfl, rfl, rfl, -⟩ := split
    exact ⟨by decide, rfl, rfl⟩
  · have lengths := congrArg List.length split
    simp only [List.length_cons, List.length_nil, List.length_append] at lengths
    omega

theorem PageRoles.slot_off_task (roles : PageRoles image mm tasks count owner)
    (known : pid < count) {index place : Nat} (inside : index < mmNumOfPages)
    (other : owner index ≠ some (.taskStruct pid)) (bound : place < ptrsPerTable) :
    (kernelAdr index + 8 * place) % 8 = 0 ∧ (kernelAdr index + 8 * place + 8 ≤ tasks pid ∨
      tasks pid + pageSize ≤ kernelAdr index + 8 * place) := by
  have apart := roles.task_apart known inside other
  simp only [ptrsPerTable, pageSize] at bound apart ⊢
  simp only [kernelAdr, pageAt_eq_mul, virtualAddressStart] at apart ⊢
  omega

theorem TablesGrown.blank {goal : List Nat} {dry : Mm} {grown : Nat → Option PageRole}
    (growth : TablesGrown image tasks count pid goal mm owner dry grown)
    (roles : PageRoles image mm tasks count owner) (known : pid < count)
    (frame_owned : owner frame = some (.user pid path))
    (few : Task.kernelpagesCount.get dry.memory (tasks pid) ≤ 128)
    (blank : ∀ address, kernelAdr frame ≤ address → address < kernelAdr frame + pageSize →
      mm.memory address = 0) {place : Nat} (bound : place < ptrsPerTable) :
    descriptor dry.memory (pageAt frame) place = 0 := by
  have inside := roles.inside frame_owned
  have off_task := roles.task_apart known inside (by rw [frame_owned]; simp)
  simp only [pageSize] at off_task
  rw [descriptor_pageAt inside bound]
  simp only [ptrsPerTable] at bound
  apply Memory.read_zero
  intro address lower upper
  rw [growth.frame address (by omega) (by omega) ?_]
  · exact blank address (by omega) (by simp only [pageSize]; omega)
  · intro index _ page_lower page_upper
    have same : index = frame := by
      by_contra other
      have pages_apart := kernelAdr_apart other
      simp only [pageSize] at pages_apart page_upper
      omega
    exact ⟨_, by rw [same]; exact frame_owned, by simp⟩

/-- The walk does not pass the slot at which the pages ran out. -/
theorem walkTables_starved (roles : PageRoles image mm tasks count owner) (known : pid < count)
    (frame_owned : owner frame = some (.user pid path))
    (blank : ∀ {place}, place < ptrsPerTable → descriptor mm.memory (pageAt frame) place = 0)
    {final : Memory} {root last slot steps : Nat} (root_owned : owner root = some (.table pid []))
    (clean : ¬ZeroDescriptor final (pageAt root))
    (others : ∀ {address}, address % 8 = 0 →
      address + 8 ≤ tasks pid ∨ tasks pid + pageSize ≤ address → address ≠ slot →
        final.read address 8 = mm.memory.read address 8 ∨
          mm.memory.read address 8 = 0 ∧ final.read address 8 = mmTypePageTable)
    (stored : final.read slot 8 = pageAt frame ||| mmuPteFlags) (above : steps < 3)
    (passed : RadixTree.lookup (tableChild mm.memory) (pageAt root)
      ((levelIndices virtAdr 3).take steps) = some (pageAt last))
    (dead : descriptor final (pageAt last) (tableIndex virtAdr (pageShift + 9 * (3 - steps))) =
        mmTypePageTable ∨
      kernelAdr last + 8 * tableIndex virtAdr (pageShift + 9 * (3 - steps)) = slot) :
    walkTables final virtAdr 3 (pageAt root) = none := by
  refine walkTables_broken roles clean frame_owned ?_ ?_ blank root_owned rfl above passed dead
    .root
  · intro index place inside not_task bound differ
    obtain ⟨aligned, off_task⟩ := roles.slot_off_task known inside not_task bound
    rw [descriptor_pageAt inside bound, descriptor_pageAt inside bound]
    exact others aligned off_task differ
  · intro index place inside _ bound here
    rw [descriptor_pageAt inside bound, here]
    exact stored

/-- `map_page` from the level at which it stands after some of them. -/
theorem mapPage_resumed {dry : Mm} {task root last shift : Nat} {before rest : List Nat}
    (points : Task.pagedirectory.get (ensureDirectory mm task).memory task = pageAt root)
    (split : [pgdShift, pudShift, pmdShift] = before ++ shift :: rest)
    (run : mapLevels task virtAdr (ensureDirectory mm task) (pageAt root) before =
      (dry, pageAt last)) :
    mapLevels task virtAdr (ensureDirectory mm task)
        (Task.pagedirectory.get (ensureDirectory mm task).memory task)
        [pgdShift, pudShift, pmdShift] =
      mapLevels task virtAdr (mapLevel dry task (pageAt last) shift virtAdr).1
        (mapLevel dry task (pageAt last) shift virtAdr).2 rest ∧
    mapLevelsStores task virtAdr dry (pageAt last) (shift :: rest) <:+
      mapPageStores mm task virtAdr := by
  constructor
  · rw [points, split, mapLevels_append, run, mapLevels_cons]
  · have suffix := mapLevelsStores_suffix task virtAdr (ensureDirectory mm task) (pageAt root)
      before (shift :: rest)
    rw [run] at suffix
    rw [mapPageStores, points, split]
    exact suffix

/-- With too few pages for the missing tables, the task has no directory afterwards, or a table at
physical address zero, or the address is not mapped. -/
theorem mapPage_starved (roles : PageRoles image mm tasks count owner) (known : pid < count)
    (frame_owned : owner frame = some (.user pid path))
    (blank : ∀ address, kernelAdr frame ≤ address → address < kernelAdr frame + pageSize →
      mm.memory address = 0)
    (lacking : freeCount mm < tablesNeeded mm.memory (tasks pid) virtAdr)
    (small : Task.kernelpagesCount.get mm.memory (tasks pid) + 4 ≤ 128)
    (few : Task.userpagesCount.get mm.memory (tasks pid) ≤ maxProcessPages)
    (apart : ∀ slot ∈ mapPageStores mm (tasks pid) virtAdr,
      slot + 8 ≤ tasks pid ∨ tasks pid + pageSize ≤ slot) {final : Memory}
    (final_eq : (mapPage mm (tasks pid) virtAdr (pageAt frame)).memory = final) :
    Task.pagedirectory.get final (tasks pid) = 0 ∨
      ZeroDescriptor final (Task.pagedirectory.get final (tasks pid)) ∨
      walkTables final virtAdr 3 (Task.pagedirectory.get final (tasks pid)) = none := by
  have inside := roles.inside frame_owned
  by_cases no_directory : freeCount mm = 0 ∧ Task.pagedirectory.get mm.memory (tasks pid) = 0
  · rw [← final_eq]
    exact Or.inl (mapPage_no_directory (roles.task_range known).2 inside no_directory.1
      no_directory.2 small few apart)
  obtain ⟨root, between, first, points, root_owned, reached, needed, few_tables, -, -⟩ :=
    @ensureDirectory_ready _ _ _ _ virtAdr _ _ roles known (by omega) small (vaPath virtAdr)
  obtain ⟨before, shift, rest, dry, last, grown, split, run, second, last_owned, last_reached,
    missing, none_left, counted⟩ := @mapLevels_runsDry _ _ _ _ _ _ _ virtAdr _ first.roles known
      reached root_owned [pgdShift, pudShift, pmdShift] (by simp) (by omega) few_tables
      (vaPath virtAdr) (by
        rw [vaPath_eq, List.nil_append]
        exact List.prefix_append _ _)
  have growth := first.trans second
  have last_inside := second.roles.inside last_owned
  have range := roles.task_range known
  obtain ⟨above, shift_eq, steps⟩ := split_shifts split virtAdr
  have bound := tableIndex_lt virtAdr shift
  have place : tableSlot ((pageAt last + virtualAddressStart) % wordSize) virtAdr shift =
      kernelAdr last + 8 * tableIndex virtAdr shift := by
    rw [kernelAdr_eq last_inside, tableSlot_kernelAdr last_inside]
  have empty : dry.memory.read (kernelAdr last + 8 * tableIndex virtAdr shift) 8 = 0 := by
    rw [← descriptor_pageAt last_inside bound, missing]
  obtain ⟨tables, later⟩ := mapPage_resumed points split run
  rw [mapLevelsStores] at later
  have lengths := congrArg List.length split
  simp only [List.length_cons, List.length_nil, List.length_append] at lengths
  obtain ⟨leveled, next_aligned, next_counted, dead⟩ := @mapLevel_dry _ virtAdr _ _ shift _ range.2
    none_left (pageAt_aligned last) (by omega) place
    fun slot member => apart slot (later.subset (List.mem_append_left _ member))
  obtain ⟨slot, others, slot_apart, slot_aligned, stored, directory⟩ := mapLevels_finish range.2
    leveled.none_left next_aligned (pageAt_or_lt inside (by decide)) (by omega)
    (by rw [leveled.field range.2 (by decide), growth.userpages roles known]; exact few)
    (fun slot member => apart slot (later.subset (List.mem_append_right _ member)))
    (final_eq.symm.trans (memory_mapPage (tables.trans Prod.mk.eta.symm)))
  have dry_directory : Task.pagedirectory.get dry.memory (tasks pid) = pageAt root :=
    Option.some.inj (lookup_of_walk (second.tables (by decide) reached))
  have final_directory : Task.pagedirectory.get final (tasks pid) = pageAt root :=
    (directory.trans (leveled.field range.2 (by decide))).trans dry_directory
  rw [final_directory]
  right
  by_cases clean : ZeroDescriptor final (pageAt root)
  · exact Or.inl clean
  right
  have through : ∀ {address}, address % 8 = 0 →
      address + 8 ≤ tasks pid ∨ tasks pid + pageSize ≤ address → address ≠ slot →
        final.read address 8 = dry.memory.read address 8 ∨
          dry.memory.read address 8 = 0 ∧ final.read address 8 = mmTypePageTable :=
    fun aligned off_task differ =>
      filled_once (leveled.slots aligned off_task) (others aligned off_task differ)
  have passed : RadixTree.lookup (tableChild dry.memory) (pageAt root)
      ((levelIndices virtAdr 3).take before.length) = some (pageAt last) := by
    rw [List.nil_append] at last_reached
    rw [steps, ← dry_directory]
    exact lookup_of_walk last_reached
  refine walkTables_starved second.roles known (growth.kept frame_owned)
    (growth.blank roles known frame_owned (by omega) blank) (second.kept root_owned) clean through
    stored above passed ?_
  rw [← shift_eq]
  by_cases here : kernelAdr last + 8 * tableIndex virtAdr shift = slot
  · exact Or.inr here
  · left
    obtain ⟨aligned, off_task⟩ :=
      second.roles.slot_off_task known last_inside (by rw [last_owned]; simp) bound
    rw [descriptor_pageAt last_inside bound]
    rcases others aligned off_task here with same | ⟨zero, _⟩
    · rw [same, dead empty]
    · rw [dead empty] at zero
      exact absurd zero (by decide)

end Starved

end PellOs
