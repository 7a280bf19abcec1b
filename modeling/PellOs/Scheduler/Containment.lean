import PellOs.Mm.Exhaustion
import PellOs.Scheduler.FaultResolution

/-!
# Containment of an exhausted allocator

`allocate_user_page` and `do_mem_abort` report that no page is left only when there is none for the
user page itself.  When the pages run out later, inside `map_page`, the call succeeds all the same
and leaves a table at physical address zero or none at all.
-/

namespace PellOs

/-! ## Containment -/

/-- The address translates to the page through the page directory of the task. -/
def MappedAt (memory : Memory) (task virtAdr page : Nat) : Prop :=
  Task.pagedirectory.get memory task ≠ 0 ∧
    walkTables memory virtAdr 3 (Task.pagedirectory.get memory task) =
      some (page + virtAdr % pageSize)

/-- The page is a table or a user page of the task, or it is free. -/
def OwnOrFree (mm : Mm) (task index : Nat) : Prop :=
  (∃ path, path.length ≤ 4 ∧ walk mm.memory task path = some (pageAt index)) ∨ IsFree mm index

/-- Descriptors were stored only to pages that belonged to the task or have been handed out by the
call, and no present descriptor of the task points to physical address zero. -/
structure TablesContained (before : Mm) (task : Nat) (stores : List Nat) (after : Mm) : Prop where
  own : ∀ slot ∈ stores, SlotIn after (OwnOrFree before task) slot
  present : Task.pagedirectory.get after.memory task ≠ 0 →
    ¬ZeroDescriptor after.memory (Task.pagedirectory.get after.memory task)

/-- The slots of page tables that `allocate_user_page` stores to. -/
def allocateUserPageStores (mm : Mm) (task virtAdr : Nat) : List Nat :=
  if (getNextFreePage mm).2 = 0 then [] else mapPageStores (getNextFreePage mm).1 task virtAdr

/-- `allocate_user_page` fails with zero or maps the address to the page that it returns, and
either way the tables are contained. -/
def AllocateContained (mm : Mm) (task virtAdr : Nat) : Prop :=
  ((allocateUserPage mm task virtAdr).2 = 0 ∨
    ∃ page, (allocateUserPage mm task virtAdr).2 = (page + virtualAddressStart) % wordSize ∧
      MappedAt (allocateUserPage mm task virtAdr).1.memory task virtAdr page) ∧
  TablesContained mm task (allocateUserPageStores mm task virtAdr)
    (allocateUserPage mm task virtAdr).1

/-- The slots of page tables that `do_mem_abort` stores to. -/
def doMemAbortStores (kernel : Kernel) (addr esr : Nat) : List Nat :=
  if esr &&& 63 &&& 60 = 4 then
    allocateUserPageStores kernel.mm kernel.current (addr &&& pageMask)
  else []

/-- `do_mem_abort` fails with minus one or maps the address, in the tables of the current task, to
a page that was free, and either way the tables are contained. -/
def AbortContained (kernel : Kernel) (addr esr : Nat) : Prop :=
  ((doMemAbort kernel addr esr).2 = -1 ∨ (doMemAbort kernel addr esr).2 = 0 ∧
    ∃ frame, IsFree kernel.mm frame ∧
      MappedAt (doMemAbort kernel addr esr).1.memory kernel.current addr (pageAt frame)) ∧
  TablesContained kernel.mm kernel.current (doMemAbortStores kernel addr esr)
    (doMemAbort kernel addr esr).1.mm

section Contained

variable {image : Image} {kernel : Kernel} {owner : Nat → Option PageRole}
  {pid frame virtAdr addr : Nat}

theorem SpacesInv.contained_refl (inv : SpacesInv image kernel owner)
    (known : pid < kernel.nTasks) :
    TablesContained kernel.mm (kernel.taskArray pid) [] kernel.mm :=
  ⟨fun _ member => absurd member List.not_mem_nil, inv.roles.no_zeroDescriptor known⟩

theorem SpacesInv.apart_of_slotIn (inv : SpacesInv image kernel owner) (known : pid < kernel.nTasks)
    {after : Mm} {slot : Nat}
    (slot_in : SlotIn after (OwnOrFree kernel.mm (kernel.taskArray pid)) slot) :
    slot + 8 ≤ kernel.taskArray pid ∨ kernel.taskArray pid + pageSize ≤ slot := by
  obtain ⟨index, inside, own, _, lower, upper⟩ := slot_in
  have apart := inv.roles.task_apart known inside (by
    rcases own with ⟨path, short, reached⟩ | free
    · obtain ⟨same, page, owned⟩ := inv.roles.walk_placed known short reached
      obtain rfl := pageAt_injective page
      rw [owned]
      exact fun clash => treeRole_ne_taskStruct _ _ _ (Option.some.inj clash)
    · rw [(inv.roles.unused inside).mpr free]
      simp)
  omega

/-- With every page left that is needed, the address is mapped and the tables are contained. -/
theorem SpacesInv.mapPage_contained (inv : SpacesInv image kernel owner)
    (known : pid < kernel.nTasks) (inside : frame < mmNumOfPages) (free : IsFree kernel.mm frame)
    (same_page : vaPath addr = vaPath virtAdr)
    (enough : tablesNeeded kernel.memory (kernel.taskArray pid) virtAdr + 1 ≤
      freeCount kernel.mm) {after : Mm}
    (call : mapPage (takePage kernel.mm frame) (kernel.taskArray pid) virtAdr (pageAt frame) =
      after) :
    MappedAt after.memory (kernel.taskArray pid) addr (pageAt frame) ∧
      TablesContained kernel.mm (kernel.taskArray pid)
        (mapPageStores (takePage kernel.mm frame) (kernel.taskArray pid) virtAdr) after := by
  obtain ⟨grown, fresh⟩ := inv.enter known inside free enough
  rw [call] at fresh
  have reached : walk after.memory (kernel.taskArray pid) (vaPath addr) = some (pageAt frame) := by
    rw [fresh.entered.walks known (length_vaPath addr), if_pos ⟨rfl, same_page⟩]
  have directory : Task.pagedirectory.get after.memory (kernel.taskArray pid) ≠ 0 := by
    intro absent
    rw [walk, if_pos absent] at reached
    cases reached
  refine ⟨⟨directory, ?_⟩, ?_, fresh.entered.roles.no_zeroDescriptor known⟩
  · rw [fresh.entered.roles.walkTables_directory_eq known addr directory, reached, Option.map_some]
  · have left := freeCount_takePage inside free
    have tables := inv.limits.tables known
    simp only [Kernel.memory, maxProcessPages] at tables enough
    rw [← call]
    refine mapPageStores_owned (@PageRoles.take _ _ _ _ _ inv.roles _
      (.user pid (vaPath virtAdr)) inside free (by simp)) known ?_ ?_ ?_ ?_ _
    · intro other other_free
      exact Or.inr ((isFree_takePage _ _ _).mp other_free).1
    · intro position other short found
      rw [inv.roles.walk_take known (by omega) inside free] at found
      exact Or.inl ⟨position, by omega, found⟩
    · rw [tablesNeeded_takePage inv.roles known inside free]
      omega
    · rw [inv.roles.take_field known inside free (by decide)]
      omega

/-- With the page itself but too few pages for the missing tables, the address is not mapped or
the tables are not contained. -/
theorem SpacesInv.mapPage_escapes (inv : SpacesInv image kernel owner)
    (known : pid < kernel.nTasks) (inside : frame < mmNumOfPages) (free : IsFree kernel.mm frame)
    (same_page : vaPath addr = vaPath virtAdr)
    (lacking : freeCount kernel.mm <
      tablesNeeded kernel.memory (kernel.taskArray pid) virtAdr + 1) {page : Nat} {after : Mm}
    (call : mapPage (takePage kernel.mm frame) (kernel.taskArray pid) virtAdr (pageAt frame) =
      after) (mapped : MappedAt after.memory (kernel.taskArray pid) addr page) :
    ¬TablesContained kernel.mm (kernel.taskArray pid)
      (mapPageStores (takePage kernel.mm frame) (kernel.taskArray pid) virtAdr) after := by
  intro contained
  have left := freeCount_takePage inside free
  have tables := inv.limits.tables known
  have users := inv.limits.users known
  simp only [Kernel.memory, maxProcessPages] at tables users lacking
  have starved := @mapPage_starved _ _ _ _ virtAdr _ _ _ _
    (@PageRoles.take _ _ _ _ _ inv.roles _ (.user pid (vaPath virtAdr)) inside free (by simp)) known
    (Function.update_self ..) ?_ ?_ ?_ ?_
    (fun slot member => inv.apart_of_slotIn known (contained.own slot member)) _
    (congrArg Mm.memory call)
  · rcases starved with absent | zero | fault
    · exact mapped.1 absent
    · exact contained.present mapped.1 zero
    · rw [← walkTables_eq_none_congr same_page, mapped.2] at fault
      cases fault
  · intro address lower upper
    rw [memory_takePage]
    rw [kernelAdr] at lower upper
    exact Memory.fill_inside _ lower upper
  · rw [tablesNeeded_takePage inv.roles known inside free]
    omega
  · rw [inv.roles.take_field known inside free (by decide)]
    omega
  · rw [inv.roles.take_field known inside free (by decide), maxProcessPages]
    exact users

/-- `allocate_user_page` is contained exactly when no page is left, or all that it takes. -/
theorem SpacesInv.allocateContained_iff (inv : SpacesInv image kernel owner)
    (known : pid < kernel.nTasks) :
    AllocateContained kernel.mm (kernel.taskArray pid) virtAdr ↔
      freeCount kernel.mm = 0 ∨
        tablesNeeded kernel.memory (kernel.taskArray pid) virtAdr + 1 ≤ freeCount kernel.mm := by
  rcases Nat.eq_zero_or_pos (freeCount kernel.mm) with none_left | left
  · have next := getNextFreePage_of_zero none_left
    have call : allocateUserPage kernel.mm (kernel.taskArray pid) virtAdr = (kernel.mm, 0) := by
      unfold allocateUserPage
      rw [next]
      rfl
    unfold AllocateContained allocateUserPageStores
    rw [call, next]
    exact ⟨fun _ => Or.inl none_left, fun _ => ⟨Or.inl rfl, inv.contained_refl known⟩⟩
  · obtain ⟨frame, inside, free, next⟩ := getNextFreePage_of_pos left
    obtain ⟨after, mapped_page⟩ : ∃ after, mapPage (takePage kernel.mm frame)
        (kernel.taskArray pid) virtAdr (pageAt frame) = after := ⟨_, rfl⟩
    have call : allocateUserPage kernel.mm (kernel.taskArray pid) virtAdr =
        (after, kernelAdr frame) := by
      unfold allocateUserPage
      rw [next]
      simp only [pageAt_ne_zero, if_false, kernelAdr_eq inside, mapped_page]
    unfold AllocateContained allocateUserPageStores
    rw [call, next]
    simp only [pageAt_ne_zero, if_false, kernelAdr_ne_zero, false_or]
    constructor
    · rintro ⟨⟨page, _, mapped⟩, contained⟩
      refine Or.inr (Nat.le_of_not_lt fun lacking => ?_)
      exact inv.mapPage_escapes known inside free rfl lacking mapped_page mapped contained
    · rintro (none_left | enough)
      · omega
      · obtain ⟨mapped, contained⟩ := @SpacesInv.mapPage_contained _ _ _ _ _ virtAdr virtAdr inv
          known inside free rfl enough _ mapped_page
        exact ⟨⟨pageAt frame, (kernelAdr_eq inside).symm, mapped⟩, contained⟩

/-- `do_mem_abort` is contained exactly when it refuses the fault, or no page is left, or all that
it takes. -/
theorem SpacesInv.abortContained_iff (inv : SpacesInv image kernel owner) {esr : Nat} :
    AbortContained kernel addr esr ↔
      freeCount kernel.mm = 0 ∨ (KernelCall.abort addr esr).Supplied kernel := by
  obtain ⟨pid, known, current⟩ := inv.current
  by_cases fault : esr &&& 63 &&& 60 = 4
  · have supplied : (KernelCall.abort addr esr).Supplied kernel ↔
        tablesNeeded kernel.memory (kernel.taskArray pid) (addr &&& pageMask) + 1 ≤
          freeCount kernel.mm := by
      rw [KernelCall.Supplied]
      simp only [KernelCall.pages, KernelCall.target, if_pos fault, current]
    rw [supplied]
    unfold AbortContained doMemAbortStores allocateUserPageStores
    rw [if_pos fault]
    rcases Nat.eq_zero_or_pos (freeCount kernel.mm) with none_left | left
    · have next := getNextFreePage_of_zero none_left
      have call : doMemAbort kernel addr esr = (kernel, -1) := by
        simp only [doMemAbort, if_pos fault, next, if_true]
      rw [call, next, current]
      exact ⟨fun _ => Or.inl none_left, fun _ => ⟨Or.inl rfl, inv.contained_refl known⟩⟩
    · obtain ⟨frame, inside, free, next⟩ := getNextFreePage_of_pos left
      obtain ⟨after, mapped_page⟩ : ∃ after, mapPage (takePage kernel.mm frame)
          (kernel.taskArray pid) (addr &&& pageMask) (pageAt frame) = after := ⟨_, rfl⟩
      have call : doMemAbort kernel addr esr = ({ kernel with mm := after }, 0) := by
        simp only [doMemAbort, if_pos fault, next, pageAt_ne_zero, if_false, current, mapped_page]
      have same_page : vaPath addr = vaPath (addr &&& pageMask) := (vaPath_pageMask addr).symm
      rw [call, next, current]
      simp only [pageAt_ne_zero, if_false]
      constructor
      · rintro ⟨refused | ⟨_, page, _, mapped⟩, contained⟩
        · exact absurd refused (by decide)
        · refine Or.inr (Nat.le_of_not_lt fun lacking => ?_)
          exact inv.mapPage_escapes known inside free same_page lacking mapped_page mapped contained
      · rintro (none_left | enough)
        · omega
        · obtain ⟨mapped, contained⟩ :=
            inv.mapPage_contained known inside free same_page enough mapped_page
          exact ⟨Or.inr ⟨trivial, frame, free, mapped⟩, contained⟩
  · have call : doMemAbort kernel addr esr = (kernel, -1) := by
      simp only [doMemAbort, if_neg fault]
    have supplied : (KernelCall.abort addr esr).Supplied kernel := by
      rw [KernelCall.Supplied]
      simp only [KernelCall.pages, KernelCall.target, if_neg fault]
      exact Nat.zero_le _
    unfold AbortContained doMemAbortStores
    rw [call, if_neg fault, current]
    exact ⟨fun _ => Or.inr supplied, fun _ => ⟨Or.inl rfl, inv.contained_refl known⟩⟩

end Contained

/-- For every task and address, `allocate_user_page` is contained exactly when no page is left or
every page that it takes, and `do_mem_abort` likewise or when it refuses the fault. -/
theorem exhaustion_contained_iff {image : Image} {kernel : Kernel}
    {owner : Nat → Option PageRole} (inv : SpacesInv image kernel owner) :
    (∀ pid, pid < kernel.nTasks → ∀ virtAdr,
      AllocateContained kernel.mm (kernel.taskArray pid) virtAdr ↔
        freeCount kernel.mm = 0 ∨ (KernelCall.allocate pid virtAdr).Supplied kernel) ∧
    ∀ addr esr, AbortContained kernel addr esr ↔
      freeCount kernel.mm = 0 ∨ (KernelCall.abort addr esr).Supplied kernel :=
  ⟨fun _ known _ => inv.allocateContained_iff known, fun _ _ => inv.abortContained_iff⟩

/-- The first page of the first task is contained. -/
theorem exhaustion_contained_first_page :
    AllocateContained bootKernel.mm (bootKernel.taskArray 0) 0 ∧
      AbortContained bootKernel 0x1000 0x92000006 := by
  have contained := exhaustion_contained_iff atBoot_bootKernel.spaces
  exact ⟨(contained.1 0 (by decide) 0).mpr (Or.inr bootKernel_allocate.1),
    (contained.2 _ _).mpr (Or.inr (atBoot_bootKernel.supplied _ _))⟩

/-! ## The last page -/

/-- All memory zero and one page left. -/
def lastPageMm : Mm := ⟨blankMm.memory, fun index => if index = 4000 then 0 else 1⟩

theorem isFree_lastPageMm (index : Nat) : IsFree lastPageMm index ↔ index = 4000 := by
  unfold IsFree lastPageMm
  dsimp only
  split_ifs with last
  · simp [last]
  · simp [last]

theorem freeCount_lastPageMm : freeCount lastPageMm = 1 := by
  have only : (Finset.range mmNumOfPages).filter (IsFree lastPageMm) = {4000} := by
    ext index
    rw [Finset.mem_filter, Finset.mem_range, isFree_lastPageMm, Finset.mem_singleton]
    constructor
    · exact fun both => both.2
    · rintro rfl
      exact ⟨by decide, rfl⟩
  rw [freeCount, only, Finset.card_singleton]

/-- The first task running with one page left. -/
def lastPageKernel : Kernel := onePageKernel lastPageMm

theorem lastPageKernel_spaces : ∃ owner, SpacesInv smallImage lastPageKernel owner := by
  refine onePageKernel_spaces fun index low => ?_
  change ¬IsFree lastPageMm index
  rw [isFree_lastPageMm]
  simp only [kernelHeapSizePages] at low
  omega

/-- With one page left and no page directory, `allocate_user_page` returns the page although the
address is not mapped. -/
theorem last_page_not_contained :
    (∃ owner, SpacesInv smallImage lastPageKernel owner) ∧
      (allocateUserPage lastPageKernel.mm smallImage.initTask 0).2 ≠ 0 ∧
      (∀ page, ¬MappedAt (allocateUserPage lastPageKernel.mm smallImage.initTask 0).1.memory
        smallImage.initTask 0 page) ∧
      ¬AllocateContained lastPageKernel.mm smallImage.initTask 0 := by
  have same_mm : lastPageKernel.mm = lastPageMm := rfl
  have fits : smallImage.initTask + 2 * pageSize ≤ wordSize := by decide
  have low : virtualAddressStart + 8 ≤ smallImage.initTask := by decide
  rw [same_mm]
  obtain ⟨frame, inside, free, next⟩ := getNextFreePage_of_pos
    (by rw [freeCount_lastPageMm]; decide : 0 < freeCount lastPageMm)
  obtain ⟨after, mapped_page⟩ : ∃ after, mapPage (takePage lastPageMm frame) smallImage.initTask 0
      (pageAt frame) = after := ⟨_, rfl⟩
  have call : allocateUserPage lastPageMm smallImage.initTask 0 = (after, kernelAdr frame) := by
    unfold allocateUserPage
    rw [next]
    simp only [pageAt_ne_zero, if_false, kernelAdr_eq inside, mapped_page]
  have zero : ∀ address, (takePage lastPageMm frame).memory address = 0 := by
    intro address
    rw [memory_takePage]
    by_cases page : pageAt frame + virtualAddressStart ≤ address ∧
        address < pageAt frame + virtualAddressStart + pageSize
    · exact Memory.fill_inside _ page.1 page.2
    · exact Memory.fill_outside _ (by omega)
  have fields : ∀ {field : Field}, field.get (takePage lastPageMm frame).memory
      smallImage.initTask = 0 := by
    intro field
    rw [Field.get]
    exact Memory.read_zero fun address _ _ => zero address
  have dry : freeCount (takePage lastPageMm frame) = 0 := by
    have taken := freeCount_takePage inside free
    rw [freeCount_lastPageMm] at taken
    exact Nat.succ.inj taken
  obtain ⟨directory, ensured_dry, counted, _, kept⟩ := ensureDirectory_dry fits dry fields
    (by rw [fields]; decide)
  have stores : ∀ slot ∈ mapPageStores (takePage lastPageMm frame) smallImage.initTask 0,
      slot = virtualAddressStart := by
    rw [mapPageStores, directory]
    refine mapLevelsStores_zero fits ensured_dry low (Or.inl ?_)
      (by rw [counted, fields]; simp only [List.length_cons, List.length_nil]; decide)
    apply Memory.read_zero
    intro address _ upper
    rw [kept address (by omega), zero]
  have no_directory := @mapPage_no_directory 0 frame _ _ fits inside dry fields
    (by rw [fields]; decide) (by rw [fields]; decide) fun slot member =>
      Or.inl (by rw [stores slot member]; exact low)
  rw [mapped_page] at no_directory
  have unmapped : ∀ page, ¬MappedAt after.memory smallImage.initTask 0 page :=
    fun page mapped => mapped.1 no_directory
  refine ⟨lastPageKernel_spaces, ?_, ?_, ?_⟩
  · rw [call]
    exact kernelAdr_ne_zero frame
  · rw [call]
    exact unmapped
  · rintro ⟨failed | ⟨page, _, mapped⟩, _⟩
    · rw [call] at failed
      exact kernelAdr_ne_zero frame failed
    · rw [call] at mapped
      exact unmapped page mapped

end PellOs
