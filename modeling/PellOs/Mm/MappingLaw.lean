import PellOs.Mm.Translation

/-!
# The page-table mapping law

Any number of tasks have pages mapped by `map_page` in any order.  The hardware walk of the page
directory of a task then ends at the page of the most recent call for that task and address, and
it faults where there was no such call.
-/

namespace PellOs

/-! ## Tasks without mappings -/

/-- Tasks in different pages that have been handed out, none of which has a page directory. -/
structure EmptyTasks (image : Image) (mm : Mm) (tasks : Nat → Nat) (count : Nat) : Prop where
  placed : ∀ {pid}, pid < count → pid = 0 ∧ tasks pid = image.initTask ∨
    pid ≠ 0 ∧ ∃ index, index < mmNumOfPages ∧ ¬IsFree mm index ∧ tasks pid = kernelAdr index
  distinct : ∀ {pid other}, pid < count → other < count → tasks pid = tasks other → pid = other
  directory : ∀ {pid}, pid < count → Task.pagedirectory.get mm.memory (tasks pid) = 0
  userpages : ∀ {pid}, pid < count → Task.userpagesCount.get mm.memory (tasks pid) = 0
  kernelpages : ∀ {pid}, pid < count → Task.kernelpagesCount.get mm.memory (tasks pid) = 0

theorem kernelAdr_injective {left right : Nat} (same : kernelAdr left = kernelAdr right) :
    left = right := by
  by_contra differ
  have apart := kernelAdr_apart differ
  simp only [pageSize] at apart
  omega

open Classical in
/-- The roles of pages before the first call: tasks, and everything else that is in use. -/
noncomputable def emptyOwner (mm : Mm) (tasks : Nat → Nat) (count index : Nat) : Option PageRole :=
  if index < mmNumOfPages ∧ ¬IsFree mm index then
    if task : ∃ pid, pid < count ∧ pid ≠ 0 ∧ tasks pid = kernelAdr index then
      some (.taskStruct task.choose)
    else
      some .heap
  else
    none

private theorem emptyOwner_ne_table (mm : Mm) (tasks : Nat → Nat) (count index pid : Nat)
    (path : List Nat) : emptyOwner mm tasks count index ≠ some (.table pid path) := by
  unfold emptyOwner
  split_ifs <;> simp

theorem EmptyTasks.roles {image : Image} {mm : Mm} {tasks : Nat → Nat} {count : Nat}
    (empty : EmptyTasks image mm tasks count) :
    PageRoles image mm tasks count (emptyOwner mm tasks count) where
  inside := by
    intro index role owned
    unfold emptyOwner at owned
    split_ifs at owned with used
    · exact used.1
    · exact used.1
  unused := by
    intro index inside
    unfold emptyOwner
    split_ifs with used
    · simp [used.2]
    · simp [used.2]
    · simp only [true_iff]
      by_contra taken
      exact used ⟨inside, taken⟩
  task := by
    intro pid known
    rcases empty.placed known with first | ⟨later, index, inside, taken, same⟩
    · exact Or.inl first
    · refine Or.inr ⟨later, index, same, ?_⟩
      have task : ∃ pid, pid < count ∧ pid ≠ 0 ∧ tasks pid = kernelAdr index :=
        ⟨pid, known, later, same⟩
      have chosen := task.choose_spec
      rw [emptyOwner, if_pos ⟨inside, taken⟩, dif_pos task,
        empty.distinct chosen.1 known (chosen.2.2.trans same.symm)]
  directory known := Or.inl (empty.directory known)
  depth := by
    intro index pid path owned
    exact absurd owned (emptyOwner_ne_table _ _ _ _ _ _)
  entry := by
    intro index pid path slot owned
    exact absurd owned (emptyOwner_ne_table _ _ _ _ _ _)

/-! ## Calls of `map_page` -/

/-- A call of `map_page` for the task with a given number. -/
structure MapCall where
  pid : Nat
  virtAdr : Nat
  page : Nat

/-- Memory, the pages that have been allocated and not yet mapped, and the calls so far with the
most recent first. -/
structure Mapping where
  mm : Mm
  pool : List Nat
  calls : List MapCall

/-- Pages are allocated, and mapped for any task at any address.  A call keeps to the arrays of
the task and finds a page for every table it adds. -/
inductive MapStep (tasks : Nat → Nat) (count : Nat) : Mapping → Mapping → Prop
  | allocate {state : Mapping} (left : (getNextFreePage state.mm).2 ≠ 0) :
      MapStep tasks count state
        ⟨(getNextFreePage state.mm).1, (getNextFreePage state.mm).2 :: state.pool, state.calls⟩
  | map {state : Mapping} {pid virtAdr page : Nat} (known : pid < count)
      (allocated : page ∈ state.pool)
      (enough : tablesNeeded state.mm.memory (tasks pid) virtAdr ≤ freeCount state.mm)
      (users : Task.userpagesCount.get state.mm.memory (tasks pid) < maxProcessPages)
      (tables : Task.kernelpagesCount.get state.mm.memory (tasks pid) +
        tablesNeeded state.mm.memory (tasks pid) virtAdr < maxProcessPages) :
      MapStep tasks count state
        ⟨mapPage state.mm (tasks pid) virtAdr page, state.pool.erase page,
          ⟨pid, virtAdr, page⟩ :: state.calls⟩

/-- Agreement on bits 47 to 12. -/
def SamePage (left right : Nat) : Prop := left / 2 ^ 12 % 2 ^ 36 = right / 2 ^ 12 % 2 ^ 36

instance (left right : Nat) : Decidable (SamePage left right) :=
  inferInstanceAs (Decidable (_ = _))

/-- The most recent call for a task and an address. -/
def recentCall (calls : List MapCall) (pid virtAdr : Nat) : Option MapCall :=
  calls.find? fun call => call.pid = pid ∧ SamePage call.virtAdr virtAdr

/-- The hardware walk of the page directory of a task: level and descriptor of the page it ends
at.  There is nothing to walk while a task has no page directory. -/
def directoryWalk (memory : Memory) (task virtAdr : Nat) : Option (Nat × Nat) :=
  if Task.pagedirectory.get memory task = 0 then none
  else leafDescriptor memory virtAdr 3 (Task.pagedirectory.get memory task)

/-- Where memory agrees with the roles, the hardware walk is the masked walk. -/
theorem PageRoles.directoryWalk_eq {image : Image} {mm : Mm} {tasks : Nat → Nat} {count : Nat}
    {owner : Nat → Option PageRole} (roles : PageRoles image mm tasks count owner) {pid : Nat}
    (known : pid < count) (virtAdr : Nat) :
    directoryWalk mm.memory (tasks pid) virtAdr =
      (walk mm.memory (tasks pid) (vaPath virtAdr)).map fun page => (0, page ||| mmuPteFlags) := by
  rw [directoryWalk]
  split_ifs with absent
  · rw [walk, if_pos absent]
    rfl
  · exact roles.leafDescriptor_directory known virtAdr absent

/-! ## The law -/

/-- What holds between the calls: every page has one role, and the walks are those of the most
recent calls. -/
structure MappingInv (image : Image) (tasks : Nat → Nat) (count : Nat) (state : Mapping)
    (owner : Nat → Option PageRole) : Prop where
  roles : PageRoles image state.mm tasks count owner
  distinct : state.pool.Nodup
  pool : ∀ {page}, page ∈ state.pool → ∃ index, page = pageAt index ∧ owner index = some .heap
  tables : ∀ {pid}, pid < count →
    Task.kernelpagesCount.get state.mm.memory (tasks pid) < maxProcessPages
  walks : ∀ {pid}, pid < count → ∀ virtAdr,
    walk state.mm.memory (tasks pid) (vaPath virtAdr) =
      (recentCall state.calls pid virtAdr).map MapCall.page

theorem recentCall_cons (call : MapCall) (calls : List MapCall) (pid virtAdr : Nat) :
    recentCall (call :: calls) pid virtAdr =
      if pid = call.pid ∧ vaPath virtAdr = vaPath call.virtAdr then some call
      else recentCall calls pid virtAdr := by
  rw [recentCall, recentCall, List.find?_cons]
  by_cases here : pid = call.pid ∧ vaPath virtAdr = vaPath call.virtAdr
  · have same : SamePage call.virtAdr virtAdr := ((vaPath_eq_iff _ _).mp here.2).symm
    simp [here.1, here.2, same]
  · rw [if_neg here]
    have other : ¬(call.pid = pid ∧ SamePage call.virtAdr virtAdr) := by
      rintro ⟨same_pid, same_page⟩
      exact here ⟨same_pid.symm, ((vaPath_eq_iff _ _).mpr same_page).symm⟩
    simp only [other, decide_false]

section Steps

variable {image : Image} {tasks : Nat → Nat} {count : Nat} {state : Mapping}
  {owner : Nat → Option PageRole}

theorem MappingInv.empty {mm : Mm} (empty : EmptyTasks image mm tasks count) :
    MappingInv image tasks count ⟨mm, [], []⟩ (emptyOwner mm tasks count) where
  roles := empty.roles
  distinct := List.nodup_nil
  pool := by simp
  tables known := by
    rw [empty.kernelpages known]
    decide
  walks known virtAdr := by
    rw [walk, if_pos (empty.directory known)]
    rfl

theorem MappingInv.allocate (inv : MappingInv image tasks count state owner)
    (left : (getNextFreePage state.mm).2 ≠ 0) :
    ∃ grown, MappingInv image tasks count
      ⟨(getNextFreePage state.mm).1, (getNextFreePage state.mm).2 :: state.pool, state.calls⟩
      grown := by
  rcases getNextFreePage_cases state.mm with ⟨index, inside, free, _, call⟩ | ⟨_, call⟩
  · have fresh : owner index = none := (inv.roles.unused inside).mpr free
    have pool_ne : ∀ {other}, owner other = some .heap → other ≠ index := by
      rintro other owned rfl
      rw [fresh] at owned
      cases owned
    rw [call]
    refine ⟨Function.update owner index (some .heap), ?_, ?_, ?_, ?_, ?_⟩
    · exact inv.roles.take inside free (by simp)
    · refine List.nodup_cons.mpr ⟨?_, inv.distinct⟩
      intro member
      obtain ⟨other, same, owned⟩ := inv.pool member
      exact pool_ne owned (pageAt_injective same).symm
    · intro page member
      rcases List.mem_cons.mp member with rfl | member
      · exact ⟨index, rfl, Function.update_self ..⟩
      · obtain ⟨other, same, owned⟩ := inv.pool member
        exact ⟨other, same, by rw [Function.update_of_ne (pool_ne owned), owned]⟩
    · intro pid known
      rw [inv.roles.take_field known inside free (by decide)]
      exact inv.tables known
    · intro pid known virtAdr
      rw [inv.roles.walk_take known (by simp) inside free]
      exact inv.walks known virtAdr
  · rw [call] at left
    exact absurd rfl left

theorem MappingInv.map (inv : MappingInv image tasks count state owner) {pid virtAdr page : Nat}
    (known : pid < count) (allocated : page ∈ state.pool)
    (enough : tablesNeeded state.mm.memory (tasks pid) virtAdr ≤ freeCount state.mm)
    (users : Task.userpagesCount.get state.mm.memory (tasks pid) < maxProcessPages)
    (tables : Task.kernelpagesCount.get state.mm.memory (tasks pid) +
      tablesNeeded state.mm.memory (tasks pid) virtAdr < maxProcessPages) :
    ∃ grown, MappingInv image tasks count
      ⟨mapPage state.mm (tasks pid) virtAdr page, state.pool.erase page,
        ⟨pid, virtAdr, page⟩ :: state.calls⟩ grown := by
  obtain ⟨index, rfl, owned⟩ := inv.pool allocated
  have assigned := inv.roles.assign owned pid (vaPath virtAdr)
  have few := inv.tables known
  simp only [maxProcessPages] at few tables
  obtain ⟨grown, mapped⟩ := mapPage_spec assigned known (Function.update_self ..) enough
    (by omega) users
  refine ⟨grown, mapped.roles, inv.distinct.erase _, ?_, ?_, ?_⟩
  · intro page member
    obtain ⟨differ, member⟩ := (inv.distinct.mem_erase_iff).mp member
    obtain ⟨other, rfl, other_owned⟩ := inv.pool member
    refine ⟨other, rfl, mapped.kept ?_⟩
    rw [Function.update_of_ne, other_owned]
    rintro rfl
    exact differ rfl
  · intro other other_known
    by_cases same : other = pid
    · subst same
      rw [mapped.kernelpages, maxProcessPages]
      exact tables
    · rw [mapped.other_field assigned known (by omega) users other_known same (by decide)]
      exact inv.tables other_known
  · intro other other_known address
    rw [mapped.walks other_known (length_vaPath _), recentCall_cons]
    split_ifs
    · rfl
    · exact inv.walks other_known address

theorem MappingInv.step {next : Mapping} (inv : MappingInv image tasks count state owner)
    (step : MapStep tasks count state next) :
    ∃ grown, MappingInv image tasks count next grown := by
  cases step with
  | allocate left => exact inv.allocate left
  | map known allocated enough users tables => exact inv.map known allocated enough users tables

theorem MappingInv.run {start : Mapping} (inv : MappingInv image tasks count start owner)
    (run : Relation.ReflTransGen (MapStep tasks count) start state) :
    ∃ grown, MappingInv image tasks count state grown := by
  induction run with
  | refl => exact ⟨owner, inv⟩
  | tail _ step ih =>
      obtain ⟨between, inv⟩ := ih
      exact inv.step step

theorem MappingInv.directoryWalk_eq (inv : MappingInv image tasks count state owner) {pid : Nat}
    (known : pid < count) (virtAdr : Nat) :
    directoryWalk state.mm.memory (tasks pid) virtAdr =
      (recentCall state.calls pid virtAdr).map fun call => (0, call.page ||| mmuPteFlags) := by
  rw [inv.roles.directoryWalk_eq known, inv.walks known virtAdr, Option.map_map]
  rfl

end Steps

/-- In every run of `map_page` calls over any tasks, the hardware walk of the page directory of a
task ends at the page of the most recent call for that task whose address agrees on bits 47 to 12,
with a valid page descriptor, and faults if there was no such call.  A call for one task changes
no walk of another. -/
theorem mapPage_mapping_law {image : Image} {tasks : Nat → Nat} {count : Nat} {mm : Mm}
    {state : Mapping} (empty : EmptyTasks image mm tasks count)
    (run : Relation.ReflTransGen (MapStep tasks count) ⟨mm, [], []⟩ state) :
    (∀ pid, pid < count → ∀ virtAdr,
      directoryWalk state.mm.memory (tasks pid) virtAdr =
        (recentCall state.calls pid virtAdr).map fun call => (0, call.page ||| mmuPteFlags)) ∧
    ∀ {next : Mapping} {call : MapCall}, MapStep tasks count state next →
      next.calls = call :: state.calls → ∀ pid, pid < count → pid ≠ call.pid → ∀ virtAdr,
        directoryWalk next.mm.memory (tasks pid) virtAdr =
          directoryWalk state.mm.memory (tasks pid) virtAdr := by
  obtain ⟨owner, inv⟩ := (MappingInv.empty empty).run run
  refine ⟨fun pid known virtAdr => inv.directoryWalk_eq known virtAdr, ?_⟩
  intro next call step added pid known differ virtAdr
  obtain ⟨grown, next_inv⟩ := inv.step step
  rw [next_inv.directoryWalk_eq known, inv.directoryWalk_eq known, added, recentCall_cons,
    if_neg (fun here => differ here.1)]

/-- A kernel image whose initial task lies at its start. -/
def smallImage : Image := ⟨imageStart, imageStart, le_refl _, by decide⟩

/-- All memory zero and all pages free. -/
def blankMm : Mm := ⟨fun _ => 0, fun _ => 0⟩

theorem freeCount_blankMm : freeCount blankMm = mmNumOfPages := by
  have all : (Finset.range mmNumOfPages).filter (IsFree blankMm) = Finset.range mmNumOfPages := by
    apply Finset.filter_true_of_mem
    intro index _
    change (0 : UInt8) &&& 1 = 0
    decide
  rw [freeCount, all, Finset.card_range]

theorem blank_field (field : Field) (task : Nat) :
    field.get blankMm.memory task = 0 := by
  rw [Field.get]
  exact Memory.read_zero fun _ _ _ => rfl

theorem emptyTasks_blankMm :
    EmptyTasks smallImage blankMm (fun _ => smallImage.initTask) 1 where
  placed known := Or.inl ⟨by omega, rfl⟩
  distinct known other_known _ := by omega
  directory _ := blank_field _ _
  userpages _ := blank_field _ _
  kernelpages _ := blank_field _ _

/-- The law for the initial task after its first page has been mapped at `0x1000`. -/
theorem mapPage_mapping_law_first_page :
    ∃ state : Mapping, ∃ page, Relation.ReflTransGen (MapStep (fun _ => smallImage.initTask) 1)
        ⟨blankMm, [], []⟩ state ∧ state.calls = [⟨0, 0x1000, page⟩] ∧
      directoryWalk state.mm.memory smallImage.initTask 0x1234 = some (0, page ||| mmuPteFlags) ∧
      directoryWalk state.mm.memory smallImage.initTask 0x2000 = none := by
  have enough : 8 ≤ freeCount blankMm := by
    rw [freeCount_blankMm]
    decide
  obtain ⟨index, inside, free, call⟩ := getNextFreePage_of_pos (by omega : 0 < freeCount blankMm)
  have taken := freeCount_takePage inside free
  have roles := emptyTasks_blankMm.roles
  have kept : ∀ {field : Field}, field.offset + field.width ≤ pageSize →
      field.get (takePage blankMm index).memory smallImage.initTask = 0 := by
    intro field fits
    rw [@PageRoles.take_field _ _ _ _ _ roles 0 _ (by decide) inside free _ fits, blank_field]
  have first : MapStep (fun _ => smallImage.initTask) 1 ⟨blankMm, [], []⟩
      ⟨takePage blankMm index, [pageAt index], []⟩ := by
    have step := @MapStep.allocate (fun _ => smallImage.initTask) 1 ⟨blankMm, [], []⟩
      (by rw [call]; exact pageAt_ne_zero index)
    rw [call] at step
    exact step
  have needed : tablesNeeded (takePage blankMm index).memory smallImage.initTask 0x1000 = 4 := by
    rw [tablesNeeded, if_pos (kept (by decide))]
  have second := @MapStep.map (fun _ => smallImage.initTask) 1
    ⟨takePage blankMm index, [pageAt index], []⟩ 0 0x1000 (pageAt index) (by decide) (by simp)
    (by dsimp only; rw [needed]; omega) (by rw [kept (by decide)]; decide)
    (by rw [needed, kept (by decide)]; decide)
  have run := Relation.ReflTransGen.tail (Relation.ReflTransGen.single first) second
  refine ⟨_, pageAt index, run, rfl, ?_, ?_⟩
  · rw [(mapPage_mapping_law emptyTasks_blankMm run).1 0 (by decide), recentCall, List.find?_cons,
      show decide (0 = 0 ∧ SamePage 0x1000 0x1234) = true by decide]
    rfl
  · rw [(mapPage_mapping_law emptyTasks_blankMm run).1 0 (by decide), recentCall, List.find?_cons,
      show decide (0 = 0 ∧ SamePage 0x1000 0x2000) = false by decide]
    rfl

end PellOs
