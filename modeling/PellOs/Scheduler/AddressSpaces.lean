import PellOs.Lib.LabelledRuns
import PellOs.Mm.Exhaustion
import PellOs.Scheduler.ProgramStart

/-!
# Private address spaces

What tasks see of forks, page faults, program starts and task switches.  Each has a memory of its
own, in which a page reads as zeros until it is written, and a fork copies the memory of the parent.
The kernel, with its page tables, records and lists, follows these memories in every run.
-/

namespace PellOs

/-! ## Memories without pages -/

/-- The tasks and the bytes that they see at mapped addresses of the user half. -/
structure AddressSpaces where
  count : Nat
  current : Nat
  space : Nat → Nat → Option UInt8

/-- What happens to the memories. -/
inductive SpaceEvent
  | fork
  | thread
  | zeroPage (pid virtAdr : Nat)
  | program (size : Nat) (bytes : Nat → UInt8)
  | store (virtAdr : Nat) (byte : UInt8)
  | switch (pid : Nat)
  | idle

namespace AddressSpaces

/-- Replace the memory of one task. -/
def update (spaces : AddressSpaces) (pid : Nat) (memory : Nat → Option UInt8) : AddressSpaces :=
  { spaces with space := Function.update spaces.space pid memory }

/-- Add a task. -/
def add (spaces : AddressSpaces) (memory : Nat → Option UInt8) : AddressSpaces :=
  { spaces.update spaces.count memory with count := spaces.count + 1 }

/-- One event. -/
def apply (spaces : AddressSpaces) : SpaceEvent → AddressSpaces
  | .fork => spaces.add (spaces.space spaces.current)
  | .thread => spaces.add fun _ => none
  | .zeroPage pid virtAdr => spaces.update pid fun address =>
      if address / pageSize = virtAdr / pageSize then some 0 else spaces.space pid address
  | .program size bytes => spaces.update spaces.current fun address =>
      if address < pageSize then some (if address < size then bytes address else 0)
      else spaces.space spaces.current address
  | .store virtAdr byte => spaces.update spaces.current
      (Function.update (spaces.space spaces.current) virtAdr (some byte))
  | .switch pid => { spaces with current := pid }
  | .idle => spaces

@[simp] theorem space_update (spaces : AddressSpaces) (pid : Nat) (memory : Nat → Option UInt8) :
    (spaces.update pid memory).space = Function.update spaces.space pid memory := rfl

@[simp] theorem space_add (spaces : AddressSpaces) (memory : Nat → Option UInt8) :
    (spaces.add memory).space = Function.update spaces.space spaces.count memory := rfl

@[simp] theorem current_add (spaces : AddressSpaces) (memory : Nat → Option UInt8) :
    (spaces.add memory).current = spaces.current := rfl

/-- One task without memory. -/
def boot : AddressSpaces := ⟨1, 0, fun _ _ => none⟩

end AddressSpaces

/-! ## The kernel and user programs -/

/-- The kernel and the tasks that have gone to user mode. -/
structure UserMachine where
  kernel : Kernel
  entered : Nat → Bool

/-- The task runs a user program. -/
structure UserMachine.Runs (machine : UserMachine) (pid : Nat) : Prop where
  known : pid < machine.kernel.nTasks
  current : machine.kernel.current = machine.kernel.taskArray pid
  entered : machine.entered pid = true

/-- A call finds its pages and room for what it records. -/
def KernelCall.Roomy (kernel : Kernel) (call : KernelCall) : Prop :=
  call.Supplied kernel ∧ call.Fits kernel

/-- The kernel at work, with the event that the tasks see. -/
inductive UserStep (image : Image) : SpaceEvent → UserMachine → UserMachine → Prop
  | thread {machine : UserMachine} {after : Kernel} {cloneFlags fn args pid : Nat}
      (kind : cloneFlags &&& taskFlagsKernelThread ≠ 0)
      (roomy : KernelCall.Roomy machine.kernel (.fork cloneFlags fn args))
      (result : kernelFork image machine.kernel cloneFlags fn args = some (after, pid)) :
      UserStep image .thread machine { machine with kernel := after }
  | fork {machine : UserMachine} {after : Kernel} {parent pid : Nat} (runs : machine.Runs parent)
      (roomy : KernelCall.Roomy machine.kernel (.fork 0 0 0))
      (result : kernelFork image machine.kernel 0 0 0 = some (after, pid)) :
      UserStep image .fork machine
        ⟨after, Function.update machine.entered machine.kernel.nTasks true⟩
  | allocate {machine : UserMachine} {pid virtAdr : Nat} (known : pid < machine.kernel.nTasks)
      (aligned : virtAdr % pageSize = 0) (user : virtAdr < 2 ^ 48)
      (roomy : KernelCall.Roomy machine.kernel (.allocate pid virtAdr)) :
      UserStep image (.zeroPage pid virtAdr) machine
        { machine with kernel := { machine.kernel with
            mm := (allocateUserPage machine.kernel.mm (machine.kernel.taskArray pid) virtAdr).1 } }
  | abort {machine : UserMachine} {pid addr esr : Nat} (known : pid < machine.kernel.nTasks)
      (current : machine.kernel.current = machine.kernel.taskArray pid) (user : addr < 2 ^ 48)
      (fault : esr &&& 63 &&& 60 = 4)
      (roomy : KernelCall.Roomy machine.kernel (.abort addr esr)) :
      UserStep image (.zeroPage pid addr) machine
        { machine with kernel := (doMemAbort machine.kernel addr esr).1 }
  | refused {machine : UserMachine} {addr esr : Nat} (other : ¬esr &&& 63 &&& 60 = 4) :
      UserStep image .idle machine
        { machine with kernel := (doMemAbort machine.kernel addr esr).1 }
  | starved {machine : UserMachine} {after : Kernel} {call : KernelCall}
      (none_left : freeCount machine.kernel.mm = 0) (pages : call.pages machine.kernel ≠ 0)
      (step : KernelStep image call machine.kernel after) :
      UserStep image .idle machine { machine with kernel := after }
  | program {machine : UserMachine} {pid header : Nat} (known : pid < machine.kernel.nTasks)
      (current : machine.kernel.current = machine.kernel.taskArray pid)
      (loaded : (elfLoad machine.kernel header).result = 0)
      (heap : InKernelHeap (segmentStart machine.kernel.memory header)
        (segmentSize machine.kernel.memory header))
      (nonempty : 0 < segmentSize machine.kernel.memory header)
      (one_page : segmentSize machine.kernel.memory header ≤ pageSize)
      (roomy : KernelCall.Roomy machine.kernel (.allocate pid 0)) :
      UserStep image (.program (segmentSize machine.kernel.memory header)
          fun i => machine.kernel.memory (segmentStart machine.kernel.memory header + i)) machine
        ⟨(elfLoad machine.kernel header).kernel, Function.update machine.entered pid true⟩
  | store {machine : UserMachine} {pid virtAdr phys : Nat} {byte : UInt8}
      (runs : machine.Runs pid) (user : virtAdr < 2 ^ 48)
      (mapped : translate machine.kernel.memory machine.kernel.ttbr0 virtAdr = some phys) :
      UserStep image (.store virtAdr byte) machine
        { machine with kernel := machine.kernel.setMemory (machine.kernel.memory.writeByte
            ((phys + virtualAddressStart) % wordSize) byte) }
  | switch {machine : UserMachine} {pid : Nat} (known : pid < machine.kernel.nTasks) :
      UserStep image (.switch pid) machine
        { machine with kernel := switchTo machine.kernel (machine.kernel.taskArray pid) }

/-- The kernel shows each task its own memory.  A user program runs with the directory of its task
loaded, and has had a page since it was started. -/
structure UserMachine.Shows (image : Image) (machine : UserMachine) (spaces : AddressSpaces) :
    Prop where
  count : spaces.count = machine.kernel.nTasks
  known : spaces.current < machine.kernel.nTasks
  current : machine.kernel.current = machine.kernel.taskArray spaces.current
  shown : SpacesShown image machine.kernel spaces.space
  loaded : machine.entered spaces.current = true → machine.kernel.ttbr0 =
    Task.pagedirectory.get machine.kernel.memory (machine.kernel.taskArray spaces.current)
  started : ∀ {pid}, machine.entered pid = true →
    pid < machine.kernel.nTasks ∧ (spaces.space pid 0).isSome

/-! ## Page directories -/

section Directories

variable {image : Image} {kernel after : Kernel} {owner grown : Nat → Option PageRole}
  {space : Nat → Nat → Option UInt8} {pid other virtAdr frame : Nat}

theorem SpacesInv.task_injective (inv : SpacesInv image kernel owner) (known : pid < kernel.nTasks)
    (other_known : other < kernel.nTasks)
    (same : kernel.taskArray pid = kernel.taskArray other) : pid = other := by
  by_contra differ
  have apart := inv.roles.tasks_apart known other_known differ
  simp only [pageSize] at apart
  omega

theorem SpacesShown.directory (shown : SpacesShown image kernel space) (known : pid < kernel.nTasks)
    (user : virtAdr < 2 ^ 48) (present : (space pid virtAdr).isSome) :
    Task.pagedirectory.get kernel.memory (kernel.taskArray pid) ≠ 0 := by
  intro absent
  rw [← shown.shown known user, userView, if_pos absent] at present
  cases present

theorem SpacesInv.map_directory (inv : SpacesInv image kernel owner) {mm : Mm}
    (known : pid < kernel.nTasks) (inside : frame < mmNumOfPages) (free : IsFree kernel.mm frame)
    (enough : tablesNeeded kernel.memory (kernel.taskArray pid) virtAdr + 1 ≤ freeCount kernel.mm)
    (added : PageAdded image kernel.taskArray kernel.nTasks pid virtAdr kernel.mm owner frame mm
      grown)
    (mapped : mapPage (takePage kernel.mm frame) (kernel.taskArray pid) virtAdr (pageAt frame) =
      mm) (other_known : other < kernel.nTasks)
    (present : Task.pagedirectory.get kernel.memory (kernel.taskArray other) ≠ 0) :
    Task.pagedirectory.get mm.memory (kernel.taskArray other) =
      Task.pagedirectory.get kernel.memory (kernel.taskArray other) := by
  by_cases here : other = pid
  · subst here
    obtain ⟨_, fresh⟩ := inv.enter known inside free enough
    rw [mapped] at fresh
    have before : walk (takePage kernel.mm frame).memory (kernel.taskArray other) [] =
        some (Task.pagedirectory.get kernel.memory (kernel.taskArray other)) := by
      rw [inv.roles.walk_take known (by simp) inside free, ← Kernel.memory, walk, if_neg present,
        RadixTree.lookup_nil]
    have still := fresh.entered.tables (by simp) before
    rw [walk] at still
    split_ifs at still
    exact Option.some.inj still
  · have range := inv.roles.task_range other_known
    refine Field.get_congr (inv.roles.directory_fits other_known)
      ((added.other_tasks other_known here).mono (by omega) ?_)
    simp only [Task.pagedirectory, pageSize]
    omega

end Directories

theorem pageMask_div {addr : Nat} (small : addr < wordSize) :
    (addr &&& pageMask) / pageSize = addr / pageSize := by
  rw [and_pageMask small, pageSize]
  exact Nat.mul_div_cancel_left _ (by decide)

/-! ## One step -/

section Steps

variable {image : Image} {machine : UserMachine} {spaces : AddressSpaces} {after : Kernel}
  {pid virtAdr : Nat}

namespace UserMachine.Shows

theorem running (shows : machine.Shows image spaces) (known : pid < machine.kernel.nTasks)
    (current : machine.kernel.current = machine.kernel.taskArray pid) : pid = spaces.current := by
  obtain ⟨owner, inv⟩ := shows.shown.inv
  exact inv.task_injective known shows.known (current.symm.trans shows.current)

/-- A change of one memory that leaves the directory of the running task alone. -/
theorem update (shows : machine.Shows image spaces) {memory : Nat → Option UInt8}
    (nTasks : after.nTasks = machine.kernel.nTasks)
    (taskArray : after.taskArray = machine.kernel.taskArray)
    (current : after.current = machine.kernel.current) (ttbr0 : after.ttbr0 = machine.kernel.ttbr0)
    (directory : Task.pagedirectory.get machine.kernel.memory
        (machine.kernel.taskArray spaces.current) ≠ 0 →
      Task.pagedirectory.get after.memory (machine.kernel.taskArray spaces.current) =
        Task.pagedirectory.get machine.kernel.memory (machine.kernel.taskArray spaces.current))
    (shown : SpacesShown image after (Function.update spaces.space pid memory))
    (more : (spaces.space pid 0).isSome → (memory 0).isSome) :
    UserMachine.Shows image { machine with kernel := after } (spaces.update pid memory) where
  count := by
    rw [nTasks]
    exact shows.count
  known := by
    rw [nTasks]
    exact shows.known
  current := by
    rw [current, taskArray]
    exact shows.current
  shown := shown
  loaded entered := by
    have present := shows.shown.directory shows.known (by decide) (shows.started entered).2
    rw [ttbr0, taskArray]
    exact (shows.loaded entered).trans (directory present).symm
  started entered := by
    obtain ⟨known, present⟩ := shows.started entered
    refine ⟨by rw [nTasks]; exact known, ?_⟩
    rename_i task
    rw [AddressSpaces.space_update]
    by_cases here : task = pid
    · subst here
      rw [Function.update_self]
      exact more present
    · rwa [Function.update_of_ne here]

theorem add (shows : machine.Shows image spaces) {memory : Nat → Option UInt8}
    {entered : Nat → Bool}
    (forked : ForkShown image machine.kernel spaces.space memory after)
    (more : ∀ {pid}, entered pid = true → machine.entered pid = true ∨
      pid = machine.kernel.nTasks ∧ (memory 0).isSome)
    (less : ∀ {pid}, pid < machine.kernel.nTasks → entered pid = machine.entered pid) :
    UserMachine.Shows image ⟨after, entered⟩ (spaces.add memory) where
  count := by
    rw [forked.nTasks, ← shows.count]
    rfl
  known := by
    rw [forked.nTasks]
    exact shows.known.trans (Nat.lt_succ_self _)
  current := by
    rw [AddressSpaces.current_add, forked.current, forked.taskArray shows.known]
    exact shows.current
  shown := by
    rw [AddressSpaces.space_add, shows.count]
    exact forked.shown
  loaded running := by
    rw [AddressSpaces.current_add] at running ⊢
    rw [forked.ttbr0, forked.taskArray shows.known, forked.directory shows.known]
    exact shows.loaded ((less shows.known).symm.trans running)
  started := by
    intro pid running
    rw [AddressSpaces.space_add, shows.count, forked.nTasks]
    rcases more running with before | ⟨rfl, present⟩
    · obtain ⟨known, present⟩ := shows.started before
      rw [Function.update_of_ne (Nat.ne_of_lt known)]
      exact ⟨by omega, present⟩
    · rw [Function.update_self]
      exact ⟨Nat.lt_succ_self _, present⟩

theorem map (shows : machine.Shows image spaces) {frame : Nat} {mm : Mm}
    (known : pid < machine.kernel.nTasks) (aligned : virtAdr % pageSize = 0)
    (user : virtAdr < 2 ^ 48) (inside : frame < mmNumOfPages)
    (free : IsFree machine.kernel.mm frame)
    (enough : tablesNeeded machine.kernel.memory (machine.kernel.taskArray pid) virtAdr + 1 ≤
      freeCount machine.kernel.mm)
    (room : Task.userpagesCount.get machine.kernel.memory (machine.kernel.taskArray pid) <
      maxProcessPages)
    (fits : Task.kernelpagesCount.get machine.kernel.memory (machine.kernel.taskArray pid) +
      tablesNeeded machine.kernel.memory (machine.kernel.taskArray pid) virtAdr < maxProcessPages)
    (mapped : mapPage (takePage machine.kernel.mm frame) (machine.kernel.taskArray pid) virtAdr
      (pageAt frame) = mm) :
    UserMachine.Shows image { machine with kernel := { machine.kernel with mm } }
      (spaces.apply (.zeroPage pid virtAdr)) := by
  obtain ⟨owner, inv⟩ := shows.shown.inv
  obtain ⟨grown, added, -⟩ := inv.map known inside free enough room fits mapped
  obtain ⟨shown, -⟩ := shows.shown.map known aligned user inside free enough room fits mapped
  refine shows.update rfl rfl rfl rfl ?_ shown ?_
  · intro present
    exact inv.map_directory known inside free enough added mapped shows.known present
  · intro present
    split_ifs
    · rfl
    · exact present

theorem call (shows : machine.Shows image spaces) {call : KernelCall}
    (step : KernelStep image call machine.kernel after)
    (roomy : KernelCall.Roomy machine.kernel call)
    (target : call.target machine.kernel = some (machine.kernel.taskArray pid, virtAdr))
    (known : pid < machine.kernel.nTasks) (aligned : virtAdr % pageSize = 0)
    (user : virtAdr < 2 ^ 48) :
    UserMachine.Shows image { machine with kernel := after }
      (spaces.apply (.zeroPage pid virtAdr)) := by
  obtain ⟨owner, inv⟩ := shows.shown.inv
  obtain ⟨enough, fits⟩ := roomy
  rcases inv.step_cases step with ⟨cloneFlags, fn, args, new, rfl, -⟩ |
    ⟨task, address, frame, mm, task_known, same_target, fits_iff, pages, inside, free, mapped,
      rfl⟩ | ⟨task, -, rfl, -⟩ | ⟨-, ⟨idle, -⟩ | starved⟩
  · cases target
  · obtain ⟨same, rfl⟩ := Prod.mk.inj (Option.some.inj (target.symm.trans same_target))
    obtain rfl := inv.task_injective known task_known same
    rw [KernelCall.Supplied, pages] at enough
    obtain ⟨room, tables⟩ := fits_iff.mp fits
    exact shows.map known aligned user inside free enough room tables mapped
  · cases target
  · rw [idle] at target
    cases target
  · exact absurd enough starved

/-- A program stores a byte at an address that its directory translates. -/
theorem store (shows : machine.Shows image spaces) {phys : Nat} {byte : UInt8}
    (runs : machine.Runs pid) (user : virtAdr < 2 ^ 48)
    (mapped : translate machine.kernel.memory machine.kernel.ttbr0 virtAdr = some phys) :
    UserMachine.Shows image
      { machine with kernel := machine.kernel.setMemory (machine.kernel.memory.writeByte
          ((phys + virtualAddressStart) % wordSize) byte) }
      (spaces.apply (.store virtAdr byte)) := by
  obtain ⟨owner, inv⟩ := shows.shown.inv
  obtain rfl := shows.running runs.known runs.current
  have present := shows.shown.directory shows.known (by decide) (shows.started runs.entered).2
  rw [shows.loaded runs.entered, Kernel.memory,
    inv.roles.translate_directory shows.known user present] at mapped
  obtain ⟨page, reached, rfl⟩ := Option.map_eq_some_iff.mp mapped
  obtain ⟨frame, rfl, owned⟩ := inv.roles.walk_placed shows.known (length_vaPath _).le reached
  rw [treeRole, if_neg (by simp)] at owned
  have offset : virtAdr % pageSize < pageSize := Nat.mod_lt _ (by decide)
  rw [linear_address (inv.roles.inside owned) offset]
  have confined : ∀ address, address < kernelAdr frame ∨ kernelAdr frame + pageSize ≤ address →
      machine.kernel.memory.writeByte (kernelAdr frame + virtAdr % pageSize) byte address =
        machine.kernel.memory address := by
    intro address off
    exact Memory.writeByte_of_ne _ (by omega)
  obtain ⟨-, task_same, -⟩ := inv.write owned confined
  have written := shows.shown.write shows.known user reached confined
  refine shows.update rfl rfl rfl rfl ?_ (written.congr ?_) ?_
  · intro _
    refine Field.get_congr (inv.roles.directory_fits shows.known)
      ((task_same shows.known).mono (by omega) ?_)
    simp only [Task.pagedirectory, pageSize]
    omega
  · intro task address known address_user
    by_cases here : task = spaces.current
    · subst here
      rw [Function.update_self, Function.update_self]
      by_cases same : address = virtAdr
      · subst same
        rw [if_pos rfl, Function.update_self, Memory.writeByte, if_pos rfl]
      · rw [Function.update_of_ne same]
        split_ifs with same_page
        · have path := (vaPath_eq_iff_page address_user user).mpr same_page
          have seen := userView_mapped inv.roles known address_user (by rw [path]; exact reached)
          have before := shows.shown.shown known address_user
          rw [Memory.writeByte_of_ne]
          · exact seen.symm.trans before
          · simp only [pageSize] at same_page ⊢
            omega
        · rfl
    · rw [Function.update_of_ne here, Function.update_of_ne here]
  · intro before
    by_cases first : 0 = virtAdr
    · rw [← first, Function.update_self]
      rfl
    · rwa [Function.update_of_ne first]

theorem reads (shows : machine.Shows image spaces) (runs : machine.Runs pid)
    (user : virtAdr < 2 ^ 48) : readVirtual machine.kernel.memory machine.kernel.ttbr0 virtAdr =
      spaces.space pid virtAdr := by
  obtain rfl := shows.running runs.known runs.current
  have present := shows.shown.directory shows.known (by decide) (shows.started runs.entered).2
  have seen := shows.shown.shown shows.known user
  rw [userView, if_neg present, ← shows.loaded runs.entered] at seen
  exact seen

theorem translates (shows : machine.Shows image spaces) (runs : machine.Runs pid)
    (user : virtAdr < 2 ^ 48) {byte : UInt8} (seen : spaces.space pid virtAdr = some byte) :
    ∃ phys, translate machine.kernel.memory machine.kernel.ttbr0 virtAdr = some phys := by
  have low : ¬virtualAddressStart ≤ virtAdr := by
    have : 2 ^ 48 ≤ virtualAddressStart := by decide
    omega
  have read := shows.reads runs user
  rw [readVirtual, if_neg low, seen] at read
  obtain ⟨phys, mapped, -⟩ := Option.map_eq_some_iff.mp read
  exact ⟨phys, mapped⟩

theorem switch (shows : machine.Shows image spaces) (known : pid < machine.kernel.nTasks) :
    UserMachine.Shows image
      { machine with kernel := switchTo machine.kernel (machine.kernel.taskArray pid) }
      (spaces.apply (.switch pid)) := by
  obtain ⟨owner, inv⟩ := shows.shown.inv
  by_cases same : machine.kernel.current = machine.kernel.taskArray pid
  · obtain rfl := shows.running known same
    rw [switchTo, if_pos same]
    exact shows
  · have range := inv.roles.task_range shows.known
    rw [← shows.current] at range
    obtain ⟨after, switched⟩ : ∃ after,
      switchTo machine.kernel (machine.kernel.taskArray pid) = after := ⟨_, rfl⟩
    have edited : FieldsEdited machine.kernel after spaces.current := by
      rw [← switched, switchTo, if_neg same]
      refine ⟨rfl, rfl, rfl, fun address off => ?_⟩
      rw [← shows.current] at off
      exact cpuSwitchTo_outside _ range.2 (by simp only [pageSize] at off; omega)
    have current : after.current = machine.kernel.taskArray pid := by
      rw [← switched, switchTo, if_neg same]
      rfl
    have ttbr0 : after.ttbr0 =
        Task.pagedirectory.get machine.kernel.memory (machine.kernel.taskArray pid) := by
      rw [← switched, switchTo, if_neg same]
      rfl
    have directory : Task.pagedirectory.get after.memory (machine.kernel.taskArray pid) =
        Task.pagedirectory.get machine.kernel.memory (machine.kernel.taskArray pid) :=
      Field.get_congr (inv.roles.directory_fits known)
        ((edited.records_same inv shows.known known).mono (le_refl _) (by
          simp only [Task.pagedirectory]
          omega))
    rw [switched]
    refine ⟨?_, ?_, ?_, shows.shown.edit shows.known edited ⟨pid, known, current⟩, ?_, ?_⟩
    · exact shows.count.trans edited.nTasks.symm
    · exact known.trans_eq edited.nTasks.symm
    · exact current.trans (by rw [edited.taskArray]; rfl)
    · intro _
      exact ttbr0.trans (directory.symm.trans (by rw [edited.taskArray]; rfl))
    · intro task entered
      obtain ⟨task_known, present⟩ := shows.started entered
      exact ⟨task_known.trans_eq edited.nTasks.symm, present⟩

theorem program (shows : machine.Shows image spaces) {header : Nat}
    (known : pid < machine.kernel.nTasks)
    (current : machine.kernel.current = machine.kernel.taskArray pid)
    (loaded : (elfLoad machine.kernel header).result = 0)
    (heap : InKernelHeap (segmentStart machine.kernel.memory header)
      (segmentSize machine.kernel.memory header))
    (nonempty : 0 < segmentSize machine.kernel.memory header)
    (one_page : segmentSize machine.kernel.memory header ≤ pageSize)
    (roomy : KernelCall.Roomy machine.kernel (.allocate pid 0)) :
    UserMachine.Shows image
      ⟨(elfLoad machine.kernel header).kernel, Function.update machine.entered pid true⟩
      (spaces.apply (.program (segmentSize machine.kernel.memory header)
        fun i => machine.kernel.memory (segmentStart machine.kernel.memory header + i))) := by
  obtain rfl := shows.running known current
  have accepted : HeaderAccepted machine.kernel.memory header := by
    by_contra refused
    rw [elfLoad_refused refused] at loaded
    cases loaded
  have small : ElfHeader.eEntry.get machine.kernel.memory header < wordSize := by
    rw [wordSize_eq_pow]
    exact Field.get_lt _ _ _
  obtain ⟨-, started⟩ := moveToUserspace_started shows.shown known heap nonempty one_page small
    roomy.1 roomy.2
  rw [← current] at started
  rw [elfLoad_accepted accepted]
  refine ⟨?_, ?_, ?_, started.shown, ?_, ?_⟩
  · exact shows.count.trans started.nTasks.symm
  · exact known.trans_eq started.nTasks.symm
  · exact started.current.trans (current.trans (by rw [← started.taskArray]; rfl))
  · intro _
    exact started.ttbr0.trans (by rw [← started.taskArray]; rfl)
  · intro task entered
    by_cases here : task = spaces.current
    · subst here
      refine ⟨known.trans_eq started.nTasks.symm, ?_⟩
      rw [AddressSpaces.apply, AddressSpaces.space_update, Function.update_self,
        if_pos (by decide)]
      exact Option.isSome_some
    · have before : machine.entered task = true := by
        rw [← entered]
        exact (Function.update_of_ne here _ _).symm
      obtain ⟨task_known, present⟩ := shows.started before
      refine ⟨task_known.trans_eq started.nTasks.symm, ?_⟩
      rw [AddressSpaces.apply, AddressSpaces.space_update, Function.update_of_ne here]
      exact present

theorem starved (shows : machine.Shows image spaces) {call : KernelCall}
    (none_left : freeCount machine.kernel.mm = 0) (pages : call.pages machine.kernel ≠ 0)
    (step : KernelStep image call machine.kernel after) :
    UserMachine.Shows image { machine with kernel := after } spaces := by
  obtain ⟨owner, inv⟩ := shows.shown.inv
  rcases inv.step_cases step with ⟨cloneFlags, fn, args, new, rfl, result⟩ |
    ⟨task, address, frame, mm, -, -, -, -, inside, free, -, rfl⟩ | ⟨task, -, rfl, -⟩ | ⟨rfl, -⟩
  · rw [kernelFork_full none_left] at result
    obtain ⟨rfl, -⟩ := Prod.mk.inj (Option.some.inj result)
    have range := inv.roles.task_range shows.known
    rw [← shows.current] at range
    have edited : FieldsEdited machine.kernel (preemptDisable machine.kernel) spaces.current := by
      refine ⟨rfl, rfl, rfl, fun address off => ?_⟩
      rw [← shows.current] at off
      simp only [pageSize] at off range
      exact Field.set_outside (by simp only [Task.preemptCount]; omega)
        (by simp only [Task.preemptCount]; omega)
    have shown := shows.shown.edit shows.known edited inv.current
    refine ⟨shows.count, shows.known, shows.current, shown, ?_, shows.started⟩
    intro running
    refine (shows.loaded running).trans ?_
    exact (Field.get_congr (inv.roles.directory_fits shows.known)
      ((edited.records_same inv shows.known shows.known).mono (le_refl _) (by
        simp only [Task.pagedirectory]
        omega))).symm
  · exact absurd free ((freeCount_eq_zero_iff _).mp none_left frame inside)
  · exact absurd rfl pages
  · exact shows

theorem step {next : UserMachine} {event : SpaceEvent} (shows : machine.Shows image spaces)
    (step : UserStep image event machine next) : next.Shows image (spaces.apply event) := by
  cases step with
  | thread kind roomy result =>
      obtain ⟨enough, room, fits⟩ := roomy
      refine shows.add (shows.shown.fork_thread kind room fits enough result) Or.inl fun _ => rfl
  | fork runs roomy result =>
      obtain ⟨enough, room, fits⟩ := roomy
      obtain rfl := shows.running runs.known runs.current
      have ttbr0 := shows.loaded runs.entered
      rw [← runs.current] at ttbr0
      refine shows.add (shows.shown.fork_user runs.known runs.current ttbr0 room fits enough result)
        ?_ ?_
      · intro pid entered
        by_cases new : pid = machine.kernel.nTasks
        · exact Or.inr ⟨new, (shows.started runs.entered).2⟩
        · rw [Function.update_of_ne new] at entered
          exact Or.inl entered
      · intro pid known
        exact Function.update_of_ne (Nat.ne_of_lt known) _ _
  | allocate known aligned user roomy =>
      exact shows.call (.allocate known) roomy rfl known aligned user
  | @abort _ pid addr esr known current user fault roomy =>
      have small : addr < wordSize := user.trans (by decide)
      have target : (KernelCall.abort addr esr).target machine.kernel =
          some (machine.kernel.taskArray pid, addr &&& pageMask) := by
        rw [KernelCall.target, if_pos fault, current]
      have mapped := shows.call .abort roomy target known (and_pageMask_aligned small)
        (Nat.and_le_left.trans_lt user)
      rwa [AddressSpaces.apply, pageMask_div small] at mapped
  | refused other =>
      simp only [doMemAbort, if_neg other]
      exact shows
  | starved none_left pages step => exact shows.starved none_left pages step
  | program known current loaded heap nonempty one_page roomy =>
      exact shows.program known current loaded heap nonempty one_page roomy
  | store runs user mapped => exact shows.store runs user mapped
  | switch known => exact shows.switch known

end UserMachine.Shows

end Steps

/-! ## Runs -/

theorem AtBoot.shows {image : Image} {boot : Kernel} (booted : AtBoot image boot) :
    UserMachine.Shows image ⟨boot, fun _ => false⟩ .boot := by
  have one : boot.nTasks = 1 := booted.nTasks
  have only : ∀ {pid}, pid < boot.nTasks → boot.taskArray pid = image.initTask := by
    intro pid known
    rw [show pid = 0 by omega, booted.task]
  refine ⟨one.symm, one.symm ▸ Nat.zero_lt_one, ?_, ⟨⟨_, booted.spaces⟩, ?_, ?_⟩, ?_, ?_⟩
  · exact booted.current.trans booted.task.symm
  · intro pid known
    rw [only known]
    exact .empty booted.directory booted.userpages
  · intro pid virtAdr known _
    rw [only known, userView, if_pos booted.directory]
    rfl
  · intro running
    cases running
  · intro pid running
    cases running

/-- In every run from boot whose calls find no page at all, or their pages and room for what they
record, the tasks see private memories: what a task reads through its page directory is what the
events of the run make of memories that forks copy, in which pages start with zeros, and that only
the stores of their own task change.  A program reads these bytes through `ttbr0_el1`. -/
theorem private_address_spaces {image : Image} {boot : Kernel} {machine : UserMachine}
    {events : List SpaceEvent} (booted : AtBoot image boot)
    (run : LabelledRuns.Run (UserStep image) events ⟨boot, fun _ => false⟩ machine) :
    let spaces := events.foldl AddressSpaces.apply .boot
    spaces.count = machine.kernel.nTasks ∧
      machine.kernel.current = machine.kernel.taskArray spaces.current ∧
      (∀ pid virtAdr, pid < machine.kernel.nTasks → virtAdr < 2 ^ 48 →
        userView machine.kernel.memory (machine.kernel.taskArray pid) virtAdr =
          spaces.space pid virtAdr) ∧
      ∀ pid virtAdr, machine.Runs pid → virtAdr < 2 ^ 48 →
        readVirtual machine.kernel.memory machine.kernel.ttbr0 virtAdr =
          spaces.space pid virtAdr := by
  intro spaces
  have shows : machine.Shows image spaces := by
    refine run.follows ?_ booted.shows
    intro event before after abstract seen step
    exact seen.step step
  exact ⟨shows.count, shows.current, fun _ _ => shows.shown.shown, fun _ _ => shows.reads⟩

/-! ## A program that forks -/

/-- A program file at the start of the kernel heap. -/
def programFile : Nat := 0xffff000000400000

/-- A program of sixteen bytes in the heap, memory otherwise zero. -/
def programMemory : Memory := fun address =>
  if address < programFile then 0 else sampleElf 16 (address + 0x100000)

/-- The first task running at boot with the program file in the heap. -/
def programKernel : Kernel :=
  onePageKernel ⟨programMemory, (afterCalls kernelHeapSizePages blankMm).pageBitmap⟩

theorem atBoot_programKernel : AtBoot smallImage programKernel where
  pages := ⟨blankMm.memory, pageBitmap_onePageKernel _ _⟩
  nTasks := rfl
  task := rfl
  current := rfl
  directory := by decide
  userpages := by decide
  kernelpages := by decide

theorem AtBoot.roomy {image : Image} {boot : Kernel} (booted : AtBoot image boot) (virtAdr : Nat) :
    KernelCall.Roomy boot (.allocate 0 virtAdr) := by
  have needed := tablesNeeded_le boot.memory (boot.taskArray 0) virtAdr
  have left := booted.freeCount_eq
  have many : 64 ≤ mmNumOfPages - kernelHeapSizePages := by decide
  constructor
  · change tablesNeeded boot.memory (boot.taskArray 0) virtAdr + 1 ≤ freeCount boot.mm
    omega
  · intro task address target
    obtain ⟨rfl, rfl⟩ := Prod.mk.inj (Option.some.inj target)
    rw [booted.task, booted.userpages, booted.kernelpages, ← booted.task]
    simp only [maxProcessPages]
    omega

theorem programSegment : segmentStart programKernel.memory programFile = programFile + 120 ∧
    segmentSize programKernel.memory programFile = 16 ∧ InKernelHeap (programFile + 120) 16 := by
  refine ⟨by decide, by decide, ?_⟩
  simp only [InKernelHeap, kernelAdr]
  decide

theorem elfLoad_programKernel :
    (elfLoad programKernel programFile).result = 0 ∧
      ProgramStarted smallImage programKernel (fun _ _ => none) 0 (programFile + 120) 16 0
        (elfLoad programKernel programFile).kernel := by
  have roomy := atBoot_programKernel.roomy 0
  have accepted : HeaderAccepted programKernel.memory programFile :=
    ⟨by decide, by decide, by decide⟩
  obtain ⟨start, size, heap⟩ := programSegment
  have entry : ElfHeader.eEntry.get programKernel.memory programFile = 0 := by decide
  obtain ⟨result, started⟩ := @moveToUserspace_started _ _ _ _ _ _ 0
    atBoot_programKernel.shows.shown Nat.zero_lt_one heap (by decide) (by decide) (by decide)
    roomy.1 roomy.2
  rw [elfLoad_accepted accepted, start, size, entry]
  exact ⟨result, started⟩

theorem fork_roomy {kernel : Kernel} (tasks : kernel.nTasks = 1)
    (users : Task.userpagesCount.get kernel.memory kernel.current = 1)
    (left : 6 ≤ freeCount kernel.mm) : KernelCall.Roomy kernel (.fork 0 0 0) := by
  have tables := card_recordedTables_le kernel.memory kernel.current 1
  constructor
  · change forkPages kernel 0 ≤ freeCount kernel.mm
    rw [forkPages, if_neg (by decide), userForkPages, users]
    omega
  · refine ⟨by rw [tasks]; decide, ?_⟩
    rw [forkTables, if_neg (by decide), users, maxProcessPages]
    omega

/-- The first task starts the program, forks, and stores to its own memory only. -/
theorem private_address_spaces_fork : ∃ machine events,
    LabelledRuns.Run (UserStep smallImage) events ⟨programKernel, fun _ => false⟩ machine ∧
      userView machine.kernel.memory (machine.kernel.taskArray 0) 5 = some 7 ∧
      userView machine.kernel.memory (machine.kernel.taskArray 1) 5 = some 0 := by
  have booted := atBoot_programKernel
  obtain ⟨start, size, heap⟩ := programSegment
  obtain ⟨loaded, started⟩ := elfLoad_programKernel
  have first := @UserStep.program smallImage ⟨programKernel, fun _ => false⟩ 0 programFile
    Nat.zero_lt_one rfl loaded (by rw [start, size]; exact heap) (by rw [size]; decide)
    (by rw [size]; decide) (booted.roomy 0)
  have shows := booted.shows.step first
  generalize elfLoad programKernel programFile = loading at first shows started
  have task : loading.kernel.taskArray 0 = smallImage.initTask := congrFun started.taskArray 0
  have current : loading.kernel.current = loading.kernel.taskArray 0 :=
    started.current.trans task.symm
  have one : loading.kernel.nTasks = 1 := started.nTasks
  have runs : UserMachine.Runs ⟨loading.kernel, Function.update (fun _ => false) 0 true⟩ 0 :=
    ⟨by rw [one]; exact Nat.zero_lt_one, current, rfl⟩
  have users : Task.userpagesCount.get loading.kernel.memory loading.kernel.current = 1 := by
    rw [current, task]
    exact started.userpages
  have roomy := fork_roomy one users (by
    have left := started.left
    have needed := tablesNeeded_le programKernel.memory (programKernel.taskArray 0) 0
    have all := booted.freeCount_eq
    have many : 64 ≤ mmNumOfPages - kernelHeapSizePages := by decide
    omega)
  obtain ⟨owner, inv⟩ := shows.shown.inv
  have ttbr0 := shows.loaded rfl
  obtain ⟨_, after, _, call, -⟩ := @kernelFork_user _ _ _ _ 0 0 0 inv.roles runs.known current
    roomy.2.1 (by rw [current]; exact ttbr0) (by decide) (by decide)
    (by rw [current]; exact (shows.shown.records runs.known).toRecordsMapped) roomy.1
  have second := UserStep.fork runs roomy call
  have fork_shows := shows.step second
  have two : after.nTasks = 2 := fork_shows.count.symm
  have entered : Function.update (Function.update (fun _ => false) 0 true) loading.kernel.nTasks
      true 0 = true := by
    rw [one]
    rfl
  have running : UserMachine.Runs ⟨after, Function.update
      (Function.update (fun _ => false) 0 true) loading.kernel.nTasks true⟩ 0 :=
    ⟨by rw [two]; exact Nat.zero_lt_two, fork_shows.current, entered⟩
  obtain ⟨phys, mapped⟩ := @UserMachine.Shows.translates _ _ _ _ 5 fork_shows running (by decide) 0
    (by decide)
  have third := @UserStep.store smallImage _ 0 5 phys 7 running (by decide) mapped
  have run := ((LabelledRuns.Run.single first).tail second).tail third
  obtain ⟨count, -, views, -⟩ := private_address_spaces booted run
  refine ⟨_, _, run, ?_, ?_⟩
  · exact (views 0 5 (by rw [← count]; decide) (by decide)).trans (by decide)
  · exact (views 1 5 (by rw [← count]; decide) (by decide)).trans (by decide)

end PellOs
