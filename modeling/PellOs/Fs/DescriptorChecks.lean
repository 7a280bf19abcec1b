import PellOs.Fs.Vfs

/-!
# Which descriptors the system calls accept

`syscall_read` and `syscall_close` take any descriptor that is not negative to the arrays of the
table.  This file states what a checked access is and for which descriptors the calls make no other.
-/

namespace PellOs

/-- A task has no table, or one that is laid out in memory. -/
def HasTable (state : FdState) : Prop :=
  (state.bitmap = 0 ∧ state.file = 0) ∨
    ∃ (layout : TableLayout) (bits : Nat → UInt8) (files : Nat → File),
      layout.Holds state.memory bits files state

/-- The descriptor is open: its entry exists and has positive flags. -/
def FdOpen (state : FdState) (fd : Int) : Prop :=
  state.file ≠ 0 ∧ 0 ≤ fd ∧ fd < fileDescTableInitSize ∧
    0 < File.flagsField.get state.memory (state.fileAddress fd.toNat)

/-- The state before a call, with no accesses noted. -/
def FdState.unlogged (state : FdState) : FdState := { state with accesses := [] }

/-- `syscall_read` stays inside the table and reports a descriptor that is not open. -/
def ReadChecked (disk : Rdfs) (timerVal : Nat) (state : FdState) (fd : Int) (buf size : Nat) :
    Prop :=
  (∀ access ∈ (syscallRead disk timerVal state.unlogged fd buf size).1.accesses,
      access.InBounds) ∧
    (¬ FdOpen state fd → (syscallRead disk timerVal state.unlogged fd buf size).2 = -1)

/-- `syscall_close` stays inside the table and changes nothing for a descriptor that is not
open. -/
def CloseChecked (state : FdState) (fd : Int) : Prop :=
  (∀ access ∈ (syscallClose state.unlogged fd).accesses, access.InBounds) ∧
    (¬ FdOpen state fd → (syscallClose state.unlogged fd).memory = state.memory)

/-- The descriptor is negative, or the bitmap of an existing table has a bit for it and it is open
or was left cleared. -/
def Closable (state : FdState) (fd : Int) : Prop :=
  fd < 0 ∨ state.file ≠ 0 ∧ fd < fdCount ∧
    (FdOpen state fd ∨
      Bitmap.member state.bitmapAt fd.toNat = false ∧ state.fileAt fd.toNat = ⟨0, 0, 0⟩)

/-! ## Accesses -/

private theorem isValidFd_of_nonneg (state : FdState) {fd : Int} (nonneg : 0 ≤ fd) :
    isValidFd state fd = (state.touchFile fd.toNat,
      decide (0 < File.flagsField.get state.memory (state.fileAddress fd.toNat))) := by
  rw [isValidFd, if_neg (not_lt.mpr nonneg)]

private theorem vfsRead_accesses (disk : Rdfs) (timerVal : Nat) (state : FdState) {fd : Int}
    (nonneg : 0 ≤ fd) (buf size : Nat) :
    ∃ count, (vfsRead disk timerVal state fd buf size).1.accesses =
      List.replicate count ⟨.file, state.file, fd.toNat⟩ ++ state.accesses := by
  by_cases valid : 0 < File.flagsField.get state.memory (state.fileAddress fd.toNat)
  · have file : getFileFromFd state fd = ((state.touchFile fd.toNat).touchFile fd.toNat,
        some ((state.touchFile fd.toNat).fileAt fd.toNat)) := by
      simp only [getFileFromFd, isValidFd_of_nonneg state nonneg, valid, decide_true, if_true]
    refine ⟨2, ?_⟩
    rw [vfsRead, file]
    dsimp only
    split_ifs with timer
    · rfl
    · rfl
  · have file : getFileFromFd state fd = (state.touchFile fd.toNat, none) := by
      simp only [getFileFromFd, isValidFd_of_nonneg state nonneg, valid, decide_false,
        Bool.false_eq_true, if_false]
    exact ⟨1, by rw [vfsRead, file]; rfl⟩

private theorem syscallRead_accesses (disk : Rdfs) (timerVal : Nat) (state : FdState) {fd : Int}
    (nonneg : 0 ≤ fd) (buf size : Nat) :
    ∃ count, (syscallRead disk timerVal state.unlogged fd buf size).1.accesses =
      List.replicate (count + 1) ⟨.file, state.file, fd.toNat⟩ := by
  obtain ⟨count, logged⟩ := vfsRead_accesses disk timerVal (state.unlogged.touchFile fd.toNat)
    nonneg buf size
  rw [syscallRead, isValidFd_of_nonneg _ nonneg]
  cases decide (0 < File.flagsField.get state.unlogged.memory
      (state.unlogged.fileAddress fd.toNat)) with
  | false => exact ⟨0, rfl⟩
  | true =>
      dsimp only
      split_ifs with null
      · exact ⟨0, rfl⟩
      · refine ⟨count, ?_⟩
        rw [logged, List.replicate_succ']
        rfl

/-- A descriptor that is not open makes `syscall_read` fail where the entry exists. -/
private theorem syscallRead_of_not_open (disk : Rdfs) (timerVal : Nat) {state : FdState} {fd : Int}
    (fits : fd < 0 ∨ state.file ≠ 0 ∧ fd < fileDescTableInitSize) (buf size : Nat)
    (closed : ¬ FdOpen state fd) :
    (syscallRead disk timerVal state.unlogged fd buf size).2 = -1 := by
  by_cases negative : fd < 0
  · rw [syscallRead, isValidFd, if_pos negative]
  · obtain ⟨exists_table, small⟩ := fits.resolve_left negative
    have flags : ¬ 0 < File.flagsField.get state.unlogged.memory
        (state.unlogged.fileAddress fd.toNat) :=
      fun positive => closed ⟨exists_table, by omega, small, positive⟩
    rw [syscallRead, isValidFd_of_nonneg _ (by omega), decide_eq_false flags]

/-- `syscall_read` is checked exactly for negative descriptors and those with an entry. -/
theorem readChecked_iff (disk : Rdfs) (timerVal : Nat) (state : FdState) (fd : Int)
    (buf size : Nat) : ReadChecked disk timerVal state fd buf size ↔
      fd < 0 ∨ state.file ≠ 0 ∧ fd < fileDescTableInitSize := by
  constructor
  · intro checked
    by_cases negative : fd < 0
    · exact Or.inl negative
    · obtain ⟨count, logged⟩ := syscallRead_accesses disk timerVal state
        (by omega : 0 ≤ fd) buf size
      have inside := checked.1 ⟨.file, state.file, fd.toNat⟩ (by
        rw [logged]
        exact List.mem_replicate.mpr ⟨by omega, rfl⟩)
      have bound : fd.toNat < fileDescTableInitSize := inside.2
      exact Or.inr ⟨inside.1, by omega⟩
  · intro fits
    refine ⟨?_, syscallRead_of_not_open disk timerVal fits buf size⟩
    intro access member
    by_cases negative : fd < 0
    · rw [syscallRead, isValidFd, if_pos negative] at member
      cases member
    · obtain ⟨exists_table, small⟩ := fits.resolve_left negative
      obtain ⟨count, logged⟩ := syscallRead_accesses disk timerVal state
        (by omega : 0 ≤ fd) buf size
      rw [logged] at member
      rw [List.eq_of_mem_replicate member]
      have bound : fd.toNat < fileDescTableInitSize := by omega
      exact ⟨exists_table, bound⟩

/-! ## Closing -/

private theorem accesses_setBitmap (state : FdState) (index : Nat) (byte : UInt8) :
    (state.setBitmap index byte).accesses = ⟨.bitmap, state.bitmap, index⟩ :: state.accesses :=
  rfl

private theorem accesses_setFileField (state : FdState) (index : Nat) (field : Field)
    (value : Nat) : (state.setFileField index field value).accesses =
      ⟨.file, state.file, index⟩ :: state.accesses :=
  rfl

private theorem deleteFd_accesses (state : FdState) (fd : Nat) :
    ⟨.bitmap, state.bitmap, fd / 8⟩ ∈ (deleteFd state fd).accesses := by
  rw [deleteFd, accesses_setFileField, accesses_setFileField, accesses_setFileField,
    accesses_setBitmap]
  simp only [List.mem_cons, true_or, or_true]

/-- On a table with a bit for the descriptor, all accesses of `delete_fd` are inside. -/
private theorem deleteFd_inBounds {layout : TableLayout} {base : Memory} {bits : Nat → UInt8}
    {files : Nat → File} {state : FdState} (holds : layout.Holds base bits files state) {fd : Nat}
    (small : fd < fdCount) (empty : state.accesses = []) :
    ∀ access ∈ (deleteFd state fd).accesses, access.InBounds := by
  have byte : fd / 8 < fdBitmapSize := by
    simp only [fdCount] at small
    omega
  have entry : fd < fileDescTableInitSize := lt_trans small (by decide)
  have cleared := holds.setBitmap byte (state.bitmapAt (fd / 8) &&& ~~~(1 <<< UInt8.ofNat (fd % 8)))
  have first := cleared.setFileId entry 0
  have second := first.setIndex entry 0
  have file_ne := Nat.ne_of_gt layout.file_pos
  intro access member
  rw [deleteFd, accesses_setFileField, accesses_setFileField, accesses_setFileField,
    accesses_setBitmap,
    second.file_pointer, first.file_pointer, cleared.file_pointer, holds.bitmap_pointer, empty]
    at member
  simp only [List.mem_cons, List.not_mem_nil, or_false] at member
  rcases member with rfl | rfl | rfl | rfl
  · exact ⟨file_ne, entry⟩
  · exact ⟨file_ne, entry⟩
  · exact ⟨file_ne, entry⟩
  · exact ⟨Nat.ne_of_gt layout.bitmap_pos, byte⟩

/-- `delete_fd` keeps memory exactly when the bit is clear and the entry is zero. -/
private theorem deleteFd_memory_iff {layout : TableLayout} {base : Memory} {bits : Nat → UInt8}
    {files : Nat → File} {state : FdState} (holds : layout.Holds base bits files state) {fd : Nat}
    (small : fd < fdCount) :
    (deleteFd state fd).memory = state.memory ↔
      Bitmap.member state.bitmapAt fd = false ∧ state.fileAt fd = ⟨0, 0, 0⟩ := by
  have inside : fd < fileDescTableInitSize := lt_trans small (by decide)
  have after := holds.deleteFd_spec small
  constructor
  · intro same
    have kept := after.congr same.symm (holds.task_eq.trans after.task_eq.symm)
    refine ⟨?_, ?_⟩
    · rw [kept.member_eq small, Bitmap.member_erase, decide_eq_true rfl, Bool.not_true,
        Bool.and_false]
    · rw [kept.fileAt_eq inside, Function.update_self]
  · rintro ⟨clear, zero⟩
    rw [holds.member_eq small] at clear
    rw [holds.fileAt_eq inside] at zero
    rw [Bitmap.erase_of_not_member clear, ← zero, Function.update_eq_self] at after
    exact holds.memory_eq after

/-- `syscall_close` is checked exactly for descriptors that it may close. -/
theorem closeChecked_iff {state : FdState} (table : HasTable state) (fd : Int) :
    CloseChecked state fd ↔ Closable state fd := by
  by_cases negative : fd < 0
  · refine iff_of_true ⟨?_, fun _ => ?_⟩ (Or.inl negative)
    · rw [syscallClose, if_pos negative]
      exact fun access member => by cases member
    · rw [syscallClose, if_pos negative]
      rfl
  have call : syscallClose state.unlogged fd = deleteFd state.unlogged fd.toNat := by
    rw [syscallClose, if_neg negative, vfsClose]
  rcases table with ⟨no_bitmap, no_file⟩ | ⟨layout, bits, files, holds⟩
  · refine iff_of_false (fun checked => ?_) (fun closable => ?_)
    · have outside := checked.1 _ (by rw [call]; exact deleteFd_accesses state.unlogged fd.toNat)
      exact outside.1 no_bitmap
    · exact (closable.resolve_left negative).1 no_file
  have held : layout.Holds state.memory bits files state.unlogged := holds.congr rfl rfl
  have file_ne : state.file ≠ 0 := by
    rw [holds.file_pointer]
    exact Nat.ne_of_gt layout.file_pos
  by_cases small : fd < fdCount
  · have small_nat : fd.toNat < fdCount := by omega
    have memory_iff := deleteFd_memory_iff held small_nat
    rw [CloseChecked, Closable, call]
    constructor
    · intro checked
      refine Or.inr ⟨file_ne, small, ?_⟩
      by_cases opened : FdOpen state fd
      · exact Or.inl opened
      · exact Or.inr (memory_iff.mp (checked.2 opened))
    · intro closable
      refine ⟨deleteFd_inBounds held small_nat rfl, fun closed => ?_⟩
      obtain ⟨-, -, opened | cleared⟩ := closable.resolve_left negative
      · exact absurd opened closed
      · exact memory_iff.mpr cleared
  · refine iff_of_false (fun checked => ?_) (fun closable => ?_)
    · have outside := checked.1 _ (by rw [call]; exact deleteFd_accesses state.unlogged fd.toNat)
      have bound : fd.toNat / 8 < fdBitmapSize := outside.2
      simp only [fdCount] at small
      omega
    · exact small (closable.resolve_left negative).2.1

/-- The calls check a descriptor exactly when it is negative, or the bitmap of an existing table has
a bit for it and it is open or its bit and entry are zero. -/
theorem descriptor_checked_iff {state : FdState} (table : HasTable state) (disk : Rdfs)
    (timerVal : Nat) (fd : Int) (buf size : Nat) :
    (ReadChecked disk timerVal state fd buf size ∧ CloseChecked state fd) ↔
      Closable state fd := by
  rw [closeChecked_iff table, readChecked_iff]
  constructor
  · exact fun checked => checked.2
  · intro closable
    refine ⟨?_, closable⟩
    rcases closable with negative | ⟨file_ne, small, -⟩
    · exact Or.inl negative
    · have wide : fdCount < fileDescTableInitSize := by decide
      exact Or.inr ⟨file_ne, by omega⟩

/-- A task that never opened a file. -/
def noTableState : FdState := ⟨fun _ => 0, 0x1000, []⟩

private theorem noTableState_file : noTableState.file = 0 := Memory.read_zero fun _ _ _ => rfl

/-- The descriptor of the only open file. -/
theorem descriptor_checked_open :
    (createFd ⟨sampleMemory, sampleLayout.task, []⟩ ⟨7, 0, 0⟩).2 = 0 ∧
      ReadChecked ⟨0, 0, 0⟩ 0 (createFd ⟨sampleMemory, sampleLayout.task, []⟩ ⟨7, 0, 0⟩).1 0 8 1 ∧
      CloseChecked (createFd ⟨sampleMemory, sampleLayout.task, []⟩ ⟨7, 0, 0⟩).1 0 := by
  rcases sampleMemory_holds.createFd_spec ⟨7, 0, 0⟩ with
    ⟨fd, bound, _, before, result, stored⟩ | ⟨full, _⟩
  · have first : fd = 0 := by
      by_contra later
      have taken := before 0 (Nat.pos_of_ne_zero later)
      exact absurd taken (by decide)
    subst first
    have inside : 0 < fileDescTableInitSize := by decide
    have table : HasTable (createFd ⟨sampleMemory, sampleLayout.task, []⟩ ⟨7, 0, 0⟩).1 :=
      Or.inr ⟨sampleLayout, _, _, stored.move (fun _ _ _ => rfl) (fun _ _ _ => rfl)
        fun _ _ _ => rfl⟩
    refine ⟨result, (descriptor_checked_iff table _ _ _ _ _).mpr (Or.inr ⟨?_, by decide, ?_⟩)⟩
    · rw [stored.file_pointer]
      decide
    · refine Or.inl ⟨?_, by decide, by decide, ?_⟩
      · rw [stored.file_pointer]
        decide
      · have valid := stored.isValidFd_eq inside
        rw [Function.update_self] at valid
        exact of_decide_eq_true valid
  · exact absurd (full 0 (by decide)) (by decide)

/-- Reading descriptor 0 of a task without a table goes through a null pointer. -/
theorem syscallRead_without_table :
    ¬ (ReadChecked ⟨0, 0, 0⟩ 0 noTableState 0 8 1 ∧ CloseChecked noTableState 0) := by
  rintro ⟨checked, -⟩
  rcases (readChecked_iff _ _ _ _ _ _).mp checked with negative | ⟨exists_table, -⟩
  · omega
  · exact exists_table noTableState_file

end PellOs
