import PellOs.Fs.Fd

/-!
# Descriptor tables

The two arrays of a table as values: the bytes of the bitmap and the entries of the file array.
Every operation of `fd.c` is an edit of these values that leaves the rest of memory alone.  Over
them stands the table of open files, and every run of `create_fd` and `delete_fd` keeps the bitmap,
the flags and the open files in step.
-/

namespace PellOs

/-! ## Entries of the file array -/

namespace File

private theorem ofNat_mod_word (value : Nat) :
    UInt64.ofNat (value % 256 ^ 8) = UInt64.ofNat value := by
  apply UInt64.toNat_inj.mp
  simp

variable {memory : Memory} {base : Nat} (fits : base + sizeofFile ≤ wordSize)

include fits

private theorem get_word {field : Field} (wide : field.width = 8) (inside : field.offset + 8 ≤ 24) :
    field.get memory base = memory.read (base + field.offset) 8 := by
  rw [Field.get_eq (by simp only [sizeofFile] at fits; omega), wide]

theorem load_eq : load memory base =
    ⟨UInt64.ofNat (memory.read base 8), UInt64.ofNat (memory.read (base + 8) 8),
      UInt64.ofNat (memory.read (base + 16) 8)⟩ := by
  rw [load, get_word fits (by rfl) (by decide), get_word fits (by rfl) (by decide),
    get_word fits (by rfl) (by decide)]
  rfl

theorem load_congr {after : Memory} (agree : memory.AgreeOn after base sizeofFile) :
    load after base = load memory base := by
  rw [load_eq fits, load_eq fits]
  simp only [sizeofFile] at agree
  rw [Memory.read_congr (agree.mono (by omega) (by omega)),
    Memory.read_congr (agree.mono (by omega) (by omega)),
    Memory.read_congr (agree.mono (by omega) (by omega))]

private theorem set_word {field : Field} (wide : field.width = 8) (inside : field.offset + 8 ≤ 24)
    (value : Nat) : field.set memory base value = memory.write (base + field.offset) 8 value := by
  rw [Field.set_eq (by simp only [sizeofFile] at fits; omega), wide]

theorem load_set_fileId (value : Nat) :
    load (fileIdField.set memory base value) base =
      { load memory base with fileId := UInt64.ofNat value } := by
  rw [set_word fits (by rfl) (by decide), load_eq fits, load_eq fits]
  simp only [fileIdField, Nat.add_zero]
  rw [Memory.read_write_same, Memory.read_write_disjoint _ (by omega),
    Memory.read_write_disjoint _ (by omega), ofNat_mod_word]

theorem load_set_index (value : Nat) :
    load (indexField.set memory base value) base =
      { load memory base with index := UInt64.ofNat value } := by
  rw [set_word fits (by rfl) (by decide), load_eq fits, load_eq fits]
  simp only [indexField]
  rw [Memory.read_write_same, Memory.read_write_disjoint _ (by omega),
    Memory.read_write_disjoint _ (by omega), ofNat_mod_word]

theorem load_set_flags (value : Nat) :
    load (flagsField.set memory base value) base =
      { load memory base with flags := UInt64.ofNat value } := by
  rw [set_word fits (by rfl) (by decide), load_eq fits, load_eq fits]
  simp only [flagsField]
  rw [Memory.read_write_same, Memory.read_write_disjoint _ (by omega),
    Memory.read_write_disjoint _ (by omega), ofNat_mod_word]

theorem load_store (value : File) : load (store memory base value) base = value := by
  rw [store, load_set_flags fits, load_set_index fits, load_set_fileId fits, UInt64.ofNat_toNat,
    UInt64.ofNat_toNat, UInt64.ofNat_toNat]

theorem set_outside {field : Field} (wide : field.width = 8) (inside : field.offset + 8 ≤ 24)
    (value : Nat) {address : Nat} (outside : address < base ∨ base + sizeofFile ≤ address) :
    field.set memory base value address = memory address := by
  rw [set_word fits wide inside]
  simp only [sizeofFile] at outside
  exact Memory.write_outside _ (by omega)

theorem store_outside (value : File) {address : Nat}
    (outside : address < base ∨ base + sizeofFile ≤ address) :
    store memory base value address = memory address := by
  rw [store, set_outside fits (by rfl) (by decide) _ outside,
    set_outside fits (by rfl) (by decide) _ outside,
    set_outside fits (by rfl) (by decide) _ outside]

theorem agreeOn_of_load_eq {after : Memory} (same : load after base = load memory base) :
    memory.AgreeOn after base sizeofFile := by
  have word : ∀ {left right : Nat}, left < 256 ^ 8 → right < 256 ^ 8 →
      UInt64.ofNat left = UInt64.ofNat right → left = right := by
    intro left right left_lt right_lt equal
    have values := congrArg UInt64.toNat equal
    simp only [UInt64.toNat_ofNat'] at values
    rwa [Nat.mod_eq_of_lt (by simpa using left_lt), Nat.mod_eq_of_lt (by simpa using right_lt)]
      at values
  rw [load_eq fits, load_eq fits, File.mk.injEq] at same
  obtain ⟨first, second, third⟩ := same
  have id := Memory.agreeOn_of_read_eq (word (after.read_lt _ _) (memory.read_lt _ _) first)
  have index := Memory.agreeOn_of_read_eq (word (after.read_lt _ _) (memory.read_lt _ _) second)
  have flags := Memory.agreeOn_of_read_eq (word (after.read_lt _ _) (memory.read_lt _ _) third)
  intro target lower upper
  simp only [sizeofFile] at upper
  by_cases low : target < base + 8
  · exact id target lower low
  · by_cases middle : target < base + 16
    · exact index target (by omega) (by omega)
    · exact flags target (by omega) (by omega)

theorem flags_pos_iff : 0 < flagsField.get memory base ↔ 0 < (load memory base).flags.toNat := by
  rw [get_word fits (by rfl) (by decide), load_eq fits]
  have bound := memory.read_lt (base + 16) 8
  simp only [flagsField, UInt64.toNat_ofNat']
  rw [Nat.mod_eq_of_lt (by simpa using bound)]

end File

/-! ## The bits of one byte -/

/-- The loop over the bits of a byte stops at the lowest clear one. -/
private theorem clearBit_spec (byte : UInt8) (remaining j : Nat) :
    (∃ position < remaining, Bitmap.bit byte position = false ∧
        (∀ lower < position, Bitmap.bit byte lower = true) ∧
        clearBit byte remaining j = some (j + position)) ∨
      ((∀ position < remaining, Bitmap.bit byte position = true) ∧
        clearBit byte remaining j = none) := by
  induction remaining generalizing byte j with
  | zero => exact Or.inr ⟨fun position bound => by omega, rfl⟩
  | succ remaining ih =>
      have low := Bitmap.and_one_eq_zero_iff byte
      rw [clearBit]
      cases first : Bitmap.bit byte 0 with
      | false =>
          exact Or.inl ⟨0, by omega, first, fun lower below => by omega, if_pos (low.mpr first)⟩
      | true =>
          rw [if_neg (by rw [low, first]; decide)]
          rcases ih (byte >>> 1) (j + 1) with ⟨position, bound, clear, before, found⟩ | ⟨all, none⟩
          · rw [Bitmap.bit_shiftRight_one] at clear
            refine Or.inl ⟨position + 1, by omega, clear, ?_, by rw [found]; congr 1; omega⟩
            intro lower below
            cases lower with
            | zero => exact first
            | succ lower =>
                rw [← Bitmap.bit_shiftRight_one]
                exact before lower (by omega)
          · refine Or.inr ⟨?_, none⟩
            intro position bound
            cases position with
            | zero => exact first
            | succ position =>
                rw [← Bitmap.bit_shiftRight_one]
                exact all position (by omega)

/-! ## The arrays of a table -/

/-- Where a task and the arrays of its table lie.  The arrays overlap neither each other nor the
pointers to them. -/
structure TableLayout where
  task : Nat
  bitmap : Nat
  file : Nat
  task_fits : task + 576 ≤ wordSize
  bitmap_pos : 0 < bitmap
  bitmap_fits : bitmap + fdBitmapSize ≤ wordSize
  file_pos : 0 < file
  file_fits : file + sizeofFile * fileDescTableInitSize ≤ wordSize
  arrays_apart : bitmap + fdBitmapSize ≤ file ∨
    file + sizeofFile * fileDescTableInitSize ≤ bitmap
  bitmap_apart : bitmap + fdBitmapSize ≤ task + 560 ∨ task + 576 ≤ bitmap
  file_apart : file + sizeofFile * fileDescTableInitSize ≤ task + 560 ∨ task + 576 ≤ file

namespace TableLayout

/-- The address belongs to neither array. -/
def Outside (layout : TableLayout) (address : Nat) : Prop :=
  (address < layout.bitmap ∨ layout.bitmap + fdBitmapSize ≤ address) ∧
    (address < layout.file ∨
      layout.file + sizeofFile * fileDescTableInitSize ≤ address)

/-- The current task's table is laid out so and its arrays hold the given values; memory outside
them is `base`. -/
structure Holds (layout : TableLayout) (base : Memory) (bits : Nat → UInt8) (files : Nat → File)
    (state : FdState) : Prop where
  task_eq : state.task = layout.task
  bitmap_eq : Task.fdTableBitmap.get base layout.task = layout.bitmap
  file_eq : Task.fdTableFile.get base layout.task = layout.file
  bits_eq : ∀ index < fdBitmapSize, state.memory (layout.bitmap + index) = bits index
  files_eq : ∀ index < fileDescTableInitSize,
    File.load state.memory (layout.file + sizeofFile * index) = files index
  outside : ∀ address, layout.Outside address → state.memory address = base address

namespace Holds

variable {layout : TableLayout} {base : Memory} {bits : Nat → UInt8} {files : Nat → File}
  {state : FdState}

private theorem pointers_outside (layout : TableLayout) {address : Nat}
    (lower : layout.task + 560 ≤ address) (upper : address < layout.task + 576) :
    layout.Outside address := by
  have first := layout.bitmap_apart
  have second := layout.file_apart
  exact ⟨by omega, by omega⟩

theorem bitmap_pointer (holds : layout.Holds base bits files state) :
    state.bitmap = layout.bitmap := by
  have fits := layout.task_fits
  rw [FdState.bitmap, holds.task_eq, ← holds.bitmap_eq]
  apply Field.get_congr (by simp only [Task.fdTableBitmap]; omega)
  simp only [Task.fdTableBitmap]
  exact fun address lower upper =>
    holds.outside address (pointers_outside layout lower (by omega))

theorem file_pointer (holds : layout.Holds base bits files state) : state.file = layout.file := by
  have fits := layout.task_fits
  rw [FdState.file, holds.task_eq, ← holds.file_eq]
  apply Field.get_congr (by simp only [Task.fdTableFile]; omega)
  simp only [Task.fdTableFile]
  exact fun address lower upper =>
    holds.outside address (pointers_outside layout (by omega) (by omega))

theorem bitmapAddress_eq (holds : layout.Holds base bits files state) {index : Nat}
    (inside : index < fdBitmapSize) : state.bitmapAddress index = layout.bitmap + index := by
  have fits := layout.bitmap_fits
  rw [FdState.bitmapAddress, holds.bitmap_pointer, Nat.mod_eq_of_lt (by omega)]

theorem fileAddress_eq (holds : layout.Holds base bits files state) (index : Nat) :
    state.fileAddress index = layout.file + sizeofFile * index := by
  rw [FdState.fileAddress, holds.file_pointer]

theorem bitmapAt_eq (holds : layout.Holds base bits files state) {index : Nat}
    (inside : index < fdBitmapSize) : state.bitmapAt index = bits index := by
  rw [FdState.bitmapAt, holds.bitmapAddress_eq inside, holds.bits_eq index inside]

theorem fileAt_eq (holds : layout.Holds base bits files state) {index : Nat}
    (inside : index < fileDescTableInitSize) : state.fileAt index = files index := by
  rw [FdState.fileAt, holds.fileAddress_eq, holds.files_eq index inside]

theorem member_eq (holds : layout.Holds base bits files state) {fd : Nat} (bound : fd < fdCount) :
    Bitmap.member state.bitmapAt fd = Bitmap.member bits fd := by
  simp only [fdCount] at bound
  rw [Bitmap.member, Bitmap.member, holds.bitmapAt_eq (by omega)]

private theorem entry_fits (layout : TableLayout) {index : Nat}
    (inside : index < fileDescTableInitSize) :
    layout.file + sizeofFile * index + sizeofFile ≤ wordSize := by
  have fits := layout.file_fits
  simp only [sizeofFile] at fits ⊢
  omega

theorem memory_eq (holds : layout.Holds base bits files state) {after : FdState}
    (same : layout.Holds base bits files after) : after.memory = state.memory := by
  funext address
  by_cases bitmap : address < layout.bitmap ∨ layout.bitmap + fdBitmapSize ≤ address
  · by_cases file : address < layout.file ∨
        layout.file + sizeofFile * fileDescTableInitSize ≤ address
    · rw [same.outside address ⟨bitmap, file⟩, holds.outside address ⟨bitmap, file⟩]
    · have entry : (address - layout.file) / sizeofFile < fileDescTableInitSize := by
        simp only [sizeofFile] at file ⊢
        omega
      apply File.agreeOn_of_load_eq (entry_fits layout entry)
      · rw [same.files_eq _ entry, holds.files_eq _ entry]
      all_goals
        simp only [sizeofFile] at file ⊢
        omega
  · have byte : address - layout.bitmap < fdBitmapSize := by omega
    have place : layout.bitmap + (address - layout.bitmap) = address := by omega
    rw [← place, same.bits_eq _ byte, holds.bits_eq _ byte]

theorem move (holds : layout.Holds base bits files state) {memory : Memory}
    (pointers : state.memory.AgreeOn memory (layout.task + 560) 16)
    (bitmap : state.memory.AgreeOn memory layout.bitmap fdBitmapSize)
    (file : state.memory.AgreeOn memory layout.file (sizeofFile * fileDescTableInitSize)) :
    layout.Holds memory bits files { state with memory } := by
  have fits := layout.task_fits
  have first := holds.bitmap_pointer
  have second := holds.file_pointer
  rw [FdState.bitmap, holds.task_eq] at first
  rw [FdState.file, holds.task_eq] at second
  refine ⟨holds.task_eq, ?_, ?_, ?_, ?_, fun _ _ => rfl⟩
  · rw [← first]
    apply Field.get_congr (by simp only [Task.fdTableBitmap]; omega)
    simp only [Task.fdTableBitmap]
    exact pointers.mono (by omega) (by omega)
  · rw [← second]
    apply Field.get_congr (by simp only [Task.fdTableFile]; omega)
    simp only [Task.fdTableFile]
    exact pointers.mono (by omega) (by omega)
  · intro index bound
    rw [← holds.bits_eq index bound]
    exact bitmap _ (by omega) (by omega)
  · intro index bound
    rw [← holds.files_eq index bound]
    apply File.load_congr (entry_fits layout bound)
    simp only [sizeofFile] at file ⊢
    exact file.mono (by omega) (by omega)

/-! ## Edits -/

theorem congr (holds : layout.Holds base bits files state) {after : FdState}
    (memory : after.memory = state.memory) (task : after.task = state.task) :
    layout.Holds base bits files after where
  task_eq := task.trans holds.task_eq
  bitmap_eq := holds.bitmap_eq
  file_eq := holds.file_eq
  bits_eq := memory ▸ holds.bits_eq
  files_eq := memory ▸ holds.files_eq
  outside := memory ▸ holds.outside

theorem setBitmap (holds : layout.Holds base bits files state) {index : Nat}
    (inside : index < fdBitmapSize) (byte : UInt8) :
    layout.Holds base (Function.update bits index byte) files (state.setBitmap index byte) := by
  have apart := layout.arrays_apart
  have memory : (state.setBitmap index byte).memory =
      state.memory.writeByte (layout.bitmap + index) byte := by
    rw [FdState.setBitmap, holds.bitmapAddress_eq inside]
  refine ⟨holds.task_eq, holds.bitmap_eq, holds.file_eq, ?_, ?_, ?_⟩
  · intro other bound
    rw [memory]
    by_cases same : other = index
    · rw [same, Memory.writeByte_same, Function.update_self]
    · rw [Function.update_of_ne same, ← holds.bits_eq other bound]
      exact Memory.writeByte_of_ne _ (by omega)
  · intro other bound
    have fits := entry_fits layout bound
    rw [memory, ← holds.files_eq other bound]
    apply File.load_congr fits
    apply Memory.agreeOn_writeByte
    simp only [sizeofFile] at apart ⊢
    omega
  · intro address outside
    rw [memory, ← holds.outside address outside]
    have far := outside.1
    exact Memory.writeByte_of_ne _ (by omega)

private theorem editFile (holds : layout.Holds base bits files state) {index : Nat}
    (inside : index < fileDescTableInitSize) {after : FdState} {value : File}
    (task : after.task = state.task)
    (stored : File.load after.memory (layout.file + sizeofFile * index) = value)
    (frame : ∀ address, address < layout.file + sizeofFile * index ∨
      layout.file + sizeofFile * index + sizeofFile ≤ address →
        after.memory address = state.memory address) :
    layout.Holds base bits (Function.update files index value) after := by
  have apart := layout.arrays_apart
  simp only [sizeofFile] at apart
  refine ⟨task.trans holds.task_eq, holds.bitmap_eq, holds.file_eq, ?_, ?_, ?_⟩
  · intro other bound
    rw [← holds.bits_eq other bound]
    apply frame
    simp only [sizeofFile]
    omega
  · intro other bound
    by_cases same : other = index
    · rw [same, stored, Function.update_self]
    · rw [Function.update_of_ne same, ← holds.files_eq other bound]
      apply File.load_congr (entry_fits layout bound)
      intro address lower upper
      apply frame
      simp only [sizeofFile] at lower upper ⊢
      omega
  · intro address outside
    have far := outside.2
    rw [← holds.outside address outside]
    apply frame
    simp only [sizeofFile] at far ⊢
    omega

theorem setFile (holds : layout.Holds base bits files state) {index : Nat}
    (inside : index < fileDescTableInitSize) (value : File) :
    layout.Holds base bits (Function.update files index value) (state.setFile index value) := by
  have fits := entry_fits layout inside
  refine holds.editFile inside (by rfl) ?_ ?_
  · rw [FdState.setFile, holds.fileAddress_eq, File.load_store fits]
  · intro address outside
    rw [FdState.setFile, holds.fileAddress_eq]
    exact File.store_outside fits _ outside

private theorem setFileField (holds : layout.Holds base bits files state) {index : Nat}
    (inside : index < fileDescTableInitSize) {field : Field} (wide : field.width = 8)
    (member : field.offset + 8 ≤ 24) {value : Nat} {entry : File}
    (stored : File.load (field.set state.memory (layout.file + sizeofFile * index) value)
      (layout.file + sizeofFile * index) = entry) :
    layout.Holds base bits (Function.update files index entry)
      (state.setFileField index field value) := by
  have fits := entry_fits layout inside
  refine holds.editFile inside (by rfl) ?_ ?_
  · rw [FdState.setFileField, holds.fileAddress_eq, stored]
  · intro address outside
    rw [FdState.setFileField, holds.fileAddress_eq]
    exact File.set_outside fits wide member _ outside

theorem setFileId (holds : layout.Holds base bits files state) {index : Nat}
    (inside : index < fileDescTableInitSize) (value : Nat) :
    layout.Holds base bits
      (Function.update files index { files index with fileId := UInt64.ofNat value })
      (state.setFileField index File.fileIdField value) := by
  apply holds.setFileField inside (by rfl) (by decide)
  rw [File.load_set_fileId (entry_fits layout inside), holds.files_eq index inside]

theorem setIndex (holds : layout.Holds base bits files state) {index : Nat}
    (inside : index < fileDescTableInitSize) (value : Nat) :
    layout.Holds base bits
      (Function.update files index { files index with index := UInt64.ofNat value })
      (state.setFileField index File.indexField value) := by
  apply holds.setFileField inside (by rfl) (by decide)
  rw [File.load_set_index (entry_fits layout inside), holds.files_eq index inside]

theorem setFlags (holds : layout.Holds base bits files state) {index : Nat}
    (inside : index < fileDescTableInitSize) (value : Nat) :
    layout.Holds base bits
      (Function.update files index { files index with flags := UInt64.ofNat value })
      (state.setFileField index File.flagsField value) := by
  apply holds.setFileField inside (by rfl) (by decide)
  rw [File.load_set_flags (entry_fits layout inside), holds.files_eq index inside]

/-! ## The functions of `fd.c` -/

theorem isValidFd_eq (holds : layout.Holds base bits files state) {fd : Nat}
    (inside : fd < fileDescTableInitSize) :
    (isValidFd state fd).2 = decide (0 < (files fd).flags.toNat) := by
  rw [isValidFd, if_neg (by omega), Int.toNat_natCast, holds.fileAddress_eq]
  rw [decide_eq_decide, File.flags_pos_iff (entry_fits layout inside), holds.files_eq fd inside]

theorem getFileFromFd_eq (holds : layout.Holds base bits files state) {fd : Nat}
    (inside : fd < fileDescTableInitSize) :
    (getFileFromFd state fd).2 = if 0 < (files fd).flags.toNat then some (files fd) else none := by
  have valid := holds.isValidFd_eq inside
  have entry : (isValidFd state fd).1.fileAt fd = files fd := by
    rw [isValidFd, if_neg (by omega)]
    exact (holds.congr rfl rfl).fileAt_eq inside
  rw [getFileFromFd]
  dsimp only
  rw [valid]
  by_cases positive : 0 < (files fd).flags.toNat
  · simp only [positive, decide_true, if_true, Int.toNat_natCast, entry]
  · simp only [positive, decide_false, if_false, Bool.false_eq_true]

/-- The scan leaves memory alone and stops at the lowest clear bit. -/
private theorem scanBitmap_spec (holds : layout.Holds base bits files state) (remaining i : Nat)
    (bound : i + remaining ≤ fdBitmapSize) :
    (scanBitmap state remaining i).1.memory = state.memory ∧
      (scanBitmap state remaining i).1.task = state.task ∧
      ((∃ fd, 8 * i ≤ fd ∧ fd < 8 * (i + remaining) ∧ Bitmap.member bits fd = false ∧
          (∀ lower, 8 * i ≤ lower → lower < fd → Bitmap.member bits lower = true) ∧
          (scanBitmap state remaining i).2 = some (fd / 8, fd % 8)) ∨
        ((∀ fd, 8 * i ≤ fd → fd < 8 * (i + remaining) → Bitmap.member bits fd = true) ∧
          (scanBitmap state remaining i).2 = none)) := by
  induction remaining generalizing state i with
  | zero => exact ⟨rfl, rfl, Or.inr ⟨fun fd lower upper => by omega, rfl⟩⟩
  | succ remaining ih =>
      have byte := holds.bitmapAt_eq (by omega : i < fdBitmapSize)
      have next := ih (holds.congr rfl rfl : layout.Holds base bits files (state.touchBitmap i))
        (i + 1) (by omega)
      rw [scanBitmap, byte]
      by_cases full : bits i = 255
      · have members := (Bitmap.byte_full_iff bits i).mp full
        rw [if_pos full]
        refine ⟨next.1, next.2.1, ?_⟩
        rcases next.2.2 with ⟨fd, lower, upper, clear, before, found⟩ | ⟨all, none⟩
        · refine Or.inl ⟨fd, by omega, by omega, clear, fun low from_start below => ?_, found⟩
          by_cases here : low < 8 * (i + 1)
          · exact members low from_start here
          · exact before low (by omega) below
        · refine Or.inr ⟨fun fd lower upper => ?_, none⟩
          by_cases here : fd < 8 * (i + 1)
          · exact members fd lower here
          · exact all fd (by omega) (by omega)
      · rw [if_neg full]
        rcases clearBit_spec (bits i) 8 0 with ⟨j, small, clear, before, found⟩ | ⟨all, _⟩
        · rw [found]
          refine ⟨rfl, rfl, Or.inl ⟨8 * i + j, by omega, by omega, ?_, ?_, ?_⟩⟩
          · rw [Bitmap.member, show (8 * i + j) / 8 = i by omega,
              show (8 * i + j) % 8 = j by omega, clear]
          · intro low from_start below
            rw [Bitmap.member, show low / 8 = i by omega]
            exact before (low % 8) (by omega)
          · rw [Nat.zero_add, show (8 * i + j) / 8 = i by omega,
              show (8 * i + j) % 8 = j by omega]
        · exact absurd ((Bitmap.eq_full_iff (bits i)).mpr all) full

/-- `create_fd` takes the lowest clear bit, or fails with memory as it was. -/
theorem createFd_spec (holds : layout.Holds base bits files state) (file : File) :
    (∃ fd < fdCount, Bitmap.member bits fd = false ∧
        (∀ lower < fd, Bitmap.member bits lower = true) ∧
        (createFd state file).2 = fd ∧
        layout.Holds base (Bitmap.insert bits fd)
          (Function.update files fd ⟨file.fileId, file.index, 1⟩) (createFd state file).1) ∨
      ((∀ fd < fdCount, Bitmap.member bits fd = true) ∧ (createFd state file).2 = -1 ∧
        (createFd state file).1.memory = state.memory ∧
        (createFd state file).1.task = state.task) := by
  obtain ⟨memory, task, found | ⟨all, none⟩⟩ := holds.scanBitmap_spec fdBitmapSize 0 (by omega)
  · obtain ⟨fd, -, bound, clear, before, place⟩ := found
    have scanned := holds.congr memory task
    have small : fd < fdCount := by simpa only [fdCount, Nat.zero_add] using bound
    have inside : fd < fileDescTableInitSize := lt_trans small (by decide)
    have number : fd % 8 + fd / 8 * 8 = fd := by omega
    have call : createFd state file =
        (((scanBitmap state fdBitmapSize 0).1.setBitmap (fd / 8)
            ((scanBitmap state fdBitmapSize 0).1.bitmapAt (fd / 8) |||
              1 <<< UInt8.ofNat (fd % 8))).setFile fd file |>.setFileField fd File.flagsField 1,
          (fd : Int)) := by
      rw [createFd, ← Prod.eta (scanBitmap state fdBitmapSize 0), place]
      dsimp only
      rw [number]
    have marked := scanned.setBitmap
      (by simp only [fdCount] at small; omega : fd / 8 < fdBitmapSize)
      (bits (fd / 8) ||| 1 <<< UInt8.ofNat (fd % 8))
    have stored := (marked.setFile inside file).setFlags inside 1
    rw [Function.update_self, Function.update_idem] at stored
    refine Or.inl ⟨fd, small, clear, fun lower below => before lower (by omega) below, ?_, ?_⟩
    · rw [call]
    · rw [call, scanned.bitmapAt_eq (by simp only [fdCount] at small; omega)]
      exact stored
  · refine Or.inr ⟨fun fd small => all fd (by omega) ?_, ?_, ?_, ?_⟩
    · simpa only [fdCount, Nat.zero_add] using small
    all_goals rw [createFd, ← Prod.eta (scanBitmap state fdBitmapSize 0), none]
    · exact memory
    · exact task

theorem deleteFd_spec (holds : layout.Holds base bits files state) {fd : Nat}
    (inside : fd < fdCount) :
    layout.Holds base (Bitmap.erase bits fd) (Function.update files fd ⟨0, 0, 0⟩)
      (deleteFd state fd) := by
  have byte : fd / 8 < fdBitmapSize := by
    simp only [fdCount] at inside
    omega
  have entry : fd < fileDescTableInitSize := lt_trans inside (by decide)
  have cleared := holds.setBitmap byte (bits (fd / 8) &&& ~~~(1 <<< UInt8.ofNat (fd % 8)))
  have zeroed := ((cleared.setFileId entry 0).setIndex entry 0).setFlags entry 0
  rw [Function.update_self, Function.update_idem, Function.update_self, Function.update_idem]
    at zeroed
  rw [deleteFd, holds.bitmapAt_eq byte]
  exact zeroed

end Holds
end TableLayout

/-! ## Open files -/

/-- File id and index of every open descriptor. -/
abbrev OpenFiles := Nat → Option (UInt64 × UInt64)

/-- A table next to the files that its history has left open. -/
structure FdConfig where
  state : FdState
  opened : OpenFiles

/-- The open files after a `create_fd` that returned `result`. -/
def OpenFiles.create (opened : OpenFiles) (result : Int) (file : File) : OpenFiles :=
  if result < 0 then opened
  else Function.update opened result.toNat (some (file.fileId, file.index))

/-- Calls on the table, with descriptors that the bitmap has a bit for. -/
inductive FdStep : FdConfig → FdConfig → Prop
  | create (config : FdConfig) (file : File) :
      FdStep config ⟨(createFd config.state file).1,
        config.opened.create (createFd config.state file).2 file⟩
  | delete (config : FdConfig) {fd : Nat} (inside : fd < fdCount) :
      FdStep config ⟨deleteFd config.state fd, Function.update config.opened fd none⟩

/-- The arrays say which files are open. -/
structure Represents (bits : Nat → UInt8) (files : Nat → File) (opened : OpenFiles) : Prop where
  member_eq : ∀ fd < fdCount, Bitmap.member bits fd = (opened fd).isSome
  closed : ∀ fd < fdCount, opened fd = none → files fd = ⟨0, 0, 0⟩
  open_eq : ∀ fd < fdCount, ∀ fileId index, opened fd = some (fileId, index) →
    files fd = ⟨fileId, index, 1⟩

namespace Represents

variable {bits : Nat → UInt8} {files : Nat → File} {opened : OpenFiles}

theorem empty : Represents (fun _ => 0) (fun _ => ⟨0, 0, 0⟩) (fun _ => none) where
  member_eq := fun fd _ => by simp [Bitmap.member, Bitmap.bit]
  closed := fun _ _ _ => rfl
  open_eq := fun _ _ _ _ impossible => by cases impossible

theorem create (represents : Represents bits files opened) (fd : Nat) (file : File) :
    Represents (Bitmap.insert bits fd) (Function.update files fd ⟨file.fileId, file.index, 1⟩)
      (opened.create fd file) := by
  rw [OpenFiles.create, if_neg (by omega), Int.toNat_natCast]
  constructor
  all_goals
    intro other bound
    by_cases same : other = fd
  · subst same
    simp [Bitmap.member_insert]
  · rw [Bitmap.member_insert, represents.member_eq other bound, Function.update_of_ne same]
    simp [same]
  · subst same
    simp
  · rw [Function.update_of_ne same, Function.update_of_ne same]
    exact represents.closed other bound
  · subst same
    intro fileId index entry
    rw [Function.update_self, Option.some.injEq, Prod.mk.injEq] at entry
    rw [Function.update_self, entry.1, entry.2]
  · rw [Function.update_of_ne same, Function.update_of_ne same]
    exact represents.open_eq other bound

theorem delete (represents : Represents bits files opened) (fd : Nat) :
    Represents (Bitmap.erase bits fd) (Function.update files fd ⟨0, 0, 0⟩)
      (Function.update opened fd none) := by
  constructor
  all_goals
    intro other bound
    by_cases same : other = fd
  · subst same
    simp [Bitmap.member_erase]
  · rw [Bitmap.member_erase, represents.member_eq other bound, Function.update_of_ne same]
    simp [same]
  · subst same
    simp
  · rw [Function.update_of_ne same, Function.update_of_ne same]
    exact represents.closed other bound
  · subst same
    simp
  · rw [Function.update_of_ne same, Function.update_of_ne same]
    exact represents.open_eq other bound

theorem flags_pos_iff (represents : Represents bits files opened) {fd : Nat}
    (bound : fd < fdCount) :
    decide (0 < (files fd).flags.toNat) = (opened fd).isSome := by
  cases entry : opened fd with
  | none => rw [represents.closed fd bound entry]; rfl
  | some file => rw [represents.open_eq fd bound file.1 file.2 entry]; rfl

end Represents

/-- The table represents the open files, and memory outside it is `base`. -/
def TableLayout.Inv (layout : TableLayout) (base : Memory) (config : FdConfig) : Prop :=
  ∃ bits files, layout.Holds base bits files config.state ∧ Represents bits files config.opened

theorem TableLayout.Inv.step {layout : TableLayout} {base : Memory} {before after : FdConfig}
    (inv : layout.Inv base before) (step : FdStep before after) : layout.Inv base after := by
  obtain ⟨bits, files, holds, represents⟩ := inv
  cases step with
  | create file =>
      rcases holds.createFd_spec file with
        ⟨fd, _, _, _, result, stored⟩ | ⟨_, result, memory, task⟩
      · rw [result]
        exact ⟨_, _, stored, represents.create fd file⟩
      · rw [result]
        exact ⟨bits, files, holds.congr memory task, represents⟩
  | delete inside => exact ⟨_, _, holds.deleteFd_spec inside, represents.delete _⟩

theorem TableLayout.Inv.run {layout : TableLayout} {base : Memory} {before after : FdConfig}
    (inv : layout.Inv base before) (run : Relation.ReflTransGen FdStep before after) :
    layout.Inv base after := by
  induction run with
  | refl => exact inv
  | tail _ step ih => exact ih.step step

/-- What the calls report agrees with the files that are open. -/
structure TableInvariant (config : FdConfig) : Prop where
  /-- The bit of a descriptor is set exactly when it is open. -/
  bit_eq : ∀ fd < fdCount, Bitmap.member config.state.bitmapAt fd = (config.opened fd).isSome
  /-- `is_valid_fd` holds exactly for open descriptors. -/
  valid_eq : ∀ fd < fdCount, (isValidFd config.state fd).2 = (config.opened fd).isSome
  /-- The flags of an entry are positive exactly for open descriptors. -/
  flags_eq : ∀ fd < fdCount,
    decide (0 < (config.state.fileAt fd).flags.toNat) = (config.opened fd).isSome
  /-- `create_fd` takes the lowest descriptor that is not open and changes no other entry. -/
  lowest : ∀ file : File, ∀ fd < fdCount, config.opened fd = none →
    (∀ lower < fd, config.opened lower ≠ none) →
      (createFd config.state file).2 = fd ∧
      (createFd config.state file).1.fileAt fd = ⟨file.fileId, file.index, 1⟩ ∧
      (∀ other < fileDescTableInitSize, other ≠ fd →
        (createFd config.state file).1.fileAt other = config.state.fileAt other) ∧
      ∀ other < fdCount, other ≠ fd → Bitmap.member (createFd config.state file).1.bitmapAt other =
        Bitmap.member config.state.bitmapAt other
  /-- `create_fd` fails exactly when every descriptor is open. -/
  fails_iff : ∀ file : File, (createFd config.state file).2 = -1 ↔
    ∀ fd < fdCount, config.opened fd ≠ none
  /-- A failing `create_fd` changes nothing. -/
  failed : ∀ file : File, (createFd config.state file).2 = -1 →
    (createFd config.state file).1.memory = config.state.memory
  /-- `get_file_from_fd` returns what the descriptor was created with. -/
  get_eq : ∀ fd < fdCount, ∀ fileId index, config.opened fd = some (fileId, index) →
    (getFileFromFd config.state fd).2 = some ⟨fileId, index, 1⟩

theorem TableLayout.Inv.invariant {layout : TableLayout} {base : Memory} {config : FdConfig}
    (inv : layout.Inv base config) : TableInvariant config := by
  obtain ⟨bits, files, holds, represents⟩ := inv
  have inside : ∀ {fd}, fd < fdCount → fd < fileDescTableInitSize :=
    fun bound => lt_trans bound (by decide)
  constructor
  · intro fd bound
    rw [holds.member_eq bound, represents.member_eq fd bound]
  · intro fd bound
    rw [holds.isValidFd_eq (inside bound), represents.flags_pos_iff bound]
  · intro fd bound
    rw [holds.fileAt_eq (inside bound), represents.flags_pos_iff bound]
  · intro file fd bound closed before
    have clear : Bitmap.member bits fd = false := by
      rw [represents.member_eq fd bound, closed]
      rfl
    rcases holds.createFd_spec file with ⟨found, small, free, full, result, stored⟩ | ⟨all, _⟩
    · have same : found = fd := by
        rcases Nat.lt_trichotomy found fd with below | equal | above
        · have open_below := before found below
          rw [represents.member_eq found small] at free
          rw [Option.isSome_eq_false_iff, Option.isNone_iff_eq_none] at free
          exact absurd free open_below
        · exact equal
        · rw [full fd above] at clear
          cases clear
      subst same
      refine ⟨result, ?_, ?_, ?_⟩
      · rw [stored.fileAt_eq (inside bound), Function.update_self]
      · intro other other_bound differ
        rw [stored.fileAt_eq other_bound, Function.update_of_ne differ, holds.fileAt_eq other_bound]
      · intro other other_bound differ
        rw [stored.member_eq other_bound, holds.member_eq other_bound, Bitmap.member_insert]
        simp [differ]
    · rw [all fd bound] at clear
      cases clear
  · intro file
    rcases holds.createFd_spec file with ⟨found, small, free, _, result, _⟩ | ⟨all, result, _⟩
    · rw [represents.member_eq found small] at free
      rw [Option.isSome_eq_false_iff, Option.isNone_iff_eq_none] at free
      exact ⟨fun failed => by omega, fun full => absurd free (full found small)⟩
    · refine ⟨fun _ fd bound closed => ?_, fun _ => result⟩
      have member := all fd bound
      rw [represents.member_eq fd bound, closed] at member
      cases member
  · intro file failed
    rcases holds.createFd_spec file with ⟨_, _, _, _, result, _⟩ | ⟨_, _, memory, _⟩
    · omega
    · exact memory
  · intro fd bound fileId index entry
    have flags := represents.flags_pos_iff bound
    rw [entry] at flags
    rw [holds.getFileFromFd_eq (inside bound), if_pos (of_decide_eq_true flags),
      represents.open_eq fd bound fileId index entry]

/-- Along every run of `create_fd` and `delete_fd` from a cleared table, the bitmap, the flags and
what the functions return agree with the files that are open. -/
theorem fdTable_agrees_with_openFiles (layout : TableLayout) {start final : FdConfig}
    (cleared : layout.Holds start.state.memory (fun _ => 0) (fun _ => ⟨0, 0, 0⟩) start.state)
    (closed : start.opened = fun _ => none)
    (run : Relation.ReflTransGen FdStep start final) : TableInvariant final := by
  have inv : layout.Inv start.state.memory start :=
    ⟨_, _, cleared, by rw [closed]; exact Represents.empty⟩
  exact (inv.run run).invariant

/-- A layout with the arrays at fixed places. -/
def sampleLayout : TableLayout where
  task := 0x1000
  bitmap := 0x10000
  file := 0x20000
  task_fits := by decide
  bitmap_pos := by decide
  bitmap_fits := by decide
  file_pos := by decide
  file_fits := by decide
  arrays_apart := by decide
  bitmap_apart := by decide
  file_apart := by decide

/-- Memory with a cleared table. -/
def sampleMemory : Memory :=
  Task.fdTableFile.set (Task.fdTableBitmap.set (fun _ => 0) sampleLayout.task sampleLayout.bitmap)
    sampleLayout.task sampleLayout.file

theorem sampleMemory_zero {address : Nat} (outside : address < 0x1230 ∨ 0x1240 ≤ address) :
    sampleMemory address = 0 := by
  rw [sampleMemory, Field.set_eq (by decide), Field.set_eq (by decide)]
  simp only [Task.fdTableFile, Task.fdTableBitmap, sampleLayout]
  rw [Memory.write_outside _ (by omega), Memory.write_outside _ (by omega)]

theorem sampleMemory_holds : sampleLayout.Holds sampleMemory (fun _ => 0) (fun _ => ⟨0, 0, 0⟩)
    ⟨sampleMemory, sampleLayout.task, []⟩ := by
  refine ⟨rfl, ?_, ?_, ?_, ?_, fun _ _ => rfl⟩
  · rw [sampleMemory, Field.get_eq (by decide), Field.set_eq (by decide)]
    simp only [Task.fdTableFile, Task.fdTableBitmap]
    rw [Memory.read_write_disjoint _ (by omega), Field.set_eq (by decide), Memory.read_write_same]
    decide
  · rw [sampleMemory, Field.get_set_same (by decide) (by decide)]
  · intro index bound
    exact sampleMemory_zero (by simp only [sampleLayout]; omega)
  · intro index bound
    simp only [fileDescTableInitSize] at bound
    have zero : ∀ offset, offset + 8 ≤ 24 →
        sampleMemory.read (sampleLayout.file + sizeofFile * index + offset) 8 = 0 := by
      intro offset inside
      apply Memory.read_zero
      intro target lower upper
      exact sampleMemory_zero (by simp only [sampleLayout, sizeofFile] at lower upper ⊢; omega)
    have fits : sampleLayout.file + sizeofFile * index + sizeofFile ≤ wordSize := by
      simp only [sampleLayout, sizeofFile, wordSize]
      omega
    have first := zero 0 (by decide)
    rw [Nat.add_zero] at first
    rw [File.load_eq fits, first, zero 8 (by decide), zero 16 (by decide)]
    rfl

/-- A table with one file open. -/
theorem fdTable_agrees_after_create :
    TableInvariant ⟨(createFd ⟨sampleMemory, sampleLayout.task, []⟩ ⟨7, 0, 0⟩).1,
      OpenFiles.create (fun _ => none)
        (createFd ⟨sampleMemory, sampleLayout.task, []⟩ ⟨7, 0, 0⟩).2 ⟨7, 0, 0⟩⟩ :=
  fdTable_agrees_with_openFiles sampleLayout sampleMemory_holds rfl
    (.single (.create ⟨⟨sampleMemory, sampleLayout.task, []⟩, fun _ => none⟩ ⟨7, 0, 0⟩))

end PellOs
