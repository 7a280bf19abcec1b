import PellOs.Lib.Bitmap
import PellOs.Scheduler.Task

/-!
# File descriptors

`fd.c` on byte memory.  A task's `fd_table` holds two pointers, to a bitmap of the descriptors in
use and to an array of `file_t`; neither pointer is compared with anything before it is used.  The
functions also list the accesses that they make to the two arrays.
-/

namespace PellOs

/-- `FILE_DESC_TABLE_INIT_SIZE`. -/
def fileDescTableInitSize : Nat := 127

/-- Bytes of the bitmap, `FILE_DESC_TABLE_INIT_SIZE / 8`. -/
def fdBitmapSize : Nat := fileDescTableInitSize / 8

/-- Descriptors that the bitmap has a bit for. -/
def fdCount : Nat := 8 * fdBitmapSize

/-- `file_t`. -/
structure File where
  fileId : UInt64
  index : UInt64
  flags : UInt64
  deriving DecidableEq, Repr

/-- `sizeof(file_t)`. -/
def sizeofFile : Nat := 24

namespace File

/-- `file_id`. -/
def fileIdField : Field := ⟨0, 8⟩

/-- `index`. -/
def indexField : Field := ⟨8, 8⟩

/-- `flags`. -/
def flagsField : Field := ⟨16, 8⟩

/-- The structure copy `*file`. -/
def load (memory : Memory) (file : Nat) : File :=
  ⟨UInt64.ofNat (fileIdField.get memory file), UInt64.ofNat (indexField.get memory file),
    UInt64.ofNat (flagsField.get memory file)⟩

/-- The structure assignment `*file = value`. -/
def store (memory : Memory) (file : Nat) (value : File) : Memory :=
  let memory := fileIdField.set memory file value.fileId.toNat
  let memory := indexField.set memory file value.index.toNat
  flagsField.set memory file value.flags.toNat

end File

/-- The arrays of a descriptor table. -/
inductive TableArray
  | bitmap
  | file
  deriving DecidableEq, Repr

/-- Number of elements of an array. -/
def TableArray.size : TableArray → Nat
  | .bitmap => fdBitmapSize
  | .file => fileDescTableInitSize

/-- One use of `base[index]`. -/
structure TableAccess where
  array : TableArray
  base : Nat
  index : Nat
  deriving DecidableEq, Repr

/-- The access is to an element of an array that exists. -/
def TableAccess.InBounds (access : TableAccess) : Prop :=
  access.base ≠ 0 ∧ access.index < access.array.size

/-- Memory, the current task and the accesses made so far, latest first. -/
structure FdState where
  memory : Memory
  task : Nat
  accesses : List TableAccess

namespace FdState

/-- `fd_table->bitmap`. -/
def bitmap (state : FdState) : Nat := Task.fdTableBitmap.get state.memory state.task

/-- `fd_table->file`. -/
def file (state : FdState) : Nat := Task.fdTableFile.get state.memory state.task

/-- Address of `fd_table->bitmap[index]`. -/
def bitmapAddress (state : FdState) (index : Nat) : Nat := (state.bitmap + index) % wordSize

/-- Address of `fd_table->file[index]`. -/
def fileAddress (state : FdState) (index : Nat) : Nat := state.file + sizeofFile * index

/-- `fd_table->bitmap[index]`. -/
def bitmapAt (state : FdState) (index : Nat) : UInt8 := state.memory (state.bitmapAddress index)

/-- `fd_table->file[index]`. -/
def fileAt (state : FdState) (index : Nat) : File :=
  File.load state.memory (state.fileAddress index)

/-- Note an access to the bitmap. -/
def touchBitmap (state : FdState) (index : Nat) : FdState :=
  { state with accesses := ⟨.bitmap, state.bitmap, index⟩ :: state.accesses }

/-- Note an access to the file array. -/
def touchFile (state : FdState) (index : Nat) : FdState :=
  { state with accesses := ⟨.file, state.file, index⟩ :: state.accesses }

/-- `fd_table->bitmap[index] = byte`. -/
def setBitmap (state : FdState) (index : Nat) (byte : UInt8) : FdState :=
  { state.touchBitmap index with
    memory := state.memory.writeByte (state.bitmapAddress index) byte }

/-- `fd_table->file[index] = value`. -/
def setFile (state : FdState) (index : Nat) (value : File) : FdState :=
  { state.touchFile index with
    memory := File.store state.memory (state.fileAddress index) value }

/-- `fd_table->file[index].field = value`. -/
def setFileField (state : FdState) (index : Nat) (field : Field) (value : Nat) : FdState :=
  { state.touchFile index with
    memory := field.set state.memory (state.fileAddress index) value }

end FdState

/-- `is_valid_fd`. -/
def isValidFd (state : FdState) (fd : Int) : FdState × Bool :=
  if fd < 0 then
    (state, false)
  else
    (state.touchFile fd.toNat,
      decide (0 < File.flagsField.get state.memory (state.fileAddress fd.toNat)))

/-- `get_file_from_fd`; `none` stands for the result `-1`. -/
def getFileFromFd (state : FdState) (fd : Int) : FdState × Option File :=
  let (state, valid) := isValidFd state fd
  if valid then
    (state.touchFile fd.toNat, some (state.fileAt fd.toNat))
  else
    (state, none)

/-- The loop of `create_fd` over the bytes of the bitmap, up to the first clear bit. -/
def scanBitmap (state : FdState) : Nat → Nat → FdState × Option (Nat × Nat)
  | 0, _ => (state, none)
  | remaining + 1, i =>
      let byte := state.bitmapAt i
      let state := state.touchBitmap i
      if byte = 255 then
        scanBitmap state remaining (i + 1)
      else
        match clearBit byte 8 0 with
        | some j => (state, some (i, j))
        | none => scanBitmap state remaining (i + 1)

/-- `create_fd`, with the descriptor it returns. -/
def createFd (state : FdState) (file : File) : FdState × Int :=
  match scanBitmap state fdBitmapSize 0 with
  | (state, none) => (state, -1)
  | (state, some (i, j)) =>
      let state := state.setBitmap i (state.bitmapAt i ||| 1 <<< UInt8.ofNat j)
      let fd := j + i * 8
      let state := state.setFile fd file
      (state.setFileField fd File.flagsField 1, fd)

/-- `delete_fd`.  Its only caller has rejected negative descriptors. -/
def deleteFd (state : FdState) (fd : Nat) : FdState :=
  let state := state.setBitmap (fd / 8)
    (state.bitmapAt (fd / 8) &&& ~~~(1 <<< UInt8.ofNat (fd % 8)))
  let state := state.setFileField fd File.fileIdField 0
  let state := state.setFileField fd File.indexField 0
  state.setFileField fd File.flagsField 0

end PellOs
