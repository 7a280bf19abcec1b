import PellOs.Fs.FdTable
import PellOs.Fs.Rdfs

/-!
# Opening, reading and closing files

`open.c`, `read.c` and the file calls of `syscalls.c`.  A path is `/dev/timer` or a path of the ram
disk; the timer is the file with id 255.
-/

namespace PellOs

/-! ## Opening and closing -/

/-- The descriptor table of the current task with the state of the heap. -/
structure Vfs where
  fd : FdState
  rdfs : RdfsState

/-- `init_fd_table`.  Clearing through a null pointer does not return. -/
def initFdTable (answer : Nat → Nat) (vfs : Vfs) : Option Vfs :=
  if vfs.fd.file ≠ 0 then
    some vfs
  else
    let task := vfs.fd.task
    let (rdfs, bitmap) := vfs.rdfs.kmalloc answer
    let memory := Task.fdTableBitmap.set vfs.fd.memory task bitmap
    if bitmap = 0 then
      none
    else
      let memory := memzeroU8 memory bitmap fdBitmapSize
      let (rdfs, file) := rdfs.kmalloc answer
      let memory := Task.fdTableFile.set memory task file
      if file = 0 then
        none
      else
        -- the size is that of a pointer times the number of entries
        let memory := memzeroU8 memory file (8 * fileDescTableInitSize)
        some ⟨{ vfs.fd with memory }, rdfs⟩

/-- `"/dev/timer"`. -/
def devTimer : List UInt8 := [47, 100, 101, 118, 47, 116, 105, 109, 101, 114]

/-- The file id that stands for the timer. -/
def timerFileId : UInt64 := 255

/-- `vfs_open` with a table in place; `none` when it does not return. -/
def vfsOpenReady (answer : Nat → Nat) (fuel : Nat) (disk : Rdfs) (vfs : Vfs) (path flags : Nat) :
    Option (Vfs × Int) :=
  if strcmp (charAt vfs.fd.memory path) devTimer 0 = 0 then
    let (fd, result) := createFd vfs.fd ⟨timerFileId, 0, 0⟩
    some (⟨fd, vfs.rdfs⟩, result)
  else
    match rdfsOpenFile answer fuel vfs.fd.memory disk vfs.rdfs
      (charAt vfs.fd.memory path) flags with
    | (_, .stuck) => none
    | (rdfs, .failed) => some (⟨vfs.fd, rdfs⟩, 0)
    | (rdfs, .opened file) =>
        let (fd, result) := createFd vfs.fd file
        some (⟨fd, rdfs⟩, result)

/-- `vfs_open`, with the descriptor it returns; `none` when it does not return. -/
def vfsOpen (answer : Nat → Nat) (fuel : Nat) (disk : Rdfs) (vfs : Vfs) (path flags : Nat) :
    Option (Vfs × Int) :=
  (initFdTable answer vfs).bind fun vfs => vfsOpenReady answer fuel disk vfs path flags

/-- `vfs_close`. -/
def vfsClose (state : FdState) (fd : Nat) : FdState := deleteFd state fd

/-! ## Reading -/

/-- `memcpy` from a local variable with the given bytes. -/
def copyOut (memory : Memory) : Nat → List UInt8 → Memory
  | _, [] => memory
  | buf, byte :: rest => copyOut (memory.writeByte buf byte) ((buf + 1) % wordSize) rest

/-- Bytes of a 32-bit timer value. -/
def timerBytes (timerVal : Nat) : List UInt8 :=
  (List.range 4).map fun i => UInt8.ofNat (timerVal / 256 ^ i)

/-- `vfs_read`, where `timerVal` is what `get_timer_val` returns.  The file is a copy of the
entry, and the new index is lost with it. -/
def vfsRead (disk : Rdfs) (timerVal : Nat) (state : FdState) (fd : Int) (buf size : Nat) :
    FdState × Int :=
  match getFileFromFd state fd with
  | (state, none) => (state, -1)
  | (state, some file) =>
      if file.fileId = timerFileId then
        ({ state with memory := copyOut state.memory buf (timerBytes timerVal) }, 4)
      else
        let (memory, _, count) := rdfsReadFile state.memory disk file buf size
        ({ state with memory }, count)

/-! ## System calls -/

/-- `syscall_read`. -/
def syscallRead (disk : Rdfs) (timerVal : Nat) (state : FdState) (fd : Int) (buf size : Nat) :
    FdState × Int :=
  match isValidFd state fd with
  | (state, false) => (state, -1)
  | (state, true) => if buf = 0 then (state, -1) else vfsRead disk timerVal state fd buf size

/-- `syscall_open`. -/
def syscallOpen (answer : Nat → Nat) (fuel : Nat) (disk : Rdfs) (vfs : Vfs) (path flags : Nat) :
    Option (Vfs × Int) :=
  if path = 0 then some (vfs, -1) else vfsOpen answer fuel disk vfs path flags

/-- `syscall_close`. -/
def syscallClose (state : FdState) (fd : Int) : FdState :=
  if fd < 0 then state else vfsClose state fd.toNat

end PellOs
