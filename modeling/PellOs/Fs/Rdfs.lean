import PellOs.Fs.Fd

/-!
# The ram disk file system

`rdfs.c` on byte memory.  A mounted image is a header, an array of entries indexed by file id, and
the data of all files; the data of a directory is the list of the ids in it.  A path is resolved one
component at a time, and each step takes the data of the node reached so far as such a list.

Blocks that `kmalloc` returns are fresh and used by one call only, so their contents are kept as
values, and every address can be read.  `answer` is the pointer that each call of `kmalloc` returns,
zero when it fails, and the functions keep the list of blocks not yet freed.  They also list the
indices that they use on `first_file`.

`PellOs.Fs.LookupMemory` has the lookup with its blocks in the heap, where the copy of an empty
component stores a whole word and an index can lead to an address that is not mapped.  The two agree
on paths through directories (`rdfsFileGetIdFromPath_refines`).
-/

namespace PellOs

/-! ## Strings -/

/-- Byte `index` of the string at an address. -/
def charAt (memory : Memory) (string index : Nat) : UInt8 := memory ((string + index) % wordSize)

private theorem stored_charAt_from {memory : Memory} {string : Nat} {bytes : List UInt8}
    {index : Nat}
    (stored : memory.Stored (string + index) bytes)
    (fits : string + index + bytes.length ≤ wordSize) :
    Memory.Stored (charAt memory string) index bytes := by
  induction bytes generalizing index with
  | nil => trivial
  | cons byte bytes ih =>
      rw [List.length_cons] at fits
      refine ⟨?_, ih stored.2 (by omega)⟩
      rw [charAt, Nat.mod_eq_of_lt (by omega)]
      exact stored.1

theorem stored_charAt {memory : Memory} {string : Nat} {bytes : List UInt8}
    (stored : memory.Stored string bytes) (fits : string + bytes.length ≤ wordSize) :
    Memory.Stored (charAt memory string) 0 bytes :=
  stored_charAt_from stored fits

/-- `strcmp` from byte `index` on, where the second string is given by its bytes. -/
def strcmp (left : Nat → UInt8) : List UInt8 → Nat → Int
  | [], index => (left index).toNat
  | byte :: rest, index =>
      if left index = 0 ∨ byte = 0 then (left index).toNat - byte.toNat
      else if left index = byte then strcmp left rest (index + 1)
      else (left index).toNat - byte.toNat

/-- The separator of path components. -/
def slash : UInt8 := 47

/-! ## Images -/

/-- `RDFS_MAGIC_NUMBER`. -/
def rdfsMagicNumber : Nat := 0x7DF5

/-- `RDFS_FILE_TYPE_DIR`. -/
def rdfsFileTypeDir : Nat := 1

/-- `RDFS_FILE_TYPE_FILE`. -/
def rdfsFileTypeFile : Nat := 2

/-- `RDFS_FILE_NAME_SIZE`. -/
def rdfsFileNameSize : Nat := 71

namespace PartitionHeader

/-- `magic_number`. -/
def magicNumber : Field := ⟨0, 2⟩

/-- `file_directory_size`. -/
def fileDirectorySize : Field := ⟨80, 8⟩

/-- `sizeof(rdfs_partition_header_t)`. -/
def size : Nat := 96

end PartitionHeader

namespace FileDirEntry

/-- `file_id`. -/
def fileId : Field := ⟨0, 8⟩

/-- `file_type`. -/
def fileType : Field := ⟨8, 1⟩

/-- Offset of `filename`. -/
def filename : Nat := 9

/-- `data_block_offset`. -/
def dataBlockOffset : Field := ⟨80, 8⟩

/-- `data_entry_size`. -/
def dataEntrySize : Field := ⟨88, 8⟩

/-- `sizeof(rdfs_file_dir_entry_t)`. -/
def size : Nat := 96

end FileDirEntry

/-- The static variables of `rdfs.c`. -/
structure Rdfs where
  rdfsStart : Nat
  firstFile : Nat
  numFiles : Nat

/-- `rdfs_init`. -/
def rdfsInit (memory : Memory) (disk : Rdfs) (initialOffset : Nat) : Rdfs × Int :=
  if initialOffset = 0 then
    (disk, -1)
  else
    let disk := { disk with rdfsStart := initialOffset }
    if PartitionHeader.magicNumber.get memory disk.rdfsStart ≠ rdfsMagicNumber then
      (disk, -1)
    else
      ({ disk with
        firstFile := (disk.rdfsStart + PartitionHeader.size) % wordSize
        numFiles := PartitionHeader.fileDirectorySize.get memory disk.rdfsStart /
          FileDirEntry.size }, 0)

namespace Rdfs

variable (memory : Memory) (disk : Rdfs)

/-- `&first_file[id]`. -/
def entry (disk : Rdfs) (id : Nat) : Nat := (disk.firstFile + FileDirEntry.size * id) % wordSize

/-- `first_file[id].filename`, byte by byte. -/
def filenameAt (id : Nat) : Nat → UInt8 := charAt memory (disk.entry id + FileDirEntry.filename)

/-- `DATA_LOCATION(&first_file[id])`. -/
def dataLocation (id : Nat) : Nat :=
  (disk.rdfsStart + PartitionHeader.fileDirectorySize.get memory disk.rdfsStart +
    FileDirEntry.dataBlockOffset.get memory (disk.entry id) + PartitionHeader.size) % wordSize

/-- `first_file[id].data_entry_size`. -/
def entrySize (id : Nat) : Nat := FileDirEntry.dataEntrySize.get memory (disk.entry id)

/-- The words that `rdfs_get_file_list_from_dir_id` copies from the data of a node. -/
def idList (id : Nat) : List Nat :=
  (List.range (disk.entrySize memory id / 8)).map fun i =>
    memory.read ((disk.dataLocation memory id + 8 * i) % wordSize) 8

end Rdfs

/-! ## Lookup -/

/-- Calls of `kmalloc` so far, blocks not freed yet, and indices used on `first_file`, latest
first. -/
structure RdfsState where
  calls : Nat
  live : List Nat
  indices : List Nat

namespace RdfsState

/-- `kmalloc`. -/
def kmalloc (answer : Nat → Nat) (state : RdfsState) : RdfsState × Nat :=
  let block := answer state.calls
  ({ state with
    calls := state.calls + 1
    live := if block = 0 then state.live else block :: state.live }, block)

/-- `kfree`. -/
def kfree (state : RdfsState) (block : Nat) : RdfsState :=
  { state with live := state.live.erase block }

/-- Note an index used on `first_file`. -/
def use (state : RdfsState) (id : Nat) : RdfsState :=
  { state with indices := id :: state.indices }

end RdfsState

/-- How a lookup ends: with an id, with `-1`, or not at all. -/
inductive Lookup
  | found (id : Nat)
  | missing
  | stuck
  deriving DecidableEq, Repr

/-- `rdfs_get_file_list_from_dir_id`: the block and the list stored in it.  The stores go through
the pointer before it is compared with zero, so with a null pointer only an empty list returns. -/
def rdfsGetFileListFromDirId (answer : Nat → Nat) (memory : Memory) (disk : Rdfs)
    (state : RdfsState) (currDirId : Nat) : RdfsState × Option (Nat × List Nat) :=
  let state := state.use currDirId
  let (state, fileList) := state.kmalloc answer
  let ids := disk.idList memory currDirId
  if fileList = 0 ∧ ids ≠ [] then (state, none) else (state, some (fileList, ids))

/-- `rdfs_get_file_id_from_list_and_name`. -/
def rdfsGetFileIdFromListAndName (memory : Memory) (disk : Rdfs) (filename : List UInt8) :
    RdfsState → List Nat → RdfsState × Option Nat
  | state, [] => (state, none)
  | state, id :: rest =>
      let state := state.use id
      if strcmp (disk.filenameAt memory id) filename 0 = 0 then
        (state, some id)
      else
        rdfsGetFileIdFromListAndName memory disk filename state rest

/-- The loop that measures the component at `start` with the 16-bit counter `i`.  A component of
`2 ^ 16` bytes or more brings the counter back to zero, and the loop never ends. -/
def componentLength (path : Nat → UInt8) (start : Nat) : Nat → Nat → Option Nat
  | 0, _ => none
  | remaining + 1, i =>
      if path (start + i) ≠ slash ∧ path (start + i) ≠ 0 then
        componentLength path start remaining (i + 1)
      else
        some i

/-- The loop of `rdfs_file_get_id_from_path` over the components of a path, given byte by byte.  The
copy of a component is a value; `KernelHeap.lookupFrom` stores it. -/
def lookupFrom (answer : Nat → Nat) (memory : Memory) (disk : Rdfs) (path : Nat → UInt8) :
    Nat → RdfsState → Nat → Nat → RdfsState × Lookup
  | 0, state, _, _ => (state, .stuck)
  | fuel + 1, state, pathToParse, currentDirId =>
      if path pathToParse = 0 then
        (state, .found currentDirId)
      else
        match componentLength path pathToParse (2 ^ 16) 0 with
        | none => (state, .stuck)
        | some i =>
            let (state, nextFilename) := state.kmalloc answer
            if nextFilename = 0 then
              (state, .stuck)
            else
              let filename := (List.range i).map fun k => path (pathToParse + k)
              let pathToParse :=
                if path (pathToParse + i) = slash then pathToParse + (i + 1) else pathToParse + i
              match rdfsGetFileListFromDirId answer memory disk state currentDirId with
              | (state, none) => (state, .stuck)
              | (state, some (fileIdList, ids)) =>
                  if fileIdList = 0 then
                    (state, .missing)
                  else
                    match rdfsGetFileIdFromListAndName memory disk filename state ids with
                    | (state, none) => (state, .missing)
                    | (state, some id) =>
                        lookupFrom answer memory disk path fuel
                          ((state.kfree fileIdList).kfree nextFilename) pathToParse id

/-- `rdfs_file_get_id_from_path`. -/
def rdfsFileGetIdFromPath (answer : Nat → Nat) (fuel : Nat) (memory : Memory) (disk : Rdfs)
    (state : RdfsState) (path : Nat → UInt8) : RdfsState × Lookup :=
  lookupFrom answer memory disk path fuel state 1 0

/-! ## Files -/

/-- `stat_t`. -/
structure Stat where
  stMode : Nat
  stSize : Nat
  deriving DecidableEq, Repr

/-- `S_IFDIR`. -/
def sIfdir : Nat := 1 <<< 32

/-- `S_IFREG`. -/
def sIfreg : Nat := 2 <<< 32

/-- `rdfs_getattr`; `none` stands for `-1` and for a lookup that does not end. -/
def rdfsGetattr (answer : Nat → Nat) (fuel : Nat) (memory : Memory) (disk : Rdfs)
    (state : RdfsState) (path : Nat → UInt8) (st : Stat) : RdfsState × Option Stat :=
  match rdfsFileGetIdFromPath answer fuel memory disk state path with
  | (state, .found id) =>
      let state := state.use id
      let fileType := FileDirEntry.fileType.get memory (disk.entry id)
      let stMode :=
        if fileType = rdfsFileTypeDir then sIfdir
        else if fileType = rdfsFileTypeFile then sIfreg
        else st.stMode
      (state, some ⟨stMode, disk.entrySize memory id⟩)
  | (state, _) => (state, none)

/-- `rdfs_id_isDir`. -/
def rdfsIdIsDir (memory : Memory) (disk : Rdfs) (id : Nat) : Bool :=
  decide (FileDirEntry.fileType.get memory (disk.entry id) = rdfsFileTypeDir)

/-- `rdfs_readdir`, with the ids in the list it returns; `none` stands for a null pointer and for a
call that does not end. -/
def rdfsReaddir (answer : Nat → Nat) (fuel : Nat) (memory : Memory) (disk : Rdfs)
    (state : RdfsState) (path : Nat → UInt8) : RdfsState × Option (List Nat) :=
  match rdfsFileGetIdFromPath answer fuel memory disk state path with
  | (state, .found id) =>
      let state := state.use id
      if rdfsIdIsDir memory disk id then
        match rdfsGetFileListFromDirId answer memory disk state id with
        | (state, some (fileList, ids)) => (state, if fileList = 0 then none else some ids)
        | (state, none) => (state, none)
      else
        (state, none)
  | (state, _) => (state, none)

/-- `rdfs_open_file_id`. -/
def rdfsOpenFileId (fileId flags : Nat) : File := ⟨UInt64.ofNat fileId, 0, UInt64.ofNat flags⟩

/-- How `rdfs_open_file` ends. -/
inductive OpenResult
  | opened (file : File)
  | failed
  | stuck

/-- `rdfs_open_file`. -/
def rdfsOpenFile (answer : Nat → Nat) (fuel : Nat) (memory : Memory) (disk : Rdfs)
    (state : RdfsState) (path : Nat → UInt8) (flags : Nat) : RdfsState × OpenResult :=
  match rdfsFileGetIdFromPath answer fuel memory disk state path with
  | (state, .found id) => (state, .opened (rdfsOpenFileId id flags))
  | (state, .missing) => (state, .failed)
  | (state, .stuck) => (state, .stuck)

/-- `rdfs_read_file`: memory, the file with its new index, and the number of bytes read. -/
def rdfsReadFile (memory : Memory) (disk : Rdfs) (file : File) (buf size : Nat) :
    Memory × File × Nat :=
  let id := file.fileId.toNat
  let totalRemaining := (disk.entrySize memory id + (wordSize - file.index.toNat)) % wordSize
  if totalRemaining = 0 then
    (memory, file, 0)
  else
    let size := if size > totalRemaining then totalRemaining else size
    (memcpy memory buf ((disk.dataLocation memory id + file.index.toNat) % wordSize) size,
      { file with index := file.index + UInt64.ofNat size }, size)

end PellOs
