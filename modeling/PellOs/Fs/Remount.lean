import PellOs.Fs.RoundTrip

/-!
# A second mount

`rdfs_init` stores its argument in `rdfs_start` before it looks at the header there, so a call that
is rejected has already moved the data of the image mounted before.
-/

namespace PellOs

/-! ## Calls on a mounted image -/

/-- A lookup or a read.  Files are counted from the one opened last. -/
inductive RdfsCall
  | getId (path : Nat → UInt8)
  | getattr (path : Nat → UInt8) (st : Stat)
  | readdir (path : Nat → UInt8)
  | openFile (path : Nat → UInt8) (flags : Nat)
  | readFile (file buf size : Nat)

/-- What a call returns; a read also delivers bytes. -/
inductive RdfsResult
  | lookup (result : Lookup)
  | stat (st : Option Stat)
  | list (ids : Option (List Nat))
  | opened (result : OpenResult)
  | bytes (delivered : List UInt8)

/-- Memory, the state of lookups and the open files. -/
structure RdfsSession where
  memory : Memory
  state : RdfsState
  files : List File

namespace RdfsSession

variable (answer : Nat → Nat) (fuel : Nat) (disk : Rdfs)

/-- One call. -/
def call (session : RdfsSession) : RdfsCall → RdfsSession × RdfsResult
  | .getId path =>
      let (state, result) := rdfsFileGetIdFromPath answer fuel session.memory disk
        session.state path
      ({ session with state }, .lookup result)
  | .getattr path st =>
      let (state, result) := rdfsGetattr answer fuel session.memory disk session.state path st
      ({ session with state }, .stat result)
  | .readdir path =>
      let (state, result) := rdfsReaddir answer fuel session.memory disk session.state path
      ({ session with state }, .list result)
  | .openFile path flags =>
      match rdfsOpenFile answer fuel session.memory disk session.state path flags with
      | (state, .opened file) =>
          ({ session with state, files := file :: session.files }, .opened (.opened file))
      | (state, result) => ({ session with state }, .opened result)
  | .readFile number buf size =>
      match session.files[number]? with
      | none => (session, .bytes [])
      | some file =>
          let (memory, file, count) := rdfsReadFile session.memory disk file buf size
          ({ session with memory, files := session.files.set number file },
            .bytes (memory.bytes buf count))

/-- What the calls return. -/
def results : RdfsSession → List RdfsCall → List RdfsResult
  | _, [] => []
  | session, call :: rest =>
      (session.call answer fuel disk call).2 ::
        results (session.call answer fuel disk call).1 rest

end RdfsSession

/-- A file that `rdfs_open_file` may have opened and `rdfs_read_file` have moved. -/
def FileOpen (memory : Memory) (disk : Rdfs) (file : File) : Prop :=
  file.fileId.toNat < disk.numFiles ∧
    file.index.toNat ≤ disk.entrySize memory file.fileId.toNat

/-- Whatever is called later returns what it would have returned without the call of
`rdfs_init`. -/
def MountIntact (memory : Memory) (disk : Rdfs) (initialOffset : Nat) : Prop :=
  ∀ answer fuel state files calls, (∀ file ∈ files, FileOpen memory disk file) →
    RdfsSession.results answer fuel (rdfsInit memory disk initialOffset).1 ⟨memory, state, files⟩
        calls =
      RdfsSession.results answer fuel disk ⟨memory, state, files⟩ calls

/-! ## Two disks that nothing tells apart -/

/-- No sequence of calls tells the two disks apart. -/
def SameResults (answer : Nat → Nat) (fuel : Nat) (disk other : Rdfs) (session : RdfsSession) :
    Prop :=
  ∀ calls, session.results answer fuel disk calls = session.results answer fuel other calls

section Observation

variable {answer : Nat → Nat} {fuel : Nat} {disk other : Rdfs} {session : RdfsSession}

theorem SameResults.call (same : SameResults answer fuel disk other session) (call : RdfsCall) :
    (session.call answer fuel disk call).2 = (session.call answer fuel other call).2 ∧
      ((session.call answer fuel disk call).1 = (session.call answer fuel other call).1 →
        SameResults answer fuel disk other (session.call answer fuel disk call).1) := by
  have all := fun rest => same (call :: rest)
  simp only [RdfsSession.results, List.cons.injEq] at all
  refine ⟨(all []).1, fun next rest => ?_⟩
  rw [(all rest).2, next]

private theorem openRoot (answer : Nat → Nat) (fuel : Nat) (disk : Rdfs) (session : RdfsSession) :
    session.call answer (fuel + 1) disk (.openFile (pathBytes []) 0) =
      ({ session with files := rdfsOpenFileId 0 0 :: session.files },
        .opened (.opened (rdfsOpenFileId 0 0))) := by
  have root : rdfsOpenFile answer (fuel + 1) session.memory disk session.state (pathBytes []) 0 =
      (session.state, .opened (rdfsOpenFileId 0 0)) := by
    rw [rdfsOpenFile, rdfsFileGetIdFromPath, lookupFrom, if_pos (by rfl)]
  rw [RdfsSession.call, root]

private theorem rdfsReadFile_byte {memory : Memory} {file : File} (buf : Nat)
    (inside : file.index.toNat < disk.entrySize memory file.fileId.toNat) :
    rdfsReadFile memory disk file buf 1 =
      (memory.writeByte buf
          (memory ((disk.dataLocation memory file.fileId.toNat + file.index.toNat) % wordSize)),
        { file with index := file.index + 1 }, 1) := by
  have small : disk.entrySize memory file.fileId.toNat < wordSize :=
    (memory.read_lt _ 8).trans_eq wordSize_eq_pow.symm
  have remaining : (disk.entrySize memory file.fileId.toNat + (wordSize - file.index.toNat)) %
      wordSize = disk.entrySize memory file.fileId.toNat - file.index.toNat := by
    rw [show disk.entrySize memory file.fileId.toNat + (wordSize - file.index.toNat) =
      (disk.entrySize memory file.fileId.toNat - file.index.toNat) + wordSize by omega,
      Nat.add_mod_right, Nat.mod_eq_of_lt (by omega)]
  rw [rdfsReadFile, remaining, if_neg (by omega), if_neg (by omega)]
  dsimp only
  rw [memcpy_eq_memcpyU8 _ _ _ Nat.one_pos (by decide), memcpyU8,
    if_neg (by simp [gtAfterSubs])]
  rfl

private theorem writeByte_self (memory : Memory) (address : Nat) :
    memory.writeByte address (memory address) = memory := by
  funext target
  by_cases same : target = address
  · rw [same, Memory.writeByte_same]
  · exact Memory.writeByte_of_ne _ same

/-- In some session with this memory nothing tells the two disks apart. -/
def SameMemory (answer : Nat → Nat) (fuel : Nat) (disk other : Rdfs) (memory : Memory) : Prop :=
  ∃ state files, SameResults answer fuel disk other ⟨memory, state, files⟩

theorem SameMemory.symm {memory : Memory} (same : SameMemory answer fuel disk other memory) :
    SameMemory answer fuel other disk memory := by
  obtain ⟨state, files, results⟩ := same
  exact ⟨state, files, fun calls => (results calls).symm⟩

variable {memory : Memory}

theorem Rdfs.entry_congr (first : other.firstFile = disk.firstFile) (id : Nat) :
    other.entry id = disk.entry id := by
  rw [Rdfs.entry, Rdfs.entry, first]

theorem Rdfs.entrySize_congr (first : other.firstFile = disk.firstFile) (memory : Memory)
    (id : Nat) : other.entrySize memory id = disk.entrySize memory id := by
  rw [Rdfs.entrySize, Rdfs.entrySize, Rdfs.entry_congr first]

/-- Reading a byte of the root finds the same byte at both places and stores it anywhere. -/
private theorem SameResults.readRoot (first : other.firstFile = disk.firstFile) {state : RdfsState}
    {file : File} {files : List File}
    (same : SameResults answer fuel disk other ⟨memory, state, file :: files⟩)
    (root : file.fileId.toNat = 0) (inside : file.index.toNat < disk.entrySize memory 0)
    (buf : Nat) :
    memory ((disk.dataLocation memory 0 + file.index.toNat) % wordSize) =
        memory ((other.dataLocation memory 0 + file.index.toNat) % wordSize) ∧
      SameResults answer fuel disk other
        ⟨memory.writeByte buf
          (memory ((disk.dataLocation memory 0 + file.index.toNat) % wordSize)), state,
          { file with index := file.index + 1 } :: files⟩ := by
  have size := Rdfs.entrySize_congr first memory 0
  have read := @rdfsReadFile_byte disk memory file buf (by rw [root]; exact inside)
  have other_read := @rdfsReadFile_byte other memory file buf (by rw [root, size]; exact inside)
  rw [root] at read other_read
  obtain ⟨result, next⟩ := same.call (.readFile 0 buf 1)
  simp only [RdfsSession.call, List.getElem?_cons_zero, read, other_read, List.set_cons_zero]
    at result next
  simp only [Memory.bytes, Memory.writeByte_same, RdfsResult.bytes.injEq, List.cons.injEq,
    and_true] at result
  exact ⟨result, next (by rw [result])⟩

/-- A read can be made from any byte of the root. -/
private theorem SameMemory.seek (first : other.firstFile = disk.firstFile)
    (same : SameMemory answer (fuel + 1) disk other memory) {index : Nat}
    (inside : index ≤ disk.entrySize memory 0) :
    ∃ state files, SameResults answer (fuel + 1) disk other
      ⟨memory, state, ⟨0, UInt64.ofNat index, 0⟩ :: files⟩ := by
  have small : disk.entrySize memory 0 < wordSize :=
    (memory.read_lt _ 8).trans_eq wordSize_eq_pow.symm
  induction index with
  | zero =>
      obtain ⟨state, files, results⟩ := same
      have opened := (results.call (.openFile (pathBytes []) 0)).2
      rw [openRoot, openRoot] at opened
      exact ⟨state, files, opened rfl⟩
  | succ index ih =>
      obtain ⟨state, files, results⟩ := ih (by omega)
      have value : (UInt64.ofNat index).toNat = index := by
        rw [UInt64.toNat_ofNat', Nat.mod_eq_of_lt (by simp only [wordSize] at small; omega)]
      -- storing the byte where it stands changes nothing
      have next := (results.readRoot first rfl (by dsimp only; omega)
        ((disk.dataLocation memory 0 + index) % wordSize)).2
      rw [value, writeByte_self] at next
      refine ⟨state, files, ?_⟩
      rw [UInt64.ofNat_add]
      exact next

theorem SameMemory.bytes (first : other.firstFile = disk.firstFile)
    (same : SameMemory answer (fuel + 1) disk other memory) {index : Nat}
    (inside : index < disk.entrySize memory 0) :
    memory ((disk.dataLocation memory 0 + index) % wordSize) =
        memory ((other.dataLocation memory 0 + index) % wordSize) ∧
      ∀ buf, SameMemory answer (fuel + 1) disk other
        (memory.writeByte buf (memory ((disk.dataLocation memory 0 + index) % wordSize))) := by
  have small : disk.entrySize memory 0 < wordSize :=
    (memory.read_lt _ 8).trans_eq wordSize_eq_pow.symm
  obtain ⟨state, files, results⟩ := same.seek first (Nat.le_of_lt inside)
  have value : (UInt64.ofNat index).toNat = index := by
    rw [UInt64.toNat_ofNat', Nat.mod_eq_of_lt (by simp only [wordSize] at small; omega)]
  have read := results.readRoot first rfl (by dsimp only; omega)
  dsimp only at read
  rw [value] at read
  exact ⟨(read 0).1, fun buf => ⟨state, _, (read buf).2⟩⟩

/-- Overwriting the byte leaves both places of the root's data. -/
def LeavesPlaces (disk other : Rdfs) (memory : Memory) (address : Nat) : Prop :=
  ∀ byte, disk.dataLocation (memory.writeByte address byte) 0 = disk.dataLocation memory 0 ∧
    other.dataLocation (memory.writeByte address byte) 0 = other.dataLocation memory 0 ∧
    disk.entrySize (memory.writeByte address byte) 0 = disk.entrySize memory 0

/-- A byte seen through one of the disks only can be overwritten with another byte of the root. -/
theorem SameMemory.clash (first : other.firstFile = disk.firstFile)
    (same : SameMemory answer (fuel + 1) disk other memory) {address seen taken : Nat}
    (leaves : LeavesPlaces disk other memory address)
    (seen_lt : seen < disk.entrySize memory 0) (taken_lt : taken < disk.entrySize memory 0)
    (once : (disk.dataLocation memory 0 + seen) % wordSize = address ↔
      (other.dataLocation memory 0 + seen) % wordSize ≠ address)
    (differ : memory ((disk.dataLocation memory 0 + taken) % wordSize) ≠
      memory ((disk.dataLocation memory 0 + seen) % wordSize)) : False := by
  have before := (same.bytes first seen_lt).1
  have overwritten := (same.bytes first taken_lt).2 address
  generalize memory ((disk.dataLocation memory 0 + taken) % wordSize) = byte at differ overwritten
  obtain ⟨place, other_place, size⟩ := leaves byte
  have after := (overwritten.bytes first (by rw [size]; exact seen_lt)).1
  rw [place, other_place] at after
  by_cases here : (disk.dataLocation memory 0 + seen) % wordSize = address
  · rw [here, Memory.writeByte_same, Memory.writeByte_of_ne _ (once.mp here), ← before,
      here] at after
    exact differ (by rw [here]; exact after)
  · have there := not_not.mp (mt once.mpr here)
    rw [Memory.writeByte_of_ne _ here, there, Memory.writeByte_same] at after
    exact differ after.symm

end Observation

/-! ## Moved data -/

/-- Where `rdfs_start->file_directory_size` is read. -/
def sizeWord (disk : Rdfs) : Nat :=
  (disk.rdfsStart + PartitionHeader.fileDirectorySize.offset) % wordSize

/-- The address does not belong to a word. -/
def OutsideWord (address word : Nat) : Prop := address < word ∨ word + 8 ≤ address

/-- `rdfs_start->file_directory_size`. -/
def directorySize (memory : Memory) (disk : Rdfs) : Nat :=
  PartitionHeader.fileDirectorySize.get memory disk.rdfsStart

section Moved

variable {answer : Nat → Nat} {fuel : Nat} {disk other : Rdfs} {memory : Memory}

theorem directorySize_writeByte {address : Nat} (outside : OutsideWord address (sizeWord disk))
    (byte : UInt8) :
    directorySize (memory.writeByte address byte) disk = directorySize memory disk :=
  Memory.read_congr (Memory.agreeOn_writeByte memory outside)

theorem directorySize_ne {address : Nat} {byte : UInt8} (lower : sizeWord disk ≤ address)
    (upper : address < sizeWord disk + 8) (differ : byte ≠ memory address) :
    directorySize (memory.writeByte address byte) disk ≠ directorySize memory disk := by
  intro same
  have agree := Memory.agreeOn_of_read_eq same
  rw [← Memory.writeByte_same memory address byte] at differ
  exact differ (agree address lower upper)

theorem directorySize_lt (memory : Memory) (disk : Rdfs) : directorySize memory disk < wordSize :=
  (memory.read_lt _ 8).trans_eq wordSize_eq_pow.symm

/-- The root's data on a disk whose entry of the root starts the data directory. -/
structure RootEntry (memory : Memory) (disk : Rdfs) : Prop where
  fits : disk.entry 0 + FileDirEntry.size ≤ wordSize
  offset : FileDirEntry.dataBlockOffset.get memory (disk.entry 0) = 0
  size : 8 ≤ disk.entrySize memory 0

namespace RootEntry

theorem dataLocation_eq (root : RootEntry memory disk) : disk.dataLocation memory 0 =
    (disk.rdfsStart + directorySize memory disk + PartitionHeader.size) % wordSize := by
  rw [Rdfs.dataLocation, root.offset, Nat.add_zero, directorySize]

theorem writeByte (root : RootEntry memory disk) {address : Nat}
    (outside : address < disk.entry 0 + 80 ∨ disk.entry 0 + 96 ≤ address) (byte : UInt8) :
    RootEntry (memory.writeByte address byte) disk ∧
      disk.entrySize (memory.writeByte address byte) 0 = disk.entrySize memory 0 := by
  have fits := root.fits
  simp only [FileDirEntry.size] at fits
  have agree : ∀ field : Field, 80 ≤ field.offset → field.offset + field.width ≤ 96 →
      field.offset < 96 →
      field.get (memory.writeByte address byte) (disk.entry 0) = field.get memory (disk.entry 0) :=
    fun field low high inside =>
      Field.get_congr (by omega) (Memory.agreeOn_writeByte memory (by omega))
  have size := agree FileDirEntry.dataEntrySize (by decide) (by decide) (by decide)
  have offset := agree FileDirEntry.dataBlockOffset (by decide) (by decide) (by decide)
  exact ⟨⟨root.fits, offset.trans root.offset, root.size.trans_eq size.symm⟩, size⟩

theorem congr (root : RootEntry memory disk) (first : other.firstFile = disk.firstFile) :
    RootEntry memory other := by
  have same := Rdfs.entry_congr first 0
  have size := Rdfs.entrySize_congr first memory 0
  exact ⟨by rw [same]; exact root.fits, by rw [same]; exact root.offset,
    by rw [size]; exact root.size⟩

theorem leavesPlaces (root : RootEntry memory disk) (first : other.firstFile = disk.firstFile)
    {address : Nat} (outside : address < disk.entry 0 + 80 ∨ disk.entry 0 + 96 ≤ address)
    (header : OutsideWord address (sizeWord disk))
    (other_header : OutsideWord address (sizeWord other)) :
    LeavesPlaces disk other memory address := by
  intro byte
  obtain ⟨after, size⟩ := root.writeByte outside byte
  have other_root := root.congr first
  have other_after := after.congr first
  refine ⟨?_, ?_, size⟩
  · rw [after.dataLocation_eq, root.dataLocation_eq, directorySize_writeByte header]
  · rw [other_after.dataLocation_eq, other_root.dataLocation_eq,
      directorySize_writeByte other_header]

end RootEntry

/-- The first id of a directory, a one followed by zeros. -/
structure FirstId (memory : Memory) (place : Nat) : Prop where
  one : memory place = 1
  zero : ∀ index, 0 < index → index < 8 → memory (place + index) = 0

theorem FirstId.writeByte {place address : Nat} (id : FirstId memory place)
    (outside : OutsideWord address place) (byte : UInt8) :
    FirstId (memory.writeByte address byte) place := by
  have kept : ∀ index < 8,
      memory.writeByte address byte (place + index) = memory (place + index) :=
    fun index bound => Memory.writeByte_of_ne _ (by
      rcases outside with below | behind
      · omega
      · omega)
  exact ⟨(kept 0 (by decide)).trans id.one,
    fun index positive bound => (kept index bound).trans (id.zero index positive bound)⟩

/-- One of the first two bytes of the id differs from a given byte. -/
theorem FirstId.differing {place : Nat} (id : FirstId memory place) (byte : UInt8) :
    ∃ taken < 8, memory (place + taken) ≠ byte := by
  by_cases one : byte = 1
  · refine ⟨1, by decide, ?_⟩
    rw [one, id.zero 1 (by decide) (by decide)]
    decide
  · refine ⟨0, by decide, ?_⟩
    rw [Nat.add_zero, id.one]
    exact fun same => one same.symm

/-- The data of the root are seen at their place through one disk and elsewhere through the
other. -/
theorem SameMemory.clash_place (first : other.firstFile = disk.firstFile)
    (same : SameMemory answer (fuel + 1) disk other memory) (root : RootEntry memory disk)
    {place : Nat} (id : FirstId memory place) (fits : place + 8 ≤ wordSize)
    (behind : disk.entry 0 + 96 ≤ place) (here : disk.dataLocation memory 0 = place)
    (elsewhere : other.dataLocation memory 0 ≠ place) {index : Nat} (inside : index < 8)
    (header : OutsideWord (place + index) (sizeWord disk))
    (other_header : OutsideWord (place + index) (sizeWord other)) : False := by
  have size := root.size
  have small : other.dataLocation memory 0 < wordSize := Nat.mod_lt _ (by decide)
  obtain ⟨taken, taken_lt, differ⟩ := id.differing (memory (place + index))
  have leaves := root.leavesPlaces first (by omega) header other_header
  refine same.clash first leaves (show index < _ by omega) (show taken < _ by omega) ?_ ?_
  · rw [here, Nat.mod_eq_of_lt (by omega), eq_self_iff_true, true_iff]
    simp only [wordSize] at small fits ⊢
    omega
  · rwa [here, Nat.mod_eq_of_lt (by omega), Nat.mod_eq_of_lt (by omega)]

theorem FirstId.read_eq {place : Nat} (id : FirstId memory place) : memory.read place 8 = 1 := by
  have zero := fun index positive bound => id.zero index positive bound
  rw [Memory.read, id.one, Memory.read_zero fun target lower upper => ?_]
  · rfl
  · have later := zero (target - place) (by omega) (by omega)
    rwa [Nat.add_sub_cancel' (by omega)] at later

/-- A byte outside the size word leaves the place of the root's data. -/
theorem RootEntry.place_kept {address : Nat} {byte : UInt8} (root : RootEntry memory disk)
    (after : RootEntry (memory.writeByte address byte) disk)
    (outside : OutsideWord address (sizeWord disk)) :
    disk.dataLocation (memory.writeByte address byte) 0 = disk.dataLocation memory 0 := by
  rw [after.dataLocation_eq, root.dataLocation_eq, directorySize_writeByte outside]

theorem RootEntry.place_moved {address : Nat} {byte : UInt8} (root : RootEntry memory disk)
    (after : RootEntry (memory.writeByte address byte) disk) (lower : sizeWord disk ≤ address)
    (upper : address < sizeWord disk + 8) (differ : byte ≠ memory address) :
    disk.dataLocation (memory.writeByte address byte) 0 ≠ disk.dataLocation memory 0 := by
  have sizes := directorySize_ne lower upper differ
  have before_lt := directorySize_lt memory disk
  have after_lt := directorySize_lt (memory.writeByte address byte) disk
  rw [after.dataLocation_eq, root.dataLocation_eq]
  simp only [wordSize] at before_lt after_lt ⊢
  omega

private theorem exists_outside {word place : Nat} (differ : word ≠ place) :
    ∃ index < 8, OutsideWord (place + index) word := by
  by_cases below : word < place
  · exact ⟨7, by decide, Or.inr (by omega)⟩
  · exact ⟨0, by decide, Or.inl (by omega)⟩

end Moved

section Rejected

variable {answer : Nat → Nat} {fuel : Nat} {disk : Rdfs} {memory : Memory} {root : Listing}

/-- `rdfs_start` after a rejected call. -/
def Rdfs.moved (disk : Rdfs) (initialOffset : Nat) : Rdfs :=
  { disk with rdfsStart := initialOffset }

/-- The entry of a root with a name in it, the place of its data, and the size word of another
header. -/
structure PlacedRoot (memory : Memory) (disk other : Rdfs) (place word : Nat) : Prop where
  first : other.firstFile = disk.firstFile
  root : RootEntry memory disk
  id : FirstId memory place
  placed : disk.dataLocation memory 0 = place
  worded : sizeWord other = word
  start_word : sizeWord disk = disk.rdfsStart + 80
  start_pos : 0 < disk.rdfsStart
  entry : disk.entry 0 = disk.rdfsStart + 96
  behind : disk.rdfsStart + 288 ≤ place
  fits : place + 8 < wordSize

namespace PlacedRoot

variable {other : Rdfs} {place word : Nat}

/-- A size word over the data reads as the first id. -/
theorem far (placed : PlacedRoot memory disk other place word) (overlap : word = place) :
    other.dataLocation memory 0 = (place + 17) % wordSize := by
  have size : directorySize memory other = 1 := by
    have read := placed.id.read_eq
    rw [← overlap, ← placed.worded] at read
    exact read
  rw [(placed.root.congr placed.first).dataLocation_eq, size, ← overlap, ← placed.worded]
  simp only [sizeWord, PartitionHeader.size, PartitionHeader.fileDirectorySize, wordSize]
  omega

theorem apart (placed : PlacedRoot memory disk other place word)
    (elsewhere : other.dataLocation memory 0 = place) : word ≠ place := by
  intro overlap
  have far := placed.far overlap
  rw [elsewhere] at far
  have fits := placed.fits
  simp only [wordSize] at far fits
  omega

/-- The size word of the other header is the lower one, and overwriting it moves the place that the
other header gives. -/
theorem not_same_below (placed : PlacedRoot memory disk other place word)
    (elsewhere : other.dataLocation memory 0 = place) (below : word < sizeWord disk) :
    ¬ SameMemory answer (fuel + 1) disk other memory := by
  intro same
  have entry := placed.entry
  have behind := placed.behind
  have fits := placed.fits
  have size := placed.root.size
  have start_word := placed.start_word
  obtain ⟨index, inside, outside⟩ := exists_outside (placed.apart elsewhere)
  obtain ⟨taken, taken_lt, differ⟩ := placed.id.differing (memory word)
  have overwritten := (same.bytes placed.first (show taken < _ by omega)).2 word
  rw [placed.placed, Nat.mod_eq_of_lt (by omega)] at overwritten
  have after := (placed.root.writeByte
    (show word < disk.entry 0 + 80 ∨ disk.entry 0 + 96 ≤ word by omega)
    (memory (place + taken))).1
  refine overwritten.clash_place placed.first after (placed.id.writeByte (Or.inl (by omega)) _)
    (by omega) (by omega) ?_ ?_ inside (Or.inr (by omega)) (by rwa [placed.worded])
  · rw [placed.root.place_kept after (Or.inl below), placed.placed]
  · have moved := (placed.root.congr placed.first).place_moved (after.congr placed.first)
      (Nat.le_of_eq placed.worded) (by rw [placed.worded]; omega) differ
    rwa [elsewhere] at moved

/-- The size word of the image is the lower one, and overwriting it moves the place of its data. -/
theorem not_same_above (placed : PlacedRoot memory disk other place word)
    (elsewhere : other.dataLocation memory 0 = place) (above : sizeWord disk < word) :
    ¬ SameMemory answer (fuel + 1) disk other memory := by
  intro same
  have entry := placed.entry
  have behind := placed.behind
  have fits := placed.fits
  have size := placed.root.size
  have start_word := placed.start_word
  obtain ⟨index, inside, outside⟩ := exists_outside (placed.apart elsewhere)
  obtain ⟨taken, taken_lt, differ⟩ := placed.id.differing (memory (disk.rdfsStart + 80))
  have overwritten := (same.bytes placed.first (show taken < _ by omega)).2 (disk.rdfsStart + 80)
  rw [placed.placed, Nat.mod_eq_of_lt (by omega)] at overwritten
  have after := (placed.root.writeByte
    (show disk.rdfsStart + 80 < disk.entry 0 + 80 ∨ disk.entry 0 + 96 ≤ disk.rdfsStart + 80 by
      omega) (memory (place + taken))).1
  refine overwritten.symm.clash_place placed.first.symm (after.congr placed.first)
    (placed.id.writeByte (Or.inl (by omega)) _) (by omega) ?_ ?_ ?_ inside
    (by rwa [placed.worded]) (Or.inr (by omega))
  · rw [Rdfs.entry, placed.first, ← Rdfs.entry]
    omega
  · rw [(placed.root.congr placed.first).place_kept (after.congr placed.first)
      (Or.inl (by rw [placed.worded]; omega)), elsewhere]
  · have moved := placed.root.place_moved after (by omega) (by omega) differ
    rwa [placed.placed] at moved

/-- The size word of the other header lies over the data, and overwriting a byte that only the other
header takes for data shows the difference. -/
theorem not_same_overlap (placed : PlacedRoot memory disk other place word)
    (overlap : word = place) : ¬ SameMemory answer (fuel + 1) disk other memory := by
  intro same
  have far := placed.far overlap
  have entry := placed.entry
  have behind := placed.behind
  have fits := placed.fits
  have size := placed.root.size
  have start_word := placed.start_word
  have start_pos := placed.start_pos
  have target_lt : other.dataLocation memory 0 < wordSize := far ▸ Nat.mod_lt _ (by decide)
  have wrapped : (place + 17) % wordSize = place + 17 ∨ (place + 17) % wordSize < 17 := by
    simp only [wordSize] at fits ⊢
    omega
  generalize (place + 17) % wordSize = target at far wrapped
  have away : OutsideWord target word ∧ OutsideWord target (sizeWord disk) ∧
      (target < disk.entry 0 + 80 ∨ disk.entry 0 + 96 ≤ target) ∧ place ≠ target := by
    refine ⟨?_, ?_, ?_, ?_⟩
    · rcases wrapped with behind | low
      · exact Or.inr (by omega)
      · exact Or.inl (by omega)
    · rcases wrapped with behind | low
      · exact Or.inr (by omega)
      · exact Or.inl (by omega)
    · omega
    · omega
  obtain ⟨header_apart, word_apart, entry_apart, differ⟩ := away
  refine same.clash placed.first (placed.root.leavesPlaces placed.first entry_apart word_apart
    (by rwa [placed.worded])) (show 0 < _ by omega) (show 1 < _ by omega) ?_ ?_
  · rw [far] at target_lt
    rw [placed.placed, far, Nat.add_zero, Nat.add_zero, Nat.mod_eq_of_lt (show place < _ by omega),
      Nat.mod_eq_of_lt target_lt, ne_self_iff_false, iff_false]
    exact differ
  · rw [placed.placed, Nat.mod_eq_of_lt (by omega), Nat.mod_eq_of_lt (by omega),
      placed.id.zero 1 (by decide) (by decide), Nat.add_zero, placed.id.one]
    decide

/-- The two headers give different places, and neither size word lies over the data. -/
theorem not_same_elsewhere (placed : PlacedRoot memory disk other place word)
    (apart : word ≠ place) (elsewhere : other.dataLocation memory 0 ≠ place) :
    ¬ SameMemory answer (fuel + 1) disk other memory := by
  intro same
  have entry := placed.entry
  have behind := placed.behind
  have fits := placed.fits
  have start_word := placed.start_word
  obtain ⟨index, inside, outside⟩ := exists_outside apart
  exact same.clash_place placed.first placed.root placed.id (by omega) (by omega) placed.placed
    elsewhere inside (Or.inr (by omega)) (by rwa [placed.worded])

end PlacedRoot

theorem Listing.childIds_cons {root : Listing} (nonempty : root ≠ .nil) (id : Nat) :
    ∃ rest, root.childIds id = id :: rest := by
  cases root with
  | nil => exact absurd rfl nonempty
  | file name contents rest => exact ⟨_, rfl⟩
  | directory name children rest => exact ⟨_, rfl⟩

namespace Mounted

variable (mounted : Mounted memory disk root) (names : root.NamesFit)

include mounted names

theorem place_eq : disk.dataLocation memory 0 =
    disk.rdfsStart + PartitionHeader.size + FileDirEntry.size * (root.count + 1) :=
  mounted.dataLocation_eq names (List.getElem?_cons_zero ..)

variable (nonempty : root ≠ .nil)

include nonempty

theorem firstId : FirstId memory (disk.dataLocation memory 0) := by
  obtain ⟨rest, ids⟩ := root.childIds_cons nonempty 1
  have stored := (mounted.stored_node_data names (List.getElem?_cons_zero ..)).1
  dsimp only at stored
  rw [ids, idBytes, List.flatMap_cons, Memory.stored_append] at stored
  have bytes := stored.1
  have digits : Memory.littleEndian 8 1 = [1, 0, 0, 0, 0, 0, 0, 0] := by decide
  rw [digits] at bytes
  refine ⟨bytes.1, fun index positive bound => @Memory.Stored.get _ _ _ bytes index 0 ?_⟩
  interval_cases index <;> rfl

theorem rootEntry : RootEntry memory disk := by
  obtain ⟨rest, ids⟩ := root.childIds_cons nonempty 1
  have fits := mounted.fits
  have inside := mounted.entry_fits (Nat.zero_le root.count)
  have place := mounted.place_eq names
  refine ⟨by omega, ?_, ?_⟩
  · have small : FileDirEntry.dataBlockOffset.get memory (disk.entry 0) < wordSize :=
      (memory.read_lt _ 8).trans_eq wordSize_eq_pow.symm
    rw [Rdfs.dataLocation, mounted.fileDirectorySize_eq] at place
    simp only [wordSize] at place small
    omega
  · rw [mounted.entrySize_eq names (List.getElem?_cons_zero ..)]
    dsimp only
    rw [ids, length_idBytes, List.length_cons]
    omega

theorem placedRoot (initialOffset : Nat) :
    PlacedRoot memory disk (disk.moved initialOffset) (disk.dataLocation memory 0)
      (sizeWord (disk.moved initialOffset)) := by
  have place := mounted.place_eq names
  have entry := mounted.entry_eq (Nat.zero_le root.count)
  have room := (mounted.stored_node_data names (List.getElem?_cons_zero ..)).2.2
  have long := (mounted.rootEntry names nonempty).size
  rw [mounted.entrySize_eq names (List.getElem?_cons_zero ..)] at long
  have image := mounted.fits
  have count_pos : 1 ≤ root.count := by
    cases root with
    | nil => exact absurd rfl nonempty
    | file name contents rest => exact Nat.le_add_left 1 _
    | directory name children rest => exact Nat.le_add_left 1 _
  simp only [PartitionHeader.size, FileDirEntry.size] at place entry
  refine ⟨rfl, mounted.rootEntry names nonempty, mounted.firstId names nonempty, rfl, rfl,
    Nat.mod_eq_of_lt ?_, mounted.start_pos, entry, by omega, by omega⟩
  simp only [PartitionHeader.fileDirectorySize]
  omega

theorem not_sameMemory {initialOffset : Nat}
    (moved : sizeWord (disk.moved initialOffset) ≠ sizeWord disk) :
    ¬ SameMemory answer (fuel + 1) disk (disk.moved initialOffset) memory := by
  have placed := mounted.placedRoot names nonempty initialOffset
  by_cases overlap : sizeWord (disk.moved initialOffset) = disk.dataLocation memory 0
  · exact placed.not_same_overlap overlap
  by_cases elsewhere : (disk.moved initialOffset).dataLocation memory 0 =
      disk.dataLocation memory 0
  · rcases Nat.lt_or_gt_of_ne moved with below | above
    · exact placed.not_same_below elsewhere below
    · exact placed.not_same_above elsewhere above
  · exact placed.not_same_elsewhere overlap elsewhere

end Mounted

/-! ## An image without entries -/

section Empty

variable {other : Rdfs} (empty : disk.entrySize memory 0 = 0)
  (first : other.firstFile = disk.firstFile)

include empty first

omit first in
private theorem idList_empty : disk.idList memory 0 = [] := by
  rw [Rdfs.idList, empty]
  rfl

private theorem lookup_empty (path : Nat → UInt8) (state : RdfsState) :
    rdfsFileGetIdFromPath answer fuel memory disk state path =
        rdfsFileGetIdFromPath answer fuel memory other state path ∧
      ∀ id, (rdfsFileGetIdFromPath answer fuel memory other state path).2 = .found id → id = 0 := by
  have list := idList_empty empty
  have other_list := idList_empty ((Rdfs.entrySize_congr first memory 0).trans empty)
  rw [rdfsFileGetIdFromPath, rdfsFileGetIdFromPath]
  cases fuel with
  | zero => exact ⟨rfl, fun id found => by cases found⟩
  | succ fuel =>
      rw [lookupFrom, lookupFrom]
      by_cases ended : path 1 = 0
      · rw [if_pos ended, if_pos ended]
        refine ⟨rfl, fun id found => ?_⟩
        cases found
        rfl
      · rw [if_neg ended, if_neg ended]
        cases componentLength path 1 (2 ^ 16) 0 with
        | none => exact ⟨rfl, fun id found => by cases found⟩
        | some length =>
            simp only [rdfsGetFileListFromDirId, list, other_list, ne_eq, not_true_eq_false,
              and_false, if_false, rdfsGetFileIdFromListAndName, ite_self]
            refine ⟨trivial, fun id found => ?_⟩
            split_ifs at found

private theorem call_empty {state : RdfsState} {files : List File}
    (roots : ∀ file ∈ files, file.fileId.toNat = 0 ∧ file.index.toNat = 0) (call : RdfsCall) :
    RdfsSession.call answer fuel disk ⟨memory, state, files⟩ call =
        RdfsSession.call answer fuel other ⟨memory, state, files⟩ call ∧
      ∃ next more, (RdfsSession.call answer fuel other ⟨memory, state, files⟩ call).1 =
          ⟨memory, next, more⟩ ∧
        ∀ file ∈ more, file.fileId.toNat = 0 ∧ file.index.toNat = 0 := by
  have other_empty := (Rdfs.entrySize_congr first memory 0).trans empty
  cases call with
  | getId path =>
      obtain ⟨same, -⟩ := @lookup_empty answer fuel _ _ _ empty first path state
      exact ⟨by simp only [RdfsSession.call, same], _, _, rfl, roots⟩
  | getattr path st =>
      obtain ⟨same, -⟩ := @lookup_empty answer fuel _ _ _ empty first path state
      refine ⟨?_, _, _, rfl, roots⟩
      simp only [RdfsSession.call, rdfsGetattr, same, Rdfs.entry_congr first,
        Rdfs.entrySize_congr first]
  | readdir path =>
      obtain ⟨same, root⟩ := @lookup_empty answer fuel _ _ _ empty first path state
      refine ⟨?_, _, _, rfl, roots⟩
      simp only [RdfsSession.call, rdfsReaddir, same]
      generalize rdfsFileGetIdFromPath answer fuel memory other state path = result at root ⊢
      rcases result with ⟨next, found | _ | _⟩
      · obtain rfl := root found rfl
        simp only [rdfsIdIsDir, rdfsGetFileListFromDirId, Rdfs.entry_congr first,
          idList_empty empty, idList_empty other_empty]
      · rfl
      · rfl
  | openFile path flags =>
      obtain ⟨same, root⟩ := @lookup_empty answer fuel _ _ _ empty first path state
      simp only [RdfsSession.call, rdfsOpenFile, same]
      generalize rdfsFileGetIdFromPath answer fuel memory other state path = result at root ⊢
      rcases result with ⟨next, found | _ | _⟩
      · obtain rfl := root found rfl
        refine ⟨trivial, _, _, rfl, fun file member => ?_⟩
        rcases List.mem_cons.mp member with rfl | earlier
        · exact ⟨rfl, rfl⟩
        · exact roots file earlier
      · exact ⟨trivial, _, _, rfl, roots⟩
      · exact ⟨trivial, _, _, rfl, roots⟩
  | readFile number buf size =>
      simp only [RdfsSession.call]
      cases entry : files[number]? with
      | none => exact ⟨rfl, _, _, rfl, roots⟩
      | some file =>
          obtain ⟨id, index⟩ := roots file (List.mem_of_getElem? entry)
          have nothing : ∀ {any : Rdfs}, any.entrySize memory 0 = 0 →
              rdfsReadFile memory any file buf size = (memory, file, 0) := by
            intro any no_data
            rw [rdfsReadFile, id, index, no_data, if_pos (by decide)]
          simp only [nothing empty, nothing other_empty]
          refine ⟨trivial, _, _, rfl, fun other member => ?_⟩
          rcases List.mem_or_eq_of_mem_set member with earlier | rfl
          · exact roots other earlier
          · exact ⟨id, index⟩

theorem results_empty {state : RdfsState} {files : List File}
    (roots : ∀ file ∈ files, file.fileId.toNat = 0 ∧ file.index.toNat = 0)
    (calls : List RdfsCall) :
    RdfsSession.results answer fuel disk ⟨memory, state, files⟩ calls =
      RdfsSession.results answer fuel other ⟨memory, state, files⟩ calls := by
  induction calls generalizing state files with
  | nil => rfl
  | cons call rest ih =>
      obtain ⟨same, next, more, after, kept⟩ := call_empty empty first roots call
      rw [RdfsSession.results, RdfsSession.results, same, after, ih kept]

end Empty

/-! ## Rejected calls -/

/-- A rejected call with an address leaves `rdfs_start` at a header of another place. -/
theorem Mounted.rdfsInit_moves (mounted : Mounted memory disk root) {initialOffset : Nat}
    (rejected : (rdfsInit memory disk initialOffset).2 = -1) (address : initialOffset ≠ 0) :
    (rdfsInit memory disk initialOffset).1 = disk.moved initialOffset ∧
      sizeWord (disk.moved initialOffset) ≠ sizeWord disk := by
  have magic : PartitionHeader.magicNumber.get memory initialOffset ≠ rdfsMagicNumber := by
    intro accepted
    rw [rdfsInit, if_neg address, if_neg (not_not.mpr accepted)] at rejected
    cases rejected
  refine ⟨by rw [rdfsInit, if_neg address, if_pos magic]; rfl, fun same => magic ?_⟩
  rw [← mounted.magicNumber_eq]
  have start : (initialOffset + 0) % wordSize = (disk.rdfsStart + 0) % wordSize := by
    simp only [sizeWord, Rdfs.moved, PartitionHeader.fileDirectorySize, wordSize] at same
    simp only [wordSize]
    omega
  simp only [Field.get, PartitionHeader.magicNumber, start]

theorem Mounted.not_mountIntact (mounted : Mounted memory disk root) (names : root.NamesFit)
    {initialOffset : Nat} (rejected : (rdfsInit memory disk initialOffset).2 = -1)
    (address : initialOffset ≠ 0) (nonempty : root ≠ .nil) :
    ¬ MountIntact memory disk initialOffset := by
  intro intact
  obtain ⟨after, moved⟩ := mounted.rdfsInit_moves rejected address
  refine @not_sameMemory (fun _ => 1) 0 _ _ _ mounted names nonempty _ moved
    ⟨⟨0, [], []⟩, [], fun calls => ?_⟩
  have same := intact (fun _ => 1) 1 ⟨0, [], []⟩ [] calls (fun file member => by cases member)
  rw [after] at same
  exact same.symm

/-- A rejected call of `rdfs_init` changes no later result exactly when it was given the null
pointer or the mounted image has no entries. -/
theorem rejected_mount_intact_iff (mounted : Mounted memory disk root) (names : root.NamesFit)
    {initialOffset : Nat} (rejected : (rdfsInit memory disk initialOffset).2 = -1) :
    MountIntact memory disk initialOffset ↔ initialOffset = 0 ∨ root = .nil := by
  refine ⟨fun intact => ?_, ?_⟩
  · by_contra neither
    rw [not_or] at neither
    exact mounted.not_mountIntact names rejected neither.1 neither.2 intact
  · intro condition answer fuel state files calls opened
    by_cases null : initialOffset = 0
    · rw [rdfsInit, if_pos null]
    · obtain rfl := condition.resolve_left null
      obtain ⟨after, -⟩ := mounted.rdfsInit_moves rejected null
      have empty : disk.entrySize memory 0 = 0 :=
        mounted.entrySize_eq names (List.getElem?_cons_zero ..)
      rw [after]
      refine (results_empty empty
        (show (disk.moved initialOffset).firstFile = _ from rfl) ?_ _).symm
      intro file member
      obtain ⟨id_lt, index_le⟩ := opened file member
      rw [mounted.files_eq] at id_lt
      have id : file.fileId.toNat = 0 := by
        simp only [Listing.count] at id_lt
        omega
      rw [id, empty] at index_le
      exact ⟨id, Nat.le_zero.mp index_le⟩

end Rejected

theorem zeros_rejected (root : Listing) (disk : Rdfs) :
    (rdfsInit (placeImage (fun _ => 0) sampleStart (genRamDisk root)) disk 0x1000).2 = -1 := by
  have magic : PartitionHeader.magicNumber.get
      (placeImage (fun _ => 0) sampleStart (genRamDisk root)) 0x1000 = 0 := by
    rw [Field.get_eq (by decide)]
    exact Memory.read_zero fun target lower upper => placeImage_below _ _ (by
      simp only [PartitionHeader.magicNumber, sampleStart] at upper ⊢
      omega)
  rw [rdfsInit, if_neg (by decide)]
  dsimp only
  rw [magic]
  rfl

/-- Zeros at `0x1000` are rejected, and an image without files is read as before. -/
theorem rejected_mount_intact_iff_empty :
    MountIntact (placeImage (fun _ => 0) sampleStart (genRamDisk .nil))
        (mountedDisk sampleStart .nil) 0x1000 ↔ 0x1000 = 0 ∨ Listing.nil = .nil :=
  rejected_mount_intact_iff emptyTree_mounted trivial (zeros_rejected .nil _)

/-- Zeros at `0x1000` are rejected, but `rdfs_start` points there afterwards. -/
theorem rejected_mount_moves_data :
    ¬ MountIntact (placeImage (fun _ => 0) sampleStart (genRamDisk (oneFileTree [7]).root))
      (mountedDisk sampleStart (oneFileTree [7]).root) 0x1000 :=
  (oneFileTree_mounted _ (by decide)).not_mountIntact (oneFileTree_namesFit _)
    (zeros_rejected _ _) (by decide) (fun empty => by cases empty)

end PellOs
