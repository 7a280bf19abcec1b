import PellOs.Fs.LookupSound

/-!
# Round trips through an image

Every node of a tree is found again in its mounted image: by its path, with its type and size, the
ids in a directory and the bytes of a file.
-/

namespace PellOs

/-- The node of a tree at a path, the root included. -/
def DirTree.At (tree : DirTree) (names : List Name) (id : Nat) (entry : Entry) : Prop :=
  (names = [] ∧ id = 0 ∧ entry = .directory tree.root) ∨ NodeAt tree.root 1 names id entry

namespace DirTree.At

variable {tree : DirTree} {names : List Name} {id : Nat} {entry : Entry}

theorem node (node : tree.At names id entry) :
    ∃ target, (treeNodes tree.root)[id]? =
      some ⟨target, entry.isDir, id, entry.data id⟩ := by
  rcases node with ⟨_, rfl, rfl⟩ | below
  · exact ⟨[], rfl⟩
  · exact (flattened_root tree.root).node below

theorem resolve_eq {memory : Memory} {disk : Rdfs} (mounted : Mounted memory disk tree.root)
    (fits : tree.root.NamesFit) (node : tree.At names id entry) :
    resolve memory disk 0 names = .found id := by
  rcases node with ⟨rfl, rfl, _⟩ | below
  · rfl
  · have reached := (mounted.resolve_append fits (mounted.isDirectory_root fits) tree.distinct
      below []).1
    rwa [List.append_nil, resolve] at reached

theorem idList_eq {memory : Memory} {disk : Rdfs} (mounted : Mounted memory disk tree.root)
    (fits : tree.root.NamesFit) {children : Listing}
    (node : tree.At names id (.directory children)) :
    disk.idList memory id = children.childIds (id + 1) := by
  rcases node with ⟨_, rfl, same⟩ | below
  · cases same
    exact (mounted.isDirectory_root fits).list
  · exact ((mounted.isDirectory_root fits).node mounted fits below).list

end DirTree.At

theorem id_lt_wordSize {tree : DirTree} {memory : Memory} {disk : Rdfs} {id : Nat}
    (mounted : Mounted memory disk tree.root) {node : TreeNode}
    (listed : (treeNodes tree.root)[id]? = some node) : id < wordSize := by
  have bound := Mounted.id_le listed
  have image := mounted.fits
  have long := length_genRamDisk tree.root
  simp only [PartitionHeader.size, FileDirEntry.size] at long
  omega

theorem toNat_ofNat_id {tree : DirTree} {memory : Memory} {disk : Rdfs} {id : Nat}
    (mounted : Mounted memory disk tree.root) {node : TreeNode}
    (listed : (treeNodes tree.root)[id]? = some node) : (UInt64.ofNat id).toNat = id := by
  have small := id_lt_wordSize mounted listed
  rw [UInt64.toNat_ofNat', Nat.mod_eq_of_lt (by simpa only [wordSize] using small)]

namespace Mounted

variable {memory : Memory} {disk : Rdfs} {root : Listing} {id : Nat} {node : TreeNode}

/-- The range of a buffer lies in the address space, apart from the image. -/
def BufferApart (disk : Rdfs) (root : Listing) (buf count : Nat) : Prop :=
  buf + count ≤ wordSize ∧ (buf + count ≤ disk.rdfsStart ∨
    disk.rdfsStart + (genRamDisk root).length ≤ buf)

/-- A read delivers the bytes from the index on and moves the index behind them. -/
theorem rdfsReadFile_spec (mounted : Mounted memory disk root) (names : root.NamesFit)
    (entry : (treeNodes root)[id]? = some node) {file : File} (file_id : file.fileId.toNat = id)
    (inside : file.index.toNat ≤ node.data.length) {buf size : Nat}
    (size_pos : 0 < size ∨ node.data.length = file.index.toNat)
    (apart : BufferApart disk root buf (min size (node.data.length - file.index.toNat))) :
    (rdfsReadFile memory disk file buf size).2.2 =
        min size (node.data.length - file.index.toNat) ∧
      (rdfsReadFile memory disk file buf size).2.1.fileId = file.fileId ∧
      (rdfsReadFile memory disk file buf size).2.1.index.toNat =
        file.index.toNat + min size (node.data.length - file.index.toNat) ∧
      (rdfsReadFile memory disk file buf size).1.bytes buf
          (min size (node.data.length - file.index.toNat)) =
        (node.data.drop file.index.toNat).take (min size (node.data.length - file.index.toNat)) ∧
      ∀ address, address < buf ∨
          buf + min size (node.data.length - file.index.toNat) ≤ address →
        (rdfsReadFile memory disk file buf size).1 address = memory address := by
  obtain ⟨stored, lower, upper⟩ := mounted.stored_node_data names entry
  have fits := mounted.fits
  have remaining : (disk.entrySize memory file.fileId.toNat + (wordSize - file.index.toNat)) %
      wordSize = node.data.length - file.index.toNat := by
    have small : node.data.length < wordSize := by omega
    rw [file_id, mounted.entrySize_eq names entry,
      show node.data.length + (wordSize - file.index.toNat) =
        (node.data.length - file.index.toNat) + wordSize by omega, Nat.add_mod_right,
      Nat.mod_eq_of_lt (by omega)]
  have moved : file.index.toNat + min size (node.data.length - file.index.toNat) < wordSize := by
    omega
  generalize counted : min size (node.data.length - file.index.toNat) = count at apart moved ⊢
  by_cases done : node.data.length - file.index.toNat = 0
  · have call : rdfsReadFile memory disk file buf size = (memory, file, 0) := by
      rw [rdfsReadFile, remaining, if_pos done]
    have zero : count = 0 := by omega
    rw [call, zero]
    exact ⟨rfl, rfl, rfl, rfl, fun _ _ => rfl⟩
  · have call : rdfsReadFile memory disk file buf size =
        (memcpy memory buf (disk.dataLocation memory id + file.index.toNat) count,
          { file with index := file.index + UInt64.ofNat count }, count) := by
      have chosen : (if size > node.data.length - file.index.toNat then
          node.data.length - file.index.toNat else size) = count := by
        split_ifs with large
        · omega
        · omega
      rw [rdfsReadFile, remaining, if_neg done, file_id]
      dsimp only
      rw [chosen, Nat.mod_eq_of_lt (by omega)]
    have start_pos := mounted.start_pos
    have buffer := apart.2
    have short : count ≤ node.data.length - file.index.toNat := by omega
    have half : count < 2 ^ 63 := by
      have top := apart.1
      simp only [wordSize] at top fits
      omega
    have copied := fun target => memcpy_apply memory buf
      (disk.dataLocation memory id + file.index.toNat) count target (by omega) half apart.1
      (by omega) (by omega)
    rw [call]
    refine ⟨rfl, rfl, ?_, ?_, ?_⟩
    · dsimp only
      rw [UInt64.toNat_add, UInt64.toNat_ofNat',
        Nat.mod_eq_of_lt (by simp only [wordSize] at moved; omega),
        Nat.mod_eq_of_lt (by simp only [wordSize] at moved; omega)]
    · have length : ((node.data.drop file.index.toNat).take count).length = count := by
        rw [List.length_take, List.length_drop]
        omega
      have placed : (memcpy memory buf (disk.dataLocation memory id + file.index.toNat)
          count).Stored buf ((node.data.drop file.index.toNat).take count) := by
        apply Memory.stored_of_get
        intro index byte taken
        have bound : index < count := by
          have := (List.getElem?_eq_some_iff.mp taken).1
          omega
        rw [List.getElem?_take, if_pos bound, List.getElem?_drop] at taken
        rw [copied, if_pos (by omega), Nat.add_sub_cancel_left, Nat.add_assoc]
        exact stored.get taken
      have listed := (Memory.stored_iff_bytes _ _ _).mp placed
      rwa [length] at listed
    · intro address outside
      dsimp only
      rw [copied, if_neg (by omega)]

end Mounted

/-! ## The round trip -/

/-- What `rdfs_getattr` reports for a node. -/
def Entry.stat (id : Nat) (entry : Entry) : Stat :=
  ⟨if entry.isDir then sIfdir else sIfreg, (entry.data id).length⟩

/-- The functions of `rdfs.c` find a node again. -/
structure FoundAgain (memory : Memory) (disk : Rdfs) (root : Listing) (answer : Nat → Nat)
    (fuel : Nat) (state : RdfsState) (path : Nat → UInt8) (id : Nat) (entry : Entry) : Prop where
  lookup : (rdfsFileGetIdFromPath answer fuel memory disk state path).2 = .found id
  getattr : ∀ st, (rdfsGetattr answer fuel memory disk state path st).2 = some (entry.stat id)
  readdir : ∀ children, entry = .directory children →
    (rdfsReaddir answer fuel memory disk state path).2 = some (children.childIds (id + 1))
  read : ∀ contents, entry = .file contents → ∀ flags buf,
    Mounted.BufferApart disk root buf contents.length →
      ∃ file, (rdfsOpenFile answer fuel memory disk state path flags).2 = .opened file ∧
        (rdfsReadFile memory disk file buf contents.length).2.2 = contents.length ∧
        (rdfsReadFile memory disk file buf contents.length).1.bytes buf contents.length = contents

theorem Mounted.foundAgain {memory : Memory} {disk : Rdfs} {tree : DirTree}
    (mounted : Mounted memory disk tree.root) (fits : tree.root.NamesFit) {answer : Nat → Nat}
    (granted : ∀ call, answer call ≠ 0) {path : Nat → UInt8} {names : List Name}
    (is_path : IsPath path names) {fuel : Nat} (enough : names.length < fuel) (state : RdfsState)
    {id : Nat} {entry : Entry} (node : tree.At names id entry) :
    FoundAgain memory disk tree.root answer fuel state path id entry := by
  obtain ⟨target, listed⟩ := node.node
  have lookup := (rdfsFileGetIdFromPath_eq memory disk granted is_path enough state).1
  rw [node.resolve_eq mounted fits] at lookup
  have type := mounted.fileType_eq fits listed
  have size := mounted.entrySize_eq fits listed
  refine ⟨lookup, ?_, ?_, ?_⟩
  · intro st
    rw [rdfsGetattr, ← Prod.eta (rdfsFileGetIdFromPath ..), lookup]
    dsimp only
    rw [type, size, Entry.stat]
    have kinds : rdfsFileTypeFile ≠ rdfsFileTypeDir := by decide
    cases entry with
    | file contents => simp only [Entry.isDir, Bool.false_eq_true, if_false, kinds, if_true]
    | directory children => simp only [Entry.isDir, if_true]
  · rintro children rfl
    have list := node.idList_eq mounted fits
    rw [rdfsReaddir, ← Prod.eta (rdfsFileGetIdFromPath ..), lookup]
    dsimp only
    rw [rdfsIdIsDir, type, rdfsGetFileListFromDirId]
    simp only [Entry.isDir, if_true, decide_true, RdfsState.kmalloc, RdfsState.use, granted,
      false_and, if_false, list]
  · rintro contents rfl flags buf apart
    have bound := Mounted.id_le listed
    have image := mounted.fits
    have long := length_genRamDisk tree.root
    simp only [PartitionHeader.size, FileDirEntry.size] at long
    refine ⟨rdfsOpenFileId id flags, ?_, ?_⟩
    · rw [rdfsOpenFile, ← Prod.eta (rdfsFileGetIdFromPath ..), lookup]
    have file_id : (rdfsOpenFileId id flags).fileId.toNat = id := by
      rw [rdfsOpenFileId, UInt64.toNat_ofNat',
        Nat.mod_eq_of_lt (by simp only [wordSize] at image; omega)]
    have whole : min contents.length ((Entry.data id (.file contents)).length -
        (rdfsOpenFileId id flags).index.toNat) = contents.length := Nat.min_self _
    have read := @Mounted.rdfsReadFile_spec _ _ _ _ _ mounted fits listed _ file_id (Nat.zero_le _)
      buf contents.length (by
        rcases Nat.eq_zero_or_pos contents.length with empty | positive
        · exact Or.inr empty
        · exact Or.inl positive) (by rw [whole]; exact apart)
    rw [whole] at read
    refine ⟨read.1, ?_⟩
    rw [read.2.2.2.1]
    exact List.take_length

/-- Every node of a tree is found again in its mounted image. -/
theorem ramDisk_round_trip (tree : DirTree) (fits : tree.root.NamesFit) {memory : Memory}
    {start : Nat} (stored : memory.Stored start (genRamDisk tree.root))
    (room : start + (genRamDisk tree.root).length < wordSize) (start_pos : 0 < start) (disk : Rdfs)
    {answer : Nat → Nat} (granted : ∀ call, answer call ≠ 0) :
    (rdfsInit memory disk start).2 = 0 ∧
      ∀ (names : List Name) (id : Nat) (entry : Entry), tree.At names id entry →
        ∀ (path : Nat → UInt8) (fuel : Nat) (state : RdfsState), IsPath path names →
          names.length < fuel →
            FoundAgain memory (rdfsInit memory disk start).1 tree.root answer fuel state path id
              entry := by
  obtain ⟨success, _, mounted⟩ := rdfsInit_mounts stored room start_pos disk
  refine ⟨success, ?_⟩
  intro names id entry node path fuel state is_path enough
  exact mounted.foundAgain fits granted is_path enough state node

/-- The file `a` with contents `1, 2` is found again. -/
theorem ramDisk_round_trip_one_file :
    FoundAgain (placeImage (fun _ => 0) sampleStart (genRamDisk (oneFileTree [1, 2]).root))
      (rdfsInit (placeImage (fun _ => 0) sampleStart (genRamDisk (oneFileTree [1, 2]).root))
        ⟨0, 0, 0⟩ sampleStart).1 (oneFileTree [1, 2]).root (fun _ => 1) 2 ⟨0, [], []⟩
      (pathBytes [nameA]) 1 (.file [1, 2]) :=
  (ramDisk_round_trip (oneFileTree [1, 2]) (oneFileTree_namesFit _)
    (oneFileTree_mounted (fun _ => 0) (by decide)).stored
    (oneFileTree_mounted (fun _ => 0) (by decide)).fits (by decide) ⟨0, 0, 0⟩
    (fun _ => one_ne_zero)).2 [nameA] 1 (.file [1, 2]) (Or.inr (.entry (.file nameA _ _ 1)))
    (pathBytes [nameA]) 2 ⟨0, [], []⟩ (isPath_pathBytes _) (by decide)

end PellOs
