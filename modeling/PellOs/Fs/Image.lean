import PellOs.Fs.Rdfs

/-!
# Ram disk images

`genRamDisk.py`: the image of a directory tree.  `flatten_dir` numbers the nodes of the tree in
preorder, and node `id` becomes entry `id` of the image.  A mounted image is read back entry by
entry: every field and all data of a node stand where `rdfs.c` looks for them.
-/

namespace PellOs

/-! ## Directory trees -/

/-- A file name: not empty, without separator and terminator. -/
structure Name where
  bytes : List UInt8
  nonempty : bytes ≠ []
  no_slash : slash ∉ bytes
  no_nul : 0 ∉ bytes

/-- The entries of a parsed directory, in the order in which they were listed. -/
inductive Listing
  | nil
  | file (name : Name) (contents : List UInt8) (rest : Listing)
  | directory (name : Name) (children rest : Listing)

namespace Listing

/-- Number of nodes, those of subdirectories included. -/
def count : Listing → Nat
  | nil => 0
  | file _ _ rest => rest.count + 1
  | directory _ children rest => children.count + rest.count + 1

/-- Names of the entries themselves. -/
def names : Listing → List (List UInt8)
  | nil => []
  | file name _ rest => name.bytes :: rest.names
  | directory name _ rest => name.bytes :: rest.names

/-- No directory holds two entries of one name. -/
def Distinct : Listing → Prop
  | nil => True
  | file name _ rest => name.bytes ∉ rest.names ∧ rest.Distinct
  | directory name children rest =>
      name.bytes ∉ rest.names ∧ children.Distinct ∧ rest.Distinct

/-- Every name leaves room for its terminator in `filename`. -/
def NamesFit : Listing → Prop
  | nil => True
  | file name _ rest => name.bytes.length < rdfsFileNameSize ∧ rest.NamesFit
  | directory name children rest =>
      name.bytes.length < rdfsFileNameSize ∧ children.NamesFit ∧ rest.NamesFit

/-- Ids of the entries themselves, numbered from `id`. -/
def childIds : Listing → Nat → List Nat
  | nil, _ => []
  | file _ _ rest, id => id :: rest.childIds (id + 1)
  | directory _ children rest, id => id :: rest.childIds (id + 1 + children.count)

theorem length_childIds_le (listing : Listing) (id : Nat) :
    (listing.childIds id).length ≤ listing.count := by
  induction listing generalizing id with
  | nil => exact le_refl _
  | file name contents rest ih =>
      rw [childIds, List.length_cons, count]
      exact Nat.succ_le_succ (ih _)
  | directory name children rest _ ih =>
      have later := ih (id + 1 + children.count)
      rw [childIds, List.length_cons, count]
      omega

end Listing

/-! ## Generating an image -/

/-- A node with its id and the data written for it. -/
structure TreeNode where
  name : List UInt8
  isDir : Bool
  id : Nat
  data : List UInt8

/-- The data of a directory, the ids of its entries. -/
def idBytes (ids : List Nat) : List UInt8 := ids.flatMap (Memory.littleEndian 8)

/-- The loop of `flatten_dir` over the entries of a directory, with the next id. -/
def flattenDir : Listing → Nat → List TreeNode × Nat
  | .nil, id => ([], id)
  | .file name contents rest, id =>
      let (nodes, next) := flattenDir rest (id + 1)
      (⟨name.bytes, false, id, contents⟩ :: nodes, next)
  | .directory name children rest, id =>
      let (inner, next) := flattenDir children (id + 1)
      let (nodes, next) := flattenDir rest next
      (⟨name.bytes, true, id, idBytes (children.childIds (id + 1))⟩ :: (inner ++ nodes), next)

/-- All nodes of the tree with the given root entries.  `main` stores each at the position of its
id, which is the order in which they are flattened. -/
def treeNodes (root : Listing) : List TreeNode :=
  ⟨[], true, 0, idBytes (root.childIds 1)⟩ :: (flattenDir root 1).1

/-- One entry of `genFileDirectories`. -/
def fileEntry (node : TreeNode) (currOffset : Nat) : List UInt8 :=
  let name := if node.name = [] then [slash] else node.name
  Memory.littleEndian 8 node.id ++
    ([UInt8.ofNat (if node.isDir then rdfsFileTypeDir else rdfsFileTypeFile)] ++
      ((name ++ List.replicate (rdfsFileNameSize - name.length) 0) ++
        (Memory.littleEndian 8 currOffset ++ Memory.littleEndian 8 node.data.length)))

/-- `genFileDirectories`. -/
def genFileDirectories : List TreeNode → Nat → List UInt8
  | [], _ => []
  | node :: rest, currOffset =>
      fileEntry node currOffset ++ genFileDirectories rest (currOffset + node.data.length)

/-- `genDataDirectories`. -/
def genDataDirectories (nodes : List TreeNode) : List UInt8 := nodes.flatMap TreeNode.data

/-- `"ramdisk"`. -/
def partitionName : List UInt8 := [114, 97, 109, 100, 105, 115, 107]

/-- `genHeader`. -/
def genHeader (fileDirSize dataDirSize : Nat) : List UInt8 :=
  [0xF5, 0x7D, 0, 0] ++ (Memory.littleEndian 4 0 ++ (Memory.littleEndian 8 0xffff ++
    ((partitionName ++ List.replicate (64 - partitionName.length) 0) ++
      (Memory.littleEndian 8 fileDirSize ++ Memory.littleEndian 8 dataDirSize))))

/-- The bytes that `main` writes. -/
def genRamDisk (root : Listing) : List UInt8 :=
  let nodes := treeNodes root
  genHeader (nodes.length * FileDirEntry.size) (genDataDirectories nodes).length ++
    (genFileDirectories nodes 0 ++ genDataDirectories nodes)

/-! ## Numbering -/

theorem flattenDir_next (listing : Listing) (id : Nat) :
    (flattenDir listing id).2 = id + listing.count := by
  induction listing generalizing id with
  | nil => rfl
  | file name contents rest ih =>
      simp only [flattenDir, ih, Listing.count]
      omega
  | directory name children rest inner ih =>
      simp only [flattenDir, inner, ih, Listing.count]
      omega

theorem flattenDir_file (name : Name) (contents : List UInt8) (rest : Listing) (id : Nat) :
    (flattenDir (.file name contents rest) id).1 =
      ⟨name.bytes, false, id, contents⟩ :: (flattenDir rest (id + 1)).1 :=
  rfl

theorem flattenDir_directory (name : Name) (children rest : Listing) (id : Nat) :
    (flattenDir (.directory name children rest) id).1 =
      ⟨name.bytes, true, id, idBytes (children.childIds (id + 1))⟩ ::
        ((flattenDir children (id + 1)).1 ++ (flattenDir rest (id + 1 + children.count)).1) := by
  simp only [flattenDir, flattenDir_next]

theorem length_flattenDir (listing : Listing) (id : Nat) :
    (flattenDir listing id).1.length = listing.count := by
  induction listing generalizing id with
  | nil => rfl
  | file name contents rest ih => rw [flattenDir_file, List.length_cons, ih, Listing.count]
  | directory name children rest inner ih =>
      rw [flattenDir_directory, List.length_cons, List.length_append, inner, ih, Listing.count]

theorem length_treeNodes (root : Listing) : (treeNodes root).length = root.count + 1 := by
  rw [treeNodes, List.length_cons, length_flattenDir]

theorem treeNodes_flattenDir (root : Listing) {position : Nat} {node : TreeNode}
    (entry : (flattenDir root 1).1[position]? = some node) :
    (treeNodes root)[1 + position]? = some node := by
  rw [treeNodes, Nat.add_comm, List.getElem?_cons_succ, entry]

/-! ## Lengths -/

theorem length_genHeader (fileDirSize dataDirSize : Nat) :
    (genHeader fileDirSize dataDirSize).length = PartitionHeader.size := by
  simp [genHeader, PartitionHeader.size, partitionName]

/-- The name stored for a node. -/
def TreeNode.storedName (node : TreeNode) : List UInt8 :=
  if node.name = [] then [slash] else node.name

theorem length_fileEntry {node : TreeNode} (fits : node.storedName.length < rdfsFileNameSize)
    (currOffset : Nat) : (fileEntry node currOffset).length = FileDirEntry.size := by
  rw [TreeNode.storedName] at fits
  simp only [rdfsFileNameSize] at fits
  simp only [fileEntry, List.length_append, Memory.length_littleEndian, List.length_singleton,
    List.length_replicate, rdfsFileNameSize, FileDirEntry.size]
  omega

/-- Bytes of data in front of a node. -/
def dataOffset (nodes : List TreeNode) (id : Nat) : Nat :=
  ((nodes.take id).map fun node => node.data.length).sum

theorem length_genFileDirectories {nodes : List TreeNode}
    (fits : ∀ node ∈ nodes, node.storedName.length < rdfsFileNameSize) (currOffset : Nat) :
    (genFileDirectories nodes currOffset).length = FileDirEntry.size * nodes.length := by
  induction nodes generalizing currOffset with
  | nil => rfl
  | cons node nodes ih =>
      rw [genFileDirectories, List.length_append, length_fileEntry (fits node List.mem_cons_self),
        ih (fun other member => fits other (List.mem_cons_of_mem _ member)), List.length_cons,
        Nat.mul_succ, Nat.add_comm]

theorem stored_fileEntry {memory : Memory} {nodes : List TreeNode}
    (fits : ∀ node ∈ nodes, node.storedName.length < rdfsFileNameSize) {address currOffset : Nat}
    (stored : memory.Stored address (genFileDirectories nodes currOffset)) {id : Nat}
    {node : TreeNode} (entry : nodes[id]? = some node) :
    memory.Stored (address + FileDirEntry.size * id)
      (fileEntry node (currOffset + dataOffset nodes id)) := by
  induction nodes generalizing address currOffset id with
  | nil => simp at entry
  | cons first nodes ih =>
      rw [genFileDirectories, Memory.stored_append] at stored
      cases id with
      | zero =>
          rw [List.getElem?_cons_zero, Option.some.injEq] at entry
          rw [← entry]
          simpa [dataOffset] using stored.1
      | succ id =>
          rw [length_fileEntry (fits first List.mem_cons_self)] at stored
          have later := ih (fun other member => fits other (List.mem_cons_of_mem _ member))
            stored.2 (by simpa using entry)
          rw [Nat.mul_succ, Nat.add_comm (FileDirEntry.size * id), ← Nat.add_assoc]
          rwa [dataOffset, List.take_succ_cons, List.map_cons, List.sum_cons, ← Nat.add_assoc]

theorem stored_data {memory : Memory} {nodes : List TreeNode} {address : Nat}
    (stored : memory.Stored address (genDataDirectories nodes)) {id : Nat} {node : TreeNode}
    (entry : nodes[id]? = some node) :
    memory.Stored (address + dataOffset nodes id) node.data := by
  induction nodes generalizing address id with
  | nil => simp at entry
  | cons first nodes ih =>
      rw [genDataDirectories, List.flatMap_cons, Memory.stored_append] at stored
      cases id with
      | zero =>
          rw [List.getElem?_cons_zero, Option.some.injEq] at entry
          rw [← entry]
          simpa [dataOffset] using stored.1
      | succ id =>
          have later := ih stored.2 (by simpa using entry)
          rwa [dataOffset, List.take_succ_cons, List.map_cons, List.sum_cons, ← Nat.add_assoc]

theorem dataOffset_le {nodes : List TreeNode} {id : Nat} {node : TreeNode}
    (entry : nodes[id]? = some node) :
    dataOffset nodes id + node.data.length ≤ (genDataDirectories nodes).length := by
  induction nodes generalizing id with
  | nil => simp at entry
  | cons first nodes ih =>
      rw [genDataDirectories, List.flatMap_cons, List.length_append]
      cases id with
      | zero =>
          rw [List.getElem?_cons_zero, Option.some.injEq] at entry
          rw [← entry]
          simp [dataOffset]
      | succ id =>
          have later := @ih id (by simpa using entry)
          rw [dataOffset, List.take_succ_cons, List.map_cons, List.sum_cons]
          rw [dataOffset, genDataDirectories] at later
          omega

/-! ## Mounted images -/

/-- The image of a tree stands in memory and `rdfs_init` has found it. -/
structure Mounted (memory : Memory) (disk : Rdfs) (root : Listing) : Prop where
  stored : memory.Stored disk.rdfsStart (genRamDisk root)
  fits : disk.rdfsStart + (genRamDisk root).length < wordSize
  start_pos : 0 < disk.rdfsStart
  first_eq : disk.firstFile = disk.rdfsStart + PartitionHeader.size
  files_eq : disk.numFiles = root.count + 1

private theorem le_length_genFileDirectories (nodes : List TreeNode) (currOffset : Nat) :
    FileDirEntry.size * nodes.length ≤ (genFileDirectories nodes currOffset).length := by
  induction nodes generalizing currOffset with
  | nil => exact Nat.zero_le _
  | cons node nodes ih =>
      have later := ih (currOffset + node.data.length)
      rw [genFileDirectories, List.length_append, List.length_cons]
      have entry : FileDirEntry.size ≤ (fileEntry node currOffset).length := by
        simp only [fileEntry, List.length_append, Memory.length_littleEndian,
          List.length_singleton, List.length_replicate, rdfsFileNameSize, FileDirEntry.size]
        omega
      rw [Nat.mul_succ]
      omega

theorem length_genRamDisk (root : Listing) :
    PartitionHeader.size + (FileDirEntry.size * (root.count + 1) +
      (genDataDirectories (treeNodes root)).length) ≤ (genRamDisk root).length := by
  have directories := le_length_genFileDirectories (treeNodes root) 0
  rw [length_treeNodes] at directories
  rw [genRamDisk, List.length_append, List.length_append, length_genHeader]
  omega

private theorem stored_header {memory : Memory} {start : Nat} {root : Listing}
    (stored : memory.Stored start (genRamDisk root))
    (fits : start + (genRamDisk root).length < wordSize) :
    PartitionHeader.magicNumber.get memory start = rdfsMagicNumber ∧
      PartitionHeader.fileDirectorySize.get memory start =
        FileDirEntry.size * (root.count + 1) := by
  have long := length_genRamDisk root
  simp only [PartitionHeader.size] at long
  have small : FileDirEntry.size * (root.count + 1) < wordSize := by omega
  rw [genRamDisk, Memory.stored_append, length_treeNodes] at stored
  have header := stored.1
  rw [genHeader, Memory.stored_append] at header
  have magic := header.1
  have directories := header.2
  rw [Memory.stored_append, Memory.stored_append, Memory.stored_append] at directories
  replace directories := directories.2.2.2
  rw [Memory.stored_append] at directories
  constructor
  · rw [Field.get_eq (by simp only [PartitionHeader.magicNumber]; omega)]
    simp only [PartitionHeader.magicNumber, Nat.add_zero]
    rw [Memory.read, Memory.read, Memory.read, magic.1, magic.2.1]
    rfl
  · rw [Field.get_eq (by simp only [PartitionHeader.fileDirectorySize]; omega)]
    have value := directories.1.read_littleEndian
    simp only [Memory.length_littleEndian, List.length_append, List.length_cons, List.length_nil,
      partitionName, List.length_replicate] at value
    rw [Nat.mul_comm, Nat.mod_eq_of_lt (small.trans_eq wordSize_eq_pow)] at value
    exact value

theorem rdfsInit_mounts {memory : Memory} {start : Nat} {root : Listing}
    (stored : memory.Stored start (genRamDisk root))
    (fits : start + (genRamDisk root).length < wordSize) (start_pos : 0 < start) (disk : Rdfs) :
    (rdfsInit memory disk start).2 = 0 ∧ (rdfsInit memory disk start).1.rdfsStart = start ∧
      Mounted memory (rdfsInit memory disk start).1 root := by
  have long := length_genRamDisk root
  simp only [PartitionHeader.size, FileDirEntry.size] at long
  obtain ⟨magic, size⟩ := stored_header stored fits
  have call : rdfsInit memory disk start =
      (⟨start, start + PartitionHeader.size, root.count + 1⟩, 0) := by
    rw [rdfsInit, if_neg (Nat.ne_of_gt start_pos)]
    dsimp only
    rw [if_neg (not_not.mpr magic), size, Nat.mul_div_cancel_left _ (by decide),
      Nat.mod_eq_of_lt (by simp only [PartitionHeader.size]; omega)]
  rw [call]
  exact ⟨rfl, rfl, stored, fits, start_pos, rfl, rfl⟩

/-- Memory with an image placed in it. -/
def placeImage (memory : Memory) (start : Nat) (image : List UInt8) : Memory := fun address =>
  if start ≤ address ∧ address < start + image.length then image.getD (address - start) 0
  else memory address

theorem stored_placeImage (memory : Memory) (start : Nat) (image : List UInt8) :
    (placeImage memory start image).Stored start image := by
  apply Memory.stored_of_get
  intro index byte entry
  have bound := (List.getElem?_eq_some_iff.mp entry).1
  rw [placeImage, if_pos ⟨Nat.le_add_right _ _, Nat.add_lt_add_left bound _⟩,
    Nat.add_sub_cancel_left, List.getD_eq_getElem?_getD, entry, Option.getD_some]

theorem placeImage_below (memory : Memory) {start address : Nat} (image : List UInt8)
    (below : address < start) : placeImage memory start image address = memory address :=
  if_neg fun inside => absurd inside.1 (not_le.mpr below)

/-- The static variables after mounting an image. -/
def mountedDisk (start : Nat) (root : Listing) : Rdfs :=
  ⟨start, start + PartitionHeader.size, root.count + 1⟩

theorem mounted_placeImage (memory : Memory) {start : Nat} {root : Listing} (start_pos : 0 < start)
    (fits : start + (genRamDisk root).length < wordSize) :
    Mounted (placeImage memory start (genRamDisk root)) (mountedDisk start root) root :=
  ⟨stored_placeImage memory start _, fits, start_pos, rfl, rfl⟩

theorem Mounted.congr {before after : Memory} {disk : Rdfs} {root : Listing}
    (mounted : Mounted before disk root)
    (agree : before.AgreeOn after disk.rdfsStart (genRamDisk root).length) :
    Mounted after disk root where
  stored := by
    apply Memory.stored_of_get
    intro index byte entry
    have inside := (List.getElem?_eq_some_iff.mp entry).1
    rw [agree _ (Nat.le_add_right _ _) (Nat.add_lt_add_left inside _)]
    exact mounted.stored.get entry
  fits := mounted.fits
  start_pos := mounted.start_pos
  first_eq := mounted.first_eq
  files_eq := mounted.files_eq

theorem exists_name {listing : Listing} {id : Nat} {node : TreeNode}
    (member : node ∈ (flattenDir listing id).1) : ∃ name : Name, node.name = name.bytes := by
  induction listing generalizing id with
  | nil => cases member
  | file name contents rest ih =>
      rw [flattenDir_file] at member
      rcases List.mem_cons.mp member with rfl | later
      · exact ⟨name, rfl⟩
      · exact ih later
  | directory name children rest inner ih =>
      rw [flattenDir_directory] at member
      rcases List.mem_cons.mp member with rfl | later
      · exact ⟨name, rfl⟩
      · rcases List.mem_append.mp later with inside | behind
        · exact inner inside
        · exact ih behind

theorem storedName_of_namesFit {listing : Listing} (fits : listing.NamesFit) {id : Nat}
    {node : TreeNode} (member : node ∈ (flattenDir listing id).1) :
    node.storedName = node.name ∧ node.storedName.length < rdfsFileNameSize := by
  induction listing generalizing id with
  | nil => cases member
  | file name contents rest ih =>
      rw [flattenDir_file] at member
      rcases List.mem_cons.mp member with rfl | later
      · have stored : TreeNode.storedName ⟨name.bytes, false, id, contents⟩ = name.bytes :=
          if_neg name.nonempty
        exact ⟨stored, by rw [stored]; exact fits.1⟩
      · exact ih fits.2 later
  | directory name children rest inner ih =>
      rw [flattenDir_directory] at member
      rcases List.mem_cons.mp member with rfl | later
      · have stored : TreeNode.storedName
            ⟨name.bytes, true, id, idBytes (children.childIds (id + 1))⟩ = name.bytes :=
          if_neg name.nonempty
        exact ⟨stored, by rw [stored]; exact fits.1⟩
      · rcases List.mem_append.mp later with inside | behind
        · exact inner fits.2.1 inside
        · exact ih fits.2.2 behind

theorem storedName_fits {root : Listing} (fits : root.NamesFit) :
    ∀ node ∈ treeNodes root, node.storedName.length < rdfsFileNameSize := by
  intro node member
  rcases List.mem_cons.mp member with rfl | later
  · rw [TreeNode.storedName, if_pos rfl]
    decide
  · exact (storedName_of_namesFit fits later).2

theorem length_genRamDisk_eq {root : Listing} (fits : root.NamesFit) :
    (genRamDisk root).length = PartitionHeader.size +
      (FileDirEntry.size * (root.count + 1) + (genDataDirectories (treeNodes root)).length) := by
  rw [genRamDisk, List.length_append, List.length_append, length_genHeader,
    length_genFileDirectories (storedName_fits fits), length_treeNodes]

namespace Mounted

variable {memory : Memory} {disk : Rdfs} {root : Listing} {id : Nat} {node : TreeNode}

section Entries

variable (mounted : Mounted memory disk root)

include mounted

theorem entry_eq (bound : id ≤ root.count) :
    disk.entry id = disk.rdfsStart + PartitionHeader.size + FileDirEntry.size * id := by
  have fits := mounted.fits
  have long := length_genRamDisk root
  simp only [PartitionHeader.size, FileDirEntry.size] at long
  rw [Rdfs.entry, mounted.first_eq, Nat.mod_eq_of_lt]
  simp only [PartitionHeader.size, FileDirEntry.size]
  omega

theorem entry_fits (bound : id ≤ root.count) :
    disk.entry id + FileDirEntry.size ≤ disk.rdfsStart + (genRamDisk root).length := by
  have long := length_genRamDisk root
  simp only [PartitionHeader.size, FileDirEntry.size] at long
  rw [mounted.entry_eq bound]
  simp only [PartitionHeader.size, FileDirEntry.size]
  omega

theorem fileDirectorySize_eq : PartitionHeader.fileDirectorySize.get memory disk.rdfsStart =
    FileDirEntry.size * (root.count + 1) :=
  (stored_header mounted.stored mounted.fits).2

theorem magicNumber_eq :
    PartitionHeader.magicNumber.get memory disk.rdfsStart = rdfsMagicNumber :=
  (stored_header mounted.stored mounted.fits).1

variable (names : root.NamesFit) (entry : (treeNodes root)[id]? = some node)

include entry

omit mounted in
theorem id_le : id ≤ root.count := by
  have bound := (List.getElem?_eq_some_iff.mp entry).1
  rw [length_treeNodes] at bound
  omega

include names

private theorem stored_entry : memory.Stored (disk.entry id)
    (fileEntry node (dataOffset (treeNodes root) id)) := by
  have stored := mounted.stored
  rw [genRamDisk, Memory.stored_append, Memory.stored_append, length_genHeader] at stored
  have placed := stored_fileEntry (storedName_fits names) stored.2.1 entry
  rwa [Nat.zero_add, ← mounted.entry_eq (id_le entry)] at placed

private theorem stored_parts :
    memory.Stored (disk.entry id + 8)
        [UInt8.ofNat (if node.isDir then rdfsFileTypeDir else rdfsFileTypeFile)] ∧
      memory.Stored (disk.entry id + 9)
        (node.storedName ++ List.replicate (rdfsFileNameSize - node.storedName.length) 0) ∧
      memory.Stored (disk.entry id + 80)
        (Memory.littleEndian 8 (dataOffset (treeNodes root) id)) ∧
      memory.Stored (disk.entry id + 88) (Memory.littleEndian 8 node.data.length) := by
  have small := storedName_fits names node (List.mem_of_getElem? entry)
  have stored := mounted.stored_entry names entry
  rw [fileEntry, ← TreeNode.storedName, Memory.stored_append, Memory.stored_append,
    Memory.length_littleEndian, List.length_singleton, Memory.stored_append] at stored
  obtain ⟨-, type, name, sizes⟩ := stored
  rw [Memory.stored_append, Memory.length_littleEndian] at sizes
  simp only [rdfsFileNameSize] at small
  have padded : disk.entry id + 8 + 1 + (node.storedName ++
      List.replicate (rdfsFileNameSize - node.storedName.length) 0).length =
        disk.entry id + 80 := by
    simp only [List.length_append, List.length_replicate, rdfsFileNameSize]
    omega
  rw [padded] at sizes
  exact ⟨type, name, sizes⟩

theorem fileType_eq : FileDirEntry.fileType.get memory (disk.entry id) =
    if node.isDir then rdfsFileTypeDir else rdfsFileTypeFile := by
  have fits := mounted.fits
  have inside := mounted.entry_fits (id_le entry)
  simp only [FileDirEntry.size] at inside
  have type := (mounted.stored_parts names entry).1.1
  rw [Field.get_eq (by simp only [FileDirEntry.fileType]; omega)]
  simp only [FileDirEntry.fileType, Memory.read, type]
  cases node.isDir with
  | false => rfl
  | true => rfl

theorem stored_name :
    Memory.Stored (disk.filenameAt memory id) 0 (node.storedName ++ [0]) := by
  have fits := mounted.fits
  have inside := mounted.entry_fits (id_le entry)
  simp only [FileDirEntry.size] at inside
  have small := storedName_fits names node (List.mem_of_getElem? entry)
  simp only [rdfsFileNameSize] at small
  have name := (mounted.stored_parts names entry).2.1
  rw [show rdfsFileNameSize - node.storedName.length =
    (rdfsFileNameSize - 1 - node.storedName.length) + 1 by simp only [rdfsFileNameSize]; omega,
    List.replicate_succ, List.append_cons, Memory.stored_append] at name
  refine stored_charAt name.1 ?_
  rw [List.length_append, List.length_singleton, FileDirEntry.filename]
  omega

theorem entrySize_eq : disk.entrySize memory id = node.data.length := by
  have fits := mounted.fits
  have inside := mounted.entry_fits (id_le entry)
  have long := length_genRamDisk root
  have data := dataOffset_le entry
  simp only [FileDirEntry.size] at inside
  simp only [PartitionHeader.size] at long
  have size := (mounted.stored_parts names entry).2.2.2.read_littleEndian
  rw [Nat.mod_eq_of_lt (by rw [← wordSize_eq_pow]; omega)] at size
  rw [Rdfs.entrySize, Field.get_eq (by simp only [FileDirEntry.dataEntrySize]; omega)]
  exact size

theorem dataLocation_eq : disk.dataLocation memory id = disk.rdfsStart + PartitionHeader.size +
    FileDirEntry.size * (root.count + 1) + dataOffset (treeNodes root) id := by
  have fits := mounted.fits
  have inside := mounted.entry_fits (id_le entry)
  have data := dataOffset_le entry
  have length := length_genRamDisk root
  have offset := (mounted.stored_parts names entry).2.2.1.read_littleEndian
  simp only [FileDirEntry.size] at inside
  have header_pos : 0 < PartitionHeader.size := by decide
  have entry_pos : 0 < FileDirEntry.size * (root.count + 1) :=
    Nat.mul_pos (by decide) (Nat.succ_pos _)
  rw [Nat.mod_eq_of_lt (by rw [← wordSize_eq_pow]; omega)] at offset
  rw [Rdfs.dataLocation, mounted.fileDirectorySize_eq,
    Field.get_eq (by simp only [FileDirEntry.dataBlockOffset]; omega)]
  simp only [FileDirEntry.dataBlockOffset]
  rw [offset, Nat.mod_eq_of_lt (by omega)]
  omega

theorem stored_node_data : memory.Stored (disk.dataLocation memory id) node.data ∧
    disk.rdfsStart ≤ disk.dataLocation memory id ∧
    disk.dataLocation memory id + node.data.length ≤
      disk.rdfsStart + (genRamDisk root).length := by
  have data := dataOffset_le entry
  have directories := length_genFileDirectories (storedName_fits names) 0
  have length := length_genRamDisk_eq names
  have stored := mounted.stored
  rw [genRamDisk, Memory.stored_append, Memory.stored_append, length_genHeader, directories,
    length_treeNodes] at stored
  have placed := stored_data stored.2.2 entry
  rw [mounted.dataLocation_eq names entry]
  exact ⟨placed, by omega, by omega⟩

end Entries
end Mounted
end PellOs
