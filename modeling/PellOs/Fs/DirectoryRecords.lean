import PellOs.Fs.Image

/-!
# Records of the file directory

`genFileDirectories` on any list of entries, with the calls that can raise.  A name is padded to 71
characters and never cut, so the records keep their stride and their terminators exactly as long as
every name is shorter than its field.
-/

namespace PellOs

/-! ## The generator -/

/-- An element of `flist`, without the path, which `genFileDirectories` ignores. -/
structure FlatEntry where
  name : List Char
  size : Nat
  isDir : Bool
  fileId : Nat

/-- `value.to_bytes(width, 'little')`, which raises when the value does not fit. -/
def toBytes (width value : Nat) : Option (List UInt8) :=
  if value < 256 ^ width then some (Memory.littleEndian width value) else none

/-- `bytes(values)`, which raises for a value above 255. -/
def byteList (values : List Nat) : Option (List UInt8) :=
  if ∀ value ∈ values, value < 256 then some (values.map UInt8.ofNat) else none

namespace FlatEntry

/-- `name`, where the empty name of the root becomes `"/"`. -/
def storedName (entry : FlatEntry) : List Char := if entry.name = [] then ['/'] else entry.name

/-- `dir_type`. -/
def dirType (entry : FlatEntry) : Nat := if entry.isDir then rdfsFileTypeDir else rdfsFileTypeFile

/-- `name_list`. -/
def nameList (entry : FlatEntry) : List Nat :=
  entry.storedName.map Char.toNat ++
    List.replicate (rdfsFileNameSize - entry.storedName.length) 0

/-- What one pass of the loop appends. -/
def record (entry : FlatEntry) (currOffset : Nat) : Option (List UInt8) := do
  let fileId ← toBytes 8 entry.fileId
  let fileType ← toBytes 1 entry.dirType
  let filename ← byteList entry.nameList
  let dataBlockOffset ← toBytes 8 currOffset
  let dataEntrySize ← toBytes 8 entry.size
  return fileId ++ (fileType ++ (filename ++ (dataBlockOffset ++ dataEntrySize)))

end FlatEntry

/-- `genFileDirectories` from a value of `curr_offset` on; `none` when it raises. -/
def genFileDirectoriesFrom : List FlatEntry → Nat → Option (List UInt8)
  | [], _ => some []
  | entry :: rest, currOffset => do
      let record ← entry.record currOffset
      let records ← genFileDirectoriesFrom rest (currOffset + entry.size)
      return record ++ records

/-! ## What it returns -/

theorem toBytes_eq_some {width value : Nat} {bytes : List UInt8}
    (returned : toBytes width value = some bytes) :
    value < 256 ^ width ∧ bytes = Memory.littleEndian width value := by
  rw [toBytes] at returned
  split_ifs at returned with fits
  exact ⟨fits, (Option.some.inj returned).symm⟩

theorem byteList_eq_some {values : List Nat} {bytes : List UInt8}
    (returned : byteList values = some bytes) : bytes = values.map UInt8.ofNat := by
  rw [byteList] at returned
  split_ifs at returned
  exact (Option.some.inj returned).symm

namespace FlatEntry

/-- The bytes of the `filename` field and of what runs over it. -/
def nameBytes (entry : FlatEntry) : List UInt8 := entry.nameList.map UInt8.ofNat

variable {entry : FlatEntry} {currOffset : Nat} {bytes : List UInt8}

theorem record_eq_some (returned : entry.record currOffset = some bytes) :
    entry.fileId < 256 ^ 8 ∧ currOffset < 256 ^ 8 ∧ entry.size < 256 ^ 8 ∧
      bytes = Memory.littleEndian 8 entry.fileId ++ (Memory.littleEndian 1 entry.dirType ++
        (entry.nameBytes ++ (Memory.littleEndian 8 currOffset ++
          Memory.littleEndian 8 entry.size))) := by
  simp only [record, Option.bind_eq_bind, Option.bind_eq_some_iff, Option.pure_def,
    Option.some.injEq] at returned
  obtain ⟨fileId, id_returned, fileType, type_returned, filename, name_returned, offset,
    offset_returned, size, size_returned, rfl⟩ := returned
  obtain ⟨id_fits, rfl⟩ := toBytes_eq_some id_returned
  obtain ⟨-, rfl⟩ := toBytes_eq_some type_returned
  obtain ⟨offset_fits, rfl⟩ := toBytes_eq_some offset_returned
  obtain ⟨size_fits, rfl⟩ := toBytes_eq_some size_returned
  rw [byteList_eq_some name_returned]
  exact ⟨id_fits, offset_fits, size_fits, rfl⟩

theorem length_nameBytes (entry : FlatEntry) : entry.nameBytes.length =
    rdfsFileNameSize + (entry.storedName.length - rdfsFileNameSize) := by
  simp only [nameBytes, nameList, List.length_map, List.length_append, List.length_replicate]
  omega

/-- Every character above the field makes the record longer. -/
theorem length_record (returned : entry.record currOffset = some bytes) :
    bytes.length = FileDirEntry.size + (entry.storedName.length - rdfsFileNameSize) := by
  obtain ⟨-, -, -, rfl⟩ := record_eq_some returned
  simp only [List.length_append, Memory.length_littleEndian, length_nameBytes, rdfsFileNameSize,
    FileDirEntry.size]
  omega

end FlatEntry

/-! ## Decoding -/

/-- The bytes of record `i`, as the memory of an `rdfs_file_dir_entry_t`. -/
def recordAt (bytes : List UInt8) (i : Nat) : Memory :=
  placeImage (fun _ => 0) 0 ((bytes.drop (FileDirEntry.size * i)).take FileDirEntry.size)

/-- The field `filename` of a record. -/
def filenameField (memory : Memory) : List UInt8 :=
  memory.bytes FileDirEntry.filename rdfsFileNameSize

/-- A record decodes to an entry whose data start at an offset. -/
structure Decodes (memory : Memory) (entry : FlatEntry) (offset : Nat) : Prop where
  fileId : FileDirEntry.fileId.get memory 0 = entry.fileId
  fileType : FileDirEntry.fileType.get memory 0 = entry.dirType
  dataBlockOffset : FileDirEntry.dataBlockOffset.get memory 0 = offset
  dataEntrySize : FileDirEntry.dataEntrySize.get memory 0 = entry.size
  terminated : 0 ∈ filenameField memory
  filename : (filenameField memory).takeWhile (· ≠ 0) =
    entry.storedName.map fun character => UInt8.ofNat character.toNat

/-- Record `i` of the output starts at byte `96 * i` and decodes to entry `i`. -/
structure Framed (entries : List FlatEntry) (bytes : List UInt8) : Prop where
  length : bytes.length = FileDirEntry.size * entries.length
  decodes : ∀ i entry, entries[i]? = some entry →
    Decodes (recordAt bytes i) entry ((entries.take i).map FlatEntry.size).sum

/-- A name of ASCII characters without NUL. -/
def FlatEntry.Ascii (entry : FlatEntry) : Prop :=
  ∀ character ∈ entry.name, 0 < character.toNat ∧ character.toNat < 128

namespace FlatEntry

variable {entry : FlatEntry} {currOffset : Nat} {bytes : List UInt8}

theorem storedName_nonzero (ascii : entry.Ascii) :
    ∀ byte ∈ entry.storedName.map fun character => UInt8.ofNat character.toNat, byte ≠ 0 := by
  intro byte member
  obtain ⟨character, inside, rfl⟩ := List.mem_map.mp member
  have bounds : 0 < character.toNat ∧ character.toNat < 128 := by
    rw [storedName] at inside
    split_ifs at inside with empty
    · rw [List.mem_singleton.mp inside]
      decide
    · exact ascii character inside
  intro zero
  have value := congrArg UInt8.toNat zero
  rw [UInt8.toNat_ofNat', Nat.mod_eq_of_lt (by omega)] at value
  exact absurd value (Nat.ne_of_gt bounds.1)

theorem nameBytes_eq (entry : FlatEntry) : entry.nameBytes =
    (entry.storedName.map fun character => UInt8.ofNat character.toNat) ++
      List.replicate (rdfsFileNameSize - entry.storedName.length) 0 := by
  rw [nameBytes, nameList, List.map_append, List.map_map, List.map_replicate]
  rfl

theorem nameBytes_takeWhile (ascii : entry.Ascii) : entry.nameBytes.takeWhile (· ≠ 0) =
    entry.storedName.map fun character => UInt8.ofNat character.toNat := by
  have plain := storedName_nonzero ascii
  rw [nameBytes_eq,
    List.takeWhile_append_of_pos fun byte member => by simpa using plain byte member]
  cases rdfsFileNameSize - entry.storedName.length with
  | zero => rw [List.replicate_zero, List.takeWhile_nil, List.append_nil]
  | succ count =>
      rw [List.replicate_succ, List.takeWhile_cons_of_neg (by simp), List.append_nil]

theorem zero_mem_nameBytes (ascii : entry.Ascii) :
    0 ∈ entry.nameBytes ↔ entry.storedName.length < rdfsFileNameSize := by
  have plain := storedName_nonzero ascii
  rw [nameBytes_eq, List.mem_append, or_iff_right fun member => plain 0 member rfl,
    List.mem_replicate, and_iff_left rfl]
  omega

theorem stored_record (returned : entry.record currOffset = some bytes)
    (fits : entry.storedName.length ≤ rdfsFileNameSize) {memory : Memory}
    (stored : memory.Stored 0 bytes) :
    FileDirEntry.fileId.get memory 0 = entry.fileId ∧
      FileDirEntry.fileType.get memory 0 = entry.dirType ∧
      FileDirEntry.dataBlockOffset.get memory 0 = currOffset ∧
      FileDirEntry.dataEntrySize.get memory 0 = entry.size ∧
      filenameField memory = entry.nameBytes := by
  obtain ⟨id_fits, offset_fits, size_fits, rfl⟩ := record_eq_some returned
  have width : entry.nameBytes.length = rdfsFileNameSize := by
    rw [length_nameBytes]
    omega
  have type_fits : entry.dirType < 256 ^ 1 := by
    rw [dirType]
    split_ifs <;> decide
  rw [Memory.stored_append, Memory.length_littleEndian, Memory.stored_append,
    Memory.length_littleEndian, Memory.stored_append, width, Memory.stored_append,
    Memory.length_littleEndian] at stored
  obtain ⟨id, type, name, offset, size⟩ := stored
  have filename := (Memory.stored_iff_bytes _ _ _).mp name
  rw [width] at filename
  refine ⟨?_, ?_, ?_, ?_, filename⟩
  · exact id.read_littleEndian.trans (Nat.mod_eq_of_lt id_fits)
  · exact type.read_littleEndian.trans (Nat.mod_eq_of_lt type_fits)
  · exact offset.read_littleEndian.trans (Nat.mod_eq_of_lt offset_fits)
  · exact size.read_littleEndian.trans (Nat.mod_eq_of_lt size_fits)

theorem decodes_iff (ascii : entry.Ascii) (returned : entry.record currOffset = some bytes)
    (fits : entry.storedName.length ≤ rdfsFileNameSize) {memory : Memory}
    (stored : memory.Stored 0 bytes) :
    Decodes memory entry currOffset ↔ entry.storedName.length < rdfsFileNameSize := by
  obtain ⟨id, type, offset, size, filename⟩ := stored_record returned fits stored
  refine ⟨fun decodes => ?_, fun room => ⟨id, type, offset, size, ?_, ?_⟩⟩
  · rw [← zero_mem_nameBytes ascii, ← filename]
    exact decodes.terminated
  · rwa [filename, zero_mem_nameBytes ascii]
  · rw [filename, nameBytes_takeWhile ascii]

end FlatEntry

/-! ## Lists of records -/

/-- The name of an entry fits into the field, perhaps without a terminator. -/
def NamesFill (entries : List FlatEntry) : Prop :=
  ∀ entry ∈ entries, entry.storedName.length ≤ rdfsFileNameSize

section Records

variable {entries : List FlatEntry} {currOffset : Nat} {bytes : List UInt8}

private theorem genFileDirectoriesFrom_cons {entry : FlatEntry}
    (returned : genFileDirectoriesFrom (entry :: entries) currOffset = some bytes) :
    ∃ record records, entry.record currOffset = some record ∧
      genFileDirectoriesFrom entries (currOffset + entry.size) = some records ∧
      bytes = record ++ records := by
  simp only [genFileDirectoriesFrom, Option.bind_eq_bind, Option.bind_eq_some_iff, Option.pure_def,
    Option.some.injEq] at returned
  obtain ⟨record, first, records, later, rfl⟩ := returned
  exact ⟨record, records, first, later, rfl⟩

/-- The records are at least as long as their stride, and no longer only when every name fits. -/
theorem length_genFileDirectoriesFrom
    (returned : genFileDirectoriesFrom entries currOffset = some bytes) :
    FileDirEntry.size * entries.length ≤ bytes.length ∧
      (bytes.length = FileDirEntry.size * entries.length ↔ NamesFill entries) := by
  induction entries generalizing currOffset bytes with
  | nil =>
      cases returned
      exact ⟨Nat.le_refl _, fun _ entry member => (List.not_mem_nil member).elim, fun _ => rfl⟩
  | cons entry entries ih =>
      obtain ⟨record, records, first, later, rfl⟩ := genFileDirectoriesFrom_cons returned
      obtain ⟨long, exact⟩ := ih later
      have length := FlatEntry.length_record first
      have fill : NamesFill (entry :: entries) ↔
          entry.storedName.length ≤ rdfsFileNameSize ∧ NamesFill entries := List.forall_mem_cons
      rw [List.length_append, length, List.length_cons, Nat.mul_succ, fill, ← exact]
      constructor
      · omega
      · omega

theorem record_getElem? (returned : genFileDirectoriesFrom entries currOffset = some bytes)
    (fill : NamesFill entries) {i : Nat} {entry : FlatEntry} (listed : entries[i]? = some entry) :
    entry.record (currOffset + ((entries.take i).map FlatEntry.size).sum) =
      some ((bytes.drop (FileDirEntry.size * i)).take FileDirEntry.size) := by
  induction entries generalizing currOffset bytes i with
  | nil => simp at listed
  | cons first entries ih =>
      obtain ⟨record, records, here, later, rfl⟩ := genFileDirectoriesFrom_cons returned
      have width : record.length = FileDirEntry.size := by
        rw [FlatEntry.length_record here, Nat.sub_eq_zero_of_le (fill first List.mem_cons_self),
          Nat.add_zero]
      cases i with
      | zero =>
          rw [List.getElem?_cons_zero, Option.some.injEq] at listed
          rw [← listed, Nat.mul_zero, List.drop_zero, List.take_zero, List.map_nil, List.sum_nil,
            Nat.add_zero, here, ← width, List.take_left]
      | succ i =>
          have behind := ih later (fun other member => fill other (List.mem_cons_of_mem _ member))
            (by simpa using listed)
          rw [List.take_succ_cons, List.map_cons, List.sum_cons, ← Nat.add_assoc, behind,
            Nat.mul_succ, Nat.add_comm (FileDirEntry.size * i), ← width, ← List.drop_drop,
            List.drop_left, width]

/-- When `genFileDirectories` returns, its records are framed exactly if every name has at most 70
characters. -/
theorem genFileDirectories_framed_iff (ascii : ∀ entry ∈ entries, entry.Ascii)
    (returned : genFileDirectoriesFrom entries 0 = some bytes) :
    Framed entries bytes ↔ ∀ entry ∈ entries, entry.name.length < rdfsFileNameSize := by
  have length := (length_genFileDirectoriesFrom returned).2
  have short : ∀ entry : FlatEntry, entry.storedName.length < rdfsFileNameSize ↔
      entry.name.length < rdfsFileNameSize := by
    intro entry
    rw [FlatEntry.storedName]
    split_ifs with empty
    · simp [empty, rdfsFileNameSize]
    · rfl
  have decodes : NamesFill entries → ∀ i entry, entries[i]? = some entry →
      (Decodes (recordAt bytes i) entry ((entries.take i).map FlatEntry.size).sum ↔
        entry.storedName.length < rdfsFileNameSize) := by
    intro fill i entry listed
    have member := List.mem_of_getElem? listed
    have record := record_getElem? returned fill listed
    rw [Nat.zero_add] at record
    exact entry.decodes_iff (ascii entry member) record (fill entry member)
      (stored_placeImage _ _ _)
  constructor
  · intro framed entry member
    obtain ⟨i, listed⟩ := List.mem_iff_getElem?.mp member
    exact (short entry).mp ((decodes (length.mp framed.length) i entry listed).mp
      (framed.decodes i entry listed))
  · intro names
    have fill : NamesFill entries :=
      fun entry member => Nat.le_of_lt ((short entry).mpr (names entry member))
    exact ⟨length.mpr fill, fun i entry listed => (decodes fill i entry listed).mpr
      ((short entry).mpr (names entry (List.mem_of_getElem? listed)))⟩

end Records

/-- The file `a` of one byte. -/
theorem genFileDirectories_framed_iff_one : ∃ bytes,
    genFileDirectoriesFrom [⟨['a'], 1, false, 1⟩] 0 = some bytes ∧
      (Framed [⟨['a'], 1, false, 1⟩] bytes ↔
        ∀ entry ∈ [(⟨['a'], 1, false, 1⟩ : FlatEntry)], entry.name.length < rdfsFileNameSize) := by
  obtain ⟨bytes, returned⟩ := Option.isSome_iff_exists.mp
    (show (genFileDirectoriesFrom [⟨['a'], 1, false, 1⟩] 0).isSome = true by decide)
  refine ⟨bytes, returned, genFileDirectories_framed_iff (fun entry member => ?_) returned⟩
  rw [List.mem_singleton.mp member]
  intro character inside
  rw [List.mem_singleton.mp inside]
  decide

/-! ## The entries of a tree -/

/-- The element of `flist` for a node. -/
def TreeNode.flat (node : TreeNode) : FlatEntry :=
  ⟨node.name.map fun byte => Char.ofNat byte.toNat, node.data.length, node.isDir, node.id⟩

private theorem toNat_ofNat_byte (byte : UInt8) : (Char.ofNat byte.toNat).toNat = byte.toNat := by
  have bound := byte.toNat_lt
  rw [Char.ofNat, dif_pos (Or.inl (by omega))]
  rfl

private theorem storedName_flat (node : TreeNode) :
    node.flat.storedName = node.storedName.map fun byte => Char.ofNat byte.toNat := by
  rw [FlatEntry.storedName, TreeNode.storedName, TreeNode.flat]
  cases node.name with
  | nil => rfl
  | cons byte name => rfl

theorem TreeNode.record_flat {node : TreeNode} (id_lt : node.id < wordSize) {currOffset : Nat}
    (offset_lt : currOffset < wordSize) (size_lt : node.data.length < wordSize) :
    node.flat.record currOffset = some (fileEntry node currOffset) := by
  have characters : node.storedName.map (Char.toNat ∘ fun byte => Char.ofNat byte.toNat) =
      node.storedName.map UInt8.toNat :=
    List.map_congr_left fun byte _ => toNat_ofNat_byte byte
  have bytes : node.storedName.map (UInt8.ofNat ∘ UInt8.toNat) = node.storedName :=
    (List.map_congr_left fun byte _ => @UInt8.ofNat_toNat byte).trans (List.map_id _)
  have name : byteList node.flat.nameList =
      some (node.storedName ++ List.replicate (rdfsFileNameSize - node.storedName.length) 0) := by
    rw [byteList, FlatEntry.nameList, storedName_flat, List.map_map, characters, List.length_map,
      if_pos ?_, List.map_append, List.map_map, bytes, List.map_replicate]
    · rfl
    · intro value member
      rcases List.mem_append.mp member with stored | padding
      · obtain ⟨byte, -, rfl⟩ := List.mem_map.mp stored
        exact byte.toNat_lt
      · rw [(List.mem_replicate.mp padding).2]
        decide
  have type : toBytes 1 node.flat.dirType =
      some [UInt8.ofNat (if node.isDir then rdfsFileTypeDir else rdfsFileTypeFile)] := by
    rw [FlatEntry.dirType, TreeNode.flat]
    cases node.isDir with
    | false => rfl
    | true => rfl
  have word : ∀ {value}, value < wordSize →
      toBytes 8 value = some (Memory.littleEndian 8 value) :=
    fun bound => if_pos (bound.trans_eq wordSize_eq_pow)
  rw [FlatEntry.record, name, type, word (show node.flat.fileId < _ from id_lt), word offset_lt,
    word (show node.flat.size < _ from size_lt)]
  rfl

theorem genFileDirectoriesFrom_flat {nodes : List TreeNode} {currOffset : Nat}
    (ids : ∀ node ∈ nodes, node.id < wordSize)
    (data : currOffset + (genDataDirectories nodes).length < wordSize) :
    genFileDirectoriesFrom (nodes.map TreeNode.flat) currOffset =
      some (genFileDirectories nodes currOffset) := by
  induction nodes generalizing currOffset with
  | nil => rfl
  | cons node nodes ih =>
      rw [genDataDirectories, List.flatMap_cons, List.length_append] at data
      have later := @ih (currOffset + node.data.length)
        (fun other member => ids other (List.mem_cons_of_mem _ member))
        (by rw [genDataDirectories]; omega)
      rw [List.map_cons, genFileDirectoriesFrom,
        TreeNode.record_flat (ids node List.mem_cons_self) (by omega) (by omega)]
      rw [show node.flat.size = node.data.length from rfl, later]
      rfl

/-- A name of 72 characters makes its record one byte too long. -/
theorem longName_not_framed : ∃ bytes,
    genFileDirectoriesFrom [⟨List.replicate 72 'a', 1, false, 1⟩] 0 = some bytes ∧
      (∀ entry ∈ [(⟨List.replicate 72 'a', 1, false, 1⟩ : FlatEntry)], entry.Ascii) ∧
      ¬ Framed [⟨List.replicate 72 'a', 1, false, 1⟩] bytes := by
  have flat : (⟨List.replicate 72 97, false, 1, [7]⟩ : TreeNode).flat =
      ⟨List.replicate 72 'a', 1, false, 1⟩ := by
    rw [TreeNode.flat, List.map_replicate]
    rfl
  have returned := @genFileDirectoriesFrom_flat [⟨List.replicate 72 97, false, 1, [7]⟩] 0
    (fun node member => by rw [List.mem_singleton.mp member]; decide) (by decide)
  rw [List.map_singleton, flat] at returned
  refine ⟨_, returned, fun entry member => ?_, fun framed => ?_⟩
  · rw [List.mem_singleton.mp member]
    intro character inside
    rw [(List.mem_replicate.mp inside).2]
    decide
  · have fill := (length_genFileDirectoriesFrom returned).2.mp framed.length _ List.mem_cons_self
    exact absurd fill (by decide)

end PellOs
