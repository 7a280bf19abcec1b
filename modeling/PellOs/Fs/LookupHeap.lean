import PellOs.Fs.LookupMemory
import PellOs.Fs.RoundTrip

/-!
# Lookups that the heap serves

Over a heap that hands out two blocks for each component and takes them back, the lookup in memory
does what the lookup without blocks does, as long as it stays in the directories of the tree.
-/

namespace PellOs

/-- The memories differ in the range only. -/
def SameOutside (low high : Nat) (before after : Memory) : Prop :=
  ∀ address, address < low ∨ high ≤ address → after address = before address

namespace SameOutside

variable {low high inner innerHigh : Nat} {first second third : Memory}

theorem trans (front : SameOutside low high first second)
    (back : SameOutside low high second third) : SameOutside low high first third :=
  fun address off => (back address off).trans (front address off)

theorem mono (same : SameOutside inner innerHigh first second) (lower : low ≤ inner)
    (upper : innerHigh ≤ high) : SameOutside low high first second :=
  fun address off => same address (by omega)

theorem agreeOn (same : SameOutside low high first second) {address count : Nat}
    (off : address + count ≤ low ∨ high ≤ address) : first.AgreeOn second address count :=
  fun target lower upper => same target (by omega)

end SameOutside

/-- No regular file has a name further on in the path. -/
def ThroughDirectories (listing : Listing) (id : Nat) (names : List Name) : Prop :=
  ∀ front back found contents, names = front ++ back → back ≠ [] →
    ¬ NodeAt listing id front found (.file contents)

theorem ThroughDirectories.child {listing children : Listing} {id found : Nat} {name : Name}
    {rest : List Name} (through : ThroughDirectories listing id (name :: rest))
    (here : HasEntry listing id name.bytes found (.directory children)) :
    ThroughDirectories children (found + 1) rest := by
  intro front back last contents shape nonempty node
  exact through (name :: front) back last contents (by rw [shape, List.cons_append]) nonempty
    (.inside here node)

theorem NodeAt.through {listing : Listing} {id found : Nat} {names : List Name} {entry : Entry}
    (node : NodeAt listing id names found entry) (distinct : listing.Distinct) :
    ThroughDirectories listing id names := by
  induction node with
  | entry here =>
      intro front back other contents shape nonempty file
      cases front with
      | nil => cases file
      | cons first front =>
          obtain ⟨-, rest⟩ := List.cons.inj shape
          exact nonempty (List.append_eq_nil_iff.mp rest.symm).2
  | inside here below ih =>
      intro front back other contents shape nonempty file
      cases front with
      | nil => cases file
      | cons first front =>
          obtain ⟨rfl, rest⟩ := List.cons.inj shape
          cases file with
          | entry there => cases (here.unique distinct there).2
          | inside there below =>
              obtain ⟨rfl, same⟩ := here.unique distinct there
              cases same
              exact ih (here.distinct distinct) front back other contents rest nonempty below

namespace KernelHeap

/-! ## Stores to the blocks -/

section Stores

variable {memory : Memory} {path : Nat → UInt8}

theorem copyWords_outside {fileList fileIds count : Nat}
    (fits : fileList + 8 * count ≤ wordSize) :
    SameOutside fileList (fileList + 8 * count) memory
      (copyWords fileList fileIds count memory) := by
  induction count with
  | zero => exact fun _ _ => rfl
  | succ count ih =>
      intro address off
      rw [copyWords, wordAddress, Nat.mod_eq_of_lt (by omega), Memory.write_outside _ (by omega)]
      exact ih (by omega) address (by omega)

theorem copyWords_read {fileList fileIds count k : Nat}
    (fits : fileList + 8 * count ≤ wordSize) (source_fits : fileIds + 8 * count ≤ wordSize)
    (apart : fileIds + 8 * count ≤ fileList ∨ fileList + 8 * count ≤ fileIds) (bound : k < count) :
    (copyWords fileList fileIds count memory).read (wordAddress fileList k) 8 =
      memory.read (wordAddress fileIds k) 8 := by
  induction count with
  | zero => omega
  | succ count ih =>
      have here : ∀ index ≤ count, wordAddress fileList index = fileList + 8 * index :=
        fun index small => Nat.mod_eq_of_lt (by omega)
      have source : ∀ index ≤ count, wordAddress fileIds index = fileIds + 8 * index :=
        fun index small => Nat.mod_eq_of_lt (by omega)
      rw [copyWords, here k (by omega), here count (le_refl _)]
      rcases Nat.eq_or_lt_of_le (Nat.le_of_lt_succ bound) with rfl | before
      · rw [Memory.read_write_same, Nat.mod_eq_of_lt (Memory.read_lt _ _ _), source k (le_refl _)]
        refine Memory.read_congr fun address lower upper => ?_
        exact copyWords_outside (by omega) address (by omega)
      · rw [Memory.read_write_disjoint _ (by omega), ← here k (by omega)]
        exact ih (by omega) (by omega) (by omega) before

theorem storeName_outside {nextFilename start i : Nat} (nonempty : i ≠ 0) :
    SameOutside nextFilename (nextFilename + (i + 1)) memory
      (storeName path memory nextFilename start i) := by
  intro address off
  rw [storeName, Memory.writeByte_of_ne _ (by omega), placeImage, if_neg]
  rw [componentBytes, List.length_map, List.length_range, copied, if_neg nonempty]
  omega

theorem storeName_stored {nextFilename start i : Nat} (nonempty : i ≠ 0) :
    (storeName path memory nextFilename start i).Stored nextFilename
      (componentBytes path start i ++ [0]) := by
  have length : (componentBytes path start i).length = i := by
    rw [componentBytes, List.length_map, List.length_range]
  have placed := stored_placeImage memory nextFilename (componentBytes path start (copied i))
  rw [copied, if_neg nonempty] at placed
  rw [Memory.stored_append, length, storeName, copied, if_neg nonempty]
  refine ⟨Memory.stored_of_get fun index byte entry => ?_, Memory.writeByte_same .., trivial⟩
  have inside := (List.getElem?_eq_some_iff.mp entry).1
  rw [Memory.writeByte_of_ne _ (by omega)]
  exact placed.get entry

end Stores

/-! ## Comparing strings -/

section Strings

variable {kernel : KernelHeap} {disk : Rdfs} {memory : Memory} {left right : Nat}
  {string other : List UInt8}

theorem sameString_iff_eq (left_string : IsString (charAt memory left) string)
    (right_string : IsString (charAt memory right) other) (short : string.length < wordSize) :
    SameString memory left right ↔ string = other := by
  constructor
  · rintro ⟨last, -, zero, same⟩
    have long : string.length ≤ last := by
      by_contra before
      exact left_string.get_ne_zero (not_le.mp before) zero
    refine IsString.eq_of_isString ⟨left_string.no_nul, Memory.stored_of_get ?_⟩ right_string
    intro index byte entry
    have inside := (List.getElem?_eq_some_iff.mp entry).1
    rw [List.length_append, List.length_singleton] at inside
    rw [Nat.zero_add, ← same index (by omega), ← Nat.zero_add index]
    exact left_string.stored.get entry
  · rintro rfl
    refine ⟨string.length, short, left_string.at_length, fun k before => ?_⟩
    have inside : k < (string ++ [0]).length := by
      rw [List.length_append, List.length_singleton]
      omega
    have entry := List.getElem?_eq_getElem inside
    rw [← Nat.zero_add k, left_string.stored.get entry, right_string.stored.get entry]

/-- Two strings that can be read are compared, with zero for equal ones. -/
theorem strcmp_strings (left_string : IsString (charAt memory left) string)
    (right_string : IsString (charAt memory right) other) (short : string.length < wordSize)
    (left_mapped : ∀ k ≤ string.length, kernel.mapped ((left + k) % wordSize) = true)
    (right_mapped : ∀ k ≤ other.length, kernel.mapped ((right + k) % wordSize) = true) :
    ∃ order, kernel.strcmp memory left right wordSize 0 = some order ∧
      (order = 0 ↔ string = other) := by
  have comparable : kernel.Comparable memory left right := by
    refine ⟨min string.length other.length, by omega, ?_, fun k before =>
      ⟨left_mapped k (by omega), right_mapped k (by omega)⟩⟩
    rcases Nat.le_total string.length other.length with first | first
    · rw [Nat.min_eq_left first]
      exact Or.inl left_string.at_length
    · rw [Nat.min_eq_right first]
      exact Or.inr (Or.inl right_string.at_length)
  obtain ⟨order, call⟩ := Option.isSome_iff_exists.mp (comparable_iff.mp comparable)
  exact ⟨order, call, (sameString_iff call).trans
    (sameString_iff_eq left_string right_string short)⟩

/-- A search over names that can all be compared finds the first hit. -/
theorem search_eq {fileList nextFilename : Nat} {hit : Nat → Prop} [DecidablePred hit]
    {front back : List Nat}
    (words : ∀ k (bound : k < (front ++ back).length),
      memory.read (wordAddress fileList k) 8 = (front ++ back)[k])
    (compared : ∀ id ∈ back, ∃ order,
      kernel.strcmp memory (filename disk id) nextFilename wordSize 0 = some order ∧
        (order = 0 ↔ hit id)) :
    kernel.rdfsGetFileIdFromListAndName disk memory fileList nextFilename back.length
      front.length = some (back.find? fun id => hit id) := by
  induction back generalizing front with
  | nil => rfl
  | cons id back ih =>
      have here := words front.length (by simp)
      rw [List.getElem_append_right (le_refl _)] at here
      simp only [Nat.sub_self, List.getElem_cons_zero] at here
      obtain ⟨order, call, zero⟩ := compared id List.mem_cons_self
      rw [List.length_cons, rdfsGetFileIdFromListAndName, here, call, Option.bind_some]
      by_cases found : hit id
      · rw [if_pos (zero.mpr found), List.find?_cons_of_pos (by simpa using found)]
      · rw [if_neg (mt zero.mp found), List.find?_cons_of_neg (by simpa using found)]
        have later := @ih (front ++ [id]) (fun k bound => by
          simp only [List.append_assoc, List.singleton_append] at bound ⊢
          exact words k bound) fun other member => compared other (List.mem_cons_of_mem _ member)
        rwa [List.length_append, List.length_singleton] at later

end Strings

/-! ## A heap that serves lookups -/

section Served

variable (kernel : KernelHeap) (low high : Nat) (Idle : Heap → Prop)

/-- Both blocks can be freed, which leaves an idle heap. -/
def Freed (heap : Heap) (fileList nextFilename : Nat) : Prop :=
  ∃ between after, kernel.kfree heap fileList = some between ∧
    kernel.kfree between nextFilename = some after ∧ Idle after ∧
      SameOutside low high heap.memory after.memory

/-- There is a block for a list beside that for a name, and both can be freed whatever is stored in
the list. -/
def ListServed (heap : Heap) (nextFilename nameSize listSize : Nat) : Prop :=
  ∃ listed fileList, kernel.kmalloc heap listSize = some (listed, fileList) ∧
    low ≤ fileList ∧ fileList + listSize ≤ high ∧
    (nextFilename + nameSize ≤ fileList ∨ fileList + listSize ≤ nextFilename) ∧
    SameOutside low high heap.memory listed.memory ∧
    heap.memory.AgreeOn listed.memory nextFilename nameSize ∧
    ∀ memory, SameOutside fileList (fileList + listSize) listed.memory memory →
      kernel.Freed low high Idle ⟨memory, listed.firstFree⟩ fileList nextFilename

/-- There is a block for a name, and one for a list whatever is stored in the name. -/
def NameServed (heap : Heap) (nameSize listSize : Nat) : Prop :=
  ∃ named nextFilename, kernel.kmalloc heap nameSize = some (named, nextFilename) ∧
    low ≤ nextFilename ∧ nextFilename + nameSize ≤ high ∧
    SameOutside low high heap.memory named.memory ∧
    ∀ memory, SameOutside nextFilename (nextFilename + nameSize) named.memory memory →
      kernel.ListServed low high Idle ⟨memory, named.firstFree⟩ nextFilename nameSize listSize

end Served

/-- A range of mapped addresses with heap states that serve the two blocks of a component, as long
as these have at most `most` bytes together. -/
structure LookupHeap (kernel : KernelHeap) where
  low : Nat
  high : Nat
  most : Nat
  Idle : Heap → Prop
  low_pos : 0 < low
  high_le : high ≤ wordSize
  mapped : ∀ address, low ≤ address → address < high → kernel.mapped address = true
  serves : ∀ {heap : Heap} {nameSize listSize : Nat}, Idle heap → nameSize + listSize ≤ most →
    kernel.NameServed low high Idle heap nameSize listSize

/-- The image is mapped and apart from the heap. -/
structure DiskApart {kernel : KernelHeap} (area : LookupHeap kernel) (disk : Rdfs)
    (root : Listing) : Prop where
  apart : disk.rdfsStart + (genRamDisk root).length ≤ area.low ∨ area.high ≤ disk.rdfsStart
  mapped : ∀ address, disk.rdfsStart ≤ address →
    address < disk.rdfsStart + (genRamDisk root).length → kernel.mapped address = true

section Directories

variable {kernel : KernelHeap} {area : LookupHeap kernel} {disk : Rdfs} {root listing : Listing}
  {memory : Memory} {path : Nat → UInt8}

theorem LookupHeap.accessible (area : LookupHeap kernel) {address count : Nat}
    (lower : area.low ≤ address) (upper : address + count ≤ area.high) :
    kernel.Accessible address count :=
  fun k bound => area.mapped (address + k) (by omega) (by omega)

theorem DiskApart.mounted (apart : DiskApart area disk root) {after : Memory}
    (mounted : Mounted memory disk root) (same : SameOutside area.low area.high memory after) :
    Mounted after disk root :=
  mounted.congr (same.agreeOn apart.apart)

theorem DiskApart.fieldAccessible (apart : DiskApart area disk root)
    (mounted : Mounted memory disk root) {id : Nat} (bound : id ≤ root.count) {field : Field}
    (inside : field.offset + field.width ≤ FileDirEntry.size) :
    kernel.FieldAccessible field (disk.entry id) := by
  have lower := mounted.entry_eq bound
  have upper := mounted.entry_fits bound
  have fits := mounted.fits
  intro k before
  rw [Nat.mod_eq_of_lt (by omega)]
  exact apart.mapped _ (by omega) (by omega)

theorem isDirectory_congr (apart : DiskApart area disk root) (names : root.NamesFit)
    (mounted : Mounted memory disk root) {after : Memory}
    (same : SameOutside area.low area.high memory after) {id : Nat}
    (directory : Mounted.IsDirectory memory disk root id listing) :
    Mounted.IsDirectory after disk root id listing := by
  have later := apart.mounted mounted same
  obtain ⟨node, entry⟩ : ∃ node, (treeNodes root)[id]? = some node :=
    ⟨_, List.getElem?_eq_getElem (by
      rw [length_treeNodes]
      exact Nat.lt_succ_of_le directory.bound)⟩
  refine ⟨?_, directory.flat, directory.bound⟩
  rw [later.idList_eq names entry, ← mounted.idList_eq names entry, directory.list]

theorem listFits_directory (apart : DiskApart area disk root) (names : root.NamesFit) {heap : Heap}
    (mounted : Mounted heap.memory disk root) {id : Nat}
    (directory : Mounted.IsDirectory heap.memory disk root id listing) {listed : Heap}
    {fileList : Nat}
    (granted : kernel.kmalloc heap (8 * (listing.childIds (id + 1)).length) =
      some (listed, fileList))
    (same : SameOutside area.low area.high heap.memory listed.memory)
    (lower : area.low ≤ fileList)
    (upper : fileList + 8 * (listing.childIds (id + 1)).length ≤ area.high) :
    kernel.ListFits disk heap id listed fileList (listing.childIds (id + 1)).length ∧
      (disk.dataLocation listed.memory id + 8 * (listing.childIds (id + 1)).length ≤ area.low ∨
        area.high ≤ disk.dataLocation listed.memory id) ∧
      disk.dataLocation listed.memory id + 8 * (listing.childIds (id + 1)).length ≤ wordSize := by
  have later := apart.mounted mounted same
  have fits := mounted.fits
  have high_le := area.high_le
  have header := length_genRamDisk root
  simp only [PartitionHeader.size, FileDirEntry.size] at header
  obtain ⟨node, entry⟩ : ∃ node, (treeNodes root)[id]? = some node :=
    ⟨_, List.getElem?_eq_getElem (by
      rw [length_treeNodes]
      exact Nat.lt_succ_of_le directory.bound)⟩
  have size : disk.entrySize heap.memory id / 8 = (listing.childIds (id + 1)).length := by
    rw [← directory.list, Rdfs.idList, List.length_map, List.length_range]
  obtain ⟨-, start, stop⟩ := later.stored_node_data names entry
  rw [mounted.entrySize_eq names entry] at size
  have whole : 8 * (listing.childIds (id + 1)).length ≤ node.data.length := by omega
  have apart_image := apart.apart
  refine ⟨⟨by rw [mounted.entrySize_eq names entry, size],
    apart.fieldAccessible mounted directory.bound (by decide), granted, ?_,
    apart.fieldAccessible mounted directory.bound (by decide), fun i before => ⟨?_, ?_⟩⟩,
    by omega, by omega⟩
  · intro k before
    simp only [PartitionHeader.fileDirectorySize] at before ⊢
    rw [Nat.mod_eq_of_lt (by omega)]
    exact apart.mapped _ (by omega) (by omega)
  · intro k inside
    rw [wordAddress, Nat.mod_eq_of_lt (by omega)]
    exact apart.mapped _ (by omega) (by omega)
  · rw [wordAddress, Nat.mod_eq_of_lt (by omega)]
    exact area.accessible (by omega) (by omega)

/-- The names of a directory can be compared with one in a block of the heap. -/
theorem compared_directory (apart : DiskApart area disk root) (names : root.NamesFit)
    (mounted : Mounted memory disk root) {id : Nat}
    (directory : Mounted.IsDirectory memory disk root id listing) {after : Memory}
    (same : SameOutside area.low area.high memory after) {name : Name} {nextFilename : Nat}
    (stored : after.Stored nextFilename (name.bytes ++ [0])) (lower : area.low ≤ nextFilename)
    (upper : nextFilename + (name.bytes.length + 1) ≤ area.high) :
    ∀ other ∈ listing.childIds (id + 1), ∃ order,
      kernel.strcmp after (filename disk other) nextFilename wordSize 0 = some order ∧
        (order = 0 ↔ NameIs memory disk name.bytes other) := by
  intro other member
  have later := apart.mounted mounted same
  have fits := mounted.fits
  have high_le := area.high_le
  obtain ⟨target, entry, here⟩ := HasEntry.of_mem_childIds member
  obtain ⟨target_name, rfl⟩ := here.name_eq
  have listed := (directory.flat.entry here).1
  have bound := Mounted.id_le listed
  have place := mounted.entry_eq bound
  have inside := mounted.entry_fits bound
  have small := storedName_fits names _ (List.mem_of_getElem? listed)
  have plain : TreeNode.storedName ⟨target_name.bytes, entry.isDir, other, entry.data other⟩ =
      target_name.bytes := if_neg target_name.nonempty
  rw [plain] at small
  simp only [FileDirEntry.size, rdfsFileNameSize] at inside small
  have left := later.stored_name names listed
  rw [plain] at left
  rw [mounted.nameIs_iff names directory.flat here name]
  refine strcmp_strings ⟨target_name.no_nul, left⟩ ⟨name.no_nul, stored_charAt stored ?_⟩
    (lt_trans small (by decide)) (fun k before => ?_) fun k before => ?_
  · rw [List.length_append, List.length_singleton]
    omega
  · simp only [filename, FileDirEntry.filename]
    rw [Nat.mod_eq_of_lt (by omega)]
    exact apart.mapped _ (by omega) (by omega)
  · rw [Nat.mod_eq_of_lt (by omega)]
    exact area.mapped _ (by omega) (by omega)

/-- In a directory the second half of a turn finds the entry of the name, and leaves an idle heap if
there is one.  `memory` is any memory that differs from that of the heap in the heap only. -/
theorem findNode_directory (apart : DiskApart area disk root) (names : root.NamesFit)
    (mounted : Mounted memory disk root) {id : Nat}
    (directory : Mounted.IsDirectory memory disk root id listing) {heap : Heap}
    (view : SameOutside area.low area.high memory heap.memory) {name : Name}
    {nextFilename : Nat} (stored : heap.memory.Stored nextFilename (name.bytes ++ [0]))
    (lower : area.low ≤ nextFilename)
    (upper : nextFilename + (name.bytes.length + 1) ≤ area.high)
    (served : kernel.ListServed area.low area.high area.Idle heap nextFilename
      (name.bytes.length + 1) (8 * (listing.childIds (id + 1)).length)) :
    ∃ after, kernel.findNode disk heap nextFilename id = some (after,
        (listing.childIds (id + 1)).find? fun other => NameIs memory disk name.bytes other) ∧
      SameOutside area.low area.high memory after.memory ∧
      (((listing.childIds (id + 1)).find? fun other =>
        NameIs memory disk name.bytes other).isSome → area.Idle after) := by
  obtain ⟨listed, fileList, granted, list_low, list_high, disjoint, same, kept, freed⟩ := served
  obtain ⟨list, data_apart, data_fits⟩ := listFits_directory apart names
    (apart.mounted mounted view) (isDirectory_congr apart names mounted view directory) granted
    same list_low list_high
  have high_le := area.high_le
  have listed_directory := isDirectory_congr apart names mounted (view.trans same) directory
  have outside : SameOutside fileList (fileList + 8 * (listing.childIds (id + 1)).length)
      listed.memory (copyWords fileList (disk.dataLocation listed.memory id)
        (listing.childIds (id + 1)).length listed.memory) := copyWords_outside (by omega)
  have copied_same := (view.trans same).trans (outside.mono list_low list_high)
  have name_kept : (copyWords fileList (disk.dataLocation listed.memory id)
      (listing.childIds (id + 1)).length listed.memory).Stored nextFilename
        (name.bytes ++ [0]) := by
    refine Memory.stored_of_get fun index byte entry => ?_
    have inside := (List.getElem?_eq_some_iff.mp entry).1
    rw [List.length_append, List.length_singleton] at inside
    rw [outside _ (by omega), kept _ (by omega) (by omega)]
    exact stored.get entry
  have words : ∀ k (bound : k < ([] ++ listing.childIds (id + 1)).length),
      (copyWords fileList (disk.dataLocation listed.memory id)
        (listing.childIds (id + 1)).length listed.memory).read (wordAddress fileList k) 8 =
          ([] ++ listing.childIds (id + 1))[k] := by
    intro k bound
    rw [List.nil_append] at bound
    rw [copyWords_read (by omega) data_fits (by omega) bound]
    simp only [List.nil_append, ← listed_directory.list, Rdfs.idList, List.getElem_map,
      List.getElem_range, wordAddress]
  have search := search_eq words (compared_directory apart names mounted directory copied_same
    name_kept lower upper)
  rw [findNode, rdfsGetFileListFromDirId_eq_some_iff.mpr ⟨listed, list, rfl⟩, Option.bind_some]
  dsimp only
  rw [if_neg (Nat.ne_of_gt (lt_of_lt_of_le area.low_pos list_low))]
  rw [List.length_nil] at search
  rw [search, Option.bind_some]
  cases (listing.childIds (id + 1)).find? fun other => NameIs memory disk name.bytes other with
  | none => exact ⟨_, rfl, copied_same, fun found => by cases found⟩
  | some other =>
      obtain ⟨between, after, first, second, idle, freed_same⟩ := freed _ outside
      refine ⟨after, ?_, copied_same.trans freed_same, fun _ => idle⟩
      dsimp only
      rw [first, Option.bind_some, second]
      rfl

theorem lookupTurn_directory (apart : DiskApart area disk root) (names : root.NamesFit)
    (mounted : Mounted memory disk root) {id : Nat}
    (directory : Mounted.IsDirectory memory disk root id listing) {heap : Heap}
    (view : SameOutside area.low area.high memory heap.memory) (idle : area.Idle heap)
    {name : Name} {start next : Nat} (component : ComponentAt path start name next)
    (short : name.bytes.length < 2 ^ 16)
    (room : name.bytes.length + 1 + 8 * (listing.childIds (id + 1)).length ≤ area.most) :
    ∃ after, kernel.lookupTurn disk path heap start id = some (after,
        ((listing.childIds (id + 1)).find? fun other =>
          NameIs memory disk name.bytes other).map fun other => (next, other)) ∧
      SameOutside area.low area.high memory after.memory ∧
      (((listing.childIds (id + 1)).find? fun other =>
        NameIs memory disk name.bytes other).isSome → area.Idle after) := by
  obtain ⟨named, nextFilename, granted, lower, upper, same, served⟩ := area.serves idle room
  have nonempty : name.bytes.length ≠ 0 := by simpa using name.nonempty
  have outside := @storeName_outside named.memory path nextFilename start _ nonempty
  have stored := @storeName_stored named.memory path nextFilename start _ nonempty
  rw [componentBytes, component.bytes] at stored
  obtain ⟨after, node, node_same, found⟩ :=
    @findNode_directory kernel area disk root listing memory apart names mounted id directory
      ⟨storeName path named.memory nextFilename start name.bytes.length, named.firstFree⟩
      ((view.trans same).trans (outside.mono lower upper)) name nextFilename stored lower upper
      (served _ outside)
  refine ⟨after, ?_, node_same, found⟩
  have writable : kernel.Accessible nextFilename
      (max (copied name.bytes.length) (name.bytes.length + 1)) := by
    rw [copied, if_neg nonempty, Nat.max_eq_right (Nat.le_succ _)]
    exact area.accessible lower upper
  rw [lookupTurn, component.length_eq, if_neg (not_le.mpr short), Option.bind_some, granted,
    Option.bind_some]
  dsimp only
  rw [if_pos writable, node, ← component.next_eq]
  rfl

theorem lookupFrom_end {fuel start id : Nat} {heap : Heap} (ended : path start = 0)
    (enough : 0 < fuel) :
    kernel.lookupFrom disk path fuel heap start id = some (heap, some id) := by
  obtain ⟨fuel, rfl⟩ := Nat.exists_eq_succ_of_ne_zero (Nat.ne_of_gt enough)
  rw [lookupFrom, if_pos ended]

theorem pathReads_le {names : List Name} {start : Nat}
    (stored : Memory.Stored path start (joinNames names ++ [0]))
    (short : ∀ name ∈ names, name.bytes.length < 2 ^ 16) {fuel : Nat} {heap : Heap} {id : Nat} :
    ∀ index ∈ kernel.pathReads disk path fuel heap start id,
      index ≤ start + (joinNames names).length := by
  induction names generalizing start fuel heap id with
  | nil =>
      intro index member
      cases fuel with
      | zero => cases member
      | succ fuel =>
          rw [pathReads, if_pos stored.1, List.mem_singleton] at member
          rw [member]
          exact Nat.le_add_right _ _
  | cons name rest ih =>
      obtain ⟨next, component, later⟩ := component stored
      have place := component.length_joinNames stored
      have behind : start + name.bytes.length ≤ next := by
        have next_eq := component.next_eq
        split_ifs at next_eq <;> omega
      have length := component.length_eq
      rw [if_neg (not_le.mpr (short name List.mem_cons_self))] at length
      intro index member
      cases fuel with
      | zero => cases member
      | succ fuel =>
          rw [pathReads, if_neg component.nonzero] at member
          rcases List.mem_append.mp member with here | onward
          · have bound := (turnReads_le_iff length (le_refl _)).mpr
              (fun empty => absurd empty (by simpa using name.nonempty)) index here
            omega
          · cases call : kernel.lookupTurn disk path heap start id with
            | none =>
                rw [call] at onward
                cases onward
            | some turn =>
                obtain ⟨after, result⟩ := turn
                rw [call] at onward
                cases result with
                | none => cases onward
                | some result =>
                    obtain ⟨i, measured, stop⟩ := lookupTurn_next call
                    obtain rfl := Option.some.inj (length.symm.trans measured)
                    rw [← component.next_eq] at stop
                    dsimp only at onward
                    rw [stop] at onward
                    have bound := ih later (fun name inside =>
                      short name (List.mem_cons_of_mem _ inside)) index onward
                    omega

/-- Through directories the lookup in memory goes where the names lead, and leaves an idle heap when
it finds a node. -/
theorem lookupFrom_directories (apart : DiskApart area disk root) (fits : root.NamesFit)
    (mounted : Mounted memory disk root) {id : Nat}
    (directory : Mounted.IsDirectory memory disk root id listing) {names : List Name}
    (through : ThroughDirectories listing (id + 1) names)
    (room : ∀ name ∈ names, name.bytes.length < 2 ^ 16 ∧
      name.bytes.length + 1 + 8 * root.count ≤ area.most) {heap : Heap}
    (view : SameOutside area.low area.high memory heap.memory) (idle : area.Idle heap)
    {start fuel : Nat} (stored : Memory.Stored path start (joinNames names ++ [0]))
    (enough : names.length < fuel) :
    ∃ after, kernel.lookupFrom disk path fuel heap start id =
        some (after, (resolve memory disk id names).foundId) ∧
      SameOutside area.low area.high memory after.memory ∧
      ((resolve memory disk id names).foundId.isSome → area.Idle after) := by
  induction names generalizing listing id heap start fuel with
  | nil => exact ⟨heap, lookupFrom_end stored.1 enough, view, fun _ => idle⟩
  | cons name rest ih =>
      obtain ⟨fuel, rfl⟩ := Nat.exists_eq_succ_of_ne_zero (Nat.ne_of_gt (Nat.zero_lt_of_lt enough))
      rw [List.length_cons, Nat.succ_lt_succ_iff] at enough
      obtain ⟨next, component, later⟩ := component stored
      obtain ⟨short, small⟩ := room name List.mem_cons_self
      have count := listing.length_childIds_le (id + 1)
      have below := directory.flat.count_le (Nat.succ_pos id)
      obtain ⟨after, turn, same, found⟩ := lookupTurn_directory apart fits mounted directory view
        idle component short (by omega)
      rw [lookupFrom, if_neg component.nonzero, turn, resolve, if_neg (not_le.mpr short),
        directory.list]
      cases search : (listing.childIds (id + 1)).find? fun other =>
          NameIs memory disk name.bytes other with
      | none => exact ⟨after, rfl, same, fun found => by cases found⟩
      | some other =>
          rw [search] at found
          obtain ⟨entry, here⟩ := HasEntry.of_find (fun target found entry here =>
            mounted.nameIs_iff fits directory.flat here name) search
          cases entry with
          | file contents =>
              cases rest with
              | nil => exact ⟨after, lookupFrom_end later.1 enough, same, found⟩
              | cons second rest =>
                  exact absurd (.entry here)
                    (through [name] (second :: rest) other contents rfl (List.cons_ne_nil _ _))
          | directory children =>
              exact ih (directory.child mounted fits here) (through.child here)
                (fun name member => room name (List.mem_cons_of_mem _ member)) same (found rfl)
                later enough

end Directories

end KernelHeap

/-! ## The two lookups -/

section Refines

variable {kernel : KernelHeap} {area : KernelHeap.LookupHeap kernel} {disk : Rdfs} {tree : DirTree}
  {path : Nat → UInt8} {names : List Name} {heap : Heap}

/-- For a path through directories the lookup in memory returns what the lookup on blocks that are
kept as values returns, and leaves an idle heap when it finds a node. -/
theorem rdfsFileGetIdFromPath_refines (apart : KernelHeap.DiskApart area disk tree.root)
    (fits : tree.root.NamesFit) (mounted : Mounted heap.memory disk tree.root)
    (through : ThroughDirectories tree.root 1 names)
    (room : ∀ name ∈ names, name.bytes.length < 2 ^ 16 ∧
      name.bytes.length + 1 + 8 * tree.root.count ≤ area.most)
    (idle : area.Idle heap) (is_path : IsPath path names) {answer : Nat → Nat}
    (granted : ∀ call, answer call ≠ 0) {fuel : Nat} (enough : names.length < fuel)
    (state : RdfsState) :
    ∃ after, kernel.rdfsFileGetIdFromPath disk path fuel heap = some (after,
        (rdfsFileGetIdFromPath answer fuel heap.memory disk state path).2.foundId) ∧
      SameOutside area.low area.high heap.memory after.memory ∧
      ((rdfsFileGetIdFromPath answer fuel heap.memory disk state path).2.foundId.isSome →
        area.Idle after) := by
  rw [(rdfsFileGetIdFromPath_eq heap.memory disk granted is_path enough state).1]
  exact KernelHeap.lookupFrom_directories apart fits mounted (mounted.isDirectory_root fits) through
    room (fun _ _ => rfl) idle is_path.2 enough

/-- The same call stays inside the path. -/
theorem rdfsFileGetIdFromPath_inside (apart : KernelHeap.DiskApart area disk tree.root)
    (fits : tree.root.NamesFit) (mounted : Mounted heap.memory disk tree.root)
    (through : ThroughDirectories tree.root 1 names)
    (room : ∀ name ∈ names, name.bytes.length < 2 ^ 16 ∧
      name.bytes.length + 1 + 8 * tree.root.count ≤ area.most)
    (idle : area.Idle heap) (is_path : IsPath path names) :
    ∃ fuel, (kernel.rdfsFileGetIdFromPath disk path fuel heap).isSome ∧
      ∀ index ∈ kernel.pathReads disk path fuel heap 1 0, index ≤ (pathString names).length := by
  obtain ⟨after, call, -⟩ := rdfsFileGetIdFromPath_refines apart fits mounted through room idle
    is_path (fun _ => one_ne_zero : ∀ _ : Nat, 1 ≠ 0) (Nat.lt_succ_self _) ⟨0, [], []⟩
  refine ⟨_, Option.isSome_of_eq_some call, fun index member => ?_⟩
  have bound := KernelHeap.pathReads_le is_path.2 (fun name inside => (room name inside).1) index
    member
  rwa [Nat.add_comm] at bound

theorem DirTree.At.lookup_eq (apart : KernelHeap.DiskApart area disk tree.root)
    (fits : tree.root.NamesFit) (mounted : Mounted heap.memory disk tree.root)
    (room : rdfsFileNameSize + 8 * tree.root.count ≤ area.most) (idle : area.Idle heap)
    (is_path : IsPath path names) {fuel : Nat} (enough : names.length < fuel) {id : Nat}
    {entry : Entry} (node : tree.At names id entry) :
    ∃ after, kernel.rdfsFileGetIdFromPath disk path fuel heap = some (after, some id) ∧
      SameOutside area.low area.high heap.memory after.memory ∧ area.Idle after := by
  have way : ThroughDirectories tree.root 1 names ∧
      ∀ name ∈ names, name.bytes.length < rdfsFileNameSize := by
    rcases node with ⟨rfl, -, -⟩ | below
    · refine ⟨fun front back other contents shape nonempty _ => ?_, by simp⟩
      exact nonempty (List.append_eq_nil_iff.mp shape.symm).2
    · exact ⟨below.through tree.distinct, Mounted.names_short fits (flattened_root _) below⟩
  obtain ⟨after, call, same, found⟩ := rdfsFileGetIdFromPath_refines apart fits mounted way.1
    (fun name member => by
      have short := way.2 name member
      simp only [rdfsFileNameSize] at short room
      omega)
    idle is_path (fun _ => one_ne_zero : ∀ _ : Nat, 1 ≠ 0) enough ⟨0, [], []⟩
  rw [(rdfsFileGetIdFromPath_eq heap.memory disk (fun _ => one_ne_zero) is_path enough _).1,
    node.resolve_eq mounted fits] at call found
  exact ⟨after, call, same, found rfl⟩

theorem DirTree.At.getattr_eq (apart : KernelHeap.DiskApart area disk tree.root)
    (fits : tree.root.NamesFit) (mounted : Mounted heap.memory disk tree.root)
    (room : rdfsFileNameSize + 8 * tree.root.count ≤ area.most) (idle : area.Idle heap)
    (is_path : IsPath path names) {fuel : Nat} (enough : names.length < fuel) {id : Nat}
    {entry : Entry} (node : tree.At names id entry) (st : Stat) :
    ∃ after, kernel.rdfsGetattr disk path fuel heap st = some (after, some (entry.stat id)) ∧
      SameOutside area.low area.high heap.memory after.memory ∧ area.Idle after := by
  obtain ⟨after, call, same, still⟩ := node.lookup_eq apart fits mounted room idle is_path enough
  refine ⟨after, ?_, same, still⟩
  obtain ⟨target, listed⟩ := node.node
  have later := apart.mounted mounted same
  have bound := Mounted.id_le listed
  have kinds : rdfsFileTypeFile ≠ rdfsFileTypeDir := by decide
  rw [KernelHeap.rdfsGetattr, call, Option.bind_some]
  dsimp only
  rw [if_pos ⟨apart.fieldAccessible later bound (by decide),
    apart.fieldAccessible later bound (by decide)⟩, later.fileType_eq fits listed,
    later.entrySize_eq fits listed, Entry.stat]
  cases entry with
  | file contents => simp only [Entry.isDir, Bool.false_eq_true, if_false, kinds, if_true]
  | directory children => simp only [Entry.isDir, if_true]

end Refines

end PellOs
