import PellOs.Fs.LookupResources
import PellOs.Kmalloc.Model

/-!
# Path lookup in memory

`rdfs_file_get_id_from_path` with its blocks in the memory of the kernel.  A component is copied
into one block and the list of a directory into another.  The list may come from the contents of a
regular file, and its words are used as indices on `first_file` whatever they are.  An access to an
address that is not mapped is an exception from which the kernel does not return.

The path is given byte by byte: no block lies over it.  Its reads are not checked but noted, and a
lookup stays inside the string when it returns and none of them is behind the NUL.
-/

namespace PellOs

/-- What the file system is given: the addresses that the kernel can access, and the two functions
of the heap.  `none` is a call that does not return. -/
structure KernelHeap where
  mapped : Nat → Bool
  kmalloc : Heap → Nat → Option (Heap × Nat)
  kfree : Heap → Nat → Option Heap

/-- The id that a lookup returns, unless it returns `-1`. -/
def Lookup.foundId : Lookup → Option Nat
  | .found id => some id
  | _ => none

namespace KernelHeap

section Model

variable (kernel : KernelHeap) (disk : Rdfs) (path : Nat → UInt8)

/-- Every byte of the range can be accessed. -/
def Accessible (address count : Nat) : Prop := ∀ k < count, kernel.mapped (address + k) = true

instance (address count : Nat) : Decidable (kernel.Accessible address count) :=
  inferInstanceAs (Decidable (∀ k < count, kernel.mapped (address + k) = true))

/-- `base->field` can be accessed. -/
def FieldAccessible (field : Field) (base : Nat) : Prop :=
  kernel.Accessible ((base + field.offset) % wordSize) field.width

instance (field : Field) (base : Nat) : Decidable (kernel.FieldAccessible field base) :=
  inferInstanceAs (Decidable (kernel.Accessible _ _))

/-- Word `i` of an array. -/
def wordAddress (array i : Nat) : Nat := (array + 8 * i) % wordSize

/-- `strcmp` of two strings in memory from byte `index` on. -/
def strcmp (memory : Memory) (left right : Nat) : Nat → Nat → Option Int
  | 0, _ => none
  | fuel + 1, index =>
      if kernel.mapped ((left + index) % wordSize) = true ∧
          kernel.mapped ((right + index) % wordSize) = true then
        if charAt memory left index = 0 ∨ charAt memory right index = 0 ∨
            charAt memory left index ≠ charAt memory right index then
          some ((charAt memory left index).toNat - (charAt memory right index).toNat)
        else
          strcmp memory left right fuel (index + 1)
      else
        none

/-- The loop `file_list[i] = file_ids[i]`. -/
def copyWords (fileList fileIds : Nat) : Nat → Memory → Memory
  | 0, memory => memory
  | count + 1, memory =>
      let memory := copyWords fileList fileIds count memory
      memory.write (wordAddress fileList count) 8 (memory.read (wordAddress fileIds count) 8)

/-- `rdfs_get_file_list_from_dir_id`: the heap, the list and the number of words in it. -/
def rdfsGetFileListFromDirId (heap : Heap) (currDirId : Nat) : Option (Heap × Nat × Nat) :=
  if kernel.FieldAccessible FileDirEntry.dataEntrySize (disk.entry currDirId) then
    let listSize := disk.entrySize heap.memory currDirId / 8
    (kernel.kmalloc heap (8 * listSize)).bind fun (heap, fileList) =>
      let fileIds := disk.dataLocation heap.memory currDirId
      if kernel.FieldAccessible PartitionHeader.fileDirectorySize disk.rdfsStart ∧
          kernel.FieldAccessible FileDirEntry.dataBlockOffset (disk.entry currDirId) ∧
          ∀ i < listSize, kernel.Accessible (wordAddress fileIds i) 8 ∧
            kernel.Accessible (wordAddress fileList i) 8 then
        some (⟨copyWords fileList fileIds listSize heap.memory, heap.firstFree⟩, fileList,
          listSize)
      else
        none
  else
    none

/-- `first_file[id].filename`. -/
def filename (id : Nat) : Nat := disk.entry id + FileDirEntry.filename

/-- `rdfs_get_file_id_from_list_and_name` from index `i` on.  The list has just been stored. -/
def rdfsGetFileIdFromListAndName (memory : Memory) (fileList nextFilename : Nat) :
    Nat → Nat → Option (Option Nat)
  | 0, _ => some none
  | remaining + 1, i =>
      let id := memory.read (wordAddress fileList i) 8
      (kernel.strcmp memory (filename disk id) nextFilename wordSize 0).bind fun order =>
        if order = 0 then some (some id)
        else rdfsGetFileIdFromListAndName memory fileList nextFilename remaining (i + 1)

/-- Bytes that `memcpy` moves for a component of `i` bytes: a copy of nothing moves a word. -/
def copied (i : Nat) : Nat := if i = 0 then 8 else i

/-- The component behind `start` copied into its block, with a NUL behind it. -/
def storeName (memory : Memory) (nextFilename start i : Nat) : Memory :=
  (placeImage memory nextFilename (componentBytes path start (copied i))).writeByte
    (nextFilename + i) 0

/-- The second half of a turn of `rdfs_file_get_id_from_path`, behind the stores to `next_filename`:
the heap, and the node with that name or nothing when the function returns `-1`. -/
def findNode (heap : Heap) (nextFilename currentDirId : Nat) : Option (Heap × Option Nat) :=
  (kernel.rdfsGetFileListFromDirId disk heap currentDirId).bind
    fun (heap, fileIdList, fileListSize) =>
      if fileIdList = 0 then
        some (heap, none)
      else
        (kernel.rdfsGetFileIdFromListAndName disk heap.memory fileIdList nextFilename
          fileListSize 0).bind fun
            | none => some (heap, none)
            | some id =>
                (kernel.kfree heap fileIdList).bind fun heap =>
                  (kernel.kfree heap nextFilename).map fun heap => (heap, some id)

/-- One turn of the loop of `rdfs_file_get_id_from_path`: the heap, and the rest of the path with
the node reached. -/
def lookupTurn (heap : Heap) (pathToParse currentDirId : Nat) :
    Option (Heap × Option (Nat × Nat)) :=
  (componentLength path pathToParse (2 ^ 16) 0).bind fun i =>
    (kernel.kmalloc heap (i + 1)).bind fun (heap, nextFilename) =>
      if kernel.Accessible nextFilename (max (copied i) (i + 1)) then
        let heap : Heap := ⟨storeName path heap.memory nextFilename pathToParse i, heap.firstFree⟩
        let pathToParse :=
          if path (pathToParse + i) = slash then pathToParse + (i + 1) else pathToParse + i
        (kernel.findNode disk heap nextFilename currentDirId).map fun (heap, found) =>
          (heap, found.map fun id => (pathToParse, id))
      else
        none

/-- The loop of `rdfs_file_get_id_from_path`: the heap, and the id unless it returns `-1`. -/
def lookupFrom : Nat → Heap → Nat → Nat → Option (Heap × Option Nat)
  | 0, _, _, _ => none
  | fuel + 1, heap, pathToParse, currentDirId =>
      if path pathToParse = 0 then
        some (heap, some currentDirId)
      else
        match kernel.lookupTurn disk path heap pathToParse currentDirId with
        | none => none
        | some (heap, none) => some (heap, none)
        | some (heap, some (pathToParse, id)) => lookupFrom fuel heap pathToParse id

/-- `rdfs_file_get_id_from_path`. -/
def rdfsFileGetIdFromPath (fuel : Nat) (heap : Heap) : Option (Heap × Option Nat) :=
  kernel.lookupFrom disk path fuel heap 1 0

/-- `rdfs_getattr`. -/
def rdfsGetattr (fuel : Nat) (heap : Heap) (st : Stat) : Option (Heap × Option Stat) :=
  (kernel.rdfsFileGetIdFromPath disk path fuel heap).bind fun
    | (heap, none) => some (heap, none)
    | (heap, some fileId) =>
        if kernel.FieldAccessible FileDirEntry.fileType (disk.entry fileId) ∧
            kernel.FieldAccessible FileDirEntry.dataEntrySize (disk.entry fileId) then
          let fileType := FileDirEntry.fileType.get heap.memory (disk.entry fileId)
          let stMode :=
            if fileType = rdfsFileTypeDir then sIfdir
            else if fileType = rdfsFileTypeFile then sIfreg
            else st.stMode
          some (heap, some ⟨stMode, disk.entrySize heap.memory fileId⟩)
        else
          none

/-- `rdfs_open_file`. -/
def rdfsOpenFile (fuel : Nat) (heap : Heap) (flags : Nat) : Option (Heap × Option File) :=
  (kernel.rdfsFileGetIdFromPath disk path fuel heap).map fun (heap, found) =>
    (heap, found.map fun id => rdfsOpenFileId id flags)

/-- The indices of the path that a turn of the loop reads. -/
def turnReads (start : Nat) : List Nat :=
  match componentLength path start (2 ^ 16) 0 with
  | none => start :: List.range' start (2 ^ 16)
  | some i =>
      start :: List.range' start (i + 1) ++ List.range' start (copied i) ++ [start + i]

/-- The indices of the path that the loop reads. -/
def pathReads : Nat → Heap → Nat → Nat → List Nat
  | 0, _, _, _ => []
  | fuel + 1, heap, start, id =>
      if path start = 0 then
        [start]
      else
        turnReads path start ++
          match kernel.lookupTurn disk path heap start id with
          | some (heap, some (start, id)) => pathReads fuel heap start id
          | _ => []

end Model

/-! ## What a turn needs -/

section Conditions

variable (kernel : KernelHeap) (disk : Rdfs) (path : Nat → UInt8)

/-- The comparison of two strings ends at byte `k`. -/
def PartAt (memory : Memory) (left right k : Nat) : Prop :=
  charAt memory left k = 0 ∨ charAt memory right k = 0 ∨
    charAt memory left k ≠ charAt memory right k

/-- Byte `k` of both strings can be read. -/
def BothMapped (left right k : Nat) : Prop :=
  kernel.mapped ((left + k) % wordSize) = true ∧ kernel.mapped ((right + k) % wordSize) = true

/-- Both strings can be read up to a byte that ends their comparison. -/
def Comparable (memory : Memory) (left right : Nat) : Prop :=
  ∃ last < wordSize, PartAt memory left right last ∧ ∀ k ≤ last, kernel.BothMapped left right k

/-- The strings are equal up to a NUL. -/
def SameString (memory : Memory) (left right : Nat) : Prop :=
  ∃ last < wordSize, charAt memory left last = 0 ∧
    ∀ k ≤ last, charAt memory left k = charAt memory right k

/-- The component at `start` has `i` bytes, seven bytes of the path or its NUL are behind it if it
is empty, and it gets a block that can be written. -/
structure NameFits (last : Nat) (heap : Heap) (start i : Nat) (named : Heap) (nextFilename : Nat) :
    Prop where
  short : i < 2 ^ 16
  plain : ∀ k < i, path (start + k) ≠ slash ∧ path (start + k) ≠ 0
  ended : path (start + i) = slash ∨ path (start + i) = 0
  spare : i = 0 → start + 7 ≤ last
  granted : kernel.kmalloc heap (i + 1) = some (named, nextFilename)
  room : kernel.Accessible nextFilename (max (copied i) (i + 1))

/-- The entry of the node and its data can be read, and its list gets a block that can be
written. -/
structure ListFits (heap : Heap) (id : Nat) (listed : Heap) (fileList listSize : Nat) :
    Prop where
  size_eq : listSize = disk.entrySize heap.memory id / 8
  size : kernel.FieldAccessible FileDirEntry.dataEntrySize (disk.entry id)
  granted : kernel.kmalloc heap (8 * listSize) = some (listed, fileList)
  header : kernel.FieldAccessible PartitionHeader.fileDirectorySize disk.rdfsStart
  offset : kernel.FieldAccessible FileDirEntry.dataBlockOffset (disk.entry id)
  words : ∀ i < listSize,
    kernel.Accessible (wordAddress (disk.dataLocation listed.memory id) i) 8 ∧
      kernel.Accessible (wordAddress fileList i) 8

/-- Word `k` of the list is the number of an entry with the name. -/
def NamedAt (memory : Memory) (fileList nextFilename k : Nat) : Prop :=
  SameString memory (filename disk (memory.read (wordAddress fileList k) 8)) nextFilename

/-- The name can be compared with those of the listed entries, up to the first that has it; if there
is one, both blocks can be freed. -/
structure SearchFits (heap : Heap) (fileList nextFilename listSize : Nat) : Prop where
  compared : ∀ k < listSize,
    (∀ j < k, ¬ NamedAt disk heap.memory fileList nextFilename j) →
      kernel.Comparable heap.memory
        (filename disk (heap.memory.read (wordAddress fileList k) 8)) nextFilename
  freed : (∃ k < listSize, NamedAt disk heap.memory fileList nextFilename k) →
    ∃ between after, kernel.kfree heap fileList = some between ∧
      kernel.kfree between nextFilename = some after

/-- A turn from the position and the node can be made. -/
def TurnFits (last : Nat) (heap : Heap) (start id : Nat) : Prop :=
  ∃ i named nextFilename listed fileList listSize,
    kernel.NameFits path last heap start i named nextFilename ∧
      kernel.ListFits disk ⟨storeName path named.memory nextFilename start i, named.firstFree⟩ id
        listed fileList listSize ∧
      (fileList ≠ 0 → kernel.SearchFits disk
        ⟨copyWords fileList (disk.dataLocation listed.memory id) listSize listed.memory,
          listed.firstFree⟩ fileList nextFilename listSize)

/-- The heap, the rest of the path and the node after one more component. -/
def nextPlace (place : Heap × Nat × Nat) : Option (Heap × Nat × Nat) :=
  if path place.2.1 = 0 then none
  else
    match kernel.lookupTurn disk path place.1 place.2.1 place.2.2 with
    | some (heap, some next) => some (heap, next)
    | _ => none

/-- The heap, the rest of the path and the node after a number of components. -/
def placeAfter : Nat → Heap × Nat × Nat → Option (Heap × Nat × Nat)
  | 0, place => some place
  | count + 1, place => (kernel.nextPlace disk path place).bind (placeAfter count)

/-- Every turn that is reached can be made. -/
def EveryTurnFits (last : Nat) (place : Heap × Nat × Nat) : Prop :=
  ∀ count reached, kernel.placeAfter disk path count place = some reached →
    path reached.2.1 ≠ 0 → kernel.TurnFits disk path last reached.1 reached.2.1 reached.2.2

/-- The lookup from a place returns and reads nothing behind the last byte. -/
def StaysInside (last : Nat) (place : Heap × Nat × Nat) : Prop :=
  ∃ fuel, (kernel.lookupFrom disk path fuel place.1 place.2.1 place.2.2).isSome ∧
    ∀ index ∈ kernel.pathReads disk path fuel place.1 place.2.1 place.2.2, index ≤ last

end Conditions

section Turns

variable {kernel : KernelHeap} {disk : Rdfs} {path : Nat → UInt8} {memory : Memory}
  {left right : Nat}

/-- `strcmp` returns when both strings can be read up to a byte that ends the comparison. -/
theorem strcmp_isSome_iff (fuel index : Nat) :
    (kernel.strcmp memory left right fuel index).isSome ↔
      ∃ last, index ≤ last ∧ last < index + fuel ∧ PartAt memory left right last ∧
        ∀ k, index ≤ k → k ≤ last → kernel.BothMapped left right k := by
  induction fuel generalizing index with
  | zero =>
      refine iff_of_false (by simp [strcmp]) ?_
      rintro ⟨last, lower, upper, -⟩
      omega
  | succ fuel ih =>
      rw [strcmp]
      by_cases here : kernel.BothMapped left right index
      · rw [if_pos (by exact here)]
        by_cases part : PartAt memory left right index
        · rw [if_pos (by exact part)]
          refine iff_of_true rfl ⟨index, le_refl _, by omega, part, fun k lower upper => ?_⟩
          rwa [Nat.le_antisymm upper lower]
        · rw [if_neg (by exact part), ih]
          constructor
          · rintro ⟨last, lower, upper, ended, readable⟩
            refine ⟨last, by omega, by omega, ended, fun k after before => ?_⟩
            rcases Nat.eq_or_lt_of_le after with rfl | later
            · exact here
            · exact readable k later before
          · rintro ⟨last, lower, upper, ended, readable⟩
            have later : index ≠ last := by
              rintro rfl
              exact part ended
            exact ⟨last, by omega, by omega, ended, fun k after before =>
              readable k (by omega) before⟩
      · rw [if_neg (by exact here)]
        refine iff_of_false (by simp) ?_
        rintro ⟨last, lower, -, -, readable⟩
        exact here (readable index (le_refl _) lower)

theorem strcmp_zero_iff {fuel index : Nat} {order : Int}
    (call : kernel.strcmp memory left right fuel index = some order) :
    order = 0 ↔ ∃ last, index ≤ last ∧ last < index + fuel ∧ charAt memory left last = 0 ∧
      ∀ k, index ≤ k → k ≤ last → charAt memory left k = charAt memory right k := by
  induction fuel generalizing index with
  | zero => cases call
  | succ fuel ih =>
      rw [strcmp] at call
      split_ifs at call with here part
      · cases call
        have difference : ((charAt memory left index).toNat : Int) -
            (charAt memory right index).toNat = 0 ↔
              charAt memory left index = charAt memory right index := by
          rw [← UInt8.toNat_inj]
          omega
        rw [difference]
        constructor
        · intro same
          refine ⟨index, le_refl _, by omega, ?_, fun k lower upper => ?_⟩
          · rcases part with zero | zero | differ
            · exact zero
            · rw [same, zero]
            · exact absurd same differ
          · rwa [Nat.le_antisymm upper lower]
        · rintro ⟨last, lower, -, -, same⟩
          exact same index (le_refl _) lower
      · rw [ih call]
        simp only [not_or, not_not] at part
        constructor
        · rintro ⟨last, lower, upper, zero, same⟩
          refine ⟨last, by omega, by omega, zero, fun k after before => ?_⟩
          rcases Nat.eq_or_lt_of_le after with rfl | later
          · exact part.2.2
          · exact same k later before
        · rintro ⟨last, lower, upper, zero, same⟩
          have later : index ≠ last := by
            rintro rfl
            exact part.1 zero
          exact ⟨last, by omega, by omega, zero, fun k after before => same k (by omega) before⟩

theorem comparable_iff :
    kernel.Comparable memory left right ↔ (kernel.strcmp memory left right wordSize 0).isSome := by
  rw [strcmp_isSome_iff, Comparable]
  constructor
  · rintro ⟨last, upper, part, readable⟩
    exact ⟨last, Nat.zero_le _, by omega, part, fun k _ before => readable k before⟩
  · rintro ⟨last, -, upper, part, readable⟩
    exact ⟨last, by omega, part, fun k before => readable k (Nat.zero_le _) before⟩

theorem sameString_iff {order : Int}
    (call : kernel.strcmp memory left right wordSize 0 = some order) :
    order = 0 ↔ SameString memory left right := by
  rw [strcmp_zero_iff call, SameString]
  constructor
  · rintro ⟨last, -, upper, zero, same⟩
    exact ⟨last, by omega, zero, fun k before => same k (Nat.zero_le _) before⟩
  · rintro ⟨last, upper, zero, same⟩
    exact ⟨last, Nat.zero_le _, by omega, zero, fun k _ before => same k before⟩

theorem search_spec {fileList nextFilename : Nat} (remaining i : Nat) :
    ((kernel.rdfsGetFileIdFromListAndName disk memory fileList nextFilename remaining i).isSome ↔
        ∀ k, i ≤ k → k < i + remaining →
          (∀ j, i ≤ j → j < k → ¬ NamedAt disk memory fileList nextFilename j) →
            kernel.Comparable memory (filename disk (memory.read (wordAddress fileList k) 8))
              nextFilename) ∧
      ∀ found, kernel.rdfsGetFileIdFromListAndName disk memory fileList nextFilename remaining i =
        some found →
          (found.isSome ↔ ∃ k, i ≤ k ∧ k < i + remaining ∧
            NamedAt disk memory fileList nextFilename k) := by
  induction remaining generalizing i with
  | zero =>
      refine ⟨iff_of_true rfl fun k lower upper => by omega, fun found call => ?_⟩
      cases call
      refine iff_of_false (by simp) ?_
      rintro ⟨k, lower, upper, -⟩
      omega
  | succ remaining ih =>
      rw [rdfsGetFileIdFromListAndName]
      cases order : kernel.strcmp memory (filename disk (memory.read (wordAddress fileList i) 8))
          nextFilename wordSize 0 with
      | none =>
          refine ⟨iff_of_false (by simp) fun compared => ?_, fun found call => by cases call⟩
          have first := comparable_iff.mp
            (compared i (le_refl _) (by omega) fun j lower upper => by omega)
          rw [order] at first
          cases first
      | some order' =>
          have first := comparable_iff.mpr (Option.isSome_of_eq_some order)
          rw [Option.bind_some]
          by_cases same : order' = 0
          · have named := (sameString_iff order).mp same
            rw [if_pos same]
            refine ⟨iff_of_true rfl fun k lower upper others => ?_, fun found call => ?_⟩
            · rcases Nat.eq_or_lt_of_le lower with rfl | later
              · exact first
              · exact absurd named (others i (le_refl _) later)
            · cases call
              exact iff_of_true rfl ⟨i, le_refl _, by omega, named⟩
          · have other := mt (sameString_iff order).mpr same
            rw [if_neg same]
            obtain ⟨returns, finds⟩ := ih (i + 1)
            refine ⟨returns.trans ⟨fun compared k lower upper others => ?_,
              fun compared k lower upper others => ?_⟩, fun found call => ?_⟩
            · rcases Nat.eq_or_lt_of_le lower with rfl | later
              · exact first
              · exact compared k later (by omega) fun j above below =>
                  others j (by omega) below
            · refine compared k (by omega) (by omega) fun j above below => ?_
              rcases Nat.eq_or_lt_of_le above with rfl | later
              · exact other
              · exact others j later below
            · rw [finds found call]
              constructor
              · rintro ⟨k, lower, upper, named⟩
                exact ⟨k, by omega, by omega, named⟩
              · rintro ⟨k, lower, upper, named⟩
                have later : i ≠ k := by
                  rintro rfl
                  exact other named
                exact ⟨k, by omega, by omega, named⟩

theorem rdfsGetFileListFromDirId_eq_some_iff {heap after : Heap} {id fileList listSize : Nat} :
    kernel.rdfsGetFileListFromDirId disk heap id = some (after, fileList, listSize) ↔
      ∃ listed, kernel.ListFits disk heap id listed fileList listSize ∧
        after = ⟨copyWords fileList (disk.dataLocation listed.memory id) listSize listed.memory,
          listed.firstFree⟩ := by
  rw [rdfsGetFileListFromDirId]
  constructor
  · intro call
    split_ifs at call with size
    obtain ⟨⟨listed, block⟩, granted, rest⟩ := Option.bind_eq_some_iff.mp call
    dsimp only at rest
    split_ifs at rest with parts
    cases rest
    exact ⟨listed, ⟨rfl, size, granted, parts.1, parts.2.1, parts.2.2⟩, rfl⟩
  · rintro ⟨listed, fits, rfl⟩
    obtain rfl := fits.size_eq
    rw [if_pos fits.size]
    dsimp only
    rw [fits.granted, Option.bind_some]
    dsimp only
    rw [if_pos ⟨fits.header, fits.offset, fits.words⟩]

/-- The reads of a turn stay in front of a byte that its component does not pass. -/
theorem turnReads_le_iff {start i last : Nat}
    (length : componentLength path start (2 ^ 16) 0 = some i) (inside : start + i ≤ last) :
    (∀ index ∈ turnReads path start, index ≤ last) ↔ (i = 0 → start + 7 ≤ last) := by
  simp only [turnReads, length, copied]
  constructor
  · rintro bound rfl
    apply bound
    simp [List.mem_range'_1]
  · intro spare index member
    simp only [List.cons_append, List.mem_cons, List.mem_append, List.mem_range'_1,
      List.not_mem_nil, or_false] at member
    split_ifs at member with empty
    · have room := spare empty
      omega
    · omega

theorem component_inside {start i last : Nat} (ended : path last = 0) (inside : start ≤ last)
    (plain : ∀ k < i, path (start + k) ≠ slash ∧ path (start + k) ≠ 0) : start + i ≤ last := by
  by_contra outside
  have nonzero := (plain (last - start) (by omega)).2
  rw [Nat.add_sub_cancel' inside] at nonzero
  exact nonzero ended

/-- The second half of a turn returns exactly when the list can be made and searched. -/
theorem findNode_isSome_iff {heap : Heap} {nextFilename id : Nat} :
    (kernel.findNode disk heap nextFilename id).isSome ↔
      ∃ listed fileList listSize, kernel.ListFits disk heap id listed fileList listSize ∧
        (fileList ≠ 0 → kernel.SearchFits disk
          ⟨copyWords fileList (disk.dataLocation listed.memory id) listSize listed.memory,
            listed.firstFree⟩ fileList nextFilename listSize) := by
  rw [findNode, Option.isSome_iff_exists]
  constructor
  · rintro ⟨result, call⟩
    obtain ⟨⟨_, fileList, listSize⟩, list, call⟩ := Option.bind_eq_some_iff.mp call
    obtain ⟨listed, fits, rfl⟩ := rdfsGetFileListFromDirId_eq_some_iff.mp list
    refine ⟨listed, fileList, listSize, fits, fun nonzero => ?_⟩
    dsimp only at call
    rw [if_neg nonzero] at call
    obtain ⟨found, search, call⟩ := Option.bind_eq_some_iff.mp call
    obtain ⟨returns, finds⟩ := @search_spec kernel disk
      (copyWords fileList (disk.dataLocation listed.memory id) listSize listed.memory) fileList
      nextFilename listSize 0
    rw [Nat.zero_add] at returns finds
    refine ⟨fun k bound others => ?_, ?_⟩
    · exact returns.mp (Option.isSome_of_eq_some search) k (Nat.zero_le _) bound
        fun j _ before => others j before
    · rintro ⟨k, bound, hit⟩
      obtain ⟨other, rfl⟩ := Option.isSome_iff_exists.mp
        ((finds found search).mpr ⟨k, Nat.zero_le _, bound, hit⟩)
      obtain ⟨between, first, call⟩ := Option.bind_eq_some_iff.mp call
      obtain ⟨after, second, -⟩ := Option.map_eq_some_iff.mp call
      exact ⟨between, after, first, second⟩
  · rintro ⟨listed, fileList, listSize, list, search⟩
    rw [rdfsGetFileListFromDirId_eq_some_iff.mpr ⟨listed, list, rfl⟩, Option.bind_some]
    dsimp only
    by_cases null : fileList = 0
    · rw [if_pos null]
      exact ⟨_, rfl⟩
    rw [if_neg null]
    have fits := search null
    obtain ⟨returns, finds⟩ := @search_spec kernel disk
      (copyWords fileList (disk.dataLocation listed.memory id) listSize listed.memory) fileList
      nextFilename listSize 0
    rw [Nat.zero_add] at returns finds
    obtain ⟨found, result⟩ := Option.isSome_iff_exists.mp (returns.mpr fun k _ before others =>
      fits.compared k before fun j below => others j (Nat.zero_le _) below)
    rw [result, Option.bind_some]
    cases found with
    | none => exact ⟨_, rfl⟩
    | some other =>
        obtain ⟨k, -, before, hit⟩ := (finds _ result).mp rfl
        obtain ⟨between, after, first, second⟩ := fits.freed ⟨k, before, hit⟩
        dsimp only
        rw [first, Option.bind_some, second]
        exact ⟨_, rfl⟩

/-- A turn returns and reads nothing behind the NUL exactly when it has what it needs. -/
theorem lookupTurn_fits_iff {last start : Nat} (ended : path last = 0) (inside : start ≤ last)
    (heap : Heap) (id : Nat) :
    ((kernel.lookupTurn disk path heap start id).isSome ∧
        ∀ index ∈ turnReads path start, index ≤ last) ↔
      kernel.TurnFits disk path last heap start id := by
  rw [lookupTurn]
  constructor
  · rintro ⟨returned, bound⟩
    obtain ⟨turn, call⟩ := Option.isSome_iff_exists.mp returned
    obtain ⟨i, length, call⟩ := Option.bind_eq_some_iff.mp call
    obtain ⟨⟨named, nextFilename⟩, granted, call⟩ := Option.bind_eq_some_iff.mp call
    obtain ⟨short, plain, stop⟩ := componentLength_eq_some_iff.mp length
    have spare := (turnReads_le_iff length (component_inside ended inside plain)).mp bound
    dsimp only at call
    by_cases room : kernel.Accessible nextFilename (max (copied i) (i + 1))
    · rw [if_pos room] at call
      obtain ⟨result, node, -⟩ := Option.map_eq_some_iff.mp call
      obtain ⟨listed, fileList, listSize, list, search⟩ :=
        findNode_isSome_iff.mp (Option.isSome_of_eq_some node)
      exact ⟨i, named, nextFilename, listed, fileList, listSize,
        ⟨short, plain, stop, spare, granted, room⟩, list, search⟩
    · rw [if_neg room] at call
      cases call
  · rintro ⟨i, named, nextFilename, listed, fileList, listSize, name, list, search⟩
    have length := componentLength_eq_some_iff.mpr ⟨name.short, name.plain, name.ended⟩
    have bound := (turnReads_le_iff length (component_inside ended inside name.plain)).mpr
      name.spare
    refine ⟨?_, bound⟩
    rw [length, Option.bind_some, name.granted, Option.bind_some]
    dsimp only
    rw [if_pos name.room, Option.isSome_map]
    exact findNode_isSome_iff.mpr ⟨listed, fileList, listSize, list, search⟩

theorem lookupTurn_next {heap after : Heap} {start id : Nat} {next : Nat × Nat}
    (call : kernel.lookupTurn disk path heap start id = some (after, some next)) :
    ∃ i, componentLength path start (2 ^ 16) 0 = some i ∧
      next.1 = if path (start + i) = slash then start + (i + 1) else start + i := by
  rw [lookupTurn] at call
  obtain ⟨i, length, call⟩ := Option.bind_eq_some_iff.mp call
  obtain ⟨⟨named, nextFilename⟩, -, call⟩ := Option.bind_eq_some_iff.mp call
  dsimp only at call
  by_cases room : kernel.Accessible nextFilename (max (copied i) (i + 1))
  · rw [if_pos room] at call
    obtain ⟨found, -, same⟩ := Option.map_eq_some_iff.mp call
    obtain ⟨other, -, same⟩ := Option.map_eq_some_iff.mp (Prod.ext_iff.mp same).2
    exact ⟨i, length, by rw [← same]⟩
  · rw [if_neg room] at call
    cases call

theorem nextPlace_advances {last : Nat} (ended : path last = 0) {place next : Heap × Nat × Nat}
    (inside : place.2.1 ≤ last) (step : kernel.nextPlace disk path place = some next) :
    place.2.1 < next.2.1 ∧ next.2.1 ≤ last := by
  rw [nextPlace] at step
  split_ifs at step with more
  cases call : kernel.lookupTurn disk path place.1 place.2.1 place.2.2 with
  | none =>
      rw [call] at step
      cases step
  | some turn =>
      obtain ⟨after, result⟩ := turn
      rw [call] at step
      cases result with
      | none => cases step
      | some result =>
          cases step
          obtain ⟨i, length, stop⟩ := lookupTurn_next call
          obtain ⟨-, plain, boundary⟩ := componentLength_eq_some_iff.mp length
          have behind := component_inside ended inside plain
          dsimp only
          rw [stop]
          split_ifs with separated
          · have before : place.2.1 + i ≠ last := by
              intro here
              rw [here, ended] at separated
              cases separated
            omega
          · have nonempty : i ≠ 0 := by
              rintro rfl
              exact boundary.elim separated more
            omega

end Turns

/-! ## The lookup -/

section Runs

variable {kernel : KernelHeap} {disk : Rdfs} {path : Nat → UInt8} {last : Nat}

theorem everyTurnFits_end {place : Heap × Nat × Nat} (ended : path place.2.1 = 0) :
    kernel.EveryTurnFits disk path last place := by
  intro count reached along more
  cases count with
  | zero =>
      cases along
      exact absurd ended more
  | succ count =>
      rw [placeAfter, nextPlace, if_pos ended] at along
      cases along

theorem everyTurnFits_iff {place : Heap × Nat × Nat} (more : path place.2.1 ≠ 0) :
    kernel.EveryTurnFits disk path last place ↔
      kernel.TurnFits disk path last place.1 place.2.1 place.2.2 ∧
        ∀ next, kernel.nextPlace disk path place = some next →
          kernel.EveryTurnFits disk path last next := by
  constructor
  · intro fit
    refine ⟨fit 0 place rfl more, fun next step count reached along => ?_⟩
    exact fit (count + 1) reached (by rw [placeAfter, step]; exact along)
  · rintro ⟨here, onward⟩ count reached along
    cases count with
    | zero =>
        cases along
        exact fun _ => here
    | succ count =>
        obtain ⟨next, step, later⟩ := Option.bind_eq_some_iff.mp along
        exact onward next step count reached later

/-- A lookup stays inside when its first turn does and the rest, if it goes on, stays inside as
well. -/
theorem staysInside_turn {place : Heap × Nat × Nat} (more : path place.2.1 ≠ 0) :
    kernel.StaysInside disk path last place ↔
      ((kernel.lookupTurn disk path place.1 place.2.1 place.2.2).isSome ∧
          ∀ index ∈ turnReads path place.2.1, index ≤ last) ∧
        ∀ next, kernel.nextPlace disk path place = some next →
          kernel.StaysInside disk path last next := by
  have step : ∀ fuel, _ = _ := fun fuel =>
    (lookupFrom.eq_2 kernel disk path place.1 place.2.1 place.2.2 fuel).trans (if_neg more)
  have reads : ∀ fuel, _ = _ := fun fuel =>
    (pathReads.eq_2 kernel disk path place.1 place.2.1 place.2.2 fuel).trans (if_neg more)
  rw [nextPlace, if_neg more]
  constructor
  · rintro ⟨fuel, returned, bound⟩
    cases fuel with
    | zero => cases returned
    | succ fuel =>
        rw [step] at returned
        rw [reads] at bound
        cases call : kernel.lookupTurn disk path place.1 place.2.1 place.2.2 with
        | none =>
            rw [call] at returned
            cases returned
        | some turn =>
            obtain ⟨heap, result⟩ := turn
            rw [call] at returned bound
            refine ⟨⟨rfl, fun index member => bound index (List.mem_append_left _ member)⟩, ?_⟩
            intro next onward
            cases result with
            | none => cases onward
            | some result =>
                cases onward
                exact ⟨fuel, returned, fun index member =>
                  bound index (List.mem_append_right _ member)⟩
  · rintro ⟨⟨returned, bound⟩, onward⟩
    obtain ⟨⟨heap, result⟩, call⟩ := Option.isSome_iff_exists.mp returned
    rw [call] at onward
    cases result with
    | none =>
        refine ⟨1, ?_, ?_⟩
        · rw [step, call]
          rfl
        · rw [reads, call]
          simpa using bound
    | some result =>
        obtain ⟨fuel, later, rest⟩ := onward _ rfl
        refine ⟨fuel + 1, ?_, ?_⟩
        · rw [step, call]
          exact later
        · rw [reads, call]
          intro index member
          rcases List.mem_append.mp member with here | there
          · exact bound index here
          · exact rest index there

/-- From every position of the string the lookup stays inside exactly when every turn has what it
needs. -/
theorem staysInside_iff (ended : path last = 0) {place : Heap × Nat × Nat}
    (inside : place.2.1 ≤ last) :
    kernel.StaysInside disk path last place ↔ kernel.EveryTurnFits disk path last place := by
  induction left : last - place.2.1 using Nat.strong_induction_on generalizing place with
  | _ left ih =>
      by_cases more : path place.2.1 = 0
      · refine iff_of_true ⟨1, ?_, ?_⟩ (everyTurnFits_end more)
        · rw [lookupFrom, if_pos more]
          rfl
        · rw [pathReads, if_pos more]
          simpa using inside
      rw [staysInside_turn more, everyTurnFits_iff more, lookupTurn_fits_iff ended inside]
      refine and_congr_right fun _ => forall_congr' fun next => imp_congr_right fun step => ?_
      obtain ⟨forward, behind⟩ := nextPlace_advances ended inside step
      exact ih (last - next.2.1) (by omega) behind rfl

theorem start_mem_pathReads (fuel : Nat) (heap : Heap) (start id : Nat) :
    start ∈ kernel.pathReads disk path (fuel + 1) heap start id := by
  rw [pathReads]
  split_ifs
  · exact List.mem_cons_self
  · refine List.mem_append_left _ ?_
    rw [turnReads]
    split
    · exact List.mem_cons_self
    · exact List.mem_cons_self

/-- `rdfs_file_get_id_from_path` returns and reads nothing behind the NUL exactly when the path is
not empty and every turn of its loop has what it needs. -/
theorem lookup_inside_string_iff {string : List UInt8} (is_string : IsString path string)
    (heap : Heap) :
    (∃ fuel, (kernel.rdfsFileGetIdFromPath disk path fuel heap).isSome ∧
        ∀ index ∈ kernel.pathReads disk path fuel heap 1 0, index ≤ string.length) ↔
      string ≠ [] ∧ kernel.EveryTurnFits disk path string.length (heap, 1, 0) := by
  have ended := is_string.at_length
  by_cases empty : string = []
  · refine iff_of_false ?_ fun fit => fit.1 empty
    rintro ⟨fuel, returned, inside⟩
    cases fuel with
    | zero => cases returned
    | succ fuel =>
        have bound := inside 1 (start_mem_pathReads fuel heap 1 0)
        rw [empty] at bound
        exact absurd bound (by decide)
  · rw [and_iff_right empty]
    exact @staysInside_iff kernel disk path string.length ended (heap, 1, 0)
      (List.length_pos_iff.mpr empty)

end Runs

/-! ## A ram disk and a heap in one memory -/

/-- Where the heap of the examples starts. -/
def sampleHeapStart : Nat := 0xffff000000400000

/-- A heap with one free block, and the image of a tree in front of it. -/
def sampleHeap (root : Listing) : Heap :=
  ⟨FreeMemHeader.store (placeImage (fun _ => 0) sampleStart (genRamDisk root)) sampleHeapStart
    ⟨startOfHeap, endOfHeap, kernelHeapSize⟩, sampleHeapStart⟩

theorem sampleHeap_below (root : Listing) {address : Nat} (below : address < sampleHeapStart) :
    (sampleHeap root).memory address =
      placeImage (fun _ => 0) sampleStart (genRamDisk root) address := by
  have place : ∀ offset ≤ 16, (sampleHeapStart + offset) % wordSize = sampleHeapStart + offset :=
    fun offset small => Nat.mod_eq_of_lt (by simp only [sampleHeapStart, wordSize]; omega)
  rw [sampleHeap, FreeMemHeader.store, FreeMemHeader.setSize, FreeMemHeader.setNext,
    FreeMemHeader.setPrev, place 16 (le_refl _), place 8 (by decide),
    Nat.mod_eq_of_lt (by decide)]
  dsimp only
  rw [Memory.write_outside _ (Or.inl (by omega)), Memory.write_outside _ (Or.inl (by omega)),
    Memory.write_outside _ (Or.inl below)]

theorem sampleHeap_mounted {root : Listing}
    (mounted : Mounted (placeImage (fun _ => 0) sampleStart (genRamDisk root))
      (mountedDisk sampleStart root) root)
    (short : sampleStart + (genRamDisk root).length < sampleHeapStart) :
    Mounted (sampleHeap root).memory (mountedDisk sampleStart root) root := by
  refine mounted.congr fun address _ upper => sampleHeap_below _ ?_
  rw [show (mountedDisk sampleStart root).rdfsStart = sampleStart from rfl] at upper
  omega

/-- The image and the heap are mapped. -/
def sampleKernel : KernelHeap :=
  ⟨fun address => decide (sampleStart ≤ address ∧ address < sampleHeapStart + kernelHeapSize),
    PellOs.kmalloc 4, PellOs.kfree 4⟩

/-- The lookup of `/a` finds the file and stays inside the path. -/
theorem lookup_inside_string_file :
    (∃ fuel, (sampleKernel.rdfsFileGetIdFromPath (mountedDisk sampleStart (oneFileTree [1]).root)
          (pathBytes [nameA]) fuel (sampleHeap (oneFileTree [1]).root)).isSome ∧
        ∀ index ∈ sampleKernel.pathReads (mountedDisk sampleStart (oneFileTree [1]).root)
          (pathBytes [nameA]) fuel (sampleHeap (oneFileTree [1]).root) 1 0,
            index ≤ (pathString [nameA]).length) ∧
      sampleKernel.EveryTurnFits (mountedDisk sampleStart (oneFileTree [1]).root)
        (pathBytes [nameA]) (pathString [nameA]).length
        (sampleHeap (oneFileTree [1]).root, 1, 0) := by
  have inside : ∃ fuel, (sampleKernel.rdfsFileGetIdFromPath
      (mountedDisk sampleStart (oneFileTree [1]).root) (pathBytes [nameA]) fuel
      (sampleHeap (oneFileTree [1]).root)).isSome ∧
        ∀ index ∈ sampleKernel.pathReads (mountedDisk sampleStart (oneFileTree [1]).root)
          (pathBytes [nameA]) fuel (sampleHeap (oneFileTree [1]).root) 1 0,
            index ≤ (pathString [nameA]).length := ⟨2, by decide +kernel, by decide +kernel⟩
  exact ⟨inside, ((lookup_inside_string_iff ⟨zero_not_mem_pathString _, isPath_pathBytes _⟩
    _).mp inside).2⟩

/-- A tree with a file whose word is no number of an entry. -/
def strayTree : DirTree := oneFileTree (255 :: List.replicate 7 1)

/-- The lookup of the empty path reads the byte behind its NUL, and the lookup of `/a/a` faults when
`a` is a file with a word that is no number of an entry. -/
theorem lookup_leaves_string :
    (Mounted (sampleHeap .nil).memory (mountedDisk sampleStart .nil) .nil ∧
      IsString (fun _ => 0) [] ∧
      ¬ ∃ fuel, (sampleKernel.rdfsFileGetIdFromPath (mountedDisk sampleStart .nil) (fun _ => 0)
          fuel (sampleHeap .nil)).isSome ∧
        ∀ index ∈ sampleKernel.pathReads (mountedDisk sampleStart .nil) (fun _ => 0) fuel
          (sampleHeap .nil) 1 0, index ≤ ([] : List UInt8).length) ∧
    Mounted (sampleHeap strayTree.root).memory (mountedDisk sampleStart strayTree.root)
        strayTree.root ∧
      ¬ ∃ fuel, (sampleKernel.rdfsFileGetIdFromPath (mountedDisk sampleStart strayTree.root)
        (pathBytes [nameA, nameA]) fuel (sampleHeap strayTree.root)).isSome := by
  have is_string : IsString (fun _ => 0) [] := ⟨List.not_mem_nil, rfl, trivial⟩
  refine ⟨⟨sampleHeap_mounted emptyTree_mounted (by decide +kernel), is_string, ?_⟩,
    sampleHeap_mounted (oneFileTree_mounted _ (by decide)) (by decide +kernel), ?_⟩
  · rw [lookup_inside_string_iff is_string]
    rintro ⟨nonempty, -⟩
    exact nonempty rfl
  · have first : (sampleKernel.lookupTurn (mountedDisk sampleStart strayTree.root)
        (pathBytes [nameA, nameA]) (sampleHeap strayTree.root) 1 0).map Prod.snd =
          some (some (3, 1)) := by decide +kernel
    have second : ((sampleKernel.lookupTurn (mountedDisk sampleStart strayTree.root)
        (pathBytes [nameA, nameA]) (sampleHeap strayTree.root) 1 0).bind fun turn =>
          sampleKernel.lookupTurn (mountedDisk sampleStart strayTree.root)
            (pathBytes [nameA, nameA]) turn.1 3 1).isNone := by decide +kernel
    obtain ⟨⟨heap, _⟩, turn, rfl⟩ := Option.map_eq_some_iff.mp first
    rw [turn, Option.bind_some, Option.isNone_iff_eq_none] at second
    rintro ⟨fuel, returned⟩
    rw [rdfsFileGetIdFromPath] at returned
    cases fuel with
    | zero => cases returned
    | succ fuel =>
        rw [lookupFrom, if_neg (by decide), turn] at returned
        cases fuel with
        | zero => cases returned
        | succ fuel =>
            dsimp only at returned
            rw [lookupFrom, if_neg (by decide), second] at returned
            cases returned

end KernelHeap

end PellOs
