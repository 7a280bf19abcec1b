import PellOs.Fs.LookupResources
import PellOs.Fs.Vfs

/-!
# Opening files

What `vfs_open` reports for every table and every path.  A path that does not resolve makes it
return zero, which is the number of a descriptor.
-/

namespace PellOs

section Open

variable (answer : Nat → Nat) (fuel : Nat) (disk : Rdfs)

/-- The path is `/dev/timer`. -/
def IsTimer (memory : Memory) (path : Nat) : Prop := strcmp (charAt memory path) devTimer 0 = 0

instance (memory : Memory) (path : Nat) : Decidable (IsTimer memory path) :=
  inferInstanceAs (Decidable (_ = _))

/-- The path is that of the timer, or the lookup ends with the given id. -/
def Denotes (vfs : Vfs) (path : Nat) (id : UInt64) : Prop :=
  IsTimer vfs.fd.memory path ∧ id = timerFileId ∨
    ¬ IsTimer vfs.fd.memory path ∧ ∃ found,
      (rdfsFileGetIdFromPath answer fuel vfs.fd.memory disk vfs.rdfs
        (charAt vfs.fd.memory path)).2 = .found found ∧ id = UInt64.ofNat found

variable {answer fuel disk} {layout : TableLayout} {base : Memory} {bits : Nat → UInt8}
  {files : Nat → File} {vfs started : Vfs} {path : Nat}

theorem IsString.isTimer_iff {string : List UInt8}
    (is_string : IsString (charAt vfs.fd.memory path) string) :
    IsTimer vfs.fd.memory path ↔ string = devTimer :=
  is_string.strcmp_iff (by decide)

/-- With a file at hand `vfs_open` is `create_fd`. -/
theorem vfsOpenReady_of_denotes {id : UInt64}
    (denotes : Denotes answer fuel disk started path id) (flags : Nat) :
    ∃ rdfs file, file.fileId = id ∧ file.index = 0 ∧
      vfsOpenReady answer fuel disk started path flags =
        some (⟨(createFd started.fd file).1, rdfs⟩, (createFd started.fd file).2) := by
  rcases denotes with ⟨timer, rfl⟩ | ⟨other, found, lookup, rfl⟩
  · refine ⟨started.rdfs, ⟨timerFileId, 0, 0⟩, rfl, rfl, ?_⟩
    rw [IsTimer] at timer
    rw [vfsOpenReady, if_pos timer]
  · refine ⟨(rdfsFileGetIdFromPath answer fuel started.fd.memory disk started.rdfs
      (charAt started.fd.memory path)).1, rdfsOpenFileId found flags, rfl, rfl, ?_⟩
    rw [IsTimer] at other
    rw [vfsOpenReady, if_neg other, rdfsOpenFile, ← Prod.eta (rdfsFileGetIdFromPath ..), lookup]

/-- A path that denotes nothing makes `vfs_open` return zero with the table as it was, or not return
at all. -/
theorem vfsOpenReady_of_not_denotes
    (nothing : ¬ ∃ id, Denotes answer fuel disk started path id) (flags : Nat) :
    ∀ after result, vfsOpenReady answer fuel disk started path flags = some (after, result) →
      result = 0 ∧ after.fd = started.fd := by
  have other : ¬ IsTimer started.fd.memory path := fun timer =>
    nothing ⟨timerFileId, Or.inl ⟨timer, rfl⟩⟩
  have no_id : ∀ found, (rdfsFileGetIdFromPath answer fuel started.fd.memory disk started.rdfs
      (charAt started.fd.memory path)).2 ≠ .found found :=
    fun found same => nothing ⟨_, Or.inr ⟨other, found, same, rfl⟩⟩
  intro after result call
  rw [IsTimer] at other
  rw [vfsOpenReady, if_neg other, rdfsOpenFile, ← Prod.eta (rdfsFileGetIdFromPath ..)] at call
  cases outcome : (rdfsFileGetIdFromPath answer fuel started.fd.memory disk started.rdfs
      (charAt started.fd.memory path)).2 with
  | found id => exact absurd outcome (no_id id)
  | missing =>
      rw [outcome] at call
      cases call
      exact ⟨rfl, rfl⟩
  | stuck =>
      rw [outcome] at call
      cases call

theorem initFdTable_of_holds (holds : layout.Holds base bits files vfs.fd) :
    initFdTable answer vfs = some vfs := by
  rw [initFdTable, if_pos (by rw [holds.file_pointer]; exact Nat.ne_of_gt layout.file_pos)]

/-- Opening a file takes a free descriptor for it, or fails with the table as it was. -/
theorem vfsOpen_of_denotes (ready : initFdTable answer vfs = some started)
    (holds : layout.Holds base bits files started.fd) {id : UInt64}
    (denotes : Denotes answer fuel disk started path id) (flags : Nat) :
    (∃ (after : Vfs) (fd : Nat), vfsOpen answer fuel disk vfs path flags =
      some (after, (fd : Int)) ∧
        fd < fdCount ∧ Bitmap.member bits fd = false ∧
        layout.Holds base (Bitmap.insert bits fd) (Function.update files fd ⟨id, 0, 1⟩) after.fd) ∨
      ∃ after : Vfs, vfsOpen answer fuel disk vfs path flags = some (after, -1) ∧
        (∀ fd < fdCount, Bitmap.member bits fd = true) ∧ layout.Holds base bits files after.fd := by
  obtain ⟨rdfs, file, same_id, start, call⟩ := vfsOpenReady_of_denotes denotes flags
  rw [vfsOpen, ready, Option.bind_some, call]
  rcases holds.createFd_spec file with
    ⟨fd, bound, free, _, result, stored⟩ | ⟨full, result, memory, task⟩
  · rw [same_id, start] at stored
    exact Or.inl ⟨_, fd, by rw [result], bound, free, stored⟩
  · exact Or.inr ⟨_, by rw [result], full, holds.congr memory task⟩

end Open

/-! ## Reported opens -/

/-- What a path can lead to. -/
inductive OpenTarget
  | timer
  | node (id : Nat)

/-- What a descriptor with the file id reads. -/
def OpenTarget.ofFileId (fileId : UInt64) : OpenTarget :=
  if fileId = timerFileId then .timer else .node fileId.toNat

/-- The string is `/dev/timer`, or the path of a node of the tree. -/
def DirTree.LeadsTo (tree : DirTree) (string : List UInt8) : OpenTarget → Prop
  | .timer => string = devTimer
  | .node id => string ≠ devTimer ∧
      ∃ names entry, string = pathString names ∧ tree.At names id entry

section Reported

variable (bits : Nat → UInt8) (files : Nat → File)

/-- Every descriptor has its bit set. -/
def TableFull : Prop := ∀ fd < fdCount, Bitmap.member bits fd = true

variable (answer : Nat → Nat)

/-- The path is `/dev/timer`, or that of a node whose number is not that of the timer; or it leads
to any entry of the image at all, and the table is full.  `kmalloc` grants the blocks of every
component. -/
def TargetFound (disk : Rdfs) (tree : DirTree) (string : List UInt8) (vfs : Vfs) (path : Nat) :
    Prop :=
  string = devTimer ∨
    (∃ names id entry, string = pathString names ∧ tree.At names id entry ∧ id ≠ 255 ∧
      GrantsNext answer vfs.rdfs.calls (2 * names.length)) ∨
    TableFull bits ∧ ∃ count last,
      nodeAfter vfs.fd.memory disk (charAt vfs.fd.memory path) count (1, 0) = some last ∧
        charAt vfs.fd.memory path last.1 = 0 ∧ GrantsNext answer vfs.rdfs.calls (2 * count)

end Reported

/-- The table is laid out, the image of the tree is mounted, and the path is a string. -/
structure OpenReady (layout : TableLayout) (base : Memory) (bits : Nat → UInt8)
    (files : Nat → File) (disk : Rdfs) (tree : DirTree) (string : List UInt8) (path : Nat)
    (vfs : Vfs) : Prop where
  holds : layout.Holds base bits files vfs.fd
  mounted : Mounted vfs.fd.memory disk tree.root
  is_string : IsString (charAt vfs.fd.memory path) string

section Reported

variable {answer : Nat → Nat} {fuel : Nat} {disk : Rdfs} {tree : DirTree} {layout : TableLayout}
  {base : Memory} {bits : Nat → UInt8} {files : Nat → File} {vfs started : Vfs} {path : Nat}
  {string : List UInt8}

theorem TargetFound.denotes (fits : tree.root.NamesFit)
    (ready : OpenReady layout base bits files disk tree string path vfs)
    (found : TargetFound bits answer disk tree string vfs path) :
    ∃ fuel fileId, Denotes answer fuel disk vfs path fileId ∧
      (tree.LeadsTo string (.ofFileId fileId) ∨ TableFull bits) := by
  by_cases timer : string = devTimer
  · refine ⟨0, timerFileId, Or.inl ⟨ready.is_string.isTimer_iff.mpr timer, rfl⟩, Or.inl ?_⟩
    rw [OpenTarget.ofFileId, if_pos rfl]
    exact timer
  have other := mt ready.is_string.isTimer_iff.mp timer
  rcases found with same | ⟨names, id, entry, named, node, not_timer, granted⟩ |
    ⟨full, count, last, along, ended, granted⟩
  · exact absurd same timer
  · obtain ⟨target, listed⟩ := node.node
    have lookup := (@lookupFrom_eq _ disk _ _ _ _ (ready.is_string.isPath_iff.mpr named).2 _
      (Nat.lt_succ_self _) vfs.rdfs granted 0).1.trans (node.resolve_eq ready.mounted fits)
    refine ⟨names.length + 1, UInt64.ofNat id, Or.inr ⟨other, id, lookup, rfl⟩, Or.inl ?_⟩
    have number := toNat_ofNat_id ready.mounted listed
    rw [OpenTarget.ofFileId,
      if_neg (by rintro same; rw [same] at number; exact not_timer number.symm),
      number]
    exact ⟨timer, names, entry, named, node⟩
  · exact ⟨count + 1, _, Or.inr ⟨other, last.2,
      lookupFrom_of_nodeAfter along ended granted, rfl⟩, Or.inr full⟩

end Reported

/-! ## A table, a path and an image in one memory -/

/-- Where the path of the examples stands. -/
def samplePath : Nat := 0x8000

/-- Memory with a cleared table, a path and the image of a tree. -/
def sampleVfs (root : Listing) (names : List Name) : Vfs :=
  ⟨⟨placeImage (placeImage sampleMemory samplePath (slash :: joinNames names ++ [0])) sampleStart
    (genRamDisk root), sampleLayout.task, []⟩, ⟨0, [], []⟩⟩

section Sample

variable (root : Listing) (names : List Name)

theorem sampleVfs_memory {address : Nat} (short : (joinNames names).length < 0x1000)
    (low : address < samplePath ∨ samplePath + 0x2000 ≤ address) (below : address < sampleStart) :
    (sampleVfs root names).fd.memory address = sampleMemory address := by
  simp only [sampleVfs]
  rw [placeImage_below _ _ below]
  refine if_neg fun inside => ?_
  rw [List.cons_append, List.length_cons, List.length_append, List.length_singleton] at inside
  omega

theorem sampleVfs_holds (short : (joinNames names).length < 0x1000) :
    sampleLayout.Holds (sampleVfs root names).fd.memory (fun _ => 0) (fun _ => ⟨0, 0, 0⟩)
      (sampleVfs root names).fd := by
  have agree : ∀ address count, (address + count ≤ samplePath ∨ samplePath + 0x2000 ≤ address) →
      address + count ≤ sampleStart →
      sampleMemory.AgreeOn (sampleVfs root names).fd.memory address count := by
    intro address count low below target lower upper
    exact sampleVfs_memory root names short (by omega) (by omega)
  exact sampleMemory_holds.move (agree _ _ (by decide) (by decide))
    (agree _ _ (by decide) (by decide))
    (agree _ _ (by decide) (by decide))

theorem sampleVfs_started (answer : Nat → Nat) (short : (joinNames names).length < 0x1000) :
    initFdTable answer (sampleVfs root names) = some (sampleVfs root names) :=
  initFdTable_of_holds (sampleVfs_holds root names short)

theorem sampleVfs_stored (short : (joinNames names).length < 0x1000) :
    Memory.Stored (charAt (sampleVfs root names).fd.memory samplePath) 0
      (slash :: joinNames names ++ [0]) := by
  have length : (slash :: joinNames names ++ [0]).length = (joinNames names).length + 2 := by
    rw [List.cons_append, List.length_cons, List.length_append, List.length_singleton]
  have bound : samplePath + 0x2000 < sampleStart ∧ sampleStart < wordSize := by decide
  apply stored_charAt
  · apply Memory.stored_of_get
    intro index byte entry
    have inside := (List.getElem?_eq_some_iff.mp entry).1
    simp only [sampleVfs]
    rw [placeImage_below _ _ (by omega)]
    exact (stored_placeImage sampleMemory samplePath _).get entry
  · omega

theorem sampleVfs_isPath (short : (joinNames names).length < 0x1000) :
    IsPath (charAt (sampleVfs root names).fd.memory samplePath) names :=
  sampleVfs_stored root names short

theorem sampleVfs_mounted (fits : sampleStart + (genRamDisk root).length < wordSize) :
    Mounted (sampleVfs root names).fd.memory (mountedDisk sampleStart root) root :=
  mounted_placeImage _ (by decide) fits

end Sample

end PellOs
