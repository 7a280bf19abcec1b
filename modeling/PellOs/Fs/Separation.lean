import PellOs.Fs.Read

/-!
# Files and the timer behind descriptors

A descriptor holds a file id, and id 255 stands for the timer whatever node of the image has that
id.  Next to the table this file keeps the path that each open descriptor came from, and states
which opens keep descriptors of files and of the timer apart.
-/

namespace PellOs

/-- A table with the path that each open descriptor came from. -/
structure VfsConfig where
  vfs : Vfs
  opened : Nat → Option (Nat → UInt8)

/-- Opening a path, closing a descriptor, and code that changes other memory and uses the heap. -/
inductive VfsAction
  | opens (fuel path flags : Nat)
  | closes (fd : Nat)
  | other (memory : Memory) (rdfs : RdfsState)

section Runs

variable (answer : Nat → Nat) (disk : Rdfs) (tree : DirTree) (layout : TableLayout)

/-- The image and the table are the same in both memories. -/
structure Undisturbed (before after : Memory) : Prop where
  image : before.AgreeOn after disk.rdfsStart (genRamDisk tree.root).length
  pointers : before.AgreeOn after (layout.task + 560) 16
  bitmap : before.AgreeOn after layout.bitmap fdBitmapSize
  file : before.AgreeOn after layout.file (sizeofFile * fileDescTableInitSize)

/-- The path is that of the timer, or its components lead to an entry of the image. -/
def Opens (vfs : Vfs) (path : Nat) : Prop :=
  IsTimer vfs.fd.memory path ∨ Resolves vfs.fd.memory disk (charAt vfs.fd.memory path)

/-- One action.  A path that leads nowhere gives no descriptor, whatever `vfs_open` returns. -/
inductive VfsStep : VfsAction → VfsConfig → VfsConfig → Prop
  | opened {config : VfsConfig} {fuel path flags fd : Nat} {after : Vfs}
      (opens : Opens disk config.vfs path)
      (call : vfsOpen answer fuel disk config.vfs path flags = some (after, (fd : Int))) :
      VfsStep (.opens fuel path flags) config
        ⟨after, Function.update config.opened fd (some (charAt config.vfs.fd.memory path))⟩
  | refused {config : VfsConfig} {fuel path flags : Nat} {after : Vfs} {result : Int}
      (call : vfsOpen answer fuel disk config.vfs path flags = some (after, result))
      (no_descriptor : ¬ Opens disk config.vfs path ∨ result < 0) :
      VfsStep (.opens fuel path flags) config ⟨after, config.opened⟩
  | closed {config : VfsConfig} {fd : Nat} (inside : fd < fdCount) :
      VfsStep (.closes fd) config
        ⟨⟨vfsClose config.vfs.fd fd, config.vfs.rdfs⟩, Function.update config.opened fd none⟩
  | other {config : VfsConfig} {memory : Memory} {rdfs : RdfsState}
      (undisturbed : Undisturbed disk tree layout config.vfs.fd.memory memory) :
      VfsStep (.other memory rdfs) config ⟨⟨{ config.vfs.fd with memory }, rdfs⟩, config.opened⟩

/-- An open that finds the table full, opens `/dev/timer` where the tree has no regular file, or
whose components do not lead to the entry with number 255. -/
def Separate : VfsAction → VfsConfig → Prop
  | .opens _ path _, config =>
      TableFull config.vfs.fd.bitmapAt ∨
        (IsTimer config.vfs.fd.memory path →
          ∀ names id contents, IsPath (charAt config.vfs.fd.memory path) names →
            ¬ tree.At names id (.file contents)) ∧
        (¬ IsTimer config.vfs.fd.memory path → ∀ count stop,
          nodeAfter config.vfs.fd.memory disk (charAt config.vfs.fd.memory path) count (1, 0) =
            some (stop, 255) → charAt config.vfs.fd.memory path stop ≠ 0)
  | .closes _, _ => True
  | .other _ _, _ => True

/-- One action that is separate. -/
def SeparateStep (before after : VfsConfig) : Prop :=
  ∃ action, Separate disk tree action before ∧
    VfsStep answer disk tree layout action before after

/-- Reads of the descriptor return the bytes of the file. -/
def ReadsFile (state : FdState) (fd : Nat) (contents : List UInt8) : Prop :=
  ∀ timerVal buf size, Mounted.BufferApart disk tree.root buf (min size contents.length) →
    (vfsRead disk timerVal state fd buf size).2 = (min size contents.length : Nat) ∧
      (vfsRead disk timerVal state fd buf size).1.memory.bytes buf (min size contents.length) =
        contents.take (min size contents.length)

/-- The words at the place of the entry read as an open file with the number of the timer. -/
def TimerEntry (state : FdState) (fd : Int) : Prop :=
  ∃ file, (getFileFromFd state fd).2 = some file ∧ file.fileId = timerFileId

/-! ## The invariant -/

/-- The id stands for the timer only behind `/dev/timer`, and for each regular file at the path. -/
structure StandsFor (path : Nat → UInt8) (fileId : UInt64) : Prop where
  timer : fileId = timerFileId → strcmp path devTimer 0 = 0
  file : ∀ names id contents, IsPath path names → tree.At names id (.file contents) →
    fileId.toNat = id ∧ fileId ≠ timerFileId

/-- The entry stands for the path that it was opened with, or is closed. -/
def EntryStandsFor (fd : Nat) (file : File) : Option (Nat → UInt8) → Prop
  | none => file.flags = 0
  | some path => fd < fdCount ∧ ∃ fileId, file = ⟨fileId, 0, 1⟩ ∧ StandsFor tree path fileId

/-- The image is mounted, and every entry of the table stands for what was opened with it. -/
def VfsInvariant (config : VfsConfig) : Prop :=
  ∃ base bits files, layout.Holds base bits files config.vfs.fd ∧
    Mounted config.vfs.fd.memory disk tree.root ∧
    (∀ fd, fileDescTableInitSize ≤ fd → config.opened fd = none) ∧
    ∀ fd < fileDescTableInitSize, EntryStandsFor tree fd (files fd) (config.opened fd)

end Runs

section Invariant

variable {answer : Nat → Nat} {disk : Rdfs} {tree : DirTree} {layout : TableLayout}
  {before after config : VfsConfig}

theorem opens_of_denotes {fuel path : Nat} {vfs : Vfs} {fileId : UInt64}
    (denotes : Denotes answer fuel disk vfs path fileId) : Opens disk vfs path := by
  rcases denotes with ⟨timer, -⟩ | ⟨-, found, lookup, -⟩
  · exact Or.inl timer
  · exact Or.inr (resolves_of_found lookup)

/-- An open of a path that leads to an entry has a file at hand when it returns. -/
private theorem denotes_of_opens {fuel path flags : Nat} {vfs after : Vfs} {result : Int}
    (opens : Opens disk vfs path)
    (call : vfsOpenReady answer fuel disk vfs path flags = some (after, result)) :
    ∃ fileId, Denotes answer fuel disk vfs path fileId := by
  by_cases timer : IsTimer vfs.fd.memory path
  · exact ⟨timerFileId, Or.inl ⟨timer, rfl⟩⟩
  have resolves := opens.resolve_left timer
  rw [vfsOpenReady, if_neg (by rwa [IsTimer] at timer), rdfsOpenFile,
    ← Prod.eta (rdfsFileGetIdFromPath ..)] at call
  cases lookup : (rdfsFileGetIdFromPath answer fuel vfs.fd.memory disk vfs.rdfs
      (charAt vfs.fd.memory path)).2 with
  | found id => exact ⟨_, Or.inr ⟨timer, id, lookup, rfl⟩⟩
  | missing =>
      rcases lookupFrom_live (by rw [← rdfsFileGetIdFromPath, lookup]; exact Lookup.noConfusion)
        with ⟨-, ⟨id, found⟩, -⟩ | ⟨strays, -⟩
      · rw [← rdfsFileGetIdFromPath, lookup] at found
        cases found
      · exact absurd resolves strays
  | stuck =>
      rw [lookup] at call
      cases call

private theorem nodeAfter_lt {memory : Memory} {path : Nat → UInt8} {count : Nat}
    {place last : Nat × Nat} (small : place.2 < wordSize)
    (along : nodeAfter memory disk path count place = some last) : last.2 < wordSize := by
  induction count generalizing place with
  | zero =>
      cases along
      exact small
  | succ count ih =>
      obtain ⟨next, step, later⟩ := Option.bind_eq_some_iff.mp along
      obtain ⟨-, i, -, search, -⟩ := nextNode_eq_some step
      obtain ⟨index, -, same⟩ := List.mem_map.mp (List.mem_of_find?_eq_some search)
      refine ih ?_ later
      rw [← same]
      exact memory.read_lt _ 8

private theorem standsFor_of_denotes {vfs : Vfs} (fits : tree.root.NamesFit)
    (mounted : Mounted vfs.fd.memory disk tree.root) {fuel path : Nat} {fileId : UInt64}
    (denotes : Denotes answer fuel disk vfs path fileId)
    (timer : IsTimer vfs.fd.memory path →
      ∀ names id contents, IsPath (charAt vfs.fd.memory path) names →
        ¬ tree.At names id (.file contents))
    (other : ¬ IsTimer vfs.fd.memory path → ∀ count stop,
      nodeAfter vfs.fd.memory disk (charAt vfs.fd.memory path) count (1, 0) = some (stop, 255) →
        charAt vfs.fd.memory path stop ≠ 0) :
    StandsFor tree (charAt vfs.fd.memory path) fileId := by
  rcases denotes with ⟨is_timer, rfl⟩ | ⟨not_timer, found, lookup, rfl⟩
  · exact ⟨fun _ => is_timer, fun names id contents is_path node =>
      absurd node (timer is_timer names id contents is_path)⟩
  have another : UInt64.ofNat found ≠ timerFileId := by
    intro same
    obtain ⟨count, stop, along, ended, -⟩ := nodeAfter_of_lookupFrom lookup
    have small := nodeAfter_lt (show (1, 0).2 < wordSize by decide) along
    have number := congrArg UInt64.toNat same
    rw [UInt64.toNat_ofNat', Nat.mod_eq_of_lt small] at number
    rw [show found = 255 from number] at along
    exact other not_timer count stop along ended
  refine ⟨fun same => absurd same another, fun names id contents is_path node => ?_⟩
  obtain ⟨target, listed⟩ := node.node
  have reached := (resolve_of_lookupFrom is_path.2 lookup).1
  rw [node.resolve_eq mounted fits, Lookup.found.injEq] at reached
  rw [← reached]
  exact ⟨toNat_ofNat_id mounted listed, by rw [reached]; exact another⟩

private theorem entryStandsFor_update {files : Nat → File} {opened : Nat → Option (Nat → UInt8)}
    (stands : ∀ fd < fileDescTableInitSize, EntryStandsFor tree fd (files fd) (opened fd))
    {fd : Nat} {file : File} {entry : Option (Nat → UInt8)}
    (here : EntryStandsFor tree fd file entry) :
    ∀ other < fileDescTableInitSize, EntryStandsFor tree other (Function.update files fd file other)
      (Function.update opened fd entry other) := by
  intro other inside
  by_cases same : other = fd
  · subst same
    rw [Function.update_self, Function.update_self]
    exact here
  · rw [Function.update_of_ne same, Function.update_of_ne same]
    exact stands other inside

private theorem none_behind_update {opened : Nat → Option (Nat → UInt8)}
    (behind : ∀ fd, fileDescTableInitSize ≤ fd → opened fd = none) {fd : Nat}
    (bound : fd < fdCount) (entry : Option (Nat → UInt8)) :
    ∀ other, fileDescTableInitSize ≤ other → Function.update opened fd entry other = none := by
  intro other outside
  have inside : fdCount ≤ fileDescTableInitSize := by decide
  rw [Function.update_of_ne (by omega)]
  exact behind other outside

theorem VfsInvariant.step (fits : tree.root.NamesFit)
    (apart : layout.ImageApart disk tree.root) (inv : VfsInvariant disk tree layout before)
    (step : SeparateStep answer disk tree layout before after) :
    VfsInvariant disk tree layout after := by
  obtain ⟨base, bits, files, holds, mounted, behind, stands⟩ := inv
  obtain ⟨action, separate, step⟩ := step
  cases step with
  | @opened _ fuel path flags fd after opens call =>
      rw [vfsOpen, initFdTable_of_holds holds, Option.bind_some] at call
      obtain ⟨id, denotes⟩ := denotes_of_opens opens call
      rcases vfsOpen_of_denotes (initFdTable_of_holds holds) holds denotes flags with
        ⟨_, _, call', bound, free, stored⟩ | ⟨_, call', _, _⟩
      all_goals rw [vfsOpen, initFdTable_of_holds holds, Option.bind_some, call, Option.some.injEq,
        Prod.mk.injEq] at call'
      · obtain ⟨rfl, same⟩ := call'
        obtain rfl := Int.natCast_inj.mp same
        refine ⟨base, _, _, stored, holds.mounted stored apart mounted,
          none_behind_update behind bound _, entryStandsFor_update stands ⟨bound, id, rfl, ?_⟩⟩
        rcases separate with full | ⟨timer, other⟩
        · have member := full fd bound
          rw [holds.member_eq bound, free] at member
          cases member
        · exact standsFor_of_denotes fits mounted denotes timer other
      · omega
  | @refused _ fuel path flags after result call no_descriptor =>
      have kept : layout.Holds base bits files after.fd := by
        have ready := call
        rw [vfsOpen, initFdTable_of_holds holds, Option.bind_some] at ready
        by_cases denotes : ∃ id, Denotes answer fuel disk before.vfs path id
        · obtain ⟨id, denotes⟩ := denotes
          have negative := no_descriptor.resolve_left (not_not.mpr (opens_of_denotes denotes))
          rcases vfsOpen_of_denotes (initFdTable_of_holds holds) holds denotes flags with
            ⟨_, _, call', _⟩ | ⟨_, call', _, kept⟩
          · rw [call, Option.some.injEq, Prod.mk.injEq] at call'
            omega
          · rw [call, Option.some.injEq, Prod.mk.injEq] at call'
            obtain ⟨rfl, rfl⟩ := call'
            exact kept
        · rw [(vfsOpenReady_of_not_denotes denotes flags after result ready).2]
          exact holds
      exact ⟨base, bits, files, kept, holds.mounted kept apart mounted, behind, stands⟩
  | closed inside =>
      have cleared := holds.deleteFd_spec inside
      exact ⟨base, _, _, cleared, holds.mounted cleared apart mounted,
        none_behind_update behind inside _, entryStandsFor_update stands rfl⟩
  | other undisturbed =>
      exact ⟨_, bits, files,
        holds.move undisturbed.pointers undisturbed.bitmap undisturbed.file,
        mounted.congr undisturbed.image, behind, stands⟩

theorem VfsInvariant.run (fits : tree.root.NamesFit)
    (apart : layout.ImageApart disk tree.root) (inv : VfsInvariant disk tree layout before)
    (run : Relation.ReflTransGen (SeparateStep answer disk tree layout) before after) :
    VfsInvariant disk tree layout after := by
  induction run with
  | refl => exact inv
  | tail _ step ih => exact ih.step fits apart step

private theorem rdfsReadFile_zero (memory : Memory) (disk : Rdfs) (file : File) (buf : Nat) :
    (rdfsReadFile memory disk file buf 0).2.2 = 0 := by
  rw [rdfsReadFile]
  dsimp only
  split_ifs with done large
  · rfl
  · exact absurd large (Nat.not_lt_zero _)
  · rfl

/-- A descriptor of the table reads the timer only if it was opened as `/dev/timer`. -/
theorem VfsInvariant.timer (inv : VfsInvariant disk tree layout config) {fd : Nat}
    (inside : fd < fileDescTableInitSize) (entry : TimerEntry config.vfs.fd fd) :
    ∃ path, config.opened fd = some path ∧ strcmp path devTimer 0 = 0 := by
  obtain ⟨base, bits, files, holds, -, -, stands⟩ := inv
  obtain ⟨file, here, timer⟩ := entry
  rw [holds.getFileFromFd_eq inside] at here
  split_ifs at here with positive
  obtain rfl := Option.some.inj here
  have stands := stands fd inside
  cases opened : config.opened fd with
  | none =>
      rw [opened] at stands
      have closed : (files fd).flags = 0 := stands
      rw [closed] at positive
      exact absurd positive (by decide)
  | some path =>
      rw [opened] at stands
      obtain ⟨-, fileId, same, stands_for⟩ := stands
      rw [same] at timer
      exact ⟨path, rfl, stands_for.timer timer⟩

theorem VfsInvariant.file (fits : tree.root.NamesFit) (inv : VfsInvariant disk tree layout config)
    {fd : Nat} {path : Nat → UInt8} (opened : config.opened fd = some path) {names : List Name}
    {id : Nat} {contents : List UInt8} (is_path : IsPath path names)
    (node : tree.At names id (.file contents)) :
    ReadsFile disk tree config.vfs.fd fd contents := by
  obtain ⟨base, bits, files, holds, mounted, behind, stands⟩ := inv
  have inside : fd < fileDescTableInitSize := by
    by_contra outside
    rw [behind fd (not_lt.mp outside)] at opened
    cases opened
  have stands := stands fd inside
  rw [opened] at stands
  obtain ⟨-, fileId, entry, stands_for⟩ := stands
  have flags : 0 < (files fd).flags.toNat := by
    rw [entry]
    exact Nat.zero_lt_one
  intro timerVal buf size apart
  obtain ⟨target, listed⟩ := node.node
  obtain ⟨number, other⟩ := stands_for.file names id contents is_path node
  obtain ⟨memory, _, count⟩ := holds.vfsRead_file inside flags (by rw [entry]; exact other) disk
    timerVal buf size
  rw [memory, count, entry]
  rcases Nat.eq_zero_or_pos size with rfl | positive
  · rw [rdfsReadFile_zero, Nat.zero_min]
    exact ⟨rfl, rfl⟩
  · have read := @Mounted.rdfsReadFile_spec _ _ _ _ _ mounted fits listed ⟨fileId, 0, 1⟩ number
      (Nat.zero_le _) buf size (Or.inl positive) apart
    exact ⟨congrArg Int.ofNat read.1, read.2.2.2.1⟩

end Invariant

/-! ## A file with the id of the timer -/

/-- Directories named `a` inside one another, with a file `a` in the last. -/
def nested : Nat → Listing
  | 0 => .file nameA [7] .nil
  | depth + 1 => .directory nameA (nested depth) .nil

end PellOs
