import PellOs.Fs.Open
import PellOs.Fs.RoundTrip

/-!
# Reading through descriptors

`vfs_read` reads through a copy of the table entry, and the index that `rdfs_read_file` moves is the
one of the copy.  So every call delivers the beginning of the file, while calls of `rdfs_read_file`
on one file deliver consecutive pieces.
-/

namespace PellOs

/-! ## One call -/

namespace TableLayout

/-- The range of a buffer lies apart from the arrays of the table and the pointers to them. -/
def BufferApart (layout : TableLayout) (buf count : Nat) : Prop :=
  (buf + count ≤ layout.task + 560 ∨ layout.task + 576 ≤ buf) ∧
    (buf + count ≤ layout.bitmap ∨ layout.bitmap + fdBitmapSize ≤ buf) ∧
    (buf + count ≤ layout.file ∨ layout.file + sizeofFile * fileDescTableInitSize ≤ buf)

/-- The arrays of the table lie apart from the image. -/
def ImageApart (layout : TableLayout) (disk : Rdfs) (root : Listing) : Prop :=
  ∀ address, disk.rdfsStart ≤ address → address < disk.rdfsStart + (genRamDisk root).length →
    layout.Outside address

namespace Holds

variable {layout : TableLayout} {base : Memory} {bits : Nat → UInt8} {files : Nat → File}
  {state : FdState} {fd : Nat}

private theorem getFileFromFd_open (holds : layout.Holds base bits files state)
    (inside : fd < fileDescTableInitSize) (opened : 0 < (files fd).flags.toNat) :
    getFileFromFd state fd = ((state.touchFile fd).touchFile fd, some (files fd)) := by
  have valid := holds.isValidFd_eq inside
  have entry := holds.getFileFromFd_eq inside
  rw [if_pos opened] at entry
  refine Prod.ext ?_ entry
  rw [getFileFromFd]
  dsimp only
  rw [valid, decide_eq_true opened, if_pos rfl, isValidFd, if_neg (by omega), Int.toNat_natCast]

theorem vfsRead_timer (holds : layout.Holds base bits files state)
    (inside : fd < fileDescTableInitSize) (opened : 0 < (files fd).flags.toNat)
    (timer : (files fd).fileId = timerFileId) (disk : Rdfs) (timerVal buf size : Nat) :
    (vfsRead disk timerVal state fd buf size).1.memory =
        copyOut state.memory buf (timerBytes timerVal) ∧
      (vfsRead disk timerVal state fd buf size).2 = 4 := by
  rw [vfsRead, holds.getFileFromFd_open inside opened]
  dsimp only
  rw [if_pos timer]
  exact ⟨rfl, rfl⟩

theorem vfsRead_file (holds : layout.Holds base bits files state)
    (inside : fd < fileDescTableInitSize) (opened : 0 < (files fd).flags.toNat)
    (other : (files fd).fileId ≠ timerFileId) (disk : Rdfs) (timerVal buf size : Nat) :
    (vfsRead disk timerVal state fd buf size).1.memory =
        (rdfsReadFile state.memory disk (files fd) buf size).1 ∧
      (vfsRead disk timerVal state fd buf size).1.task = state.task ∧
      (vfsRead disk timerVal state fd buf size).2 =
        (rdfsReadFile state.memory disk (files fd) buf size).2.2 := by
  rw [vfsRead, holds.getFileFromFd_open inside opened]
  dsimp only
  rw [if_neg other]
  exact ⟨rfl, rfl, rfl⟩

theorem buffered (holds : layout.Holds base bits files state) {buf count : Nat}
    (apart : layout.BufferApart buf count) {after : FdState}
    (outside : ∀ address, address < buf ∨ buf + count ≤ address →
      after.memory address = state.memory address) (task : after.task = state.task) :
    layout.Holds after.memory bits files after := by
  have agree : ∀ address length, (buf + count ≤ address ∨ address + length ≤ buf) →
      state.memory.AgreeOn after.memory address length :=
    fun address length apart target lower upper => outside target (by omega)
  obtain ⟨pointers, bitmap, file⟩ := apart
  exact (holds.move (agree _ _ (by omega)) (agree _ _ (by omega)) (agree _ _ (by omega))).congr rfl
    task

theorem mounted {after : FdState} {newBits : Nat → UInt8} {newFiles : Nat → File} {disk : Rdfs}
    {root : Listing} (holds : layout.Holds base bits files state)
    (next : layout.Holds base newBits newFiles after) (apart : layout.ImageApart disk root)
    (mounted : Mounted state.memory disk root) : Mounted after.memory disk root := by
  apply mounted.congr
  intro address lower upper
  have outside := apart address lower upper
  rw [next.outside address outside, holds.outside address outside]

end Holds
end TableLayout

/-! ## Sequences of calls -/

/-- What calls of `vfs_read` with the given sizes return and leave in the buffer.  `timer` gives the
timer value at each call. -/
def vfsReads (disk : Rdfs) (timer : Nat → Nat) (fd : Int) (buf : Nat) :
    Nat → FdState → List Nat → List (Int × List UInt8)
  | _, _, [] => []
  | call, state, size :: rest =>
      let (state, count) := vfsRead disk (timer call) state fd buf size
      (count, state.memory.bytes buf count.toNat) ::
        vfsReads disk timer fd buf (call + 1) state rest

/-- What calls of `rdfs_read_file` on one file return and leave in the buffer. -/
def rdfsReads (disk : Rdfs) (buf : Nat) : Memory → File → List Nat → List (Int × List UInt8)
  | _, _, [] => []
  | memory, file, size :: rest =>
      let (memory, file, count) := rdfsReadFile memory disk file buf size
      ((count : Int), memory.bytes buf count) :: rdfsReads disk buf memory file rest

/-- Open a path with `vfs_open` and read through the descriptor. -/
def readThroughVfs (answer : Nat → Nat) (fuel : Nat) (disk : Rdfs) (timer : Nat → Nat) (vfs : Vfs)
    (path flags buf : Nat) (sizes : List Nat) : Option (List (Int × List UInt8)) :=
  (vfsOpen answer fuel disk vfs path flags).map fun (vfs, fd) =>
    vfsReads disk timer fd buf 0 vfs.fd sizes

/-- Open a path with `rdfs_open_file` and read from the file. -/
def readThroughRdfs (answer : Nat → Nat) (fuel : Nat) (disk : Rdfs) (vfs : Vfs)
    (path flags buf : Nat) (sizes : List Nat) : Option (List (Int × List UInt8)) :=
  match (rdfsOpenFile answer fuel vfs.fd.memory disk vfs.rdfs (charAt vfs.fd.memory path) flags).2
    with
  | .opened file => some (rdfsReads disk buf vfs.fd.memory file sizes)
  | _ => none

/-- The pieces of a file from an index on. -/
def pieces (contents : List UInt8) : Nat → List Nat → List (Int × List UInt8)
  | _, [] => []
  | index, size :: rest =>
      let count := min size (contents.length - index)
      ((count : Int), (contents.drop index).take count) :: pieces contents (index + count) rest

/-- The beginning of a file, once for every size. -/
def beginnings (contents : List UInt8) (sizes : List Nat) : List (Int × List UInt8) :=
  sizes.map fun size =>
    ((min size contents.length : Nat), contents.take (min size contents.length))

/-- Every piece but one at the start lies inside the file and equals the beginning of the file. -/
def RepeatsFrom (contents : List UInt8) : Nat → List Nat → Prop
  | _, [] => True
  | index, size :: rest =>
      (index = 0 ∨ index + size ≤ contents.length ∧
        (contents.drop index).take size = contents.take size) ∧
      RepeatsFrom contents (index + size) rest

private theorem piece_eq_beginning_iff {contents : List UInt8} (nonempty : contents ≠ [])
    {index size : Nat} (size_pos : 0 < size) :
    (((min size (contents.length - min index contents.length) : Nat) : Int),
        (contents.drop (min index contents.length)).take
          (min size (contents.length - min index contents.length))) =
      (((min size contents.length : Nat) : Int), contents.take (min size contents.length)) ↔
      index = 0 ∨ index + size ≤ contents.length ∧
        (contents.drop index).take size = contents.take size := by
  have length_pos := List.length_pos_iff.mpr nonempty
  rw [Prod.mk.injEq, Int.natCast_inj]
  constructor
  · rintro ⟨count, bytes⟩
    by_cases start : index = 0
    · exact Or.inl start
    have inside : index + size ≤ contents.length := by omega
    rw [show min index contents.length = index by omega,
      show min size (contents.length - index) = size by omega,
      show min size contents.length = size by omega] at bytes
    exact Or.inr ⟨inside, bytes⟩
  · rintro (rfl | ⟨inside, bytes⟩)
    · simp
    · rw [show min index contents.length = index by omega,
        show min size (contents.length - index) = size by omega,
        show min size contents.length = size by omega]
      exact ⟨rfl, bytes⟩

/-- The pieces are beginnings exactly when the file repeats itself so. -/
theorem pieces_eq_beginnings_iff {contents : List UInt8} (nonempty : contents ≠ [])
    {sizes : List Nat} (positive : ∀ size ∈ sizes, 0 < size) (index : Nat) :
    pieces contents (min index contents.length) sizes = beginnings contents sizes ↔
      RepeatsFrom contents index sizes := by
  induction sizes generalizing index with
  | nil => exact ⟨fun _ => trivial, fun _ => rfl⟩
  | cons size rest ih =>
      have later := ih (fun other member => positive other (List.mem_cons_of_mem _ member))
        (index + size)
      have next : min index contents.length +
          min size (contents.length - min index contents.length) =
          min (index + size) contents.length := by omega
      rw [pieces, beginnings, List.map_cons, List.cons.injEq, next, RepeatsFrom,
        piece_eq_beginning_iff nonempty (positive size List.mem_cons_self)]
      rw [beginnings] at later
      rw [later]

theorem pieces_nil (index : Nat) (sizes : List Nat) :
    pieces [] index sizes = beginnings [] sizes := by
  induction sizes generalizing index with
  | nil => rfl
  | cons size rest ih =>
      rw [pieces, beginnings, List.map_cons, List.cons.injEq]
      exact ⟨by simp, ih _⟩

/-! ## Both ways of reading on a mounted image -/

section Refinement

variable {layout : TableLayout} {base : Memory} {bits : Nat → UInt8} {files : Nat → File}
  {disk : Rdfs} {root : Listing} {id buf : Nat} {name contents : List UInt8}

theorem Mounted.BufferApart.mono {count smaller : Nat}
    (apart : Mounted.BufferApart disk root buf count) (le : smaller ≤ count) :
    Mounted.BufferApart disk root buf smaller :=
  ⟨by have := apart.1; omega, by have := apart.2; omega⟩

theorem TableLayout.BufferApart.mono {count smaller : Nat}
    (apart : layout.BufferApart buf count) (le : smaller ≤ count) :
    layout.BufferApart buf smaller := by
  obtain ⟨pointers, bitmap, file⟩ := apart
  exact ⟨by omega, by omega, by omega⟩

theorem Mounted.buffered {memory after : Memory} (mounted : Mounted memory disk root) {count : Nat}
    (apart : Mounted.BufferApart disk root buf count)
    (outside : ∀ address, address < buf ∨ buf + count ≤ address →
      after address = memory address) : Mounted after disk root := by
  have buffer := apart.2
  exact mounted.congr fun address lower upper => outside address (by omega)

variable (names : root.NamesFit)
  (node : (treeNodes root)[id]? = some ⟨name, false, id, contents⟩)

include names node

theorem rdfsReads_eq {sizes : List Nat} (positive : ∀ size ∈ sizes, 0 < size)
    (apart : ∀ size ∈ sizes, Mounted.BufferApart disk root buf size) {memory : Memory}
    (mounted : Mounted memory disk root) {file : File} (file_id : file.fileId.toNat = id)
    (inside : file.index.toNat ≤ contents.length) :
    rdfsReads disk buf memory file sizes = pieces contents file.index.toNat sizes := by
  induction sizes generalizing memory file with
  | nil => rfl
  | cons size rest ih =>
      have room := (apart size List.mem_cons_self).mono
        (Nat.min_le_left size (contents.length - file.index.toNat))
      obtain ⟨count, same_id, index, bytes, outside⟩ := mounted.rdfsReadFile_spec names node file_id
        inside (Or.inl (positive size List.mem_cons_self)) room
      have later := ih (fun other member => positive other (List.mem_cons_of_mem _ member))
        (fun other member => apart other (List.mem_cons_of_mem _ member))
        (mounted.buffered room outside) (same_id ▸ file_id) (by rw [index]; dsimp only; omega)
      rw [index] at later
      rw [rdfsReads, pieces]
      dsimp only at count bytes later ⊢
      rw [later, count, bytes]

theorem vfsReads_eq {sizes : List Nat} (positive : ∀ size ∈ sizes, 0 < size)
    (apart : ∀ size ∈ sizes, Mounted.BufferApart disk root buf size)
    (table_apart : ∀ size ∈ sizes, layout.BufferApart buf size) {state : FdState}
    (mounted : Mounted state.memory disk root)
    (holds : layout.Holds base bits files state) {fd : Nat}
    (inside : fd < fileDescTableInitSize) {fileId : UInt64} (entry : files fd = ⟨fileId, 0, 1⟩)
    (file_id : fileId.toNat = id) (other : fileId ≠ timerFileId) (timer : Nat → Nat) (call : Nat) :
    vfsReads disk timer fd buf call state sizes = beginnings contents sizes := by
  induction sizes generalizing base state call with
  | nil => rfl
  | cons size rest ih =>
      have room := (apart size List.mem_cons_self).mono (Nat.min_le_left size contents.length)
      have table_room := (table_apart size List.mem_cons_self).mono
        (Nat.min_le_left size contents.length)
      obtain ⟨memory, task, result⟩ := holds.vfsRead_file inside
        (by rw [entry]; exact Nat.zero_lt_one)
        (by rw [entry]; exact other) disk (timer call) buf size
      obtain ⟨count, _, _, bytes, outside⟩ := @Mounted.rdfsReadFile_spec _ _ _ _ _ mounted names
        node ⟨fileId, 0, 1⟩ file_id (Nat.zero_le _) buf size
        (Or.inl (positive size List.mem_cons_self)) room
      rw [entry] at memory result
      have index : (File.index ⟨fileId, 0, 1⟩).toNat = 0 := rfl
      rw [index, Nat.sub_zero] at count bytes outside
      rw [← memory] at outside bytes
      have later := ih (fun other member => positive other (List.mem_cons_of_mem _ member))
        (fun other member => apart other (List.mem_cons_of_mem _ member))
        (fun other member => table_apart other (List.mem_cons_of_mem _ member))
        (mounted.buffered room outside) (holds.buffered table_room outside task) (call + 1)
      rw [vfsReads, beginnings, List.map_cons]
      dsimp only
      rw [later, result, count, Int.toNat_natCast, bytes]
      rfl

end Refinement

/-! ## When the two ways agree -/

private theorem copyOut_timer (memory : Memory) (buf timerVal : Nat) :
    copyOut memory buf (timerBytes timerVal) buf = UInt8.ofNat timerVal := by
  have differ : ∀ step, 0 < step → step < 4 → buf ≠ (buf + step) % wordSize := by
    intro step positive small
    simp only [wordSize]
    omega
  have shift : ∀ step, ((buf + step) % wordSize + 1) % wordSize =
      (buf + (step + 1)) % wordSize := by
    intro step
    rw [Nat.mod_add_mod, Nat.add_assoc]
  simp only [timerBytes, List.range_succ, List.range_zero, List.nil_append, List.cons_append,
    List.map_cons, List.map_nil, copyOut, shift]
  rw [Memory.writeByte_of_ne _ (differ 3 (by decide) (by decide)),
    Memory.writeByte_of_ne _ (differ 2 (by decide) (by decide)),
    Memory.writeByte_of_ne _ (differ 1 (by decide) (by decide)), Memory.writeByte_same, pow_zero,
    Nat.div_one]

private theorem vfsReads_timer {layout : TableLayout} {base : Memory} {bits : Nat → UInt8}
    {files : Nat → File} {state : FdState} (holds : layout.Holds base bits files state) {fd : Nat}
    (inside : fd < fileDescTableInitSize) (opened : 0 < (files fd).flags.toNat)
    (is_timer : (files fd).fileId = timerFileId) (disk : Rdfs) (timer : Nat → Nat)
    (buf call size : Nat) (rest : List Nat) :
    ∃ bytes later, vfsReads disk timer fd buf call state (size :: rest) =
      (4, UInt8.ofNat (timer call) :: bytes) :: later := by
  obtain ⟨memory, count⟩ := holds.vfsRead_timer inside opened is_timer disk (timer call) buf size
  rw [vfsReads]
  dsimp only
  rw [count, memory, show (4 : Int).toNat = 3 + 1 from rfl, Memory.bytes, copyOut_timer]
  exact ⟨_, _, rfl⟩

section Agreement

variable {layout : TableLayout} {base : Memory} {bits : Nat → UInt8} {files : Nat → File}
  {disk : Rdfs} {tree : DirTree} {vfs started : Vfs} {answer : Nat → Nat} {fuel path id : Nat}
  {names : List Name} {contents : List UInt8} {buf : Nat} {sizes : List Nat}

theorem lookup_file (fits : tree.root.NamesFit)
    (mounted : Mounted vfs.fd.memory disk tree.root) (granted : ∀ call, answer call ≠ 0)
    (is_path : IsPath (charAt vfs.fd.memory path) names) (enough : names.length < fuel)
    {entry : Entry} (node : tree.At names id entry) :
    (rdfsFileGetIdFromPath answer fuel vfs.fd.memory disk vfs.rdfs
      (charAt vfs.fd.memory path)).2 = .found id := by
  rw [(rdfsFileGetIdFromPath_eq vfs.fd.memory disk granted is_path enough vfs.rdfs).1,
    node.resolve_eq mounted fits]

theorem readThroughRdfs_eq (fits : tree.root.NamesFit)
    (mounted : Mounted vfs.fd.memory disk tree.root) (granted : ∀ call, answer call ≠ 0)
    (is_path : IsPath (charAt vfs.fd.memory path) names) (enough : names.length < fuel)
    (node : tree.At names id (.file contents)) (flags : Nat)
    (positive : ∀ size ∈ sizes, 0 < size)
    (apart : ∀ size ∈ sizes, Mounted.BufferApart disk tree.root buf size) :
    readThroughRdfs answer fuel disk vfs path flags buf sizes = some (pieces contents 0 sizes) := by
  obtain ⟨target, listed⟩ := node.node
  have lookup := lookup_file fits mounted granted is_path enough node
  have opened : (rdfsOpenFile answer fuel vfs.fd.memory disk vfs.rdfs
      (charAt vfs.fd.memory path) flags).2 = .opened (rdfsOpenFileId id flags) := by
    rw [rdfsOpenFile, ← Prod.eta (rdfsFileGetIdFromPath ..), lookup]
  rw [readThroughRdfs, opened]
  exact congrArg some (@rdfsReads_eq _ _ _ _ _ _ fits listed sizes positive apart _ mounted
    (rdfsOpenFileId id flags) (toNat_ofNat_id mounted listed) (Nat.zero_le _))

theorem readThroughVfs_full (begun : initFdTable answer vfs = some started)
    (holds : layout.Holds base bits files started.fd) {fileId : UInt64}
    (denotes : Denotes answer fuel disk started path fileId)
    (full : ∀ fd < fdCount, Bitmap.member bits fd = true) (timer : Nat → Nat)
    (flags size : Nat) (rest : List Nat) :
    ∃ later, readThroughVfs answer fuel disk timer vfs path flags buf (size :: rest) =
      some ((-1, []) :: later) := by
  rcases vfsOpen_of_denotes begun holds denotes flags with
    ⟨_, fd, _, bound, free, _⟩ | ⟨after, call, _, _⟩
  · rw [full fd bound] at free
    cases free
  · rw [readThroughVfs, call]
    exact ⟨_, rfl⟩

theorem readThroughVfs_timer (begun : initFdTable answer vfs = some started)
    (holds : layout.Holds base bits files started.fd)
    (is_timer : IsTimer started.fd.memory path) {fd : Nat} (bound : fd < fdCount)
    (free : Bitmap.member bits fd = false) (timer : Nat → Nat) (flags size : Nat)
    (rest : List Nat) :
    ∃ bytes later, readThroughVfs answer fuel disk timer vfs path flags buf (size :: rest) =
      some ((4, UInt8.ofNat (timer 0) :: bytes) :: later) := by
  rcases vfsOpen_of_denotes begun holds
      (Or.inl ⟨is_timer, rfl⟩ : Denotes answer fuel disk started path timerFileId) flags with
    ⟨after, taken, call, taken_bound, _, stored⟩ | ⟨_, _, full, _⟩
  · have entry : Function.update files taken ⟨timerFileId, 0, 1⟩ taken = ⟨timerFileId, 0, 1⟩ :=
      Function.update_self ..
    obtain ⟨bytes, later, reads⟩ := vfsReads_timer stored (lt_trans taken_bound (by decide))
      (by rw [entry]; decide) (by rw [entry]) disk timer buf 0 size rest
    rw [readThroughVfs, call]
    exact ⟨bytes, later, congrArg some reads⟩
  · rw [full fd bound] at free
    cases free

theorem readThroughVfs_file (begun : initFdTable answer vfs = some started)
    (holds : layout.Holds base bits files started.fd)
    (fits : tree.root.NamesFit) (mounted : Mounted started.fd.memory disk tree.root)
    (image_apart : layout.ImageApart disk tree.root)
    (granted : ∀ call, answer call ≠ 0) (is_path : IsPath (charAt started.fd.memory path) names)
    (enough : names.length < fuel) (node : tree.At names id (.file contents)) (other : id ≠ 255)
    (not_timer : ¬ IsTimer started.fd.memory path) {fd : Nat} (bound : fd < fdCount)
    (free : Bitmap.member bits fd = false) (timer : Nat → Nat) (flags : Nat)
    (positive : ∀ size ∈ sizes, 0 < size)
    (apart : ∀ size ∈ sizes, Mounted.BufferApart disk tree.root buf size)
    (table_apart : ∀ size ∈ sizes, layout.BufferApart buf size) :
    readThroughVfs answer fuel disk timer vfs path flags buf sizes =
      some (beginnings contents sizes) := by
  obtain ⟨target, listed⟩ := node.node
  have number := toNat_ofNat_id mounted listed
  have lookup := lookup_file fits mounted granted is_path enough node
  rcases vfsOpen_of_denotes begun holds
      (Or.inr ⟨not_timer, id, lookup, rfl⟩) flags with
    ⟨after, taken, call, taken_bound, _, stored⟩ | ⟨_, _, full, _⟩
  · rw [readThroughVfs, call]
    refine congrArg some (@vfsReads_eq _ _ _ _ _ _ _ _ _ _ fits listed sizes positive apart
      table_apart _ (holds.mounted stored image_apart mounted) stored taken
      (lt_trans taken_bound (by decide)) _ (Function.update_self ..) number ?_ timer 0)
    intro same
    rw [same] at number
    exact other number.symm
  · rw [full fd bound] at free
    cases free

/-- Nothing that does not depend on the timer agrees with reads of `/dev/timer`. -/
private theorem not_agree_of_timer (begun : initFdTable answer vfs = some started)
    (holds : layout.Holds base bits files started.fd)
    (is_timer : IsTimer started.fd.memory path) {fd : Nat} (bound : fd < fdCount)
    (free : Bitmap.member bits fd = false) (flags size : Nat) (rest : List Nat)
    (result : Option (List (Int × List UInt8))) :
    ¬ ∀ timer, readThroughVfs answer fuel disk timer vfs path flags buf (size :: rest) =
      result := by
  intro agree
  obtain ⟨_, _, zero⟩ := @readThroughVfs_timer _ _ _ _ disk _ _ answer fuel path buf begun holds
    is_timer fd bound free (fun _ => 0) flags size rest
  obtain ⟨_, _, one⟩ := @readThroughVfs_timer _ _ _ _ disk _ _ answer fuel path buf begun holds
    is_timer fd bound free (fun _ => 1) flags size rest
  have same := zero.symm.trans ((agree _).trans ((agree _).symm.trans one))
  simp only [Option.some.injEq, List.cons.injEq, Prod.mk.injEq] at same
  exact absurd same.1.2.1 (by decide)

private theorem not_agree_of_full (begun : initFdTable answer vfs = some started)
    (holds : layout.Holds base bits files started.fd) {fileId : UInt64}
    (denotes : Denotes answer fuel disk started path fileId)
    (full : ∀ fd < fdCount, Bitmap.member bits fd = true) (flags size : Nat) (rest : List Nat) :
    ¬ ∀ timer, readThroughVfs answer fuel disk timer vfs path flags buf (size :: rest) =
      some (pieces contents 0 (size :: rest)) := by
  intro agree
  obtain ⟨_, failed⟩ := @readThroughVfs_full _ _ _ _ disk _ _ answer fuel path buf begun holds _
    denotes full (fun _ => 0) flags size rest
  have same := failed.symm.trans (agree _)
  rw [pieces] at same
  simp only [Option.some.injEq, List.cons.injEq, Prod.mk.injEq] at same
  have negative := same.1.1
  omega

/-- Beginnings are the pieces of an empty file, and of a file that repeats itself. -/
theorem beginnings_eq_pieces_iff (positive : ∀ size ∈ sizes, 0 < size) :
    beginnings contents sizes = pieces contents 0 sizes ↔
      contents = [] ∨ RepeatsFrom contents 0 sizes := by
  rw [eq_comm]
  by_cases empty : contents = []
  · rw [empty]
    exact ⟨fun _ => Or.inl rfl, fun _ => pieces_nil 0 _⟩
  · have all := pieces_eq_beginnings_iff empty positive 0
    rw [Nat.zero_min] at all
    rw [all, or_iff_right empty]

/-- Reading through a descriptor returns what reading from one file returns, whatever the timer
shows. -/
def ReadsAgree (answer : Nat → Nat) (fuel : Nat) (disk : Rdfs) (vfs : Vfs) (path flags buf : Nat)
    (sizes : List Nat) : Prop :=
  ∀ timer, readThroughVfs answer fuel disk timer vfs path flags buf sizes =
    readThroughRdfs answer fuel disk vfs path flags buf sizes

/-- The two ways of reading a regular file agree exactly when nothing is read, or `vfs_open` opens
the file and every later piece lies inside the file and repeats its beginning.  `started` is the
state once the task has a table, with the image and the path as they were. -/
theorem vfsRead_agrees_iff (begun : initFdTable answer vfs = some started)
    (holds : layout.Holds base bits files started.fd) (fits : tree.root.NamesFit)
    (mounted : Mounted vfs.fd.memory disk tree.root)
    (still_mounted : Mounted started.fd.memory disk tree.root)
    (image_apart : layout.ImageApart disk tree.root)
    (granted : ∀ call, answer call ≠ 0) (is_path : IsPath (charAt vfs.fd.memory path) names)
    (still_path : IsPath (charAt started.fd.memory path) names)
    (enough : names.length < fuel) (node : tree.At names id (.file contents)) (other : id ≠ 255)
    (flags : Nat) (positive : ∀ size ∈ sizes, 0 < size)
    (apart : ∀ size ∈ sizes, Mounted.BufferApart disk tree.root buf size)
    (table_apart : ∀ size ∈ sizes, layout.BufferApart buf size) :
    ReadsAgree answer fuel disk vfs path flags buf sizes ↔
      sizes = [] ∨ ¬ IsTimer started.fd.memory path ∧
        (∃ fd < fdCount, Bitmap.member bits fd = false) ∧
        (contents = [] ∨ RepeatsFrom contents 0 sizes) := by
  have lookup := lookup_file fits still_mounted granted still_path enough node
  have denotes : ∃ fileId, Denotes answer fuel disk started path fileId := by
    by_cases timer : IsTimer started.fd.memory path
    · exact ⟨_, Or.inl ⟨timer, rfl⟩⟩
    · exact ⟨_, Or.inr ⟨timer, id, lookup, rfl⟩⟩
  obtain ⟨fileId, denotes⟩ := denotes
  rw [ReadsAgree, readThroughRdfs_eq fits mounted granted is_path enough node flags positive apart]
  cases sizes with
  | nil =>
      refine ⟨fun _ => Or.inl rfl, fun _ timer => ?_⟩
      rcases vfsOpen_of_denotes begun holds denotes flags with
        ⟨after, fd, call, _⟩ | ⟨after, call, _⟩
      · rw [readThroughVfs, call]
        rfl
      · rw [readThroughVfs, call]
        rfl
  | cons size rest =>
      rw [or_iff_right (List.cons_ne_nil size rest)]
      by_cases free : ∃ fd < fdCount, Bitmap.member bits fd = false
      · obtain ⟨fd, bound, clear⟩ := free
        by_cases is_timer : IsTimer started.fd.memory path
        · exact ⟨fun agree => absurd agree
            (not_agree_of_timer begun holds is_timer bound clear flags size rest _),
            fun condition => absurd is_timer condition.1⟩
        · have through_vfs := fun timer =>
            readThroughVfs_file begun holds fits still_mounted image_apart granted still_path enough
              node other is_timer bound clear timer flags positive apart table_apart
          simp only [through_vfs, Option.some.injEq, forall_const,
            beginnings_eq_pieces_iff positive]
          exact ⟨fun all => ⟨is_timer, ⟨fd, bound, clear⟩, all⟩, fun condition => condition.2.2⟩
      · have full : ∀ fd < fdCount, Bitmap.member bits fd = true := by
          intro fd bound
          cases member : Bitmap.member bits fd with
          | true => rfl
          | false => exact absurd ⟨fd, bound, member⟩ free
        exact ⟨fun agree =>
            absurd agree (not_agree_of_full begun holds denotes full flags size rest),
          fun condition => absurd condition.2.1 free⟩

end Agreement

/-- Where the buffer of the examples stands. -/
def sampleBuffer : Nat := 0x40000

theorem sampleLayout_imageApart (root : Listing) :
    sampleLayout.ImageApart (mountedDisk sampleStart root) root := by
  intro address lower upper
  simp only [mountedDisk, sampleStart] at lower
  refine ⟨Or.inr (le_trans ?_ lower), Or.inr (le_trans ?_ lower)⟩
  · decide
  · decide

theorem sampleBuffer_apart (root : Listing) :
    Mounted.BufferApart (mountedDisk sampleStart root) root sampleBuffer 1 ∧
      sampleLayout.BufferApart sampleBuffer 1 :=
  ⟨⟨by decide, Or.inl (by simp only [mountedDisk]; decide)⟩,
    Or.inr (by decide), Or.inr (by decide), Or.inr (by decide)⟩

theorem sampleVfs_one_file (contents : List UInt8) (small : contents.length < 2 ^ 16) :
    Mounted (sampleVfs (oneFileTree contents).root [nameA]).fd.memory
      (mountedDisk sampleStart (oneFileTree contents).root) (oneFileTree contents).root :=
  sampleVfs_mounted _ _ (oneFileTree_mounted (fun _ => 0) small).fits

/-- Reads of one byte from the file `a`, once. -/
theorem vfsRead_agrees_iff_one_read :
    ReadsAgree (fun _ => 1) 2 (mountedDisk sampleStart (oneFileTree [7]).root)
        (sampleVfs (oneFileTree [7]).root [nameA]) samplePath 0 sampleBuffer [1] ↔
      [1] = [] ∨ ¬ IsTimer (sampleVfs (oneFileTree [7]).root [nameA]).fd.memory samplePath ∧
        (∃ fd < fdCount, Bitmap.member (fun _ => 0) fd = false) ∧
        ([(7 : UInt8)] = [] ∨ RepeatsFrom [7] 0 [1]) := by
  apply vfsRead_agrees_iff (sampleVfs_started _ _ _ (by decide)) (sampleVfs_holds _ _ (by decide))
    (oneFileTree_namesFit [7]) (sampleVfs_one_file [7] (by decide))
    (sampleVfs_one_file [7] (by decide)) (sampleLayout_imageApart _) (fun _ => one_ne_zero)
    (sampleVfs_isPath _ _ (by decide)) (sampleVfs_isPath _ _ (by decide)) (by decide)
    (Or.inr (.entry (.file nameA _ _ 1))) (by decide) 0 (by decide)
  · intro size member
    rw [List.mem_singleton.mp member]
    exact (sampleBuffer_apart _).1
  · intro size member
    rw [List.mem_singleton.mp member]
    exact (sampleBuffer_apart .nil).2

/-- The second read of a file with one byte returns the byte again through the descriptor, and zero
bytes from the file. -/
theorem vfsRead_repeats_first_byte :
    ¬ ReadsAgree (fun _ => 1) 2 (mountedDisk sampleStart (oneFileTree [7]).root)
      (sampleVfs (oneFileTree [7]).root [nameA]) samplePath 0 sampleBuffer [1, 1] := by
  have mounted := sampleVfs_one_file [7] (by decide)
  have is_path := sampleVfs_isPath (oneFileTree [7]).root [nameA] (by decide)
  have node : (oneFileTree [7]).At [nameA] 1 (.file [7]) := Or.inr (.entry (.file nameA _ _ 1))
  have positive : ∀ size ∈ [1, 1], 0 < size := by decide
  have apart : ∀ size ∈ [1, 1], Mounted.BufferApart
      (mountedDisk sampleStart (oneFileTree [7]).root) (oneFileTree [7]).root sampleBuffer size ∧
      sampleLayout.BufferApart sampleBuffer size := by
    intro size member
    obtain rfl : size = 1 := by simpa using member
    exact sampleBuffer_apart _
  have not_timer : ¬ IsTimer (sampleVfs (oneFileTree [7]).root [nameA]).fd.memory samplePath := by
    rw [IsTimer, strcmp_eq_zero_iff (sampleVfs_stored (oneFileTree [7]).root [nameA] (by decide))
      (by decide) (by decide)]
    decide
  intro agree
  have same := agree fun _ => 0
  rw [readThroughVfs_file (sampleVfs_started _ _ _ (by decide)) (sampleVfs_holds _ _ (by decide))
      (oneFileTree_namesFit [7]) mounted (sampleLayout_imageApart _) (fun _ => one_ne_zero) is_path
      (by decide) node (by decide) not_timer (by decide : 0 < fdCount) (by decide) (fun _ => 0) 0
      positive (fun size member => (apart size member).1)
      (fun size member => (apart size member).2),
    readThroughRdfs_eq (oneFileTree_namesFit [7]) mounted (fun _ => one_ne_zero) is_path (by decide)
      node 0 positive (fun size member => (apart size member).1), Option.some.injEq,
    beginnings_eq_pieces_iff positive] at same
  rcases same with empty | all
  · cases empty
  · exact absurd all.2.1 (by decide)

end PellOs
