import PellOs.Fs.Read

/-!
# What a read stores

`vfs_read` gives the size of the caller's buffer to `rdfs_read_file` and not to the copy of the
timer, and `memcpy` moves eight bytes when it is asked for none.
-/

namespace PellOs

/-- The result does not exceed the size of the buffer, and only that many bytes of the buffer
change. -/
structure RespectsBuffer (before after : Memory) (buf size : Nat) (result : Int) : Prop where
  count : result ≤ size
  frame : ∀ address, after address ≠ before address →
    ∃ i : Nat, (i : Int) < result ∧ address = (buf + i) % wordSize

/-- The address of the bytes that come next in a file. -/
def nextData (memory : Memory) (disk : Rdfs) (file : File) : Nat :=
  (disk.dataLocation memory file.fileId.toNat + file.index.toNat) % wordSize

/-- The buffer holds a timer value, or the read of a file asks for something, or nothing is left in
the file, or the eight bytes of an empty copy stand in the buffer already. -/
def ReadFits (disk : Rdfs) (memory : Memory) (file : File) (buf size : Nat) : Prop :=
  if file.fileId = timerFileId then 4 ≤ size
  else 0 < size ∨ file.index.toNat = disk.entrySize memory file.fileId.toNat ∨
    memory.read buf 8 = memory.read (nextData memory disk file) 8

/-! ## Copies -/

theorem copyOut_outside (memory : Memory) {bytes : List UInt8} {buf target : Nat}
    (buf_lt : buf < wordSize) (outside : ∀ i < bytes.length, target ≠ (buf + i) % wordSize) :
    copyOut memory buf bytes target = memory target := by
  induction bytes generalizing memory buf with
  | nil => rfl
  | cons byte bytes ih =>
      have first : target ≠ buf := by
        have here := outside 0 (Nat.succ_pos _)
        rwa [Nat.add_zero, Nat.mod_eq_of_lt buf_lt] at here
      rw [copyOut, ih _ (Nat.mod_lt _ (by decide)) ?_, Memory.writeByte_of_ne _ first]
      intro i bound
      rw [succ_mod_add]
      exact outside (i + 1) (Nat.succ_lt_succ bound)

theorem rdfsReadFile_respects_iff (memory : Memory) (disk : Rdfs) (file : File) {buf : Nat}
    (buf_lt : buf < wordSize) (size : Nat) :
    RespectsBuffer memory (rdfsReadFile memory disk file buf size).1 buf size
        (rdfsReadFile memory disk file buf size).2.2 ↔
      0 < size ∨ file.index.toNat = disk.entrySize memory file.fileId.toNat ∨
        memory.read buf 8 = memory.read (nextData memory disk file) 8 := by
  have index_lt := file.index.toNat_lt
  have entry_lt : disk.entrySize memory file.fileId.toNat < wordSize :=
    (memory.read_lt _ 8).trans_eq wordSize_eq_pow.symm
  have remaining_lt : (disk.entrySize memory file.fileId.toNat + (wordSize - file.index.toNat)) %
      wordSize < wordSize := Nat.mod_lt _ (by decide)
  have done_iff : (disk.entrySize memory file.fileId.toNat + (wordSize - file.index.toNat)) %
      wordSize = 0 ↔ file.index.toNat = disk.entrySize memory file.fileId.toNat := by
    simp only [wordSize] at entry_lt ⊢
    omega
  rw [rdfsReadFile]
  dsimp only
  rw [nextData]
  generalize (disk.entrySize memory file.fileId.toNat + (wordSize - file.index.toNat)) % wordSize =
    remaining at remaining_lt done_iff ⊢
  generalize (disk.dataLocation memory file.fileId.toNat + file.index.toNat) % wordSize = src
  by_cases done : remaining = 0
  · rw [if_pos done]
    refine ⟨fun _ => Or.inr (Or.inl (done_iff.mp done)), fun _ => ⟨by simp, ?_⟩⟩
    exact fun address changed => absurd rfl changed
  · rw [if_neg done]
    by_cases empty : size = 0
    · subst empty
      rw [if_neg (by omega)]
      dsimp only
      have nothing := @Memory.write_eq_self_iff memory buf 8 _ (memory.read_lt src 8)
      rw [memcpy_zero, or_iff_right (lt_irrefl 0),
        or_iff_right (fun same => done (done_iff.mpr same)),
        ← nothing]
      constructor
      · intro respects
        funext address
        by_contra changed
        obtain ⟨i, bound, -⟩ := respects.frame address changed
        simp only [Nat.cast_zero] at bound
        omega
      · intro same
        rw [same]
        exact ⟨le_refl _, fun address changed => absurd rfl changed⟩
    · have count_pos : 0 < if size > remaining then remaining else size := by
        split_ifs <;> omega
      have count_lt : (if size > remaining then remaining else size) < wordSize := by
        split_ifs <;> omega
      have count_le : (if size > remaining then remaining else size) ≤ size := by
        split_ifs <;> omega
      refine iff_of_true ⟨?_, fun address changed => ?_⟩ (Or.inl (by omega))
      · exact Int.ofNat_le.mpr count_le
      · dsimp only at changed ⊢
        generalize (if size > remaining then remaining else size) =
          count at count_pos count_lt changed
        by_contra outside
        push Not at outside
        rw [memcpy_eq_memcpyU8 _ _ _ count_pos count_lt] at changed
        exact changed (memcpyU8_outside _ _ count_pos buf_lt fun i bound =>
          outside i (Int.ofNat_lt.mpr bound))

/-- `vfs_read` keeps to the caller's buffer exactly when the read fits. -/
theorem vfsRead_respects_buffer_iff (disk : Rdfs) (timerVal : Nat) (state : FdState) (fd : Int)
    {buf : Nat} (buf_lt : buf < wordSize) (size : Nat) :
    RespectsBuffer state.memory (vfsRead disk timerVal state fd buf size).1.memory buf size
        (vfsRead disk timerVal state fd buf size).2 ↔
      ((isValidFd state fd).2 = true →
        ReadFits disk state.memory (state.fileAt fd.toNat) buf size) := by
  have touched : (isValidFd state fd).1.memory = state.memory ∧
      (isValidFd state fd).1.fileAt fd.toNat = state.fileAt fd.toNat := by
    rw [isValidFd]
    split_ifs
    · exact ⟨rfl, rfl⟩
    · exact ⟨rfl, rfl⟩
  rw [vfsRead, getFileFromFd]
  generalize isValidFd state fd = checked at touched ⊢
  obtain ⟨after, valid⟩ := checked
  obtain ⟨memory, file⟩ := touched
  dsimp only at memory file ⊢
  cases valid with
  | false =>
      refine iff_of_true ⟨by simp, fun address changed => ?_⟩ (fun invalid => by cases invalid)
      exact absurd (congrFun memory address) changed
  | true =>
      rw [if_pos rfl, file]
      dsimp only [FdState.touchFile]
      rw [memory, imp_iff_right rfl, ReadFits]
      by_cases timer : (state.fileAt fd.toNat).fileId = timerFileId
      · rw [if_pos timer, if_pos timer]
        dsimp only
        refine ⟨fun respects => Int.ofNat_le.mp respects.count, fun room => ⟨?_, ?_⟩⟩
        · exact Int.ofNat_le.mpr room
        · intro address changed
          by_contra outside
          push Not at outside
          exact changed (copyOut_outside _ buf_lt fun i bound => outside i (by
            simp only [timerBytes, List.length_map, List.length_range] at bound
            omega))
      · rw [if_neg timer, if_neg timer]
        dsimp only
        have respects :=
          rdfsReadFile_respects_iff state.memory disk (state.fileAt fd.toNat) buf_lt size
        generalize rdfsReadFile state.memory disk (state.fileAt fd.toNat) buf size = read
          at respects ⊢
        exact respects

private theorem timer_opened : ∃ (state : FdState) (fd : Nat) (base : Memory) (bits : Nat → UInt8)
    (files : Nat → File), fd < fileDescTableInitSize ∧ files fd = ⟨timerFileId, 0, 1⟩ ∧
      sampleLayout.Holds base bits files state := by
  rcases (sampleVfs_holds .nil [] (by decide)).createFd_spec ⟨timerFileId, 0, 0⟩ with
    ⟨fd, bound, _, _, _, holds⟩ | ⟨full, _⟩
  · exact ⟨_, fd, _, _, _, lt_trans bound (by decide), Function.update_self .., holds⟩
  · exact absurd (full 0 (by decide)) (by decide)

private theorem timer_valid {state : FdState} {fd : Nat} {base : Memory} {bits : Nat → UInt8}
    {files : Nat → File} (inside : fd < fileDescTableInitSize)
    (entry : files fd = ⟨timerFileId, 0, 1⟩) (holds : sampleLayout.Holds base bits files state) :
    (isValidFd state fd).2 = true := by
  rw [holds.isValidFd_eq inside, entry]
  rfl

/-- A read of the timer with room for it. -/
theorem vfsRead_respects_buffer_iff_timer : ∃ (state : FdState) (fd : Nat),
    (isValidFd state fd).2 = true ∧
      (RespectsBuffer state.memory
          (vfsRead (mountedDisk sampleStart .nil) 0 state fd samplePath 4).1.memory samplePath 4
          (vfsRead (mountedDisk sampleStart .nil) 0 state fd samplePath 4).2 ↔
        ((isValidFd state fd).2 = true →
          ReadFits (mountedDisk sampleStart .nil) state.memory (state.fileAt (fd : Int).toNat)
            samplePath 4)) := by
  obtain ⟨state, fd, _, _, _, inside, entry, holds⟩ := timer_opened
  exact ⟨state, fd, timer_valid inside entry holds,
    vfsRead_respects_buffer_iff _ 0 state fd (by decide) 4⟩

/-- A read of one byte from the timer stores four. -/
theorem timer_overruns_buffer : ∃ (state : FdState) (fd : Nat),
    (isValidFd state fd).2 = true ∧
      ¬ RespectsBuffer state.memory
        (vfsRead (mountedDisk sampleStart .nil) 0 state fd samplePath 1).1.memory samplePath 1
        (vfsRead (mountedDisk sampleStart .nil) 0 state fd samplePath 1).2 := by
  obtain ⟨state, fd, _, _, files, inside, entry, holds⟩ := timer_opened
  refine ⟨state, fd, timer_valid inside entry holds, fun respects => ?_⟩
  have count := respects.count
  rw [(holds.vfsRead_timer inside (by rw [entry]; decide) (by rw [entry]) _ 0 samplePath 1).2]
    at count
  exact absurd count (by decide)

end PellOs
