import PellOs.Fs.StringCompare

/-!
# Copying file names

`strcpy_s` moves four bytes in every pass and goes on by one.  It counts passes, not bytes, and a
pass is the last one when its word is not positive as a signed number.  So a terminator does not end
the copy, while a byte of the upper half does.
-/

namespace PellOs

/-! ## The loop -/

/-- A run of `strcpy_s`: the memory that it leaves and the addresses that it accesses. -/
structure StrcpyRun where
  memory : Memory
  reads : List Nat
  writes : List Nat

/-- `ldr` of a 32-bit register. -/
def loadU32 (memory : Memory) (address : Nat) : Nat := Memory.read (charAt memory address) 0 4

/-- `str` of a 32-bit register. -/
def storeU32 (memory : Memory) (address value : Nat) : Memory :=
  (List.range 4).foldl (fun memory i =>
    memory.writeByte ((address + i) % wordSize) (UInt8.ofNat (value / 256 ^ i))) memory

/-- The addresses of a word. -/
def wordAddresses (address : Nat) : List Nat := (List.range 4).map fun i => (address + i) % wordSize

/-- A pass before the ones that are given. -/
def StrcpyRun.after (x0 x2 : Nat) (run : StrcpyRun) : StrcpyRun :=
  ⟨run.memory, wordAddresses x2 ++ run.reads, wordAddresses x0 ++ run.writes⟩

/-- `strcpy_s`. -/
def strcpyS : Memory → Nat → Nat → Nat → StrcpyRun
  | memory, _, 0, _ => ⟨memory, [], []⟩
  | memory, x0, x1 + 1, x2 =>
      let w3 := loadU32 memory x2
      let stored := storeU32 memory x0 w3
      if 0 < w3 ∧ w3 < 2 ^ 31 then
        (strcpyS stored ((x0 + 1) % wordSize) x1 ((x2 + 1) % wordSize)).after x0 x2
      else ⟨stored, wordAddresses x2, wordAddresses x0⟩

/-- `first_file[id].filename`. -/
def Rdfs.filenamePointer (disk : Rdfs) (id : Nat) : Nat :=
  (disk.entry id + FileDirEntry.filename) % wordSize

/-- `rdfs_filename_from_id`. -/
def rdfsFilenameFromId (memory : Memory) (disk : Rdfs) (fileid filepath : Nat) : StrcpyRun × Int :=
  if FileDirEntry.fileId.get memory (disk.entry fileid) ≠ fileid then (⟨memory, [], []⟩, -1)
  else (strcpyS memory filepath rdfsFileNameSize (disk.filenamePointer fileid), 0)

/-! ## The last pass -/

/-- The pass at byte `k` ends the loop. -/
def PassEnds (bytes : Nat → UInt8) (k : Nat) : Prop :=
  0x80 ≤ bytes (k + 3) ∨ ∀ i < 4, bytes (k + i) = 0

/-- The pass at byte `k` is the first that ends the loop. -/
structure LastPass (bytes : Nat → UInt8) (k : Nat) : Prop where
  ends : PassEnds bytes k
  earlier : ∀ j < k, ¬PassEnds bytes j

theorem passEnds_congr {bytes bytes' : Nat → UInt8} {k k' : Nat}
    (same : ∀ i < 4, bytes (k + i) = bytes' (k' + i)) : PassEnds bytes k ↔ PassEnds bytes' k' := by
  have first : (∀ i < 4, bytes (k + i) = 0) ↔ ∀ i < 4, bytes' (k' + i) = 0 :=
    forall₂_congr fun i bound => by rw [same i bound]
  rw [PassEnds, PassEnds, same 3 (by decide), first]

theorem lastPass_succ {bytes later : Nat → UInt8} {k : Nat}
    (same : ∀ i < k + 4, later i = bytes (i + 1)) (first : ¬PassEnds bytes 0) :
    LastPass bytes (k + 1) ↔ LastPass later k := by
  have shifted : ∀ j ≤ k, (PassEnds later j ↔ PassEnds bytes (j + 1)) := by
    intro j bound
    refine passEnds_congr fun i small => ?_
    rw [same (j + i) (by omega), Nat.add_right_comm]
  constructor
  · rintro ⟨ends, earlier⟩
    exact ⟨(shifted k le_rfl).mpr ends, fun j bound ended =>
      earlier (j + 1) (by omega) ((shifted j (by omega)).mp ended)⟩
  · rintro ⟨ends, earlier⟩
    refine ⟨(shifted k le_rfl).mp ends, fun j bound ended => ?_⟩
    cases j with
    | zero => exact first ended
    | succ j => exact earlier j (by omega) ((shifted j (by omega)).mpr ended)

/-! ## Passes -/

theorem charAt_succ (memory : Memory) (string i : Nat) :
    charAt memory ((string + 1) % wordSize) i = charAt memory string (i + 1) := by
  rw [charAt, charAt, succ_mod_add]

section Pass

variable {memory : Memory} {dest src : Nat}

theorem loadU32_eq : loadU32 memory src =
    (charAt memory src 0).toNat + 256 * ((charAt memory src 1).toNat +
      256 * ((charAt memory src 2).toNat + 256 * (charAt memory src 3).toNat)) := rfl

theorem loadU32_positive :
    (0 < loadU32 memory src ∧ loadU32 memory src < 2 ^ 31) ↔ ¬PassEnds (charAt memory src) 0 := by
  have small : ∀ i, (charAt memory src i).toNat < 256 := fun i => (charAt memory src i).toNat_lt
  have b0 := small 0
  have b1 := small 1
  have b2 := small 2
  have b3 := small 3
  have zero : (∀ i < 4, charAt memory src (0 + i) = 0) ↔
      (charAt memory src 0).toNat = 0 ∧ (charAt memory src 1).toNat = 0 ∧
        (charAt memory src 2).toNat = 0 ∧ (charAt memory src 3).toNat = 0 := by
    have byte_zero : ∀ i, charAt memory src i = 0 ↔ (charAt memory src i).toNat = 0 :=
      fun i => UInt8.toNat_inj.symm
    simp only [Nat.zero_add, byte_zero]
    constructor
    · intro all
      exact ⟨all 0 (by decide), all 1 (by decide), all 2 (by decide), all 3 (by decide)⟩
    · rintro ⟨z0, z1, z2, z3⟩ i bound
      interval_cases i <;> assumption
  have high : 0x80 ≤ charAt memory src (0 + 3) ↔ 128 ≤ (charAt memory src 3).toNat :=
    UInt8.le_iff_toNat_le
  rw [PassEnds, zero, high, loadU32_eq]
  omega

theorem storeU32_outside {value target : Nat}
    (outside : ∀ i < 4, target ≠ (dest + i) % wordSize) :
    storeU32 memory dest value target = memory target := by
  have kept : ∀ passes ≤ 4, ((List.range passes).foldl (fun memory i =>
      memory.writeByte ((dest + i) % wordSize) (UInt8.ofNat (value / 256 ^ i))) memory) target =
        memory target := by
    intro passes
    induction passes with
    | zero => exact fun _ => rfl
    | succ passes ih =>
        intro bound
        rw [List.range_succ, List.foldl_append, List.foldl_cons, List.foldl_nil,
          Memory.writeByte_of_ne _ (outside passes (by omega)), ih (by omega)]
  exact kept 4 le_rfl

theorem storeU32_inside {i : Nat} (bound : i < 4) :
    storeU32 memory dest (loadU32 memory src) ((dest + i) % wordSize) = charAt memory src i := by
  have differ : ∀ i < 4, ∀ j < 4, i ≠ j → (dest + i) % wordSize ≠ (dest + j) % wordSize := by
    intro i i_lt j j_lt
    simp only [wordSize]
    omega
  have small : ∀ i, (charAt memory src i).toNat < 256 := fun i => (charAt memory src i).toNat_lt
  have b0 := small 0
  have b1 := small 1
  have b2 := small 2
  have b3 := small 3
  have digit : UInt8.ofNat (loadU32 memory src / 256 ^ i) = charAt memory src i := by
    apply UInt8.toNat.inj
    rw [UInt8.toNat_ofNat', loadU32_eq]
    interval_cases i <;> omega
  have four : List.range 4 = [0, 1, 2, 3] := rfl
  rw [storeU32, four]
  simp only [List.foldl_cons, List.foldl_nil]
  rw [← digit]
  interval_cases i
  · rw [Memory.writeByte_of_ne _ (differ 0 (by decide) 3 (by decide) (by decide)),
      Memory.writeByte_of_ne _ (differ 0 (by decide) 2 (by decide) (by decide)),
      Memory.writeByte_of_ne _ (differ 0 (by decide) 1 (by decide) (by decide)),
      Memory.writeByte_same]
  · rw [Memory.writeByte_of_ne _ (differ 1 (by decide) 3 (by decide) (by decide)),
      Memory.writeByte_of_ne _ (differ 1 (by decide) 2 (by decide) (by decide)),
      Memory.writeByte_same]
  · rw [Memory.writeByte_of_ne _ (differ 2 (by decide) 3 (by decide) (by decide)),
      Memory.writeByte_same]
  · rw [Memory.writeByte_same]

theorem mem_wordAddresses {address : Nat} :
    address ∈ wordAddresses dest ↔ ∃ i < 4, address = (dest + i) % wordSize := by
  simp only [wordAddresses, List.mem_map, List.mem_range, eq_comm]

/-- The memory after a pass that moves bytes between places apart, seen from the next source
byte. -/
theorem charAt_pass {n : Nat}
    (apart : ∀ i < 4, ∀ j < n + 1, (dest + i) % wordSize ≠ (src + j) % wordSize) :
    ∀ j < n, charAt (storeU32 memory dest (loadU32 memory src)) ((src + 1) % wordSize) j =
      charAt memory src (j + 1) := by
  intro j bound
  rw [charAt_succ]
  exact storeU32_outside fun i small => (apart i small (j + 1) (by omega)).symm

end Pass

/-! ## Runs -/

/-- A run that moved exactly `n` bytes. -/
structure MovedBytes (memory : Memory) (dest src n : Nat) (run : StrcpyRun) : Prop where
  reads : ∀ address, address ∈ run.reads ↔ ∃ i < n, address = (src + i) % wordSize
  writes : ∀ address, address ∈ run.writes ↔ ∃ i < n, address = (dest + i) % wordSize
  moved : ∀ i < n, run.memory ((dest + i) % wordSize) = charAt memory src i
  kept : ∀ address, (∀ i < n, address ≠ (dest + i) % wordSize) → run.memory address = memory address

theorem strcpyS_outside {memory : Memory} {dest src destsz address : Nat}
    (outside : address ∉ (strcpyS memory dest destsz src).writes) :
    (strcpyS memory dest destsz src).memory address = memory address := by
  induction destsz generalizing memory dest src with
  | zero => rfl
  | succ destsz ih =>
      rw [strcpyS] at outside ⊢
      split_ifs at outside ⊢
      · rw [StrcpyRun.after, List.mem_append, not_or] at outside
        rw [StrcpyRun.after, ih outside.2, storeU32_outside fun i small same =>
          outside.1 (mem_wordAddresses.mpr ⟨i, small, same⟩)]
      · exact storeU32_outside fun i small same =>
          outside (mem_wordAddresses.mpr ⟨i, small, same⟩)

theorem mem_word_or_next {base n address : Nat} (n_ge : 3 ≤ n) :
    ((∃ i < 4, address = (base + i) % wordSize) ∨
        ∃ i < n, address = ((base + 1) % wordSize + i) % wordSize) ↔
      ∃ i < n + 1, address = (base + i) % wordSize := by
  simp only [succ_mod_add]
  constructor
  · rintro (⟨i, bound, rfl⟩ | ⟨i, bound, rfl⟩)
    · exact ⟨i, by omega, rfl⟩
    · exact ⟨i + 1, by omega, rfl⟩
  · rintro ⟨i, bound, rfl⟩
    cases i with
    | zero => exact Or.inl ⟨0, by decide, rfl⟩
    | succ i => exact Or.inr ⟨i, by omega, rfl⟩

theorem strcpyS_movedBytes {memory : Memory} {dest src destsz k : Nat}
    (last : LastPass (charAt memory src) k) (enough : k < destsz) (fits : k + 4 ≤ wordSize)
    (apart : ∀ i < k + 4, ∀ j < k + 4, (dest + i) % wordSize ≠ (src + j) % wordSize) :
    MovedBytes memory dest src (k + 4) (strcpyS memory dest destsz src) := by
  induction k generalizing memory dest src destsz with
  | zero =>
      obtain ⟨destsz, rfl⟩ : ∃ rest, destsz = rest + 1 := ⟨destsz - 1, by omega⟩
      have ends : ¬(0 < loadU32 memory src ∧ loadU32 memory src < 2 ^ 31) := by
        rw [loadU32_positive]
        exact not_not.mpr last.ends
      rw [strcpyS, if_neg ends]
      exact ⟨fun _ => mem_wordAddresses, fun _ => mem_wordAddresses,
        fun i bound => storeU32_inside bound, fun _ outside => storeU32_outside outside⟩
  | succ k ih =>
      obtain ⟨destsz, rfl⟩ : ∃ rest, destsz = rest + 1 := ⟨destsz - 1, by omega⟩
      have first := last.earlier 0 (Nat.succ_pos k)
      rw [strcpyS, if_pos (loadU32_positive.mpr first)]
      have same := @charAt_pass memory _ _ _ fun i small j bound =>
        apart i (by omega) j (by omega)
      have rest := @ih (storeU32 memory dest (loadU32 memory src)) ((dest + 1) % wordSize)
        ((src + 1) % wordSize) destsz ((lastPass_succ same first).mp last) (by omega) (by omega) (by
          intro i i_bound j j_bound
          rw [succ_mod_add, succ_mod_add]
          exact apart (i + 1) (by omega) (j + 1) (by omega))
      constructor
      · intro address
        rw [StrcpyRun.after, List.mem_append, mem_wordAddresses, rest.reads,
          mem_word_or_next (by omega)]
      · intro address
        rw [StrcpyRun.after, List.mem_append, mem_wordAddresses, rest.writes,
          mem_word_or_next (by omega)]
      · intro i bound
        cases i with
        | zero =>
            rw [StrcpyRun.after, rest.kept, storeU32_inside (by decide)]
            intro j j_bound
            rw [succ_mod_add]
            simp only [wordSize] at fits ⊢
            omega
        | succ i =>
            have moved := rest.moved i (by omega)
            rw [succ_mod_add, same i (by omega)] at moved
            exact moved
      · intro address outside
        rw [StrcpyRun.after, rest.kept, storeU32_outside fun i small => outside i (by omega)]
        intro i bound
        rw [succ_mod_add]
        exact outside (i + 1) (by omega)

/-- A run stops within a bound, or it accesses the byte at the bound. -/
theorem strcpyS_stops_or_leaves {memory : Memory} {dest src destsz bound : Nat}
    (bound_pos : 0 < bound) (enough : bound ≤ destsz)
    (apart : ∀ i < bound, ∀ j < bound, (dest + i) % wordSize ≠ (src + j) % wordSize) :
    (∃ k, k + 4 ≤ bound ∧ LastPass (charAt memory src) k) ∨
      (dest + bound) % wordSize ∈ (strcpyS memory dest destsz src).writes ∧
        (src + bound) % wordSize ∈ (strcpyS memory dest destsz src).reads := by
  induction bound generalizing memory dest src destsz with
  | zero => omega
  | succ bound ih =>
      obtain ⟨destsz, rfl⟩ : ∃ rest, destsz = rest + 1 := ⟨destsz - 1, by omega⟩
      rw [strcpyS]
      by_cases short : bound < 3
      · have access : ∀ pointer, (pointer + (bound + 1)) % wordSize ∈ wordAddresses pointer :=
          fun pointer => mem_wordAddresses.mpr ⟨bound + 1, by omega, rfl⟩
        right
        split_ifs
        · exact ⟨List.mem_append_left _ (access dest), List.mem_append_left _ (access src)⟩
        · exact ⟨access dest, access src⟩
      by_cases first : PassEnds (charAt memory src) 0
      · exact Or.inl ⟨0, by omega, first, fun j impossible => absurd impossible (Nat.not_lt_zero j)⟩
      rw [if_pos (loadU32_positive.mpr first)]
      have same := @charAt_pass memory _ _ _ fun i small j small' =>
        apart i (by omega) j (by omega)
      have rest := @ih (storeU32 memory dest (loadU32 memory src)) ((dest + 1) % wordSize)
        ((src + 1) % wordSize) destsz (by omega) (by omega) (by
          intro i i_bound j j_bound
          rw [succ_mod_add, succ_mod_add]
          exact apart (i + 1) (by omega) (j + 1) (by omega))
      rcases rest with ⟨k, within, last⟩ | ⟨write, read⟩
      · exact Or.inl ⟨k + 1, by omega,
          (lastPass_succ (fun i small => same i (by omega)) first).mpr last⟩
      · rw [succ_mod_add] at write read
        exact Or.inr ⟨List.mem_append_right _ write, List.mem_append_right _ read⟩

/-! ## Bounded copies -/

/-- The copy of a string keeps within both strings and leaves as much of the source as fits. -/
structure CopiesBounded (memory : Memory) (dest destsz src : Nat) (string : List UInt8) : Prop where
  writes : ∀ address ∈ (strcpyS memory dest destsz src).writes,
    ∃ i < destsz, address = (dest + i) % wordSize
  reads : ∀ address ∈ (strcpyS memory dest destsz src).reads, WithinString src string address
  copied : ∀ i < destsz, ∀ byte, (string ++ [0])[i]? = some byte →
    (strcpyS memory dest destsz src).memory ((dest + i) % wordSize) = byte

/-- The loop ends within `bound` bytes, and the bytes up to `size` that it has not reached stand in
the destination already. -/
def StopsWithin (memory : Memory) (dest src bound size : Nat) : Prop :=
  ∃ k, k + 4 ≤ bound ∧ LastPass (charAt memory src) k ∧
    ∀ j, k + 4 ≤ j → j < size → memory ((dest + j) % wordSize) = charAt memory src j

/-- `rdfs_filename_from_id` succeeds, writes into its buffer only and leaves the stored name
there. -/
structure ReturnsName (memory : Memory) (disk : Rdfs) (fileid filepath : Nat)
    (name : List UInt8) : Prop where
  returns : (rdfsFilenameFromId memory disk fileid filepath).2 = 0
  writes : ∀ address ∈ (rdfsFilenameFromId memory disk fileid filepath).1.writes,
    ∃ i < rdfsFileNameSize, address = (filepath + i) % wordSize
  named : ∀ i < rdfsFileNameSize, ∀ byte, (name ++ [0])[i]? = some byte →
    (rdfsFilenameFromId memory disk fileid filepath).1.memory ((filepath + i) % wordSize) = byte

section Bounded

variable {memory : Memory} {dest src destsz bound size : Nat}

theorem StringAt.holds_iff {after : Memory} {string : List UInt8}
    (string_at : StringAt memory src string) :
    (∀ i < size, ∀ byte, (string ++ [0])[i]? = some byte →
        after ((dest + i) % wordSize) = byte) ↔
      ∀ i < min (string.length + 1) size,
        after ((dest + i) % wordSize) = charAt memory src i := by
  have stands : ∀ {i byte}, (string ++ [0])[i]? = some byte → charAt memory src i = byte := by
    intro i byte entry
    have stored := string_at.stored.get entry
    rwa [Nat.zero_add] at stored
  constructor
  · intro holds i small
    have inside : i < (string ++ [0]).length := by
      rw [List.length_append, List.length_singleton]
      omega
    have entry := List.getElem?_eq_getElem inside
    rw [holds i (by omega) _ entry, stands entry]
  · intro holds i small byte entry
    have inside := (List.getElem?_eq_some_iff.mp entry).1
    rw [List.length_append, List.length_singleton] at inside
    rw [holds i (by omega), stands entry]

theorem wrapped_ne {pointer i j : Nat} (less : i < j) (fits : j ≤ wordSize - 1 + i) :
    (pointer + j) % wordSize ≠ (pointer + i) % wordSize := by
  simp only [wordSize] at fits ⊢
  omega

/-- A run that stops within the bound has copied everything up to `size`. -/
theorem StopsWithin.copied (stops : StopsWithin memory dest src bound size)
    (bound_le : bound ≤ destsz) (size_le : size ≤ destsz) (destsz_lt : destsz < wordSize)
    (apart : ∀ i < bound, ∀ j < bound, (dest + i) % wordSize ≠ (src + j) % wordSize) :
    ∃ k, k + 4 ≤ bound ∧ MovedBytes memory dest src (k + 4) (strcpyS memory dest destsz src) ∧
      ∀ i < size, (strcpyS memory dest destsz src).memory ((dest + i) % wordSize) =
        charAt memory src i := by
  obtain ⟨k, within, last, held⟩ := stops
  have moved := strcpyS_movedBytes last (by omega : k < destsz) (by omega) fun i i_lt j j_lt =>
    apart i (by omega) j (by omega)
  refine ⟨k, within, moved, fun i small => ?_⟩
  by_cases reached : i < k + 4
  · exact moved.moved i reached
  · rw [moved.kept, held i (by omega) small]
    intro j j_lt
    exact wrapped_ne (by omega) (by omega)

theorem stopsWithin_of_copied (bound_pos : 0 < bound) (bound_le : bound ≤ destsz)
    (size_le : size ≤ destsz) (destsz_lt : destsz < wordSize)
    (apart : ∀ i < bound, ∀ j < bound, (dest + i) % wordSize ≠ (src + j) % wordSize)
    (inside : ¬((dest + bound) % wordSize ∈ (strcpyS memory dest destsz src).writes ∧
      (src + bound) % wordSize ∈ (strcpyS memory dest destsz src).reads))
    (copied : ∀ i < size, (strcpyS memory dest destsz src).memory ((dest + i) % wordSize) =
      charAt memory src i) : StopsWithin memory dest src bound size := by
  rcases strcpyS_stops_or_leaves bound_pos bound_le apart with ⟨k, within, last⟩ | leaves
  · refine ⟨k, within, last, fun j reached small => ?_⟩
    have moved := strcpyS_movedBytes last (by omega : k < destsz) (by omega) fun i i_lt j j_lt =>
      apart i (by omega) j (by omega)
    rw [← copied j small, moved.kept]
    intro i i_lt
    exact wrapped_ne (by omega) (by omega)
  · exact absurd leaves inside

theorem copiesBounded_iff {string : List UInt8} (string_at : StringAt memory src string)
    (destsz_lt : destsz < wordSize)
    (apart : ∀ i < min (string.length + 1) destsz, ∀ j ≤ string.length,
      (dest + i) % wordSize ≠ (src + j) % wordSize) :
    CopiesBounded memory dest destsz src string ↔ destsz = 0 ∨
      StopsWithin memory dest src (min (string.length + 1) destsz)
        (min (string.length + 1) destsz) := by
  have within : ∀ i < min (string.length + 1) destsz, ∀ j < min (string.length + 1) destsz,
      (dest + i) % wordSize ≠ (src + j) % wordSize := fun i i_lt j j_lt => apart i i_lt j (by omega)
  constructor
  · rintro ⟨writes, reads, holds⟩
    have copied := string_at.holds_iff.mp holds
    by_cases empty : destsz = 0
    · exact Or.inl empty
    refine Or.inr (stopsWithin_of_copied (by omega) (by omega)
      (by omega) destsz_lt within ?_ copied)
    rintro ⟨write, read⟩
    by_cases short : destsz ≤ string.length + 1
    · rw [Nat.min_eq_right short] at write
      obtain ⟨i, i_lt, same⟩ := writes _ write
      exact wrapped_ne i_lt (by omega) same
    · rw [Nat.min_eq_left (by omega)] at read
      obtain ⟨i, i_le, same⟩ := reads _ read
      exact wrapped_ne (by omega) (by omega) same
  · rintro (rfl | stops)
    · constructor
      · intro address member
        exact absurd member List.not_mem_nil
      · intro address member
        exact absurd member List.not_mem_nil
      · intro i impossible
        omega
    · obtain ⟨k, small, moved, copied⟩ :=
        stops.copied (by omega) (by omega : _ ≤ destsz) destsz_lt within
      constructor
      · intro address member
        obtain ⟨i, i_lt, rfl⟩ := (moved.writes address).mp member
        exact ⟨i, by omega, rfl⟩
      · intro address member
        obtain ⟨i, i_lt, rfl⟩ := (moved.reads address).mp member
        exact ⟨i, by omega, rfl⟩
      · exact string_at.holds_iff.mpr copied

theorem returnsName_iff {disk : Rdfs} {fileid : Nat} {name : List UInt8}
    (name_at : StringAt memory (disk.filenamePointer fileid) name)
    (known : FileDirEntry.fileId.get memory (disk.entry fileid) = fileid)
    (apart : ∀ i < rdfsFileNameSize, ∀ j < rdfsFileNameSize,
      (dest + i) % wordSize ≠ (disk.filenamePointer fileid + j) % wordSize) :
    ReturnsName memory disk fileid dest name ↔
      StopsWithin memory dest (disk.filenamePointer fileid) rdfsFileNameSize
        (min (name.length + 1) rdfsFileNameSize) := by
  have call : rdfsFilenameFromId memory disk fileid dest =
      (strcpyS memory dest rdfsFileNameSize (disk.filenamePointer fileid), 0) :=
    if_neg (not_not.mpr known)
  have size_lt : rdfsFileNameSize < wordSize := by decide
  constructor
  · rintro ⟨-, writes, named⟩
    rw [call] at writes named
    refine stopsWithin_of_copied (by decide) le_rfl (by omega) size_lt apart ?_
      (name_at.holds_iff.mp named)
    rintro ⟨write, -⟩
    obtain ⟨i, i_lt, same⟩ := writes _ write
    exact wrapped_ne i_lt (by omega) same
  · intro stops
    obtain ⟨k, small, moved, copied⟩ :=
      stops.copied le_rfl (by omega : _ ≤ rdfsFileNameSize) size_lt apart
    constructor
    · rw [call]
    · rw [call]
      intro address member
      obtain ⟨i, i_lt, rfl⟩ := (moved.writes address).mp member
      exact ⟨i, by omega, rfl⟩
    · rw [call]
      exact name_at.holds_iff.mpr copied

end Bounded

/-- `strcpy_s` copies a string as its name promises if and only if the bound is zero or the loop
stops within the bytes to copy and what remains of them stands in the destination already; the same
holds of the file name of an id and its buffer. -/
theorem strcpyS_bounded_iff {memory : Memory} {dest src destsz : Nat} {string : List UInt8}
    (string_at : StringAt memory src string) (destsz_lt : destsz < wordSize)
    (apart : ∀ i < min (string.length + 1) destsz, ∀ j ≤ string.length,
      (dest + i) % wordSize ≠ (src + j) % wordSize) :
    (CopiesBounded memory dest destsz src string ↔ destsz = 0 ∨
      StopsWithin memory dest src (min (string.length + 1) destsz)
        (min (string.length + 1) destsz)) ∧
    ∀ (disk : Rdfs) (fileid : Nat), disk.filenamePointer fileid = src →
      FileDirEntry.fileId.get memory (disk.entry fileid) = fileid →
      (∀ i < rdfsFileNameSize, ∀ j < rdfsFileNameSize,
        (dest + i) % wordSize ≠ (src + j) % wordSize) →
      (ReturnsName memory disk fileid dest string ↔
        StopsWithin memory dest src rdfsFileNameSize
          (min (string.length + 1) rdfsFileNameSize)) := by
  refine ⟨copiesBounded_iff string_at destsz_lt apart, ?_⟩
  rintro disk fileid rfl known buffer_apart
  exact returnsName_iff string_at known buffer_apart

/-! ## Runs on names -/

/-- An entry whose name begins at `0x2000`. -/
def oneEntry : Rdfs := ⟨0x1f97, 0x1ff7, 1⟩

/-- The name `abc` with two bytes of the upper half behind it.  The last of them stands in the
buffer at `0x1000` already. -/
def accentMemory : Memory := fun address =>
  if address = 0x2000 then 0x61 else if address = 0x2001 then 0x62
  else if address = 0x2002 then 0x63 else if address = 0x2003 then 0xc3
  else if address = 0x2004 ∨ address = 0x1004 then 0xa9 else 0

/-- A name whose fourth byte ends the loop. -/
theorem strcpyS_bounded_accent :
    CopiesBounded accentMemory 0x1000 4 0x2000 [0x61, 0x62, 0x63, 0xc3, 0xa9] ∧
      ReturnsName accentMemory oneEntry 0 0x1000 [0x61, 0x62, 0x63, 0xc3, 0xa9] := by
  have string_at : StringAt accentMemory 0x2000 [0x61, 0x62, 0x63, 0xc3, 0xa9] :=
    ⟨⟨by decide, by decide, by decide, by decide, by decide, by decide, trivial⟩, by decide⟩
  have last : LastPass (charAt accentMemory 0x2000) 0 :=
    ⟨Or.inl (by decide), fun j impossible => absurd impossible (Nat.not_lt_zero j)⟩
  have bounded := @strcpyS_bounded_iff accentMemory 0x1000 0x2000 4 _ string_at (by decide)
    (by simp only [List.length_cons, List.length_nil, wordSize]; omega)
  refine ⟨bounded.1.mpr (Or.inr ⟨0, by decide, last, ?_⟩),
    (bounded.2 oneEntry 0 rfl (by decide) ?_).mpr ⟨0, by decide, last, ?_⟩⟩
  · intro j reached small
    exact absurd reached (by simp only [List.length_cons] at small; omega)
  · simp only [wordSize, rdfsFileNameSize]
    omega
  · intro j reached small
    have few : j < 6 := lt_of_lt_of_le small (by decide)
    interval_cases j <;> decide

/-- A name of seventy letters. -/
def longName : Memory := fun address => if 0x2000 ≤ address ∧ address < 0x2046 then 0x61 else 0

/-- No pass over a name of seventy letters and its terminator ends the loop. -/
theorem longName_not_stopsWithin {size : Nat} :
    ¬StopsWithin longName 0x1000 0x2000 rdfsFileNameSize size := by
  rintro ⟨k, within, ⟨ends, -⟩, -⟩
  rw [rdfsFileNameSize] at within
  have letter : charAt longName 0x2000 k = 0x61 := by
    rw [charAt, Nat.mod_eq_of_lt (by simp only [wordSize]; omega)]
    exact if_pos (by omega)
  rcases ends with high | zero
  · rw [charAt, Nat.mod_eq_of_lt (by simp only [wordSize]; omega), longName] at high
    split_ifs at high <;> exact absurd high (by decide)
  · exact absurd ((zero 0 (by decide)).symm.trans letter) (by decide)

/-- The copy of a name that fills its buffer runs over the end of it. -/
theorem strcpyS_long_name_not_bounded :
    StringAt longName 0x2000 (List.replicate 70 0x61) ∧
      ¬CopiesBounded longName 0x1000 rdfsFileNameSize 0x2000 (List.replicate 70 0x61) ∧
      ¬ReturnsName longName oneEntry 0 0x1000 (List.replicate 70 0x61) := by
  have string_at : StringAt longName 0x2000 (List.replicate 70 0x61) := by
    refine ⟨Memory.stored_of_get fun i byte entry => ?_, by simp⟩
    have inside := (List.getElem?_eq_some_iff.mp entry).1
    rw [List.length_append, List.length_replicate, List.length_singleton] at inside
    rw [Nat.zero_add, charAt, Nat.mod_eq_of_lt (by simp only [wordSize]; omega), longName]
    by_cases letter : i < 70
    · rw [List.getElem?_append_left (by rw [List.length_replicate]; exact letter),
        List.getElem?_replicate, if_pos letter, Option.some.injEq] at entry
      rw [if_pos (by omega), entry]
    · obtain rfl : i = 70 := by omega
      rw [List.getElem?_append_right (by rw [List.length_replicate])] at entry
      rw [if_neg (by omega)]
      exact Option.some.inj entry
  refine ⟨string_at, ?_, ?_⟩
  · rw [copiesBounded_iff string_at (by decide) (by
      simp only [wordSize, rdfsFileNameSize, List.length_replicate]; omega)]
    rintro (impossible | stops)
    · exact absurd impossible (by decide)
    · exact longName_not_stopsWithin stops
  · rw [returnsName_iff string_at (by decide) (by
      simp only [wordSize, rdfsFileNameSize, oneEntry, Rdfs.filenamePointer, Rdfs.entry,
        FileDirEntry.filename, FileDirEntry.size]
      omega)]
    exact longName_not_stopsWithin

end PellOs
