import PellOs.Fs.Read

/-!
# Reading a file in pieces

Any sequence of calls of `rdfs_read_file` on one file, each with a buffer of its own, delivers the
file from its beginning on, and a call returns zero exactly behind the last byte.
-/

namespace PellOs

/-- The arguments of a call of `rdfs_read_file` besides the file. -/
structure ReadCall where
  buf : Nat
  size : Nat

/-- Memory and the file between two calls, with the counts that the calls returned so far and the
bytes that they delivered. -/
structure ReadConfig where
  memory : Memory
  file : File
  counts : List Nat
  delivered : List UInt8

namespace ReadConfig

variable (disk : Rdfs)

/-- A call of `rdfs_read_file`. -/
def read (config : ReadConfig) (call : ReadCall) : ReadConfig :=
  let (memory, file, count) := rdfsReadFile config.memory disk config.file call.buf call.size
  ⟨memory, file, config.counts ++ [count], config.delivered ++ memory.bytes call.buf count⟩

/-- Calls of `rdfs_read_file` one after another. -/
def reads (config : ReadConfig) (calls : List ReadCall) : ReadConfig :=
  calls.foldl (read disk) config

end ReadConfig

/-- A call asks for something and has a buffer outside the image for what the file can give. -/
structure ReadCall.Allowed (disk : Rdfs) (root : Listing) (contents : List UInt8)
    (call : ReadCall) : Prop where
  positive : 0 < call.size
  apart : Mounted.BufferApart disk root call.buf (min call.size contents.length)

/-- The index stands behind the bytes delivered so far, which begin the file. -/
structure Delivering (disk : Rdfs) (id : Nat) (contents : List UInt8) (config : ReadConfig) :
    Prop where
  index : config.file.index.toNat = config.counts.sum
  inside : config.file.index.toNat ≤ disk.entrySize config.memory id
  delivered : config.delivered = contents.take config.counts.sum

/-- A call writes the bytes that it counts and no others, and counts none exactly when the whole
file has been delivered. -/
structure DeliversNext (disk : Rdfs) (contents : List UInt8) (config : ReadConfig)
    (call : ReadCall) (count : Nat) : Prop where
  count_le : count ≤ call.size
  written : (config.read disk call).memory.bytes call.buf count =
    (contents.drop config.delivered.length).take count
  outside : ∀ address, address < call.buf ∨ call.buf + count ≤ address →
    (config.read disk call).memory address = config.memory address
  done : count = 0 ↔ config.delivered = contents

section Reads

variable {disk : Rdfs} {root : Listing} {id : Nat} {name contents : List UInt8}
  {config : ReadConfig} {call : ReadCall}

/-- What holds between two calls on a mounted image. -/
structure ReadInvariant (disk : Rdfs) (root : Listing) (id : Nat) (contents : List UInt8)
    (config : ReadConfig) : Prop where
  mounted : Mounted config.memory disk root
  file_id : config.file.fileId.toNat = id
  index : config.file.index.toNat = config.counts.sum
  inside : config.counts.sum ≤ contents.length
  delivered : config.delivered = contents.take config.counts.sum

namespace ReadInvariant

variable (names : root.NamesFit)
  (node : (treeNodes root)[id]? = some ⟨name, false, id, contents⟩)

include names node

theorem delivering (invariant : ReadInvariant disk root id contents config) :
    Delivering disk id contents config :=
  ⟨invariant.index, by
    rw [invariant.mounted.entrySize_eq names node, invariant.index]
    exact invariant.inside, invariant.delivered⟩

private theorem call_spec (invariant : ReadInvariant disk root id contents config)
    (allowed : call.Allowed disk root contents) :
    (rdfsReadFile config.memory disk config.file call.buf call.size).2.2 =
        min call.size (contents.length - config.counts.sum) ∧
      (rdfsReadFile config.memory disk config.file call.buf call.size).2.1.fileId =
        config.file.fileId ∧
      (rdfsReadFile config.memory disk config.file call.buf call.size).2.1.index.toNat =
        config.counts.sum + min call.size (contents.length - config.counts.sum) ∧
      (rdfsReadFile config.memory disk config.file call.buf call.size).1.bytes call.buf
          (min call.size (contents.length - config.counts.sum)) =
        (contents.drop config.counts.sum).take
          (min call.size (contents.length - config.counts.sum)) ∧
      ∀ address, address < call.buf ∨
          call.buf + min call.size (contents.length - config.counts.sum) ≤ address →
        (rdfsReadFile config.memory disk config.file call.buf call.size).1 address =
          config.memory address := by
  have inside := invariant.inside
  have room := allowed.apart.mono (show min call.size (contents.length - config.counts.sum) ≤
    min call.size contents.length by omega)
  have spec := @Mounted.rdfsReadFile_spec _ _ _ _ _ invariant.mounted names node config.file
    invariant.file_id (invariant.index.trans_le inside) call.buf call.size
    (Or.inl allowed.positive)
  rw [invariant.index] at spec
  exact spec room

theorem deliversNext (invariant : ReadInvariant disk root id contents config)
    (allowed : call.Allowed disk root contents) :
    DeliversNext disk contents config call
      (rdfsReadFile config.memory disk config.file call.buf call.size).2.2 := by
  obtain ⟨count, _, _, bytes, outside⟩ := invariant.call_spec names node allowed
  have positive := allowed.positive
  have inside := invariant.inside
  have length : config.delivered.length = config.counts.sum := by
    rw [invariant.delivered, List.length_take, Nat.min_eq_left inside]
  rw [count]
  refine ⟨Nat.min_le_left _ _, ?_, outside, ?_⟩
  · rw [length]
    exact bytes
  · have all : config.delivered = contents ↔ contents.length ≤ config.counts.sum := by
      rw [invariant.delivered, List.take_eq_self_iff]
    rw [all]
    omega

theorem read (invariant : ReadInvariant disk root id contents config)
    (allowed : call.Allowed disk root contents) :
    ReadInvariant disk root id contents (config.read disk call) := by
  obtain ⟨count, same_id, index, bytes, outside⟩ := invariant.call_spec names node allowed
  have inside := invariant.inside
  have room := allowed.apart.mono (show min call.size (contents.length - config.counts.sum) ≤
    min call.size contents.length by omega)
  have sum : (config.read disk call).counts.sum =
      config.counts.sum + min call.size (contents.length - config.counts.sum) := by
    rw [ReadConfig.read]
    dsimp only
    rw [count, List.sum_append, List.sum_singleton]
  refine ⟨invariant.mounted.buffered room outside, ?_, ?_, ?_, ?_⟩
  · exact same_id ▸ invariant.file_id
  · rw [sum]
    exact index
  · rw [sum]
    omega
  · rw [sum, List.take_add, ← bytes, ← invariant.delivered, ReadConfig.read]
    dsimp only
    rw [count]

theorem reads (invariant : ReadInvariant disk root id contents config) {calls : List ReadCall}
    (allowed : ∀ call ∈ calls, call.Allowed disk root contents) :
    ReadInvariant disk root id contents (config.reads disk calls) := by
  induction calls generalizing config with
  | nil => exact invariant
  | cons call calls ih =>
      exact ih (invariant.read names node (allowed call List.mem_cons_self))
        (fun later member => allowed later (List.mem_cons_of_mem _ member))

end ReadInvariant

end Reads

/-- A file opened by its path is delivered in order by every sequence of reads. -/
theorem chunked_reads_reassemble (tree : DirTree) (fits : tree.root.NamesFit) {memory : Memory}
    {disk : Rdfs} (mounted : Mounted memory disk tree.root) {answer : Nat → Nat}
    (granted : ∀ call, answer call ≠ 0) {path : Nat → UInt8} {names : List Name}
    (is_path : IsPath path names) {fuel : Nat} (enough : names.length < fuel) (state : RdfsState)
    {id : Nat} {contents : List UInt8} (node : tree.At names id (.file contents)) (flags : Nat) :
    ∃ file, (rdfsOpenFile answer fuel memory disk state path flags).2 = .opened file ∧
      ∀ calls : List ReadCall, (∀ call ∈ calls, call.Allowed disk tree.root contents) →
        Delivering disk id contents (ReadConfig.reads disk ⟨memory, file, [], []⟩ calls) ∧
        ∀ next : ReadCall, next.Allowed disk tree.root contents →
          DeliversNext disk contents (ReadConfig.reads disk ⟨memory, file, [], []⟩ calls) next
            (rdfsReadFile (ReadConfig.reads disk ⟨memory, file, [], []⟩ calls).memory disk
              (ReadConfig.reads disk ⟨memory, file, [], []⟩ calls).file next.buf
                next.size).2.2 := by
  obtain ⟨_, listed⟩ := node.node
  have lookup := (rdfsFileGetIdFromPath_eq memory disk granted is_path enough state).1
  rw [node.resolve_eq mounted fits] at lookup
  have file_id : (rdfsOpenFileId id flags).fileId.toNat = id :=
    toNat_ofNat_id mounted listed
  refine ⟨rdfsOpenFileId id flags, ?_, ?_⟩
  · rw [rdfsOpenFile, ← Prod.eta (rdfsFileGetIdFromPath ..), lookup]
  · intro calls allowed
    have start : ReadInvariant disk tree.root id contents
        ⟨memory, rdfsOpenFileId id flags, [], []⟩ :=
      ⟨mounted, file_id, rfl, Nat.zero_le _, rfl⟩
    have invariant := start.reads fits listed allowed
    exact ⟨invariant.delivering fits listed,
      fun next room => invariant.deliversNext fits listed room⟩

/-- The file `a` with contents `1, 2`, read one byte at a time. -/
theorem chunked_reads_reassemble_one_file :
    ∃ file, (rdfsOpenFile (fun _ => 1) 2
        (placeImage (fun _ => 0) sampleStart (genRamDisk (oneFileTree [1, 2]).root))
        (mountedDisk sampleStart (oneFileTree [1, 2]).root) ⟨0, [], []⟩ (pathBytes [nameA])
        0).2 = .opened file ∧
      Delivering (mountedDisk sampleStart (oneFileTree [1, 2]).root) 1 [1, 2]
        (ReadConfig.reads (mountedDisk sampleStart (oneFileTree [1, 2]).root)
          ⟨placeImage (fun _ => 0) sampleStart (genRamDisk (oneFileTree [1, 2]).root), file, [], []⟩
          [⟨sampleBuffer, 1⟩, ⟨sampleBuffer, 1⟩]) := by
  obtain ⟨file, opened, calls⟩ := chunked_reads_reassemble (oneFileTree [1, 2])
    (oneFileTree_namesFit _) (oneFileTree_mounted (fun _ => 0) (by decide))
    (fun _ => one_ne_zero) (isPath_pathBytes [nameA]) (by decide : 1 < 2) ⟨0, [], []⟩
    (Or.inr (.entry (.file nameA _ _ 1))) 0
  refine ⟨file, opened, (calls _ ?_).1⟩
  intro call member
  have same : call = ⟨sampleBuffer, 1⟩ := by simpa using member
  rw [same]
  exact ⟨by decide, (sampleBuffer_apart _).1⟩

end PellOs
