import PellOs.Fs.Lookup

/-!
# When path lookup is sound

A lookup does not ask whether the node reached so far is a directory: it takes the data of a regular
file as a list of ids too.  It leads only along the directories of the tree, and uses only ids of
the tree, exactly when every whole word of every regular file is zero, the id of the root, whose
name is no component.
-/

namespace PellOs

/-- A directory tree, given by the entries of its root. -/
structure DirTree where
  root : Listing
  distinct : root.Distinct

/-- Lookups end at the node that the components name and use ids of the tree only.  `answer` never
fails: every call of `kmalloc` returns a block. -/
def SoundLookup (tree : DirTree) (memory : Memory) (disk : Rdfs) : Prop :=
  ∀ (answer : Nat → Nat) (path : Nat → UInt8) (names : List Name) (fuel : Nat) (state : RdfsState),
    (∀ call, answer call ≠ 0) → IsPath path names → names.length < fuel →
      (∀ id, (rdfsFileGetIdFromPath answer fuel memory disk state path).2 = .found id →
        (names = [] ∧ id = 0) ∨ ∃ entry, NodeAt tree.root 1 names id entry) ∧
      ∀ index ∈ (rdfsFileGetIdFromPath answer fuel memory disk state path).1.indices,
        index ∈ state.indices ∨ index < disk.numFiles

/-- Every whole word of every regular file is zero. -/
def ZeroWords (listing : Listing) (id : Nat) : Prop :=
  ∀ path found contents, NodeAt listing id path found (.file contents) →
    ∀ word ∈ dataWords contents, word = 0

namespace Mounted

variable {memory : Memory} {disk : Rdfs} {root listing : Listing} {id found : Nat}

private theorem mem_of_mem_scanned {hit : Nat → Prop} [DecidablePred hit] {ids : List Nat}
    {index : Nat} (member : index ∈ scanned hit ids) : index ∈ ids := by
  induction ids with
  | nil => cases member
  | cons first ids ih =>
      rw [scanned] at member
      split_ifs at member with here
      · exact List.mem_cons.mpr (Or.inl (List.mem_singleton.mp member))
      · rcases List.mem_cons.mp member with same | later
        · exact List.mem_cons.mpr (Or.inl same)
        · exact List.mem_cons_of_mem _ (ih later)

private theorem mem_scanned {hit : Nat → Prop} [DecidablePred hit] {front back : List Nat}
    {index : Nat} (skipped : ∀ other ∈ front, ¬ hit other) :
    index ∈ scanned hit (front ++ index :: back) := by
  induction front with
  | nil =>
      rw [List.nil_append, scanned]
      split_ifs with here
      · exact List.mem_cons_self
      · exact List.mem_cons_self
  | cons first front ih =>
      rw [List.cons_append, scanned, if_neg (skipped first List.mem_cons_self)]
      exact List.mem_cons_of_mem _ (ih fun other member =>
        skipped other (List.mem_cons_of_mem _ member))

/-- Behind a file of zero words a lookup ends without an id. -/
private theorem resolve_zero (mounted : Mounted memory disk root) (names : root.NamesFit)
    (zero : ∀ word ∈ disk.idList memory id, word = 0) (bound : id ≤ root.count)
    (path : List Name) :
    (∀ other, resolve memory disk id path = .found other → path = [] ∧ other = id) ∧
      ∀ index ∈ visited memory disk id path, index ≤ root.count := by
  cases path with
  | nil =>
      refine ⟨fun other same => ⟨rfl, ?_⟩, fun index member => by cases member⟩
      rw [resolve, Lookup.found.injEq] at same
      exact same.symm
  | cons name rest =>
      have nothing : (disk.idList memory id).find?
          (fun other => NameIs memory disk name.bytes other) = none := by
        rw [List.find?_eq_none]
        intro other member
        rw [zero other member]
        simpa using mounted.not_nameIs_root names name
      rw [resolve, visited, nothing]
      split_ifs with long
      · exact ⟨fun other same => (by cases same), fun index member => (by cases member)⟩
      · refine ⟨fun other same => (by cases same), fun index member => ?_⟩
        rw [List.append_nil] at member
        rcases List.mem_cons.mp member with rfl | listed
        · exact bound
        · rw [zero index (mem_of_mem_scanned listed)]
          exact Nat.zero_le _

theorem resolve_sound (mounted : Mounted memory disk root) (names : root.NamesFit)
    (directory : IsDirectory memory disk root id listing) (zero : ZeroWords listing (id + 1))
    (path : List Name) :
    (∀ other, resolve memory disk id path = .found other →
        (path = [] ∧ other = id) ∨ ∃ entry, NodeAt listing (id + 1) path other entry) ∧
      ∀ index ∈ visited memory disk id path, index ≤ root.count := by
  induction path generalizing id listing with
  | nil =>
      refine ⟨fun other same => Or.inl ⟨rfl, ?_⟩, fun index member => by cases member⟩
      rw [resolve, Lookup.found.injEq] at same
      exact same.symm
  | cons name rest ih =>
      have listed : ∀ index ∈ scanned (NameIs memory disk name.bytes) (disk.idList memory id),
          index ≤ root.count := by
        intro index member
        have child := mem_of_mem_scanned member
        rw [directory.list] at child
        obtain ⟨target, entry, here⟩ := HasEntry.of_mem_childIds child
        exact id_le (directory.flat.entry here).1
      rw [resolve, visited]
      split_ifs with long
      · exact ⟨fun other same => (by cases same), fun index member => (by cases member)⟩
      cases search : (disk.idList memory id).find?
          fun other => NameIs memory disk name.bytes other with
      | none =>
          refine ⟨fun other same => (by cases same), fun index member => ?_⟩
          rw [List.append_nil] at member
          rcases List.mem_cons.mp member with rfl | inside
          · exact directory.bound
          · exact listed index inside
      | some next =>
          rw [directory.list] at search
          obtain ⟨entry, here⟩ := HasEntry.of_find (fun target found entry here =>
            mounted.nameIs_iff names directory.flat here name) search
          have onward : (∀ other, resolve memory disk next rest = .found other →
              (rest = [] ∧ other = next) ∨
                ∃ children last, entry = .directory children ∧
                  NodeAt children (next + 1) rest other last) ∧
              ∀ index ∈ visited memory disk next rest, index ≤ root.count := by
            cases entry with
            | file contents =>
                have node := (directory.flat.entry here).1
                have words : ∀ word ∈ disk.idList memory next, word = 0 := by
                  rw [mounted.idList_eq names node]
                  exact zero [name] next contents (.entry here)
                have empty := mounted.resolve_zero names words (id_le node) rest
                exact ⟨fun other same => Or.inl (empty.1 other same), empty.2⟩
            | directory children =>
                have below := ih (directory.child mounted names here)
                  (fun path found contents node =>
                    zero (name :: path) found contents (.inside here node))
                refine ⟨fun other same => ?_, below.2⟩
                rcases below.1 other same with done | ⟨last, node⟩
                · exact Or.inl done
                · exact Or.inr ⟨children, last, rfl, node⟩
          refine ⟨fun other same => Or.inr ?_, fun index member => ?_⟩
          · rcases onward.1 other same with ⟨rfl, rfl⟩ | ⟨children, last, rfl, node⟩
            · exact ⟨entry, .entry here⟩
            · exact ⟨last, .inside here node⟩
          · rcases List.mem_cons.mp member with rfl | later
            · exact directory.bound
            · rcases List.mem_append.mp later with inside | further
              · exact listed index inside
              · exact onward.2 index further

private theorem exists_first_nonzero {words : List Nat} (nonzero : ∃ word ∈ words, word ≠ 0) :
    ∃ front word back, words = front ++ word :: back ∧ word ≠ 0 ∧ ∀ other ∈ front, other = 0 := by
  induction words with
  | nil => simp at nonzero
  | cons first words ih =>
      by_cases zero : first = 0
      · obtain ⟨word, member, word_ne⟩ := nonzero
        have later : word ∈ words := by
          rcases List.mem_cons.mp member with same | later
          · exact absurd (same.trans zero) word_ne
          · exact later
        obtain ⟨front, word, back, shape, word_ne, zeros⟩ := ih ⟨word, later, word_ne⟩
        refine ⟨first :: front, word, back, by rw [shape, List.cons_append], word_ne, ?_⟩
        intro other other_member
        rcases List.mem_cons.mp other_member with same | inside
        · exact same.trans zero
        · exact zeros other inside
      · exact ⟨[], first, words, rfl, zero, fun other member => by cases member⟩

/-- A path through a regular file to one of its words. -/
theorem resolve_strays (mounted : Mounted memory disk root) (names : root.NamesFit)
    {node : TreeNode} (file : (treeNodes root)[id]? = some node) (name : Name)
    (short : name.bytes.length < 2 ^ 16) {front back : List Nat} {word : Nat}
    (shape : dataWords node.data = front ++ word :: back) (zeros : ∀ other ∈ front, other = 0) :
    word ∈ visited memory disk id [name] ∧
      (NameIs memory disk name.bytes word → resolve memory disk id [name] = .found word) := by
  have list := mounted.idList_eq names file
  rw [shape] at list
  have skipped : ∀ other ∈ front, ¬ NameIs memory disk name.bytes other := by
    intro other member
    rw [zeros other member]
    exact mounted.not_nameIs_root names name
  have missed : front.find? (fun other => NameIs memory disk name.bytes other) = none := by
    rw [List.find?_eq_none]
    intro other member
    simpa using skipped other member
  rw [resolve, visited, if_neg (not_le.mpr short), if_neg (not_le.mpr short), list]
  refine ⟨List.mem_cons_of_mem _ (List.mem_append_left _ (mem_scanned skipped)), fun hit => ?_⟩
  rw [List.find?_append, missed, Option.none_or, List.find?_cons_of_pos (by simpa using hit)]
  rfl

/-- A word of a file that is not zero leads a lookup astray. -/
theorem zeroWords_of_sound {tree : DirTree} (mounted : Mounted memory disk tree.root)
    (names : tree.root.NamesFit) (sound : SoundLookup tree memory disk) :
    ZeroWords tree.root 1 := by
  intro path found contents file word member
  by_contra word_ne
  have directory := mounted.isDirectory_root names
  obtain ⟨target, node⟩ := directory.flat.node file
  obtain ⟨front, first, back, shape, first_ne, zeros⟩ :=
    exists_first_nonzero ⟨word, member, word_ne⟩
  have astray : ∀ name : Name, name.bytes.length < 2 ^ 16 →
      first < disk.numFiles ∧ (NameIs memory disk name.bytes first →
        ∃ entry, NodeAt tree.root 1 (path ++ [name]) first entry) := by
    intro name short
    have reached := mounted.resolve_append names directory tree.distinct file [name]
    have strays := mounted.resolve_strays names node name short shape zeros
    have granted : ∀ call, (fun _ => 1 : Nat → Nat) call ≠ 0 := fun _ => one_ne_zero
    have lookup := rdfsFileGetIdFromPath_eq memory disk granted
      (isPath_pathBytes (path ++ [name])) (Nat.lt_succ_self _) ⟨0, [], []⟩
    have claim := sound (fun _ => 1) (pathBytes (path ++ [name])) (path ++ [name])
      ((path ++ [name]).length + 1) ⟨0, [], []⟩ granted (isPath_pathBytes _) (Nat.lt_succ_self _)
    rw [lookup.1, lookup.2] at claim
    refine ⟨?_, fun hit => ?_⟩
    · have used := claim.2 first (List.mem_append_left _
        (List.mem_reverse.mpr (reached.2 first strays.1)))
      rcases used with impossible | bound
      · cases impossible
      · exact bound
    · rcases claim.1 first (by rw [reached.1, strays.2 hit]) with ⟨empty, _⟩ | chain
      · simp at empty
      · exact chain
  have bound := (astray ⟨[97], by decide, by decide, by decide⟩ (by decide)).1
  rw [mounted.files_eq, ← length_treeNodes] at bound
  obtain ⟨hit, other⟩ : ∃ hit, (treeNodes tree.root)[first]? = some hit :=
    ⟨_, List.getElem?_eq_getElem bound⟩
  obtain ⟨number, rfl⟩ := Nat.exists_eq_succ_of_ne_zero first_ne
  have below : hit ∈ (flattenDir tree.root 1).1 := by
    rw [treeNodes, List.getElem?_cons_succ] at other
    exact List.mem_of_getElem? other
  obtain ⟨name, named⟩ := exists_name below
  have stored_name := storedName_of_namesFit names below
  have stored := mounted.stored_name names other
  rw [stored_name.1, named] at stored
  have short : name.bytes.length < 2 ^ 16 := by
    have fits := stored_name.2
    rw [stored_name.1, named] at fits
    exact lt_trans fits (by decide)
  obtain ⟨entry, chain⟩ := (astray name short).2
    ((strcmp_eq_zero_iff stored name.no_nul name.no_nul).mpr rfl)
  have nonempty : path ≠ [] := by
    rintro rfl
    cases file
  obtain ⟨middle, children, inner⟩ := chain.directory_of_append nonempty
  have first_end := (mounted.resolve_append names directory tree.distinct file []).1
  have second_end := (mounted.resolve_append names directory tree.distinct inner []).1
  rw [first_end, resolve, resolve, Lookup.found.injEq] at second_end
  obtain ⟨target', inner_node⟩ := directory.flat.node inner
  rw [← second_end, node, Option.some.injEq, TreeNode.mk.injEq] at inner_node
  cases inner_node.2.1

/-- On the image of a tree whose names fit, lookup is sound exactly when every whole word of every
regular file is zero. -/
theorem lookup_sound_iff {tree : DirTree} (mounted : Mounted memory disk tree.root)
    (names : tree.root.NamesFit) : SoundLookup tree memory disk ↔ ZeroWords tree.root 1 := by
  refine ⟨zeroWords_of_sound mounted names, fun zero => ?_⟩
  intro answer path components fuel state granted is_path enough
  have directory := mounted.isDirectory_root names
  have follows := mounted.resolve_sound names directory zero components
  have lookup := rdfsFileGetIdFromPath_eq memory disk granted is_path enough state
  rw [lookup.1, lookup.2]
  refine ⟨follows.1, fun index member => ?_⟩
  rcases List.mem_append.mp member with used | before
  · right
    have bound := follows.2 index (List.mem_reverse.mp used)
    rw [mounted.files_eq]
    omega
  · exact Or.inl before

end Mounted

/-- The name `a`. -/
def nameA : Name := ⟨[97], by decide, by decide, by decide⟩

/-- A tree with one file, named `a`. -/
def oneFileTree (contents : List UInt8) : DirTree :=
  ⟨.file nameA contents .nil, List.not_mem_nil, trivial⟩

/-- Where the ram disk of the examples stands. -/
def sampleStart : Nat := 0xffff000000200000

theorem emptyTree_mounted :
    Mounted (placeImage (fun _ => 0) sampleStart (genRamDisk .nil)) (mountedDisk sampleStart .nil)
      .nil := by
  apply mounted_placeImage (fun _ => 0) (by decide)
  rw [@length_genRamDisk_eq .nil trivial]
  decide

theorem oneFileTree_namesFit (contents : List UInt8) : (oneFileTree contents).root.NamesFit :=
  ⟨by decide, trivial⟩

theorem oneFileTree_mounted (memory : Memory) {contents : List UInt8}
    (small : contents.length < 2 ^ 16) :
    Mounted (placeImage memory sampleStart (genRamDisk (oneFileTree contents).root))
      (mountedDisk sampleStart (oneFileTree contents).root) (oneFileTree contents).root := by
  apply mounted_placeImage memory (by decide)
  have data : (genDataDirectories (treeNodes (oneFileTree contents).root)).length =
      contents.length + 8 := by
    simp [genDataDirectories, treeNodes, oneFileTree, flattenDir, length_idBytes,
      Listing.childIds, Nat.add_comm]
  rw [length_genRamDisk_eq (oneFileTree_namesFit contents), data]
  simp only [sampleStart, PartitionHeader.size, FileDirEntry.size, oneFileTree, Listing.count,
    wordSize]
  omega

theorem lookup_sound_iff_one_file :
    SoundLookup (oneFileTree [1])
        (placeImage (fun _ => 0) sampleStart (genRamDisk (oneFileTree [1]).root))
        (mountedDisk sampleStart (oneFileTree [1]).root) ↔
      ZeroWords (oneFileTree [1]).root 1 :=
  Mounted.lookup_sound_iff (oneFileTree_mounted _ (by decide)) (oneFileTree_namesFit [1])

/-- The file `a` holds its own id as a word, so the lookup of `/a/a` ends at `a`. -/
theorem lookup_strays_through_file :
    ¬ SoundLookup (oneFileTree [1, 0, 0, 0, 0, 0, 0, 0])
      (placeImage (fun _ => 0) sampleStart
        (genRamDisk (oneFileTree [1, 0, 0, 0, 0, 0, 0, 0]).root))
      (mountedDisk sampleStart (oneFileTree [1, 0, 0, 0, 0, 0, 0, 0]).root) := by
  intro sound
  have zero := Mounted.zeroWords_of_sound (oneFileTree_mounted _ (by decide))
    (oneFileTree_namesFit _) sound
  have word := zero [nameA] 1 _ (.entry (.file nameA _ _ 1)) 1 (by decide)
  cases word

end PellOs
