import PellOs.Fs.RoundTrip

/-!
# What a lookup holds

`rdfs_file_get_id_from_path` allocates two blocks for each component and frees them only when the
component is found.
-/

namespace PellOs

/-! ## The nodes along a path -/

section Nodes

variable (memory : Memory) (disk : Rdfs) (path : Nat → UInt8)

/-- The component of `i` bytes at a position. -/
def componentBytes (start i : Nat) : List UInt8 := (List.range i).map fun k => path (start + k)

/-- From a position in the path and a node to the position behind the next component and the node
that the component names. -/
def nextNode (place : Nat × Nat) : Option (Nat × Nat) :=
  if path place.1 = 0 then none
  else
    (componentLength path place.1 (2 ^ 16) 0).bind fun i =>
      ((disk.idList memory place.2).find? fun other =>
          NameIs memory disk (componentBytes path place.1 i) other).map fun next =>
        (if path (place.1 + i) = slash then place.1 + (i + 1) else place.1 + i, next)

/-- The position and the node after a number of components. -/
def nodeAfter : Nat → Nat × Nat → Option (Nat × Nat)
  | 0, place => some place
  | count + 1, place => (nextNode memory disk path place).bind (nodeAfter count)

/-- The components behind a position lead from a node to the end of the path. -/
def LeadsOn (place : Nat × Nat) : Prop :=
  ∃ count last, nodeAfter memory disk path count place = some last ∧ path last.1 = 0

/-- The components of the path lead from the root to a node of the image. -/
def Resolves : Prop := LeadsOn memory disk path (1, 0)

variable {memory disk path}

theorem leadsOn_end {place : Nat × Nat} (ended : path place.1 = 0) :
    LeadsOn memory disk path place := ⟨0, place, rfl, ended⟩

theorem leadsOn_iff {place : Nat × Nat} (more : path place.1 ≠ 0) :
    LeadsOn memory disk path place ↔
      ∃ next, nextNode memory disk path place = some next ∧ LeadsOn memory disk path next := by
  constructor
  · rintro ⟨count, last, reached, ended⟩
    cases count with
    | zero =>
        cases reached
        exact absurd ended more
    | succ count =>
        obtain ⟨next, first, later⟩ := Option.bind_eq_some_iff.mp reached
        exact ⟨next, first, count, last, later, ended⟩
  · rintro ⟨next, first, count, last, later, ended⟩
    exact ⟨count + 1, last, Option.bind_eq_some_iff.mpr ⟨next, first, later⟩, ended⟩

theorem lookupFrom_turn {start : Nat} (more : path start ≠ 0) (answer : Nat → Nat) (fuel : Nat)
    (state : RdfsState) (id : Nat) :
    lookupFrom answer memory disk path (fuel + 1) state start id =
      match componentLength path start (2 ^ 16) 0 with
      | none => (state, .stuck)
      | some i =>
          if answer state.calls = 0 then
            (⟨state.calls + 1, state.live, state.indices⟩, .stuck)
          else if answer (state.calls + 1) = 0 then
            (⟨state.calls + 2, answer state.calls :: state.live, id :: state.indices⟩,
              if disk.idList memory id = [] then .missing else .stuck)
          else
            match (disk.idList memory id).find? fun other =>
                NameIs memory disk (componentBytes path start i) other with
            | none => (⟨state.calls + 2,
                answer (state.calls + 1) :: answer state.calls :: state.live,
                (scanned (NameIs memory disk (componentBytes path start i))
                  (disk.idList memory id)).reverse ++ id :: state.indices⟩, .missing)
            | some next => lookupFrom answer memory disk path fuel
                ⟨state.calls + 2, state.live,
                  (scanned (NameIs memory disk (componentBytes path start i))
                    (disk.idList memory id)).reverse ++ id :: state.indices⟩
                (if path (start + i) = slash then start + (i + 1) else start + i) next := by
  rw [lookupFrom, if_neg more]
  cases componentLength path start (2 ^ 16) 0 with
  | none => rfl
  | some i =>
      simp only [RdfsState.kmalloc, rdfsGetFileListFromDirId, RdfsState.use,
        rdfsGetFileIdFromListAndName_eq]
      by_cases no_name : answer state.calls = 0
      · simp only [no_name, if_true]
      by_cases no_list : answer (state.calls + 1) = 0
      · by_cases empty : disk.idList memory id = []
        · simp [no_name, no_list, empty]
        · simp [no_name, no_list, empty]
      simp only [no_name, no_list, if_false, false_and]
      rw [← componentBytes]
      cases (disk.idList memory id).find? fun other =>
          NameIs memory disk (componentBytes path start i) other with
      | none => rfl
      | some other => simp only [RdfsState.kfree, List.erase_cons_head]

theorem nextNode_eq_some {place next : Nat × Nat}
    (step : nextNode memory disk path place = some next) :
    path place.1 ≠ 0 ∧ ∃ i, componentLength path place.1 (2 ^ 16) 0 = some i ∧
      (disk.idList memory place.2).find? (fun other =>
        decide (NameIs memory disk (componentBytes path place.1 i) other)) = some next.2 ∧
      next.1 = if path (place.1 + i) = slash then place.1 + (i + 1) else place.1 + i := by
  rw [nextNode] at step
  split_ifs at step with ended
  obtain ⟨i, length, named⟩ := Option.bind_eq_some_iff.mp step
  obtain ⟨other, search, rfl⟩ := Option.map_eq_some_iff.mp named
  exact ⟨ended, i, length, search, rfl⟩

/-- With blocks for every component the lookup goes where the components lead. -/
theorem lookupFrom_of_nodeAfter {answer : Nat → Nat} {count : Nat} {place last : Nat × Nat}
    (along : nodeAfter memory disk path count place = some last) (ended : path last.1 = 0)
    {state : RdfsState} (granted : GrantsNext answer state.calls (2 * count)) :
    (lookupFrom answer memory disk path (count + 1) state place.1 place.2).2 = .found last.2 := by
  induction count generalizing place state with
  | zero =>
      cases along
      rw [lookupFrom, if_pos ended]
  | succ count ih =>
      obtain ⟨next, step, later⟩ := Option.bind_eq_some_iff.mp along
      obtain ⟨more, i, length, search, stop⟩ := nextNode_eq_some step
      obtain ⟨named, listed, granted⟩ := (grantsNext_succ_iff _ _).mp granted
      rw [lookupFrom_turn more, length]
      dsimp only
      rw [if_neg named, if_neg listed, search]
      dsimp only
      rw [← stop]
      exact ih later granted

/-- A lookup that ends with an id has gone where the components lead, with a block at each call. -/
theorem nodeAfter_of_lookupFrom {answer : Nat → Nat} {fuel : Nat} {state : RdfsState}
    {start id found : Nat}
    (lookup : (lookupFrom answer memory disk path fuel state start id).2 = .found found) :
    ∃ count stop, nodeAfter memory disk path count (start, id) = some (stop, found) ∧
      path stop = 0 ∧ GrantsNext answer state.calls (2 * count) := by
  induction fuel generalizing state start id with
  | zero => cases lookup
  | succ fuel ih =>
      by_cases more : path start = 0
      · rw [lookupFrom, if_pos more] at lookup
        cases lookup
        exact ⟨0, start, rfl, more, fun call bound => absurd bound (Nat.not_lt_zero call)⟩
      rw [lookupFrom_turn more] at lookup
      cases length : componentLength path start (2 ^ 16) 0 with
      | none =>
          rw [length] at lookup
          cases lookup
      | some i =>
          rw [length] at lookup
          dsimp only at lookup
          by_cases no_name : answer state.calls = 0
          · rw [if_pos no_name] at lookup
            cases lookup
          rw [if_neg no_name] at lookup
          by_cases no_list : answer (state.calls + 1) = 0
          · rw [if_pos no_list] at lookup
            exact absurd lookup (by split_ifs <;> simp)
          rw [if_neg no_list] at lookup
          cases search : (disk.idList memory id).find? (fun other =>
              decide (NameIs memory disk (componentBytes path start i) other)) with
          | none =>
              rw [search] at lookup
              cases lookup
          | some next =>
              rw [search] at lookup
              obtain ⟨count, stop, later, ended, granted⟩ := ih lookup
              refine ⟨count + 1, stop, Option.bind_eq_some_iff.mpr ⟨_, ?_, later⟩, ended,
                (grantsNext_succ_iff _ _).mpr ⟨no_name, no_list, granted⟩⟩
              rw [nextNode, if_neg more, length, Option.bind_some]
              exact Option.map_eq_some_iff.mpr ⟨next, search, rfl⟩

end Nodes

/-! ## Blocks -/

/-- The same blocks are live. -/
def SameBlocks (before after : RdfsState) : Prop :=
  ∀ block, block ∈ after.live ↔ block ∈ before.live

/-- No function that looks a path up leaves a block behind, apart from the list that `rdfs_readdir`
returns. -/
structure NoLeak (answer : Nat → Nat) (fuel : Nat) (memory : Memory) (disk : Rdfs)
    (state : RdfsState) (path : Nat → UInt8) : Prop where
  lookup : SameBlocks state (rdfsFileGetIdFromPath answer fuel memory disk state path).1
  getattr : ∀ st, SameBlocks state (rdfsGetattr answer fuel memory disk state path st).1
  openFile : ∀ flags, SameBlocks state (rdfsOpenFile answer fuel memory disk state path flags).1
  listed : (rdfsReaddir answer fuel memory disk state path).2 ≠ none →
    ∃ block, block ∉ state.live ∧ ∀ other,
      other ∈ (rdfsReaddir answer fuel memory disk state path).1.live ↔
        other = block ∨ other ∈ state.live
  notListed : (rdfsReaddir answer fuel memory disk state path).2 = none →
    SameBlocks state (rdfsReaddir answer fuel memory disk state path).1

section Blocks

variable {memory : Memory} {disk : Rdfs} {path : Nat → UInt8} {answer : Nat → Nat}

/-- A lookup that returns has found every component and freed all its blocks, or has missed one and
holds a block. -/
theorem lookupFrom_live {fuel : Nat} {state : RdfsState} {start id : Nat}
    (returned : (lookupFrom answer memory disk path fuel state start id).2 ≠ .stuck) :
    (LeadsOn memory disk path (start, id) ∧
        (∃ found, (lookupFrom answer memory disk path fuel state start id).2 = .found found) ∧
        (lookupFrom answer memory disk path fuel state start id).1.live = state.live ∧
        state.calls ≤ (lookupFrom answer memory disk path fuel state start id).1.calls) ∨
      (¬ LeadsOn memory disk path (start, id) ∧
        (lookupFrom answer memory disk path fuel state start id).2 = .missing ∧
        ∃ call, state.calls ≤ call ∧ answer call ≠ 0 ∧
          answer call ∈ (lookupFrom answer memory disk path fuel state start id).1.live) := by
  induction fuel generalizing state start id with
  | zero => exact absurd rfl returned
  | succ fuel ih =>
      by_cases ended : path start = 0
      · rw [lookupFrom, if_pos ended]
        exact Or.inl ⟨leadsOn_end ended, ⟨id, rfl⟩, rfl, le_refl _⟩
      rw [lookupFrom_turn ended] at returned ⊢
      rw [leadsOn_iff ended, nextNode, if_neg ended]
      dsimp only
      cases length : componentLength path start (2 ^ 16) 0 with
      | none =>
          rw [length] at returned
          exact absurd rfl returned
      | some i =>
          rw [length] at returned
          dsimp only [Option.bind_some] at returned ⊢
          by_cases no_name : answer state.calls = 0
          · rw [if_pos no_name] at returned
            exact absurd rfl returned
          rw [if_neg no_name] at returned ⊢
          by_cases no_list : answer (state.calls + 1) = 0
          · rw [if_pos no_list] at returned ⊢
            by_cases empty : disk.idList memory id = []
            · rw [empty]
              refine Or.inr ⟨?_, rfl, state.calls, le_refl _, no_name, List.mem_cons_self⟩
              rintro ⟨next, named, _⟩
              cases named
            · rw [if_neg empty] at returned
              exact absurd rfl returned
          rw [if_neg no_list] at returned ⊢
          cases search : (disk.idList memory id).find? (fun other =>
              decide (NameIs memory disk (componentBytes path start i) other)) with
          | none =>
              refine Or.inr ⟨?_, rfl, state.calls + 1, Nat.le_succ _, no_list, List.mem_cons_self⟩
              rintro ⟨next, named, _⟩
              cases named
          | some other =>
              rw [search] at returned
              have onward : ∀ P : Nat × Nat → Prop, (∃ next, (some other).map (fun next =>
                  (if path (start + i) = slash then start + (i + 1) else start + i, next)) =
                    some next ∧ P next) ↔
                  P (if path (start + i) = slash then start + (i + 1) else start + i, other) :=
                fun P => by simp
              rw [onward]
              rcases ih returned with
                ⟨leads, found, live, calls⟩ | ⟨strays, missing, call, later, held⟩
              · exact Or.inl ⟨leads, found, live, le_trans (Nat.le_add_right _ 2) calls⟩
              · exact Or.inr ⟨strays, missing, call, le_trans (Nat.le_add_right _ 2) later, held⟩

theorem resolves_of_found {fuel : Nat} {state : RdfsState} {id : Nat}
    (found : (rdfsFileGetIdFromPath answer fuel memory disk state path).2 = .found id) :
    Resolves memory disk path := by
  rcases lookupFrom_live (by rw [← rdfsFileGetIdFromPath, found]; exact Lookup.noConfusion) with
    ⟨leads, -⟩ | ⟨-, missing, -⟩
  · exact leads
  · rw [← rdfsFileGetIdFromPath, found] at missing
    cases missing

/-- For a path that is found, `rdfs_readdir` holds the list that it returns and nothing else. -/
theorem rdfsReaddir_live {fuel : Nat} {state : RdfsState} {id : Nat}
    (found : (rdfsFileGetIdFromPath answer fuel memory disk state path).2 = .found id) :
    ((rdfsReaddir answer fuel memory disk state path).2 = none ∧
        (rdfsReaddir answer fuel memory disk state path).1.live =
          (rdfsFileGetIdFromPath answer fuel memory disk state path).1.live) ∨
      ((rdfsReaddir answer fuel memory disk state path).2 ≠ none ∧
        answer (rdfsFileGetIdFromPath answer fuel memory disk state path).1.calls ≠ 0 ∧
        (rdfsReaddir answer fuel memory disk state path).1.live =
          answer (rdfsFileGetIdFromPath answer fuel memory disk state path).1.calls ::
            (rdfsFileGetIdFromPath answer fuel memory disk state path).1.live) := by
  rw [rdfsReaddir, ← Prod.eta (rdfsFileGetIdFromPath ..), found]
  generalize (rdfsFileGetIdFromPath answer fuel memory disk state path).1 = reached
  dsimp only
  by_cases directory : rdfsIdIsDir memory disk id = true
  · rw [if_pos directory, rdfsGetFileListFromDirId]
    simp only [RdfsState.kmalloc, RdfsState.use]
    by_cases refused : answer reached.calls = 0
    · by_cases empty : disk.idList memory id = []
      · simp [refused, empty]
      · simp [refused, empty]
    · simp [refused]
  · rw [if_neg directory]
    exact Or.inl ⟨rfl, rfl⟩

/-- Looking a path up leaves no block behind exactly when the path resolves.  `fresh` says that
`kmalloc` does not return a block that is live before the call. -/
theorem noLeak_iff (fuel : Nat) (state : RdfsState)
    (fresh : ∀ call, state.calls ≤ call → answer call ≠ 0 → answer call ∉ state.live)
    (returned : (rdfsFileGetIdFromPath answer fuel memory disk state path).2 ≠ .stuck) :
    NoLeak answer fuel memory disk state path ↔ Resolves memory disk path := by
  have outcome := lookupFrom_live returned
  rw [← rdfsFileGetIdFromPath, ← Resolves] at outcome
  constructor
  · intro noLeak
    by_contra strays
    rcases outcome with ⟨leads, _⟩ | ⟨_, _, call, later, granted, held⟩
    · exact strays leads
    · exact fresh call later granted ((noLeak.lookup _).mp held)
  · intro leads
    rcases outcome with ⟨_, ⟨found, lookup⟩, live, calls⟩ | ⟨strays, _⟩
    · have same : SameBlocks state (rdfsFileGetIdFromPath answer fuel memory disk state path).1 :=
        fun block => by rw [live]
      have list := rdfsReaddir_live lookup
      rw [live] at list
      refine ⟨same, fun st => ?_, fun flags => ?_, fun listed => ?_, fun failed => ?_⟩
      · rw [rdfsGetattr, ← Prod.eta (rdfsFileGetIdFromPath ..), lookup]
        exact same
      · rw [rdfsOpenFile, ← Prod.eta (rdfsFileGetIdFromPath ..), lookup]
        exact same
      · rcases list with ⟨failed, _⟩ | ⟨_, granted, held⟩
        · exact absurd failed listed
        · refine ⟨_, fresh _ calls granted, fun other => ?_⟩
          rw [held, List.mem_cons]
      · rcases list with ⟨_, held⟩ | ⟨listed, _⟩
        · exact fun block => by rw [held]
        · exact absurd failed listed
    · exact absurd leads strays

end Blocks

/-- The lookup of the file `/a`, while another block is live. -/
theorem noLeak_iff_file :
    NoLeak (fun call => call + 8) 2
        (placeImage (fun _ => 0) sampleStart (genRamDisk (oneFileTree [1]).root))
        (mountedDisk sampleStart (oneFileTree [1]).root) ⟨0, [7], []⟩ (pathBytes [nameA]) ∧
      Resolves (placeImage (fun _ => 0) sampleStart (genRamDisk (oneFileTree [1]).root))
        (mountedDisk sampleStart (oneFileTree [1]).root) (pathBytes [nameA]) := by
  have node : (oneFileTree [1]).At [nameA] 1 (.file [1]) :=
    Or.inr (.entry (.file nameA [1] .nil 1))
  have found := (rdfsFileGetIdFromPath_eq _ _ (fun call => Nat.succ_ne_zero (call + 7))
    (isPath_pathBytes [nameA]) (show 1 < 2 by decide) ⟨0, [7], []⟩).1.trans
      (node.resolve_eq (oneFileTree_mounted (fun _ => 0) (by decide)) (oneFileTree_namesFit [1]))
  have resolves := resolves_of_found found
  refine ⟨(noLeak_iff 2 ⟨0, [7], []⟩ (fun call _ _ live => ?_) ?_).mpr resolves, resolves⟩
  · rw [List.mem_singleton] at live
    omega
  · rw [found]
    exact Lookup.noConfusion

/-- The lookup of `/a` in an empty image keeps a block for ever. -/
theorem missing_path_leaks :
    Mounted (placeImage (fun _ => 0) sampleStart (genRamDisk .nil)) (mountedDisk sampleStart .nil)
        .nil ∧
      (rdfsFileGetIdFromPath (fun call => call + 1) 2
        (placeImage (fun _ => 0) sampleStart (genRamDisk .nil)) (mountedDisk sampleStart .nil)
        ⟨0, [], []⟩ (pathBytes [nameA])).2 = .missing ∧
      ¬ NoLeak (fun call => call + 1) 2 (placeImage (fun _ => 0) sampleStart (genRamDisk .nil))
        (mountedDisk sampleStart .nil) ⟨0, [], []⟩ (pathBytes [nameA]) := by
  have mounted := emptyTree_mounted
  have list : (mountedDisk sampleStart .nil).idList
      (placeImage (fun _ => 0) sampleStart (genRamDisk .nil)) 0 = [] :=
    @DirTree.At.idList_eq ⟨.nil, trivial⟩ [] 0 _ _ mounted trivial .nil (Or.inl ⟨rfl, rfl, rfl⟩)
  have missing := (rdfsFileGetIdFromPath_eq (placeImage (fun _ => 0) sampleStart (genRamDisk .nil))
    (mountedDisk sampleStart .nil) (fun call => Nat.succ_ne_zero call) (isPath_pathBytes [nameA])
    (show 1 < 2 by decide) ⟨0, [], []⟩).1
  rw [resolve, if_neg (by decide), list] at missing
  refine ⟨mounted, missing, fun noLeak => ?_⟩
  have returned : (rdfsFileGetIdFromPath (fun call => call + 1) 2
      (placeImage (fun _ => 0) sampleStart (genRamDisk .nil)) (mountedDisk sampleStart .nil)
      ⟨0, [], []⟩ (pathBytes [nameA])).2 ≠ .stuck := by
    rw [missing]
    exact Lookup.noConfusion
  rcases lookupFrom_live returned with ⟨_, ⟨found, same⟩, _⟩ | ⟨_, _, call, _, _, held⟩
  · rw [← rdfsFileGetIdFromPath, missing] at same
    cases same
  · have kept := noLeak.lookup (call + 1)
    rw [rdfsFileGetIdFromPath] at kept
    exact List.not_mem_nil (kept.mp held)

end PellOs
