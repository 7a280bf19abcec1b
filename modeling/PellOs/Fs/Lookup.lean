import PellOs.Fs.Image

/-!
# Path lookup

The nodes of a tree are reached by their names.  On a mounted image a lookup steps from a directory
to its first entry of the next name.
-/

namespace PellOs

/-! ## Strings -/

theorem strcmp_eq_zero_iff {left : Nat → UInt8} {name right : List UInt8} {index : Nat}
    (stored : Memory.Stored left index (name ++ [0])) (name_no_nul : 0 ∉ name)
    (right_no_nul : 0 ∉ right) : strcmp left right index = 0 ↔ name = right := by
  induction right generalizing name index with
  | nil =>
      cases name with
      | nil =>
          have last : left index = 0 := stored.1
          simp [strcmp, last]
      | cons byte name =>
          have first : left index = byte := stored.1
          have nonzero : byte ≠ 0 := fun zero => name_no_nul (by simp [zero])
          have positive : byte.toNat ≠ 0 := fun zero => nonzero (UInt8.toNat.inj zero)
          simp [strcmp, first, positive]
  | cons target right ih =>
      have target_ne : target ≠ 0 := fun zero => right_no_nul (by simp [zero])
      have target_pos : target.toNat ≠ 0 := fun zero => target_ne (UInt8.toNat.inj zero)
      cases name with
      | nil =>
          have last : left index = 0 := stored.1
          simp [strcmp, last, target_pos]
      | cons byte name =>
          have first : left index = byte := stored.1
          have nonzero : byte ≠ 0 := fun zero => name_no_nul (by simp [zero])
          rw [strcmp, first, if_neg (by simp [nonzero, target_ne])]
          by_cases same : byte = target
          · rw [if_pos same, ih stored.2 (fun member => name_no_nul (List.mem_cons_of_mem _ member))
              (fun member => right_no_nul (List.mem_cons_of_mem _ member)), same]
            simp
          · have differ : byte.toNat ≠ target.toNat := fun equal => same (UInt8.toNat.inj equal)
            rw [if_neg same]
            simp only [List.cons.injEq, same, false_and, iff_false]
            omega

/-- Components joined by separators, as they follow the leading one. -/
def joinNames : List Name → List UInt8
  | [] => []
  | name :: rest => name.bytes ++ rest.flatMap fun other => slash :: other.bytes

/-- `path` is the string of an absolute path with the given components. -/
def IsPath (path : Nat → UInt8) (names : List Name) : Prop :=
  path 0 = slash ∧ Memory.Stored path 1 (joinNames names ++ [0])

/-- The absolute path with the given components. -/
def pathString (names : List Name) : List UInt8 := slash :: joinNames names

theorem zero_not_mem_pathString (names : List Name) : 0 ∉ pathString names := by
  have later : ∀ rest : List Name, 0 ∉ rest.flatMap fun other => slash :: other.bytes := by
    intro rest member
    obtain ⟨other, _, inside⟩ := List.mem_flatMap.mp member
    rcases List.mem_cons.mp inside with same | inside
    · exact absurd same (by decide)
    · exact other.no_nul inside
  intro member
  rcases List.mem_cons.mp member with same | inside
  · exact absurd same (by decide)
  · cases names with
    | nil => cases inside
    | cons name rest =>
        rcases List.mem_append.mp inside with here | there
        · exact name.no_nul here
        · exact later rest there

/-- `path` is a string with the given bytes and a NUL behind them. -/
structure IsString (path : Nat → UInt8) (string : List UInt8) : Prop where
  no_nul : 0 ∉ string
  stored : Memory.Stored path 0 (string ++ [0])

namespace IsString

variable {path : Nat → UInt8} {string other : List UInt8}

theorem strcmp_iff (is_string : IsString path string) (other_no_nul : 0 ∉ other) :
    strcmp path other 0 = 0 ↔ string = other :=
  strcmp_eq_zero_iff is_string.stored is_string.no_nul other_no_nul

theorem at_length (is_string : IsString path string) : path string.length = 0 := by
  have last := ((Memory.stored_append _ _ _ _).mp is_string.stored).2.1
  rwa [Nat.zero_add] at last

theorem get_ne_zero (is_string : IsString path string) {index : Nat}
    (inside : index < string.length) : path index ≠ 0 := by
  have front := ((Memory.stored_append _ _ _ _).mp is_string.stored).1
  rw [← Nat.zero_add index, front.get (List.getElem?_eq_getElem inside)]
  exact fun zero => is_string.no_nul (zero ▸ List.getElem_mem inside)

theorem eq_of_isString (is_string : IsString path string) (also : IsString path other) :
    string = other :=
  (is_string.strcmp_iff also.no_nul).mp ((also.strcmp_iff also.no_nul).mpr rfl)

theorem isPath_iff (is_string : IsString path string) {names : List Name} :
    IsPath path names ↔ string = pathString names := by
  constructor
  · exact fun is_path => is_string.eq_of_isString ⟨zero_not_mem_pathString names, is_path⟩
  · rintro rfl
    exact is_string.stored

end IsString

/-- A component that `componentLength` measures ends at a separator or at the NUL. -/
theorem componentLength_some {path : Nat → UInt8} {start remaining i count : Nat}
    (length : componentLength path start remaining i = some count) :
    i ≤ count ∧ count < i + remaining ∧
      (∀ index, i ≤ index → index < count → path (start + index) ≠ slash ∧
        path (start + index) ≠ 0) ∧
      (path (start + count) = slash ∨ path (start + count) = 0) := by
  induction remaining generalizing i with
  | zero => cases length
  | succ remaining ih =>
      rw [componentLength] at length
      split_ifs at length with plain
      · obtain ⟨le, lt, inner, ended⟩ := ih length
        refine ⟨Nat.le_of_succ_le le, by omega, fun index lower upper => ?_, ended⟩
        rcases Nat.eq_or_lt_of_le lower with rfl | above
        · exact plain
        · exact inner index above upper
      · cases length
        exact ⟨le_refl _, by omega, fun index lower upper => absurd lower (not_le.mpr upper),
          by tauto⟩

/-- A component that `componentLength` does not measure fills the counter. -/
theorem componentLength_none {path : Nat → UInt8} {start remaining i : Nat}
    (length : componentLength path start remaining i = none) :
    ∀ index, i ≤ index → index < i + remaining →
      path (start + index) ≠ slash ∧ path (start + index) ≠ 0 := by
  induction remaining generalizing i with
  | zero => exact fun index lower upper => absurd lower (not_le.mpr upper)
  | succ remaining ih =>
      rw [componentLength] at length
      split_ifs at length with plain
      intro index lower upper
      rcases Nat.eq_or_lt_of_le lower with rfl | above
      · exact plain
      · exact ih length index above (by omega)

theorem componentLength_eq_some_iff {path : Nat → UInt8} {start i : Nat} :
    componentLength path start (2 ^ 16) 0 = some i ↔
      i < 2 ^ 16 ∧ (∀ k < i, path (start + k) ≠ slash ∧ path (start + k) ≠ 0) ∧
        (path (start + i) = slash ∨ path (start + i) = 0) := by
  constructor
  · intro length
    obtain ⟨-, short, plain, ended⟩ := componentLength_some length
    exact ⟨by omega, fun k before => plain k (Nat.zero_le _) before, ended⟩
  · rintro ⟨short, plain, ended⟩
    cases length : componentLength path start (2 ^ 16) 0 with
    | none =>
        have inner := componentLength_none length i (Nat.zero_le _) (by omega)
        exact absurd ended (not_or.mpr inner)
    | some other =>
        obtain ⟨-, -, inner, stop⟩ := componentLength_some length
        rcases Nat.lt_trichotomy other i with before | same | after
        · exact absurd stop (not_or.mpr (plain other before))
        · rw [same]
        · exact absurd ended (not_or.mpr (inner i (Nat.zero_le _) after))

theorem Name.plain (name : Name) : ∀ byte ∈ name.bytes, byte ≠ slash ∧ byte ≠ 0 := by
  intro byte member
  exact ⟨fun equal => name.no_slash (equal ▸ member), fun equal => name.no_nul (equal ▸ member)⟩

private theorem map_range_stored {path : Nat → UInt8} {start : Nat} {bytes : List UInt8}
    (stored : Memory.Stored path start bytes) :
    ((List.range bytes.length).map fun k => path (start + k)) = bytes := by
  apply List.ext_getElem?
  intro index
  rw [List.getElem?_map]
  by_cases bound : index < bytes.length
  · rw [List.getElem?_range bound, List.getElem?_eq_getElem bound, Option.map_some,
      stored.get (List.getElem?_eq_getElem bound)]
  · rw [List.getElem?_eq_none (by simpa using bound), List.getElem?_eq_none (by simpa using bound)]
    rfl

/-! ## The loop over the components -/

section Resolve

variable (memory : Memory) (disk : Rdfs)

/-- The node has the given name. -/
def NameIs (name : List UInt8) (id : Nat) : Prop :=
  strcmp (disk.filenameAt memory id) name 0 = 0

instance (name : List UInt8) : DecidablePred (NameIs memory disk name) :=
  fun _ => inferInstanceAs (Decidable (_ = _))

/-- The ids of a list up to the first that is hit. -/
def scanned (hit : Nat → Prop) [DecidablePred hit] : List Nat → List Nat
  | [] => []
  | id :: rest => if hit id then [id] else id :: scanned hit rest

/-- Where the components lead from a node. -/
def resolve : Nat → List Name → Lookup
  | id, [] => .found id
  | id, name :: rest =>
      if 2 ^ 16 ≤ name.bytes.length then .stuck
      else
        match (disk.idList memory id).find? fun other => NameIs memory disk name.bytes other with
        | none => .missing
        | some next => resolve next rest

/-- The ids that a lookup uses on the way. -/
def visited : Nat → List Name → List Nat
  | _, [] => []
  | id, name :: rest =>
      if 2 ^ 16 ≤ name.bytes.length then []
      else
        id :: (scanned (NameIs memory disk name.bytes) (disk.idList memory id) ++
          match (disk.idList memory id).find? fun other => NameIs memory disk name.bytes other with
          | none => []
          | some next => visited next rest)

theorem rdfsGetFileIdFromListAndName_eq (name : List UInt8) (state : RdfsState)
    (ids : List Nat) :
    rdfsGetFileIdFromListAndName memory disk name state ids =
      ({ state with
          indices := (scanned (NameIs memory disk name) ids).reverse ++ state.indices },
        ids.find? fun other => NameIs memory disk name other) := by
  induction ids generalizing state with
  | nil => rfl
  | cons id ids ih =>
      rw [rdfsGetFileIdFromListAndName, scanned]
      by_cases hit : NameIs memory disk name id
      · have same := hit
        rw [NameIs] at same
        rw [List.find?_cons_of_pos (by simpa using hit), if_pos hit, if_pos same]
        rfl
      · have differ := hit
        rw [NameIs] at differ
        rw [List.find?_cons_of_neg (by simpa using hit), if_neg hit, if_neg differ, ih]
        simp [RdfsState.use]

variable {memory disk} {answer : Nat → Nat} {path : Nat → UInt8}

/-- A component at a position of a path, and the position behind it. -/
structure ComponentAt (path : Nat → UInt8) (start : Nat) (name : Name) (next : Nat) : Prop where
  bytes : ((List.range name.bytes.length).map fun k => path (start + k)) = name.bytes
  ended : path (start + name.bytes.length) = slash ∨ path (start + name.bytes.length) = 0
  next_eq : next = if path (start + name.bytes.length) = slash then start + (name.bytes.length + 1)
    else start + name.bytes.length

namespace ComponentAt

variable {start next : Nat} {name : Name}

theorem plain (component : ComponentAt path start name next) :
    ∀ k < name.bytes.length, path (start + k) ≠ slash ∧ path (start + k) ≠ 0 := by
  intro k bound
  refine name.plain _ ?_
  rw [← component.bytes]
  exact List.mem_map.mpr ⟨k, List.mem_range.mpr bound, rfl⟩

theorem nonzero (component : ComponentAt path start name next) : path start ≠ 0 :=
  (component.plain 0 (List.length_pos_iff.mpr name.nonempty)).2

theorem length_eq (component : ComponentAt path start name next) :
    componentLength path start (2 ^ 16) 0 =
      if 2 ^ 16 ≤ name.bytes.length then none else some name.bytes.length := by
  split_ifs with long
  · rw [Option.eq_none_iff_forall_ne_some]
    intro i length
    obtain ⟨short, -, ended⟩ := componentLength_eq_some_iff.mp length
    exact absurd ended (not_or.mpr (component.plain i (by omega)))
  · exact componentLength_eq_some_iff.mpr ⟨by omega, component.plain, component.ended⟩

end ComponentAt

theorem component {name : Name} {rest : List Name} {start : Nat}
    (stored : Memory.Stored path start (joinNames (name :: rest) ++ [0])) :
    ∃ next, ComponentAt path start name next ∧
      Memory.Stored path next (joinNames rest ++ [0]) := by
  cases rest with
  | nil =>
      rw [joinNames, List.flatMap_nil, List.append_nil, Memory.stored_append] at stored
      have last : path (start + name.bytes.length) = 0 := stored.2.1
      exact ⟨_, ⟨map_range_stored stored.1, Or.inr last, rfl⟩, by
        rw [if_neg (by rw [last]; decide)]
        exact stored.2⟩
  | cons other rest =>
      rw [joinNames, List.flatMap_cons, List.cons_append, List.append_assoc, List.cons_append,
        List.append_cons, Memory.stored_append, List.length_append, List.length_singleton,
        Memory.stored_append] at stored
      have last : path (start + name.bytes.length) = slash := stored.1.2.1
      exact ⟨_, ⟨map_range_stored stored.1.1, Or.inl last, rfl⟩, by
        rw [if_pos last, joinNames]
        exact stored.2⟩

theorem ComponentAt.length_joinNames {name : Name} {rest : List Name} {start next : Nat}
    (component : ComponentAt path start name next)
    (stored : Memory.Stored path start (joinNames (name :: rest) ++ [0])) :
    next + (joinNames rest).length = start + (joinNames (name :: rest)).length := by
  rw [component.next_eq]
  cases rest with
  | nil =>
      rw [joinNames, List.flatMap_nil, List.append_nil, Memory.stored_append] at stored
      have last : path (start + name.bytes.length) = 0 := stored.2.1
      rw [if_neg (by rw [last]; decide)]
      simp [joinNames]
  | cons other rest =>
      rw [joinNames, List.flatMap_cons, List.cons_append, List.append_assoc, List.cons_append,
        Memory.stored_append] at stored
      have last : path (start + name.bytes.length) = slash := stored.2.1
      rw [if_pos last]
      simp only [joinNames, List.flatMap_cons, List.length_append, List.length_cons]
      omega

/-- The next calls of `kmalloc` all return a block. -/
def GrantsNext (answer : Nat → Nat) (calls count : Nat) : Prop :=
  ∀ call < count, answer (calls + call) ≠ 0

theorem grantsNext_succ_iff (calls count : Nat) :
    GrantsNext answer calls (2 * (count + 1)) ↔
      answer calls ≠ 0 ∧ answer (calls + 1) ≠ 0 ∧ GrantsNext answer (calls + 2) (2 * count) := by
  constructor
  · intro granted
    refine ⟨granted 0 (by omega), granted 1 (by omega), fun call bound => ?_⟩
    rw [Nat.add_assoc, Nat.add_comm 2]
    exact granted (call + 2) (by omega)
  · rintro ⟨first, second, granted⟩ call bound
    match call with
    | 0 => exact first
    | 1 => exact second
    | call + 2 =>
        have later := granted call (by omega)
        rwa [Nat.add_assoc, Nat.add_comm 2] at later

/-- One component of a lookup.  The two blocks are freed only when the name is found. -/
private theorem lookupFrom_cons {name : Name} {start next : Nat}
    (component : ComponentAt path start name next) (short : ¬ 2 ^ 16 ≤ name.bytes.length)
    (fuel : Nat) {state : RdfsState} (named : answer state.calls ≠ 0)
    (listed : answer (state.calls + 1) ≠ 0) (id : Nat) :
    lookupFrom answer memory disk path (fuel + 1) state start id =
      match (disk.idList memory id).find? fun other => NameIs memory disk name.bytes other with
      | none => (⟨state.calls + 2, answer (state.calls + 1) :: answer state.calls :: state.live,
          (scanned (NameIs memory disk name.bytes) (disk.idList memory id)).reverse ++
            id :: state.indices⟩, .missing)
      | some other => lookupFrom answer memory disk path fuel ⟨state.calls + 2, state.live,
          (scanned (NameIs memory disk name.bytes) (disk.idList memory id)).reverse ++
            id :: state.indices⟩ next other := by
  rw [lookupFrom, if_neg component.nonzero, component.length_eq, if_neg short]
  simp only [RdfsState.kmalloc, named, listed, if_false, rdfsGetFileListFromDirId, RdfsState.use,
    false_and, component.bytes, rdfsGetFileIdFromListAndName_eq, ← component.next_eq]
  cases (disk.idList memory id).find? fun other => NameIs memory disk name.bytes other with
  | none => rfl
  | some other => simp only [RdfsState.kfree, List.erase_cons_head]

private theorem lookupFrom_long {name : Name} {start next : Nat}
    (component : ComponentAt path start name next) (long : 2 ^ 16 ≤ name.bytes.length) (fuel : Nat)
    (state : RdfsState) (id : Nat) :
    lookupFrom answer memory disk path (fuel + 1) state start id = (state, .stuck) := by
  rw [lookupFrom, if_neg component.nonzero, component.length_eq, if_pos long]

/-- With fuel and blocks for every component a lookup follows the names. -/
theorem lookupFrom_eq {names : List Name} {start : Nat}
    (stored : Memory.Stored path start (joinNames names ++ [0])) {fuel : Nat}
    (enough : names.length < fuel) {state : RdfsState}
    (granted : GrantsNext answer state.calls (2 * names.length)) (id : Nat) :
    (lookupFrom answer memory disk path fuel state start id).2 = resolve memory disk id names ∧
      (lookupFrom answer memory disk path fuel state start id).1.indices =
        (visited memory disk id names).reverse ++ state.indices := by
  induction names generalizing start fuel state id with
  | nil =>
      obtain ⟨fuel, rfl⟩ := Nat.exists_eq_succ_of_ne_zero (Nat.ne_of_gt enough)
      have last : path start = 0 := stored.1
      rw [lookupFrom, if_pos last]
      exact ⟨rfl, rfl⟩
  | cons name rest ih =>
      obtain ⟨fuel, rfl⟩ := Nat.exists_eq_succ_of_ne_zero (Nat.ne_of_gt (Nat.zero_lt_of_lt enough))
      obtain ⟨next, component, later⟩ := component stored
      rw [resolve, visited]
      by_cases long : 2 ^ 16 ≤ name.bytes.length
      · rw [lookupFrom_long component long, if_pos long, if_pos long]
        exact ⟨rfl, rfl⟩
      · obtain ⟨named, listed, granted⟩ := (grantsNext_succ_iff _ _).mp granted
        rw [lookupFrom_cons component long fuel named listed id, if_neg long, if_neg long]
        cases (disk.idList memory id).find? fun other => NameIs memory disk name.bytes other with
        | none => exact ⟨rfl, by simp⟩
        | some other =>
            have more := @ih _ later _ (Nat.lt_of_succ_lt_succ enough) ⟨state.calls + 2, state.live,
              (scanned (NameIs memory disk name.bytes) (disk.idList memory id)).reverse ++
                id :: state.indices⟩ granted other
            exact ⟨more.1, by rw [more.2]; simp⟩

/-- A lookup that ends with an id has followed the names and got every block. -/
theorem resolve_of_lookupFrom {names : List Name} {start : Nat}
    (stored : Memory.Stored path start (joinNames names ++ [0])) {fuel : Nat} {state : RdfsState}
    {id found : Nat}
    (lookup : (lookupFrom answer memory disk path fuel state start id).2 = .found found) :
    resolve memory disk id names = .found found ∧
      GrantsNext answer state.calls (2 * names.length) := by
  induction names generalizing start fuel state id with
  | nil =>
      have last : path start = 0 := stored.1
      cases fuel with
      | zero => cases lookup
      | succ fuel =>
          rw [lookupFrom, if_pos last] at lookup
          exact ⟨lookup, fun call bound => absurd bound (Nat.not_lt_zero call)⟩
  | cons name rest ih =>
      cases fuel with
      | zero => cases lookup
      | succ fuel =>
          obtain ⟨next, component, later⟩ := component stored
          by_cases long : 2 ^ 16 ≤ name.bytes.length
          · rw [lookupFrom_long component long] at lookup
            cases lookup
          rw [resolve, if_neg long]
          rw [lookupFrom, if_neg component.nonzero, component.length_eq, if_neg long] at lookup
          simp only [RdfsState.kmalloc, rdfsGetFileListFromDirId, RdfsState.use, component.bytes,
            rdfsGetFileIdFromListAndName_eq, ← component.next_eq] at lookup
          by_cases no_name : answer state.calls = 0
          · simp [no_name] at lookup
          by_cases no_list : answer (state.calls + 1) = 0
          · by_cases empty : disk.idList memory id = []
            · simp [no_name, no_list, empty] at lookup
            · simp [no_name, no_list, empty] at lookup
          simp only [no_name, no_list, if_false, false_and] at lookup
          cases search : (disk.idList memory id).find?
              (fun other => decide (NameIs memory disk name.bytes other)) with
          | none =>
              rw [search] at lookup
              cases lookup
          | some other =>
              rw [search] at lookup
              obtain ⟨reached, granted⟩ := ih later lookup
              exact ⟨reached, (grantsNext_succ_iff _ _).mpr ⟨no_name, no_list, granted⟩⟩

/-- What `rdfs_file_get_id_from_path` returns for a path, and the indices it uses. -/
theorem rdfsFileGetIdFromPath_eq (memory : Memory) (disk : Rdfs)
    (granted : ∀ call, answer call ≠ 0) {names : List Name} (is_path : IsPath path names)
    {fuel : Nat} (enough : names.length < fuel) (state : RdfsState) :
    (rdfsFileGetIdFromPath answer fuel memory disk state path).2 = resolve memory disk 0 names ∧
      (rdfsFileGetIdFromPath answer fuel memory disk state path).1.indices =
        (visited memory disk 0 names).reverse ++ state.indices :=
  lookupFrom_eq is_path.2 enough (fun _ _ => granted _) 0

end Resolve

/-! ## Nodes by their paths -/

/-- What a node is. -/
inductive Entry
  | file (contents : List UInt8)
  | directory (children : Listing)

/-- The data written for a node with the given id. -/
def Entry.data (id : Nat) : Entry → List UInt8
  | .file contents => contents
  | .directory children => idBytes (children.childIds (id + 1))

/-- The node is a directory. -/
def Entry.isDir : Entry → Bool
  | .file _ => false
  | .directory _ => true

/-- A listing numbered from an id has an entry of some name, id and kind. -/
inductive HasEntry : Listing → Nat → List UInt8 → Nat → Entry → Prop
  | file (name : Name) (contents : List UInt8) (rest : Listing) (id : Nat) :
      HasEntry (.file name contents rest) id name.bytes id (.file contents)
  | directory (name : Name) (children rest : Listing) (id : Nat) :
      HasEntry (.directory name children rest) id name.bytes id (.directory children)
  | afterFile {name : Name} {contents : List UInt8} {rest : Listing} {id found : Nat}
      {target : List UInt8} {entry : Entry} (later : HasEntry rest (id + 1) target found entry) :
      HasEntry (.file name contents rest) id target found entry
  | afterDirectory {name : Name} {children rest : Listing} {id found : Nat} {target : List UInt8}
      {entry : Entry} (later : HasEntry rest (id + 1 + children.count) target found entry) :
      HasEntry (.directory name children rest) id target found entry

/-- A chain of names leads through directories to a node. -/
inductive NodeAt : Listing → Nat → List Name → Nat → Entry → Prop
  | entry {listing : Listing} {id found : Nat} {name : Name} {entry : Entry}
      (here : HasEntry listing id name.bytes found entry) : NodeAt listing id [name] found entry
  | inside {listing children : Listing} {id found last : Nat} {name : Name} {names : List Name}
      {entry : Entry} (here : HasEntry listing id name.bytes found (.directory children))
      (below : NodeAt children (found + 1) names last entry) :
      NodeAt listing id (name :: names) last entry

/-- The flattened nodes of a listing stand in a list of nodes at their ids. -/
def Flattened (nodes : List TreeNode) (listing : Listing) (id : Nat) : Prop :=
  ∀ position node, (flattenDir listing id).1[position]? = some node →
    nodes[id + position]? = some node

theorem flattened_root (root : Listing) : Flattened (treeNodes root) root 1 :=
  fun _ _ entry => treeNodes_flattenDir root entry

namespace Flattened

variable {nodes : List TreeNode} {id : Nat}

theorem rest_of_file {name : Name} {contents : List UInt8} {rest : Listing}
    (flat : Flattened nodes (.file name contents rest) id) : Flattened nodes rest (id + 1) := by
  intro position node entry
  rw [Nat.add_assoc, Nat.add_comm 1]
  exact flat (position + 1) node (by rw [flattenDir_file, List.getElem?_cons_succ, entry])

theorem rest_of_directory {name : Name} {children rest : Listing}
    (flat : Flattened nodes (.directory name children rest) id) :
    Flattened nodes rest (id + 1 + children.count) := by
  intro position node entry
  rw [show id + 1 + children.count + position = id + (children.count + position + 1) by omega]
  refine flat _ node ?_
  rw [flattenDir_directory, List.getElem?_cons_succ, List.getElem?_append_right
    (by rw [length_flattenDir]; omega), length_flattenDir, Nat.add_sub_cancel_left, entry]

theorem children_of_directory {name : Name} {children rest : Listing}
    (flat : Flattened nodes (.directory name children rest) id) :
    Flattened nodes children (id + 1) := by
  intro position node entry
  rw [Nat.add_assoc, Nat.add_comm 1]
  refine flat (position + 1) node ?_
  rw [flattenDir_directory, List.getElem?_cons_succ, List.getElem?_append_left
    (List.getElem?_eq_some_iff.mp entry).1, entry]

theorem entry {listing : Listing} {target : List UInt8} {found : Nat} {entry : Entry}
    (flat : Flattened nodes listing id) (here : HasEntry listing id target found entry) :
    nodes[found]? = some ⟨target, entry.isDir, found, entry.data found⟩ ∧
      ∀ children, entry = .directory children → Flattened nodes children (found + 1) := by
  induction here with
  | file name contents rest id =>
      refine ⟨flat 0 _ rfl, fun children impossible => by cases impossible⟩
  | directory name children rest id =>
      refine ⟨flat 0 _ (by rw [flattenDir_directory]; rfl), fun others same => ?_⟩
      cases same
      exact flat.children_of_directory
  | afterFile later ih => exact ih flat.rest_of_file
  | afterDirectory later ih => exact ih flat.rest_of_directory

theorem count_le {root listing : Listing} (flat : Flattened (treeNodes root) listing id)
    (positive : 0 < id) : listing.count ≤ root.count := by
  by_contra large
  have last : listing.count - 1 < (flattenDir listing id).1.length := by
    rw [length_flattenDir]
    omega
  have inside := (List.getElem?_eq_some_iff.mp (flat _ _ (List.getElem?_eq_getElem last))).1
  rw [length_treeNodes] at inside
  omega

end Flattened

theorem HasEntry.of_mem_childIds {listing : Listing} {id found : Nat}
    (member : found ∈ listing.childIds id) :
    ∃ target entry, HasEntry listing id target found entry := by
  induction listing generalizing id with
  | nil => cases member
  | file name contents rest ih =>
      rcases List.mem_cons.mp member with rfl | later
      · exact ⟨_, _, .file name contents rest _⟩
      · obtain ⟨target, entry, here⟩ := ih later
        exact ⟨target, entry, .afterFile here⟩
  | directory name children rest _ ih =>
      rcases List.mem_cons.mp member with rfl | later
      · exact ⟨_, _, .directory name children rest _⟩
      · obtain ⟨target, entry, here⟩ := ih later
        exact ⟨target, entry, .afterDirectory here⟩

theorem HasEntry.name_eq {listing : Listing} {id found : Nat} {target : List UInt8} {entry : Entry}
    (here : HasEntry listing id target found entry) : ∃ name : Name, name.bytes = target := by
  induction here with
  | file name contents rest id => exact ⟨name, rfl⟩
  | directory name children rest id => exact ⟨name, rfl⟩
  | afterFile later ih => exact ih
  | afterDirectory later ih => exact ih

theorem HasEntry.mem_names {listing : Listing} {id found : Nat} {target : List UInt8}
    {entry : Entry} (here : HasEntry listing id target found entry) : target ∈ listing.names := by
  induction here with
  | file name contents rest id => exact List.mem_cons_self
  | directory name children rest id => exact List.mem_cons_self
  | afterFile later ih => exact List.mem_cons_of_mem _ ih
  | afterDirectory later ih => exact List.mem_cons_of_mem _ ih

theorem Flattened.node {nodes : List TreeNode} {listing : Listing} {id found : Nat}
    {path : List Name} {entry : Entry} (flat : Flattened nodes listing id)
    (node : NodeAt listing id path found entry) :
    ∃ target, nodes[found]? = some ⟨target, entry.isDir, found, entry.data found⟩ := by
  induction node with
  | entry here => exact ⟨_, (flat.entry here).1⟩
  | inside here below ih => exact ih ((flat.entry here).2 _ rfl)

theorem NodeAt.directory_of_append {listing : Listing} {id last : Nat} {path : List Name}
    {name : Name} {entry : Entry} (nonempty : path ≠ [])
    (node : NodeAt listing id (path ++ [name]) last entry) :
    ∃ found children, NodeAt listing id path found (.directory children) := by
  induction path generalizing listing id with
  | nil => exact absurd rfl nonempty
  | cons first rest ih =>
      generalize shape : first :: rest ++ [name] = names at node
      cases node with
      | entry here => simp at shape
      | inside here below =>
          obtain ⟨rfl, rfl⟩ := List.cons.inj shape
          cases rest with
          | nil => exact ⟨_, _, .entry here⟩
          | cons second rest =>
              obtain ⟨found, children, middle⟩ := ih (by simp) below
              exact ⟨found, children, .inside here middle⟩

/-- The bytes of an absolute path. -/
def pathBytes (names : List Name) (index : Nat) : UInt8 :=
  ((slash :: joinNames names) ++ [0]).getD index 0

theorem isPath_pathBytes (names : List Name) : IsPath (pathBytes names) names := by
  have stored : Memory.Stored (pathBytes names) 0 ((slash :: joinNames names) ++ [0]) := by
    apply Memory.stored_of_get
    intro index byte entry
    rw [Nat.zero_add, pathBytes, List.getD_eq_getElem?_getD, entry, Option.getD_some]
  exact stored

/-! ## Searching a directory -/

section Search

variable {hit : Nat → Prop} [DecidablePred hit] {listing : Listing} {id : Nat} {goal : List UInt8}

theorem HasEntry.of_find
    (named : ∀ target found entry, HasEntry listing id target found entry →
      (hit found ↔ target = goal)) {found : Nat}
    (search : (listing.childIds id).find? (fun other => hit other) = some found) :
    ∃ entry, HasEntry listing id goal found entry := by
  obtain ⟨target, entry, here⟩ := HasEntry.of_mem_childIds (List.mem_of_find?_eq_some search)
  have same := (named target found entry here).mp (by simpa using List.find?_some search)
  exact ⟨entry, same ▸ here⟩

/-- Among entries of different names a search finds the one of the name. -/
theorem HasEntry.find_eq {found : Nat} {entry : Entry} (here : HasEntry listing id goal found entry)
    (named : ∀ target found entry, HasEntry listing id target found entry →
      (hit found ↔ target = goal)) (distinct : listing.Distinct) :
    (listing.childIds id).find? (fun other => hit other) = some found := by
  induction here with
  | file name contents rest id =>
      have same := (named _ _ _ (.file name contents rest id)).mpr rfl
      rw [Listing.childIds, List.find?_cons_of_pos (by simpa using same)]
  | directory name children rest id =>
      have same := (named _ _ _ (.directory name children rest id)).mpr rfl
      rw [Listing.childIds, List.find?_cons_of_pos (by simpa using same)]
  | @afterFile name contents rest id _ _ _ later ih =>
      have differ : ¬ hit id := fun same =>
        distinct.1 ((named _ _ _ (.file name contents rest id)).mp same ▸ later.mem_names)
      rw [Listing.childIds, List.find?_cons_of_neg (by simpa using differ)]
      exact ih (fun target found entry here =>
        named target found entry (.afterFile here)) distinct.2
  | @afterDirectory name children rest id _ _ _ later ih =>
      have differ : ¬ hit id := fun same =>
        distinct.1 ((named _ _ _ (.directory name children rest id)).mp same ▸ later.mem_names)
      rw [Listing.childIds, List.find?_cons_of_neg (by simpa using differ)]
      exact ih (fun target found entry here => named target found entry (.afterDirectory here))
        distinct.2.2

theorem HasEntry.distinct {found : Nat} {target : List UInt8} {children : Listing}
    (here : HasEntry listing id target found (.directory children)) (distinct : listing.Distinct) :
    children.Distinct := by
  generalize shape : Entry.directory children = entry at here
  induction here with
  | file name contents rest id => cases shape
  | directory name children rest id =>
      cases shape
      exact distinct.2.1
  | afterFile later ih => exact ih distinct.2 shape
  | afterDirectory later ih => exact ih distinct.2.2 shape

theorem HasEntry.unique {found other : Nat} {target : List UInt8} {entry otherEntry : Entry}
    (here : HasEntry listing id target found entry) (distinct : listing.Distinct)
    (there : HasEntry listing id target other otherEntry) : other = found ∧ otherEntry = entry := by
  induction here with
  | file name contents rest id =>
      cases there with
      | file => exact ⟨rfl, rfl⟩
      | afterFile later => exact absurd later.mem_names distinct.1
  | directory name children rest id =>
      cases there with
      | directory => exact ⟨rfl, rfl⟩
      | afterDirectory later => exact absurd later.mem_names distinct.1
  | afterFile later ih =>
      cases there with
      | file => exact absurd later.mem_names distinct.1
      | afterFile second => exact ih distinct.2 second
  | afterDirectory later ih =>
      cases there with
      | directory => exact absurd later.mem_names distinct.1
      | afterDirectory second => exact ih distinct.2.2 second

end Search

/-! ## Words of data -/

/-- The whole 64-bit words of the data of a node. -/
def dataWords (data : List UInt8) : List Nat :=
  (List.range (data.length / 8)).map fun i => Memory.read (fun k => data.getD k 0) (8 * i) 8

theorem length_idBytes (ids : List Nat) : (idBytes ids).length = 8 * ids.length := by
  induction ids with
  | nil => rfl
  | cons id ids ih =>
      rw [idBytes, List.flatMap_cons, List.length_append, Memory.length_littleEndian,
        List.length_cons, Nat.mul_succ, Nat.add_comm]
      exact congrArg (· + 8) ih

private theorem stored_getD (data : List UInt8) :
    Memory.Stored (fun k => data.getD k 0) 0 data := by
  apply Memory.stored_of_get
  intro index byte entry
  rw [Nat.zero_add, List.getD_eq_getElem?_getD, entry, Option.getD_some]

private theorem stored_idBytes {memory : Memory} {address : Nat} {ids : List Nat}
    (stored : memory.Stored address (idBytes ids)) {index id : Nat}
    (entry : ids[index]? = some id) :
    memory.Stored (address + 8 * index) (Memory.littleEndian 8 id) := by
  induction ids generalizing address index with
  | nil => simp at entry
  | cons first ids ih =>
      rw [idBytes, List.flatMap_cons, Memory.stored_append, Memory.length_littleEndian] at stored
      cases index with
      | zero =>
          rw [List.getElem?_cons_zero, Option.some.injEq] at entry
          rw [← entry]
          exact stored.1
      | succ index =>
          rw [Nat.mul_succ, Nat.add_comm (8 * index), ← Nat.add_assoc]
          exact ih stored.2 (by simpa using entry)

theorem dataWords_idBytes {ids : List Nat} (small : ∀ id ∈ ids, id < wordSize) :
    dataWords (idBytes ids) = ids := by
  apply List.ext_getElem?
  intro index
  rw [dataWords, length_idBytes, Nat.mul_div_cancel_left _ (by decide), List.getElem?_map]
  by_cases bound : index < ids.length
  · have entry := List.getElem?_eq_getElem bound
    have value := (stored_idBytes (stored_getD (idBytes ids)) entry).read_littleEndian
    rw [Nat.zero_add,
      Nat.mod_eq_of_lt ((small _ (List.getElem_mem bound)).trans_eq wordSize_eq_pow)] at value
    rw [List.getElem?_range bound, entry, Option.map_some, value]
  · rw [List.getElem?_eq_none (by simpa using bound), List.getElem?_eq_none (by simpa using bound)]
    rfl

/-! ## Lookup in a mounted image -/

namespace Mounted

variable {memory : Memory} {disk : Rdfs} {root : Listing}

theorem idList_eq (mounted : Mounted memory disk root) (names : root.NamesFit) {id : Nat}
    {node : TreeNode} (entry : (treeNodes root)[id]? = some node) :
    disk.idList memory id = dataWords node.data := by
  obtain ⟨stored, lower, upper⟩ := mounted.stored_node_data names entry
  have fits := mounted.fits
  rw [Rdfs.idList, mounted.entrySize_eq names entry, dataWords]
  apply List.map_congr_left
  intro index member
  rw [List.mem_range] at member
  rw [Nat.mod_eq_of_lt (by omega)]
  apply Memory.read_eq_read
  intro offset bound
  have inside : 8 * index + offset < node.data.length := by omega
  rw [Nat.add_assoc, stored.get (List.getElem?_eq_getElem inside), List.getD_eq_getElem?_getD,
    List.getElem?_eq_getElem inside, Option.getD_some]

variable {listing : Listing} {id found : Nat} {target : List UInt8} {entry : Entry}

theorem idList_directory (mounted : Mounted memory disk root) (names : root.NamesFit)
    {children : Listing} (flat : Flattened (treeNodes root) children (id + 1)) {name : List UInt8}
    (node : (treeNodes root)[id]? = some ⟨name, true, id, idBytes (children.childIds (id + 1))⟩) :
    disk.idList memory id = children.childIds (id + 1) := by
  have fits := mounted.fits
  have long := length_genRamDisk root
  simp only [PartitionHeader.size, FileDirEntry.size] at long
  rw [mounted.idList_eq names node, dataWords_idBytes]
  intro other member
  obtain ⟨target, entry, here⟩ := HasEntry.of_mem_childIds member
  have bound := id_le (flat.entry here).1
  omega

theorem nameIs_iff (mounted : Mounted memory disk root) (names : root.NamesFit)
    (flat : Flattened (treeNodes root) listing id) (here : HasEntry listing id target found entry)
    (goal : Name) : NameIs memory disk goal.bytes found ↔ target = goal.bytes := by
  obtain ⟨name, same⟩ := here.name_eq
  have stored := mounted.stored_name names (flat.entry here).1
  have plain : TreeNode.storedName ⟨target, entry.isDir, found, entry.data found⟩ = target :=
    if_neg (by rw [← same]; exact name.nonempty)
  rw [plain] at stored
  exact strcmp_eq_zero_iff stored (by rw [← same]; exact name.no_nul) goal.no_nul

theorem not_nameIs_root (mounted : Mounted memory disk root) (names : root.NamesFit) (goal : Name) :
    ¬ NameIs memory disk goal.bytes 0 := by
  have stored := mounted.stored_name names (List.getElem?_cons_zero ..)
  rw [TreeNode.storedName, if_pos rfl] at stored
  intro same
  have root_name := (strcmp_eq_zero_iff stored (by decide) goal.no_nul).mp same
  exact goal.no_slash (by rw [← root_name]; decide)

/-- A directory of the image: its list and the nodes below it. -/
structure IsDirectory (memory : Memory) (disk : Rdfs) (root : Listing) (id : Nat)
    (children : Listing) : Prop where
  list : disk.idList memory id = children.childIds (id + 1)
  flat : Flattened (treeNodes root) children (id + 1)
  bound : id ≤ root.count

theorem isDirectory_root (mounted : Mounted memory disk root) (names : root.NamesFit) :
    IsDirectory memory disk root 0 root :=
  ⟨mounted.idList_directory names (flattened_root root) (List.getElem?_cons_zero ..),
    flattened_root root, Nat.zero_le _⟩

theorem IsDirectory.child (mounted : Mounted memory disk root) (names : root.NamesFit)
    {children : Listing} (directory : IsDirectory memory disk root id listing)
    (here : HasEntry listing (id + 1) target found (.directory children)) :
    IsDirectory memory disk root found children := by
  obtain ⟨node, below⟩ := directory.flat.entry here
  exact ⟨mounted.idList_directory names (below children rfl) node, below children rfl, id_le node⟩

theorem IsDirectory.node (mounted : Mounted memory disk root) (names : root.NamesFit)
    {children : Listing} {path : List Name} (directory : IsDirectory memory disk root id listing)
    (node : NodeAt listing (id + 1) path found (.directory children)) :
    IsDirectory memory disk root found children := by
  generalize start : id + 1 = first at node
  generalize kind : Entry.directory children = entry at node
  induction node generalizing id with
  | entry here =>
      subst start kind
      exact directory.child mounted names here
  | inside here below ih =>
      subst start
      exact ih (directory.child mounted names here) rfl kind

theorem find_eq (mounted : Mounted memory disk root) (names : root.NamesFit)
    (directory : IsDirectory memory disk root id listing) (distinct : listing.Distinct)
    {name : Name} (here : HasEntry listing (id + 1) name.bytes found entry) :
    (disk.idList memory id).find? (fun other => NameIs memory disk name.bytes other) =
      some found := by
  rw [directory.list]
  exact here.find_eq (fun target found entry here =>
    mounted.nameIs_iff names directory.flat here name) distinct

theorem name_short (names : root.NamesFit) (flat : Flattened (treeNodes root) listing id)
    {name : Name} (here : HasEntry listing id name.bytes found entry) :
    name.bytes.length < 2 ^ 16 := by
  have fits := storedName_fits names _ (List.mem_of_getElem? (flat.entry here).1)
  rw [TreeNode.storedName, if_neg name.nonempty, rdfsFileNameSize] at fits
  exact lt_trans fits (by decide)

theorem names_short (names : root.NamesFit) {path : List Name}
    (flat : Flattened (treeNodes root) listing id) (node : NodeAt listing id path found entry) :
    ∀ name ∈ path, name.bytes.length < rdfsFileNameSize := by
  have fits : ∀ {listing : Listing} {id found : Nat} {name : Name} {entry : Entry},
      Flattened (treeNodes root) listing id → HasEntry listing id name.bytes found entry →
        name.bytes.length < rdfsFileNameSize := by
    intro listing id found name entry flat here
    have fits := storedName_fits names _ (List.mem_of_getElem? (flat.entry here).1)
    rwa [TreeNode.storedName, if_neg name.nonempty] at fits
  induction node with
  | entry here =>
      intro name member
      obtain rfl := List.mem_singleton.mp member
      exact fits flat here
  | inside here below ih =>
      intro name member
      rcases List.mem_cons.mp member with rfl | later
      · exact fits flat here
      · exact ih ((flat.entry here).2 _ rfl) name later

theorem resolve_append (mounted : Mounted memory disk root) (names : root.NamesFit)
    (directory : IsDirectory memory disk root id listing) (distinct : listing.Distinct)
    {path : List Name} (node : NodeAt listing (id + 1) path found entry) (more : List Name) :
    resolve memory disk id (path ++ more) = resolve memory disk found more ∧
      ∀ index ∈ visited memory disk found more, index ∈ visited memory disk id (path ++ more) := by
  generalize start : id + 1 = first at node
  induction node generalizing id with
  | entry here =>
      subst start
      have short := name_short names directory.flat here
      rw [List.singleton_append, resolve, visited, if_neg (not_le.mpr short),
        if_neg (not_le.mpr short), mounted.find_eq names directory distinct here]
      exact ⟨rfl, fun index member => List.mem_cons_of_mem _ (List.mem_append_right _ member)⟩
  | inside here below ih =>
      subst start
      have short := name_short names directory.flat here
      have later := ih (directory.child mounted names here) (here.distinct distinct) rfl
      rw [List.cons_append, resolve, visited, if_neg (not_le.mpr short),
        if_neg (not_le.mpr short), mounted.find_eq names directory distinct here]
      exact ⟨later.1, fun index member =>
        List.mem_cons_of_mem _ (List.mem_append_right _ (later.2 index member))⟩

end Mounted

end PellOs
