import PellOs.Mm.MapPage

/-!
# Translation by the hardware

The hardware walk reads descriptors with their type bits and flags, `map_page` masks them.  Where
memory agrees with the page roles, both end at the same page: the hardware translates an address
of a task exactly when the walk along its table indices ends at a user page.
-/

namespace PellOs

/-- The level and the descriptor of the page or block at which the hardware walk ends, or a
translation fault. -/
def leafDescriptor (memory : Memory) (virtAdr : Nat) : Nat → Nat → Option (Nat × Nat)
  | level, table =>
      let entry := descriptor memory table (tableIndex virtAdr (pageShift + 9 * level))
      match level with
      | 0 => if entry % 4 = 3 then some (0, entry) else none
      | level + 1 =>
          if entry % 4 = 3 then leafDescriptor memory virtAdr level (outputAddress entry pageShift)
          else if entry % 4 = 1 ∧ level + 1 < 3 then some (level + 1, entry)
          else none

/-- Bit 10 of a page or block descriptor, without which an access faults. -/
def Accessed (entry : Nat) : Prop := entry / 2 ^ 10 % 2 = 1

instance (entry : Nat) : Decidable (Accessed entry) := inferInstanceAs (Decidable (_ = _))

/-- The translated address is the output address of the last descriptor and the offset. -/
theorem walkTables_eq (memory : Memory) (virtAdr level table : Nat) :
    walkTables memory virtAdr level table =
      (leafDescriptor memory virtAdr level table).bind fun leaf =>
        if Accessed leaf.2 then
          some (outputAddress leaf.2 (pageShift + 9 * leaf.1) +
            virtAdr % 2 ^ (pageShift + 9 * leaf.1))
        else none := by
  induction level generalizing table with
  | zero =>
      unfold walkTables leafDescriptor
      dsimp only
      split_ifs with page accessed
      · exact (if_pos accessed).symm
      · exact (if_neg accessed).symm
      · rfl
  | succ level ih =>
      unfold walkTables leafDescriptor
      dsimp only
      split_ifs with table block accessed
      · exact ih _
      · exact (if_pos accessed).symm
      · exact (if_neg accessed).symm
      · rfl

/-! ## Table indices -/

/-- The table indices of an address from a level down. -/
def levelIndices (virtAdr : Nat) : Nat → List Nat
  | 0 => [tableIndex virtAdr pageShift]
  | level + 1 => tableIndex virtAdr (pageShift + 9 * (level + 1)) :: levelIndices virtAdr level

theorem vaPath_eq_levelIndices (virtAdr : Nat) : vaPath virtAdr = levelIndices virtAdr 3 := rfl

theorem tableIndex_eq (virtAdr shift : Nat) :
    tableIndex virtAdr shift = virtAdr / 2 ^ shift % 512 := by
  rw [tableIndex, show ptrsPerTable - 1 = 2 ^ 9 - 1 from rfl, Nat.and_two_pow_sub_one_eq_mod,
    Nat.shiftRight_eq_div_pow]

theorem leafDescriptor_congr {memory : Memory} {left right level table : Nat}
    (same : levelIndices left level = levelIndices right level) :
    leafDescriptor memory left level table = leafDescriptor memory right level table := by
  induction level generalizing table with
  | zero =>
      rw [levelIndices, levelIndices] at same
      unfold leafDescriptor
      rw [Nat.mul_zero, Nat.add_zero, (List.cons.inj same).1]
  | succ level ih =>
      rw [levelIndices, levelIndices] at same
      obtain ⟨first, below⟩ := List.cons.inj same
      unfold leafDescriptor
      simp only [first, ih below]

/-- Addresses with the same table indices are translated both or neither. -/
theorem walkTables_eq_none_congr {memory : Memory} {left right table : Nat}
    (same : vaPath left = vaPath right) :
    walkTables memory left 3 table = none ↔ walkTables memory right 3 table = none := by
  rw [vaPath_eq_levelIndices, vaPath_eq_levelIndices] at same
  rw [walkTables_eq, walkTables_eq, leafDescriptor_congr same]
  cases leafDescriptor memory right 3 table with
  | none => exact Iff.rfl
  | some leaf =>
      simp only [Option.bind_some]
      split_ifs
      · simp
      · exact Iff.rfl

/-- Two addresses have the same table indices when they agree on bits 47 to 12. -/
theorem vaPath_eq_iff (left right : Nat) :
    vaPath left = vaPath right ↔ left / 2 ^ 12 % 2 ^ 36 = right / 2 ^ 12 % 2 ^ 36 := by
  simp only [vaPath, tableIndex_eq, pgdShift, pudShift, pmdShift, pageShift, List.cons.injEq,
    and_true]
  omega

/-! ## Descriptors of the roles -/

section Leaf

variable {next flags : Nat}

theorem outputAddress_pageAt (inside : next < mmNumOfPages) (small : flags < 2 ^ 12) :
    outputAddress (pageAt next ||| flags) pageShift = pageAt next := by
  have range := pageAt_range inside
  have top : mmAvailablePageMax < 2 ^ 48 := by decide
  rw [pageAt_or next small, outputAddress, pageShift]
  rw [pageAt_eq_mul] at range ⊢
  simp only [pageSize] at range
  omega

theorem descriptor_type (small : flags < 2 ^ 12) (page : flags % 4 = 3) :
    (pageAt next ||| flags) % 4 = 3 := by
  rw [pageAt_or next small, pageAt_eq_mul]
  omega

theorem descriptor_accessed (small : flags < 2 ^ 12) (accessed : Accessed flags) :
    Accessed (pageAt next ||| flags) := by
  rw [Accessed, pageAt_or next small, pageAt_eq_mul]
  rw [Accessed] at accessed
  omega

end Leaf

namespace PageRoles

variable {image : Image} {mm : Mm} {tasks : Nat → Nat} {count : Nat}
  {owner : Nat → Option PageRole}

/-- From a table of the task on, the hardware walk ends where the masked walk does. -/
theorem leafDescriptor_eq (roles : PageRoles image mm tasks count owner) {index pid level : Nat}
    {path : List Nat} (virtAdr : Nat) (owned : owner index = some (.table pid path))
    (depth : path.length + level = 3) :
    leafDescriptor mm.memory virtAdr level (pageAt index) =
      (RadixTree.lookup (tableChild mm.memory) (pageAt index) (levelIndices virtAdr level)).map
        fun page => (0, page ||| mmuPteFlags) := by
  induction level generalizing index path with
  | zero =>
      have bound := tableIndex_lt virtAdr pageShift
      unfold leafDescriptor
      rw [levelIndices, RadixTree.lookup_cons]
      simp only [Nat.mul_zero, Nat.add_zero, RadixTree.lookup_nil]
      rcases roles.entry owned bound with zero | ⟨next, next_owned, points⟩
      · rw [tableChild_zero zero]
        simp [zero]
      · rw [descriptorFlags,
          if_neg (by simp only [List.length_append, List.length_singleton]; omega)]
          at points
        rw [tableChild_of_descriptor bound (roles.inside next_owned) (by decide) points, points,
          if_pos (descriptor_type (by decide) (by decide))]
        rfl
  | succ level ih =>
      have bound := tableIndex_lt virtAdr (pageShift + 9 * (level + 1))
      unfold leafDescriptor
      rw [levelIndices, RadixTree.lookup_cons]
      dsimp only
      rcases roles.entry owned bound with zero | ⟨next, next_owned, points⟩
      · rw [tableChild_zero zero]
        simp [zero]
      · have short : (path ++ [tableIndex virtAdr (pageShift + 9 * (level + 1))]).length ≤ 3 := by
          simp only [List.length_append, List.length_singleton]
          omega
        have next_inside := roles.inside next_owned
        rw [descriptorFlags, if_pos short] at points
        rw [treeRole_table short] at next_owned
        rw [tableChild_of_descriptor bound next_inside (by decide) points, points,
          if_pos (descriptor_type (by decide) (by decide)),
          outputAddress_pageAt next_inside (by decide), Option.bind_some]
        apply ih next_owned
        simp only [List.length_append, List.length_singleton]
        omega

theorem leafDescriptor_directory (roles : PageRoles image mm tasks count owner) {pid : Nat}
    (known : pid < count) (virtAdr : Nat)
    (present : Task.pagedirectory.get mm.memory (tasks pid) ≠ 0) :
    leafDescriptor mm.memory virtAdr 3 (Task.pagedirectory.get mm.memory (tasks pid)) =
      (walk mm.memory (tasks pid) (vaPath virtAdr)).map fun page => (0, page ||| mmuPteFlags) := by
  rcases roles.directory known with zero | ⟨root, points, owned⟩
  · exact absurd zero present
  · rw [walk, if_neg present, points, roles.leafDescriptor_eq virtAdr owned (by simp),
      vaPath_eq_levelIndices]

/-- The hardware walk of the page directory of a task, with the offset in the page. -/
theorem walkTables_directory_eq (roles : PageRoles image mm tasks count owner) {pid : Nat}
    (known : pid < count) (virtAdr : Nat)
    (present : Task.pagedirectory.get mm.memory (tasks pid) ≠ 0) :
    walkTables mm.memory virtAdr 3 (Task.pagedirectory.get mm.memory (tasks pid)) =
      (walk mm.memory (tasks pid) (vaPath virtAdr)).map fun page => page + virtAdr % pageSize := by
  rw [walkTables_eq, roles.leafDescriptor_directory known virtAdr present]
  cases reached : walk mm.memory (tasks pid) (vaPath virtAdr) with
  | none => rfl
  | some page =>
      obtain ⟨index, rfl, owned⟩ := roles.walk_placed known (by simp) reached
      simp only [Option.map_some, Option.bind_some, Nat.mul_zero, Nat.add_zero]
      rw [if_pos (descriptor_accessed (by decide) (by decide)),
        outputAddress_pageAt (roles.inside owned) (by decide), pageShift,
        show pageSize = 2 ^ 12 from rfl]

theorem translate_directory (roles : PageRoles image mm tasks count owner) {pid virtAdr : Nat}
    (known : pid < count) (user : virtAdr < 2 ^ 48)
    (present : Task.pagedirectory.get mm.memory (tasks pid) ≠ 0) :
    translate mm.memory (Task.pagedirectory.get mm.memory (tasks pid)) virtAdr =
      (walk mm.memory (tasks pid) (vaPath virtAdr)).map fun page => page + virtAdr % pageSize := by
  rw [translate, if_pos user, roles.walkTables_directory_eq known virtAdr present]

end PageRoles

end PellOs
