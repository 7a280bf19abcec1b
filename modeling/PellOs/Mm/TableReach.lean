import PellOs.Mm.Translation

/-!
# The tables a walk can pass

The hardware starts at a root table and follows every descriptor of type table.  A walk depends on
the tables it can reach and on nothing else, and the tables reached from the page directory of a
task are the tables of that task.
-/

namespace PellOs

/-- The tables that can be reached from a root, with the level of their descriptors. -/
inductive TableAt (memory : Memory) (root : Nat) : Nat → Nat → Prop
  | root : TableAt memory root 3 root
  | next {level table index : Nat} (reached : TableAt memory root (level + 1) table)
      (bound : index < ptrsPerTable) (present : descriptor memory table index % 4 = 3) :
      TableAt memory root level (outputAddress (descriptor memory table index) pageShift)

/-- A walk depends only on the tables that can be reached. -/
theorem walkTables_congr {memory after : Memory} {root : Nat}
    (same : ∀ {level table index}, TableAt memory root level table → index < ptrsPerTable →
      descriptor after table index = descriptor memory table index)
    (virtAdr : Nat) {level table : Nat} (reached : TableAt memory root level table) :
    walkTables after virtAdr level table = walkTables memory virtAdr level table := by
  induction level generalizing table with
  | zero =>
      unfold walkTables
      dsimp only
      rw [same reached (tableIndex_lt _ _)]
  | succ level ih =>
      have bound := tableIndex_lt virtAdr (pageShift + 9 * (level + 1))
      unfold walkTables
      dsimp only
      rw [same reached bound]
      split_ifs with present
      · exact ih (.next reached bound present)
      · rfl
      · rfl
      · rfl

theorem walkTables_directory {memory : Memory} {root virtAdr : Nat}
    (fault : descriptor memory root (tableIndex virtAdr (pageShift + 9 * 3)) % 4 ≠ 3) :
    walkTables memory virtAdr 3 root = none := by
  unfold walkTables
  dsimp only
  rw [if_neg fault, if_neg]
  rintro ⟨_, below⟩
  exact absurd below (by decide)

/-- Translation of an address by the tables for its half: the kernel half through `ttbr1_el1`, the
user half through the page directory of a task.  A task without a page directory has no
translations. -/
def translateFor (memory : Memory) (task ttbr1 virtAdr : Nat) : Option Nat :=
  if virtualAddressStart ≤ virtAdr then walkTables memory virtAdr 3 ttbr1
  else if Task.pagedirectory.get memory task = 0 then none
  else translate memory (Task.pagedirectory.get memory task) virtAdr

theorem translateFor_kernel {virtAdr : Nat} (kernel : virtualAddressStart ≤ virtAdr)
    (memory : Memory) (task ttbr1 : Nat) :
    translateFor memory task ttbr1 virtAdr = walkTables memory virtAdr 3 ttbr1 := if_pos kernel

theorem user_lt_kernel {virtAdr : Nat} (user : virtAdr < 2 ^ 48) :
    ¬virtualAddressStart ≤ virtAdr := by
  simp only [virtualAddressStart]
  omega

theorem translateFor_between {virtAdr : Nat} (above : 2 ^ 48 ≤ virtAdr)
    (below : virtAdr < virtualAddressStart) (memory : Memory) (task ttbr1 : Nat) :
    translateFor memory task ttbr1 virtAdr = none := by
  rw [translateFor, if_neg (Nat.not_le.mpr below), translate, if_neg (Nat.not_lt.mpr above),
    ite_self]

namespace PageRoles

variable {image : Image} {mm : Mm} {tasks : Nat → Nat} {count : Nat}
  {owner : Nat → Option PageRole} {pid : Nat}

theorem translateFor_user (roles : PageRoles image mm tasks count owner) (known : pid < count)
    {virtAdr : Nat} (user : virtAdr < 2 ^ 48) (ttbr1 : Nat) :
    translateFor mm.memory (tasks pid) ttbr1 virtAdr =
      (walk mm.memory (tasks pid) (vaPath virtAdr)).map fun page => page + virtAdr % pageSize := by
  rw [translateFor, if_neg (user_lt_kernel user)]
  split_ifs with absent
  · rw [walk, if_pos absent, Option.map_none]
  · exact roles.translate_directory known user absent

/-- From the page directory of a task only tables of the task are reached. -/
theorem tableAt (roles : PageRoles image mm tasks count owner) (known : pid < count)
    (present : Task.pagedirectory.get mm.memory (tasks pid) ≠ 0) {level table : Nat}
    (reached : TableAt mm.memory (Task.pagedirectory.get mm.memory (tasks pid)) level table) :
    ∃ index path, table = pageAt index ∧ owner index = some (.table pid path) ∧
      path.length + level = 3 := by
  induction reached with
  | root =>
      rcases roles.directory known with zero | ⟨root, points, owned⟩
      · exact absurd zero present
      · exact ⟨root, [], points, owned, rfl⟩
  | @next level table slot reached bound table_type ih =>
      obtain ⟨index, path, rfl, owned, depth⟩ := ih
      rcases roles.entry owned bound with zero | ⟨next, next_owned, points⟩
      · rw [zero] at table_type
        exact absurd table_type (by decide)
      · have short : (path ++ [slot]).length ≤ 3 := by
          rw [List.length_append, List.length_singleton]
          omega
        rw [treeRole_table short] at next_owned
        rw [points, outputAddress_pageAt (roles.inside next_owned) (descriptorFlags_lt _)]
        refine ⟨next, path ++ [slot], rfl, next_owned, ?_⟩
        rw [List.length_append, List.length_singleton]
        omega

end PageRoles

end PellOs
