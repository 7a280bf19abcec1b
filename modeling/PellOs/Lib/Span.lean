import Mathlib.Tactic

/-!
# Tilings of an address range

A span is a half-open interval of addresses.  A list of spans tiles a range when the spans lie
inside it, do not overlap and leave no address uncovered.  Cutting a span in two, joining two
neighbours and permuting the list keep a tiling, and the lengths of a tiling add up to the length
of the range.
-/

/-- The addresses from `start` up to `start + length`. -/
structure Span where
  /-- First address. -/
  start : Nat
  /-- Number of addresses. -/
  length : Nat
  deriving DecidableEq, Repr

namespace Span

/-- First address after the span. -/
def stop (span : Span) : Nat := span.start + span.length

@[simp] theorem stop_mk (start length : Nat) : (Span.mk start length).stop = start + length := rfl

/-- No address belongs to both spans. -/
def Disjoint (left right : Span) : Prop :=
  left.stop ≤ right.start ∨ right.stop ≤ left.start

theorem Disjoint.symm {left right : Span} (disjoint : left.Disjoint right) :
    right.Disjoint left :=
  disjoint.elim Or.inr Or.inl

instance : Std.Symm Disjoint := ⟨fun _ _ disjoint => disjoint.symm⟩

/-- The spans partition the addresses from `low` to `high`. -/
structure Tiles (low high : Nat) (spans : List Span) : Prop where
  nonempty : ∀ span ∈ spans, 0 < span.length
  inside : ∀ span ∈ spans, low ≤ span.start ∧ span.stop ≤ high
  disjoint : spans.Pairwise Disjoint
  cover : ∀ address, low ≤ address → address < high →
    ∃ span ∈ spans, span.start ≤ address ∧ address < span.stop

namespace Tiles

variable {low high : Nat}

theorem perm {spans reordered : List Span} (tiles : Tiles low high spans)
    (same : spans.Perm reordered) : Tiles low high reordered where
  nonempty span member := tiles.nonempty span (same.mem_iff.mpr member)
  inside span member := tiles.inside span (same.mem_iff.mpr member)
  disjoint := (same.pairwise_iff Disjoint.symm).mp tiles.disjoint
  cover address lower upper := by
    obtain ⟨span, member, inside⟩ := tiles.cover address lower upper
    exact ⟨span, same.mem_iff.mp member, inside⟩

theorem singleton (lt : low < high) : Tiles low high [⟨low, high - low⟩] where
  nonempty span member := by
    obtain rfl := List.mem_singleton.mp member
    exact Nat.sub_pos_of_lt lt
  inside span member := by
    obtain rfl := List.mem_singleton.mp member
    simp only [stop_mk]
    omega
  disjoint := List.pairwise_singleton _ _
  cover address lower upper :=
    ⟨_, List.mem_singleton.mpr rfl, lower, by simp only [stop_mk]; omega⟩

theorem split {span : Span} {others : List Span} (tiles : Tiles low high (span :: others))
    {front : Nat} (front_pos : 0 < front) (front_lt : front < span.length) :
    Tiles low high
      (⟨span.start, front⟩ :: ⟨span.start + front, span.length - front⟩ :: others) where
  nonempty part member := by
    rcases List.mem_cons.mp member with rfl | member
    · exact front_pos
    rcases List.mem_cons.mp member with rfl | member
    · exact Nat.sub_pos_of_lt front_lt
    · exact tiles.nonempty part (List.mem_cons_of_mem span member)
  inside part member := by
    have whole := tiles.inside span List.mem_cons_self
    rcases List.mem_cons.mp member with rfl | member
    · simp only [stop] at whole ⊢
      omega
    rcases List.mem_cons.mp member with rfl | member
    · simp only [stop] at whole ⊢
      omega
    · exact tiles.inside part (List.mem_cons_of_mem span member)
  disjoint := by
    obtain ⟨away, rest⟩ := List.pairwise_cons.mp tiles.disjoint
    refine List.pairwise_cons.mpr ⟨?_, List.pairwise_cons.mpr ⟨?_, rest⟩⟩
    · intro other member
      rcases List.mem_cons.mp member with rfl | member
      · exact Or.inl (le_refl _)
      · have := away other member
        simp only [Disjoint, stop] at this ⊢
        omega
    · intro other member
      have := away other member
      simp only [Disjoint, stop] at this ⊢
      omega
  cover address lower upper := by
    obtain ⟨part, member, inside⟩ := tiles.cover address lower upper
    rcases List.mem_cons.mp member with rfl | member
    · by_cases left : address < part.start + front
      · exact ⟨_, List.mem_cons_self, inside.1, left⟩
      · refine ⟨_, List.mem_cons_of_mem _ List.mem_cons_self, by simpa using left, ?_⟩
        simp only [stop] at inside ⊢
        omega
    · exact ⟨part, List.mem_cons_of_mem _ (List.mem_cons_of_mem _ member), inside⟩

/-- Join the first two spans of a tiling when the second starts where the first stops. -/
theorem join {front back : Span} {others : List Span}
    (tiles : Tiles low high (front :: back :: others)) (adjacent : front.stop = back.start) :
    Tiles low high (⟨front.start, front.length + back.length⟩ :: others) where
  nonempty part member := by
    rcases List.mem_cons.mp member with rfl | member
    · exact Nat.add_pos_left (tiles.nonempty front List.mem_cons_self) _
    · exact tiles.nonempty part (List.mem_cons_of_mem _ (List.mem_cons_of_mem _ member))
  inside part member := by
    have left := tiles.inside front List.mem_cons_self
    have right := tiles.inside back (List.mem_cons_of_mem _ List.mem_cons_self)
    rcases List.mem_cons.mp member with rfl | member
    · simp only [stop] at left right adjacent ⊢
      omega
    · exact tiles.inside part (List.mem_cons_of_mem _ (List.mem_cons_of_mem _ member))
  disjoint := by
    obtain ⟨frontAway, rest⟩ := List.pairwise_cons.mp tiles.disjoint
    obtain ⟨backAway, rest⟩ := List.pairwise_cons.mp rest
    refine List.pairwise_cons.mpr ⟨?_, rest⟩
    intro other member
    have left := frontAway other (List.mem_cons_of_mem _ member)
    have right := backAway other member
    -- an empty neighbour could sit on the seam, a nonempty one cannot
    have other_pos := tiles.nonempty other
      (List.mem_cons_of_mem _ (List.mem_cons_of_mem _ member))
    simp only [Disjoint, stop] at left right adjacent ⊢
    omega
  cover address lower upper := by
    obtain ⟨part, member, inside⟩ := tiles.cover address lower upper
    rcases List.mem_cons.mp member with rfl | member
    · refine ⟨_, List.mem_cons_self, inside.1, ?_⟩
      simp only [stop] at inside ⊢
      omega
    rcases List.mem_cons.mp member with rfl | member
    · refine ⟨_, List.mem_cons_self, ?_, ?_⟩ <;> simp only [stop] at inside adjacent ⊢ <;> omega
    · exact ⟨part, List.mem_cons_of_mem _ member, inside⟩

theorem disjoint_of_cons {span : Span} {others : List Span}
    (tiles : Tiles low high (span :: others)) {other : Span} (member : other ∈ others) :
    span.Disjoint other :=
  (List.pairwise_cons.mp tiles.disjoint).1 other member

/-- Spans of at least two addresses never leave a gap of exactly one address between them. -/
theorem stop_succ_ne_start {spans : List Span} (tiles : Tiles low high spans)
    (long : ∀ span ∈ spans, 2 ≤ span.length) {left right : Span} (left_mem : left ∈ spans)
    (right_mem : right ∈ spans) : left.stop + 1 ≠ right.start := by
  intro gap
  have left_inside := tiles.inside left left_mem
  have right_inside := tiles.inside right right_mem
  have left_pos := tiles.nonempty left left_mem
  have right_pos := tiles.nonempty right right_mem
  simp only [stop] at left_inside right_inside gap
  obtain ⟨middle, middle_mem, lower, upper⟩ :=
    tiles.cover (left.start + left.length) (by omega) (by omega)
  have middle_long := long middle middle_mem
  have left_ne : middle ≠ left := by
    rintro rfl
    simp only [stop] at upper
    omega
  have right_ne : middle ≠ right := by
    rintro rfl
    omega
  have from_left := tiles.disjoint.forall middle_mem left_mem left_ne
  have from_right := tiles.disjoint.forall middle_mem right_mem right_ne
  simp only [Disjoint, stop] at upper from_left from_right
  omega

end Tiles

/-! ## Total length -/

/-- Addresses covered by a list of spans. -/
private def covered (spans : List Span) : Finset Nat :=
  spans.foldr (fun span rest => Finset.Ico span.start span.stop ∪ rest) ∅

private theorem mem_covered {spans : List Span} {address : Nat} :
    address ∈ covered spans ↔ ∃ span ∈ spans, span.start ≤ address ∧ address < span.stop := by
  induction spans with
  | nil => simp [covered]
  | cons span spans ih =>
      change address ∈ Finset.Ico span.start span.stop ∪ covered spans ↔ _
      rw [Finset.mem_union, ih, Finset.mem_Ico]
      simp

private theorem card_covered {spans : List Span} (disjoint : spans.Pairwise Disjoint) :
    (covered spans).card = (spans.map Span.length).sum := by
  induction spans with
  | nil => rfl
  | cons span spans ih =>
      obtain ⟨away, rest⟩ := List.pairwise_cons.mp disjoint
      change (Finset.Ico span.start span.stop ∪ covered spans).card = _
      have separate : ∀ ⦃address⦄, address ∈ Finset.Ico span.start span.stop →
          address ∉ covered spans := by
        intro address here there
        obtain ⟨other, member, inside⟩ := mem_covered.mp there
        have apart := away other member
        have inIco := Finset.mem_Ico.mp here
        simp only [Disjoint] at apart
        omega
      rw [Finset.card_union_of_disjoint (Finset.disjoint_left.mpr separate), ih rest, Nat.card_Ico]
      simp [stop]

theorem Tiles.sum_length {low high : Nat} {spans : List Span} (tiles : Tiles low high spans) :
    (spans.map Span.length).sum = high - low := by
  have whole : covered spans = Finset.Ico low high := by
    ext address
    rw [mem_covered, Finset.mem_Ico]
    constructor
    · rintro ⟨span, member, lower, upper⟩
      have := tiles.inside span member
      omega
    · rintro ⟨lower, upper⟩
      exact tiles.cover address lower upper
  rw [← card_covered tiles.disjoint, whole, Nat.card_Ico]

end Span
