import PellOs.Mm.PageAllocator

/-!
# Who holds a page

Clients take pages from the allocator and give back pages they hold.  The bitmap bit of a page and
the list of held pages agree as long as nothing but the first page is given back: `free_page`
clears bit `idx % 8` of byte `idx / 8`, which is the bit of page `idx` only for `idx = 0`.
-/

namespace PellOs

/-! ## Available pages -/

/-- The allocator after `count` calls. -/
def afterCalls : Nat → Mm → Mm
  | 0, mm => mm
  | count + 1, mm => afterCalls count (getNextFreePage mm).1

/-- Some later call hands out the page, with no page given back in between. -/
def Available (mm : Mm) (page : Nat) : Prop :=
  page ≠ 0 ∧ ∃ count, (getNextFreePage (afterCalls count mm)).2 = page

private theorem free_of_available {mm : Mm} {count page : Nat} (page_ne : page ≠ 0)
    (returned : (getNextFreePage (afterCalls count mm)).2 = page) :
    ∃ index, index < mmNumOfPages ∧ page = pageAt index ∧ IsFree mm index := by
  induction count generalizing mm with
  | zero =>
      rcases getNextFreePage_cases mm with ⟨index, inside, free, _, call⟩ | ⟨_, call⟩
      · rw [afterCalls, call] at returned
        exact ⟨index, inside, returned.symm, free⟩
      · rw [afterCalls, call] at returned
        exact absurd returned.symm page_ne
  | succ count ih =>
      obtain ⟨index, inside, same, free⟩ := ih returned
      rcases getNextFreePage_cases mm with ⟨taken, _, _, _, call⟩ | ⟨_, call⟩
      · rw [call, isFree_takePage] at free
        exact ⟨index, inside, same, free.1⟩
      · rw [call] at free
        exact ⟨index, inside, same, free⟩

/-- Pages are handed out in order, so a free page is reached after at most `bound` calls. -/
private theorem available_of_free {mm : Mm} {index : Nat} (inside : index < mmNumOfPages)
    (free : IsFree mm index) (bound : Nat)
    (taken : ∀ earlier, earlier + bound < index → ¬IsFree mm earlier) :
    ∃ count, (getNextFreePage (afterCalls count mm)).2 = pageAt index := by
  induction bound generalizing mm with
  | zero =>
      rcases getNextFreePage_cases mm with ⟨first, _, first_free, before, call⟩ | ⟨all, _⟩
      · obtain rfl : first = index := by
          by_contra differ
          rcases Nat.lt_or_gt_of_ne differ with low | high
          · exact taken first (by omega) first_free
          · exact before index high free
        exact ⟨0, by rw [afterCalls, call]⟩
      · exact absurd free (all index inside)
  | succ bound ih =>
      rcases getNextFreePage_cases mm with ⟨first, _, first_free, before, call⟩ | ⟨all, _⟩
      · by_cases here : first = index
        · subst here
          exact ⟨0, by rw [afterCalls, call]⟩
        have low : first < index := by
          by_contra high
          exact before index (by omega) free
        have reached : first + (bound + 1) ≥ index := by
          by_contra far
          exact taken first (by omega) first_free
        obtain ⟨count, returned⟩ := ih
          ((isFree_takePage mm first index).mpr ⟨free, Ne.symm here⟩) (by
            intro earlier below still
            obtain ⟨was_free, differ⟩ := (isFree_takePage mm first earlier).mp still
            by_cases next : earlier < first
            · exact before earlier next was_free
            · omega)
        exact ⟨count + 1, by rw [afterCalls, call]; exact returned⟩
      · exact absurd free (all index inside)

theorem available_iff (mm : Mm) (page : Nat) :
    Available mm page ↔
      ∃ index, index < mmNumOfPages ∧ page = pageAt index ∧ IsFree mm index := by
  constructor
  · rintro ⟨page_ne, count, returned⟩
    exact free_of_available page_ne returned
  · rintro ⟨index, inside, rfl, free⟩
    exact ⟨pageAt_ne_zero index, available_of_free inside free index fun earlier far => by omega⟩

/-! ## Runs -/

/-- The allocator with the pages its clients hold. -/
structure PageState where
  mm : Mm
  held : List Nat

/-- A call of the allocator. -/
inductive PageAction
  | take
  | release (page : Nat)

/-- One call, with the list of held pages kept up to date. -/
inductive PageStep : PageAction → PageState → PageState → Prop
  | take {state : PageState} :
      PageStep .take state ⟨(getNextFreePage state.mm).1,
        if (getNextFreePage state.mm).2 = 0 then state.held
        else (getNextFreePage state.mm).2 :: state.held⟩
  | release {state : PageState} {page : Nat} (held : page ∈ state.held) :
      PageStep (.release page) state ⟨freePage state.mm page, state.held.erase page⟩

/-- The allocator before the first call. -/
def initialPages (memory : Memory) : PageState := ⟨⟨memory, fun _ => 0⟩, []⟩

/-- A client of the allocator makes any of the two calls. -/
def PageClientStep (before after : PageState) : Prop :=
  ∃ action, PageStep action before after

/-- A client that gives back no page but the first. -/
def FirstPageStep (before after : PageState) : Prop :=
  ∃ action, (∀ page, action = PageAction.release page → page = lowMemory) ∧
    PageStep action before after

/-- The next call hands out a page that nobody holds, or every page is held. -/
def TakesUnheld (state : PageState) : Prop :=
  ((getNextFreePage state.mm).2 ≠ 0 →
    pageSize ∣ (getNextFreePage state.mm).2 ∧ lowMemory ≤ (getNextFreePage state.mm).2 ∧
      (getNextFreePage state.mm).2 < mmAvailablePageMax ∧
      (getNextFreePage state.mm).2 ∉ state.held) ∧
  ((getNextFreePage state.mm).2 = 0 →
    ∀ index, index < mmNumOfPages → pageAt index ∈ state.held)

/-- Giving back `page` makes exactly this page available. -/
def ReleasesExactly (state : PageState) (page : Nat) : Prop :=
  ∀ other, Available (freePage state.mm page) other ↔ Available state.mm other ∨ other = page

/-! ## Invariant -/

/-- The held pages are those whose bit is set, and no other bit of the bitmap is. -/
structure PageInv (state : PageState) : Prop where
  bits : ∀ index, state.mm.pageBitmap index = 0 ∨ state.mm.pageBitmap index = 1
  held_iff : ∀ page, page ∈ state.held ↔
    ∃ index, index < mmNumOfPages ∧ page = pageAt index ∧ ¬IsFree state.mm index
  nodup : state.held.Nodup

theorem freePage_pageAt (mm : Mm) {index : Nat} (inside : index < mmNumOfPages) :
    freePage mm (pageAt index) =
      { mm with
        pageBitmap := Function.update mm.pageBitmap (index / 8)
          (mm.pageBitmap (index / 8) &&& ~~~(1 <<< UInt8.ofNat (index % 8))) } := by
  have count : mmNumOfPages < 2 ^ 32 := by decide
  have idx : (pageAt index + wordSize - mmAvailablePageMin) % wordSize / pageSize % 2 ^ 32 =
      index := by
    rw [indexOf_pageAt inside, Nat.mod_eq_of_lt (by omega)]
  simp only [freePage, idx]

namespace PageInv

variable {state next : PageState}

theorem initial (memory : Memory) : PageInv (initialPages memory) where
  bits _ := Or.inl rfl
  held_iff page := by
    constructor
    · intro member
      cases member
    · rintro ⟨index, _, _, busy⟩
      exact absurd (show (0 : UInt8) &&& 1 = 0 by decide) busy
  nodup := List.nodup_nil

theorem take (inv : PageInv state) :
    PageInv ⟨(getNextFreePage state.mm).1,
      if (getNextFreePage state.mm).2 = 0 then state.held
      else (getNextFreePage state.mm).2 :: state.held⟩ := by
  rcases getNextFreePage_cases state.mm with ⟨index, inside, free, _, call⟩ | ⟨_, call⟩
  · rw [call, if_neg (pageAt_ne_zero index)]
    have fresh : pageAt index ∉ state.held := by
      intro member
      obtain ⟨other, _, same, busy⟩ := (inv.held_iff _).mp member
      rw [pageAt_injective same] at free
      exact busy free
    refine ⟨fun other => ?_, fun page => ?_, List.nodup_cons.mpr ⟨fresh, inv.nodup⟩⟩
    · by_cases same : other = index
      · subst same
        rcases inv.bits other with zero | one
        · simp [takePage, zero]
        · simp [takePage, one]
      · simpa [takePage, same] using inv.bits other
    · rw [List.mem_cons, inv.held_iff]
      constructor
      · rintro (rfl | ⟨other, other_inside, rfl, busy⟩)
        · exact ⟨index, inside, rfl, by simp⟩
        · exact ⟨other, other_inside, rfl, fun still => busy ((isFree_takePage _ _ _).mp still).1⟩
      · rintro ⟨other, other_inside, rfl, busy⟩
        by_cases same : other = index
        · exact Or.inl (by rw [same])
        · exact Or.inr ⟨other, other_inside, rfl,
            fun was_free => busy ((isFree_takePage _ _ _).mpr ⟨was_free, same⟩)⟩
  · rw [call, if_pos rfl]
    exact inv

theorem index_of_held (inv : PageInv state) {page : Nat} (held : page ∈ state.held) :
    ∃ index, index < mmNumOfPages ∧ page = pageAt index ∧ state.mm.pageBitmap index = 1 := by
  obtain ⟨index, inside, same, busy⟩ := (inv.held_iff page).mp held
  refine ⟨index, inside, same, (inv.bits index).resolve_left fun zero => busy ?_⟩
  rw [IsFree, zero]
  rfl

theorem isFree_release_first (inv : PageInv state) (index : Nat) :
    IsFree (freePage state.mm lowMemory) index ↔ IsFree state.mm index ∨ index = 0 := by
  have same : lowMemory = pageAt 0 := rfl
  rw [same, freePage_pageAt _ (by decide)]
  unfold IsFree
  by_cases first : index = 0
  · subst first
    rcases inv.bits 0 with zero | one
    · simp [zero]
    · simp [one]
  · simp [first]

theorem releasesExactly_first (inv : PageInv state) : ReleasesExactly state lowMemory := by
  intro other
  rw [available_iff, available_iff]
  constructor
  · rintro ⟨index, inside, rfl, free⟩
    rcases (inv.isFree_release_first index).mp free with was_free | rfl
    · exact Or.inl ⟨index, inside, rfl, was_free⟩
    · exact Or.inr rfl
  · rintro (⟨index, inside, rfl, free⟩ | rfl)
    · exact ⟨index, inside, rfl, (inv.isFree_release_first index).mpr (Or.inl free)⟩
    · exact ⟨0, by decide, rfl, (inv.isFree_release_first 0).mpr (Or.inr rfl)⟩

/-- A page other than the first keeps its own bit when it is given back. -/
theorem not_available_release (inv : PageInv state) {page : Nat} (held : page ∈ state.held)
    (other : page ≠ lowMemory) : ¬Available (freePage state.mm page) page := by
  obtain ⟨index, inside, rfl, busy⟩ := inv.index_of_held held
  have index_ne : index ≠ 0 := by
    rintro rfl
    exact other rfl
  rw [available_iff]
  rintro ⟨again, _, same, free⟩
  obtain rfl := pageAt_injective same
  have kept : (freePage state.mm (pageAt index)).pageBitmap index = 1 := by
    rw [freePage_pageAt _ inside]
    exact (Function.update_of_ne (by omega) _ _).trans busy
  rw [IsFree, kept] at free
  exact absurd free (by decide)

theorem releasesExactly_iff (inv : PageInv state) {page : Nat} (held : page ∈ state.held) :
    ReleasesExactly state page ↔ page = lowMemory := by
  constructor
  · intro exactly
    by_contra other
    exact inv.not_available_release held other ((exactly page).mpr (Or.inr rfl))
  · rintro rfl
    exact inv.releasesExactly_first

theorem release_first (inv : PageInv state) :
    PageInv ⟨freePage state.mm lowMemory, state.held.erase lowMemory⟩ := by
  have same : lowMemory = pageAt 0 := rfl
  refine ⟨fun index => ?_, fun page => ?_, inv.nodup.erase _⟩
  · rw [same, freePage_pageAt _ (by decide)]
    by_cases first : index = 0
    · subst first
      rcases inv.bits 0 with zero | one
      · simp [zero]
      · simp [one]
    · simpa [first] using inv.bits index
  · rw [inv.nodup.mem_erase_iff, inv.held_iff]
    constructor
    · rintro ⟨differ, index, inside, rfl, busy⟩
      refine ⟨index, inside, rfl, fun free => ?_⟩
      rcases (inv.isFree_release_first index).mp free with was_free | rfl
      · exact busy was_free
      · exact differ rfl
    · rintro ⟨index, inside, rfl, busy⟩
      rw [inv.isFree_release_first] at busy
      refine ⟨fun first => ?_, index, inside, rfl, fun free => busy (Or.inl free)⟩
      exact busy (Or.inr (pageAt_injective first))

theorem takesUnheld (inv : PageInv state) : TakesUnheld state := by
  rcases getNextFreePage_cases state.mm with ⟨index, inside, free, _, call⟩ | ⟨all, call⟩
  · have range := pageAt_range inside
    have size_pos : 0 < pageSize := by decide
    rw [TakesUnheld, call]
    refine ⟨fun _ => ⟨?_, range.1, by omega, fun held => ?_⟩,
      fun zero => absurd zero (pageAt_ne_zero index)⟩
    · exact Nat.dvd_add (by decide) (Nat.dvd_mul_right _ _)
    · obtain ⟨other, _, same, busy⟩ := (inv.held_iff _).mp held
      rw [pageAt_injective same] at free
      exact busy free
  · rw [TakesUnheld, call]
    refine ⟨fun nonzero => absurd rfl nonzero, fun _ index inside => ?_⟩
    exact (inv.held_iff _).mpr ⟨index, inside, rfl, all index inside⟩

theorem step (inv : PageInv state) (first : FirstPageStep state next) : PageInv next := by
  obtain ⟨action, condition, step⟩ := first
  cases step with
  | take => exact inv.take
  | release held =>
      obtain rfl := condition _ rfl
      exact inv.release_first

theorem of_run {memory : Memory}
    (run : Relation.ReflTransGen FirstPageStep (initialPages memory) state) : PageInv state := by
  induction run with
  | refl => exact .initial memory
  | tail _ last ih => exact ih.step last

end PageInv

/-- While no page but the first is given back, every page handed out is aligned, in range and
unheld, the allocator gives up only when every page is held, and of the held pages exactly the
first one is released correctly. -/
theorem pages_owned_once (memory : Memory) {state : PageState}
    (run : Relation.ReflTransGen FirstPageStep (initialPages memory) state) :
    TakesUnheld state ∧
      ∀ page ∈ state.held, ReleasesExactly state page ↔ page = lowMemory := by
  have inv := PageInv.of_run run
  exact ⟨inv.takesUnheld, fun page held => inv.releasesExactly_iff held⟩

/-! ## Giving back another page -/

theorem take_many (memory : Memory) {count : Nat} (enough : count ≤ mmNumOfPages) :
    ∃ state, Relation.ReflTransGen FirstPageStep (initialPages memory) state ∧
      (∀ index, state.mm.pageBitmap index = if index < count then 1 else 0) ∧
      ∀ index, index < count → pageAt index ∈ state.held := by
  induction count with
  | zero => exact ⟨_, .refl, fun _ => rfl, fun index low => absurd low (Nat.not_lt_zero _)⟩
  | succ count ih =>
      obtain ⟨state, run, bits, held⟩ := ih (by omega)
      have free_iff : ∀ index, IsFree state.mm index ↔ count ≤ index := by
        intro index
        rw [IsFree, bits index]
        split_ifs with low
        · simp [low]
        · simp [Nat.le_of_not_lt low]
      have next : FirstPageStep state ⟨(getNextFreePage state.mm).1,
          if (getNextFreePage state.mm).2 = 0 then state.held
          else (getNextFreePage state.mm).2 :: state.held⟩ :=
        ⟨PageAction.take, fun _ release => (by cases release), PageStep.take⟩
      refine ⟨_, run.tail next, ?_⟩
      rcases getNextFreePage_cases state.mm with ⟨index, _, free, before, call⟩ | ⟨all, _⟩
      · have low := (free_iff index).mp free
        obtain rfl : index = count := by
          by_contra differ
          exact before count (by omega) ((free_iff count).mpr (le_refl _))
        rw [call, if_neg (pageAt_ne_zero index)]
        refine ⟨fun other => ?_, fun other low => ?_⟩
        · by_cases same : other = index
          · subst same
            simp [takePage, bits]
          · simp only [takePage, Function.update_of_ne same, bits]
            split_ifs <;> first | rfl | omega
        · by_cases same : other = index
          · subst same
            exact List.mem_cons_self
          · exact List.mem_cons_of_mem _ (held other (by omega))
      · exact absurd ((free_iff count).mpr (le_refl _)) (all count (by omega))

/-- After two calls both pages are held, the next one is not, and only the first of the two can be
given back correctly. -/
theorem pages_owned_once_two_taken : ∃ state : PageState,
    pageAt 0 ∈ state.held ∧ pageAt 1 ∈ state.held ∧ TakesUnheld state ∧
      ∀ page ∈ state.held, ReleasesExactly state page ↔ page = lowMemory := by
  obtain ⟨state, run, _, held⟩ := take_many (fun _ => 0) (by decide : 2 ≤ _)
  exact ⟨state, held 0 (by decide), held 1 (by decide), pages_owned_once (fun _ => 0) run⟩

theorem FirstPageStep.client {before after : PageState} (step : FirstPageStep before after) :
    PageClientStep before after := by
  obtain ⟨action, _, step⟩ := step
  exact ⟨action, step⟩

/-- Nine pages are taken and the last one is given back: it stays unavailable, and the second
page becomes available while it is still held. -/
theorem freePage_releases_second_page : ∃ state : PageState,
    Relation.ReflTransGen PageClientStep (initialPages fun _ => 0) state ∧
    pageAt 8 ∈ state.held ∧ pageAt 1 ∈ state.held.erase (pageAt 8) ∧
    ¬Available state.mm (pageAt 1) ∧ Available (freePage state.mm (pageAt 8)) (pageAt 1) ∧
    ¬Available (freePage state.mm (pageAt 8)) (pageAt 8) := by
  obtain ⟨state, run, bits, held⟩ := take_many (fun _ => 0) (by decide : 9 ≤ _)
  have inv := PageInv.of_run run
  refine ⟨state, ?_, held 8 (by decide), ?_, ?_, ?_, ?_⟩
  · exact Relation.ReflTransGen.mono (fun _ _ => FirstPageStep.client) _ _ run
  · exact (List.mem_erase_of_ne (by decide)).mpr (held 1 (by decide))
  · rw [available_iff]
    rintro ⟨index, _, same, free⟩
    obtain rfl := pageAt_injective same
    rw [IsFree, bits] at free
    exact absurd free (by decide)
  · rw [available_iff]
    refine ⟨1, by decide, rfl, ?_⟩
    rw [freePage_pageAt _ (by decide)]
    simp [IsFree, bits]
  · exact inv.not_available_release (held 8 (by decide)) (by decide)

end PellOs
