import Mathlib.Tactic

/-!
# The framebuffer shell

`kernel_writeChar` draws glyphs from left to right in cells of sixteen by sixteen pixels, starts a
new line at the right border and stops at the lower one.  Without a carriage return the cursor only
moves on, so characters never share a pixel.
-/

namespace PellOs

/-! ## Drawing -/

/-- `FONT_WIDTH`. -/
def fontWidth : Nat := 8

/-- `FONT_HEIGHT`. -/
def fontHeight : Nat := 8

/-- `FONT_BPG`. -/
def fontBpg : Nat := 8

/-- `FONT_BPL`. -/
def fontBpl : Nat := 1

/-- `FONT_NUMGLYPHS`. -/
def fontNumglyphs : Nat := 224

/-- `vgapal`. -/
def vgapal : List Nat :=
  [0x000000, 0x0000AA, 0x00AA00, 0x00AAAA, 0xAA0000, 0xAA00AA, 0xAA5500, 0xAAAAAA, 0x555555,
    0x5555FF, 0x55FF55, 0x55FFFF, 0xFF5555, 0xFF55FF, 0xFFFF55, 0xFFFFFF]

/-- `fb`, `pitch` and the table `font`, byte by byte. -/
structure Framebuffer where
  fb : Nat
  pitch : Nat
  font : Nat → UInt8

/-- A store of `framebuffer_drawPixel`. -/
structure PixelStore where
  x : Int
  y : Int
  address : Int
  colour : Nat

/-- `framebuffer_drawPixel`: the offset is computed in 32 bits and read as a signed number. -/
def framebufferDrawPixel (buffer : Framebuffer) (x y : Int) (attr : Nat) : PixelStore where
  x := x
  y := y
  address := buffer.fb + (y * buffer.pitch + x * 4).bmod (2 ^ 32)
  colour := vgapal.getD (attr &&& 0x0f) 0

/-- A pass of the inner loop of `framebuffer_drawChar`: the byte of the table that it reads and the
pixel that it stores. -/
structure GlyphPixel where
  fontRead : Nat
  store : PixelStore

/-- The body of the inner loop of `framebuffer_drawChar`. -/
def drawGlyphPixel (buffer : Framebuffer) (glyph : Nat) (x y : Int) (attr zoom i j : Nat) :
    GlyphPixel :=
  let mask := (1 <<< (j / zoom)) % 2 ^ 8
  let col := if (buffer.font glyph).toNat &&& mask ≠ 0 then attr &&& 0x0f
    else (attr &&& 0xf0) >>> 4
  { fontRead := glyph
    store := framebufferDrawPixel buffer (x + j) (y + i) col }

/-- The outer loop of `framebuffer_drawChar` from row `i` on. -/
def drawGlyphRows (buffer : Framebuffer) (x y : Int) (attr zoom : Nat) :
    Nat → Nat → Nat → List GlyphPixel
  | 0, _, _ => []
  | rows + 1, i, glyph =>
      (List.range (fontWidth * zoom)).map (drawGlyphPixel buffer glyph x y attr zoom i) ++
        drawGlyphRows buffer x y attr zoom rows (i + 1)
          (glyph + if i % zoom ≠ 0 then 0 else fontBpl)

/-- `framebuffer_drawChar`. -/
def framebufferDrawChar (buffer : Framebuffer) (ch : UInt8) (x y : Int) (attr zoom : Nat) :
    List GlyphPixel :=
  let glyph := (if ch.toNat < fontNumglyphs then ch.toNat else 0) * fontBpg
  drawGlyphRows buffer x y attr zoom (fontHeight * zoom) 1 glyph

/-! ## The shell -/

/-- `INITIAL_X`. -/
def initialX : Nat := 15

/-- `INITIAL_Y`. -/
def initialY : Nat := 15

/-- `SHELL_ZOOM_LEVEL`. -/
def shellZoomLevel : Nat := 2

/-- `SCALED_CHAR_WIDTH`. -/
def scaledCharWidth : Nat := 8 * shellZoomLevel

/-- `SCALED_CHAR_HEIGHT`. -/
def scaledCharHeight : Nat := 8 * shellZoomLevel

/-- `SCREEN_WIDTH`. -/
def screenWidth : Nat := 1920

/-- `SCREEN_HEIGHT`. -/
def screenHeight : Nat := 1080

/-- `cursorX` and `cursorY`, of type `uint16_t`. -/
structure Cursor where
  cursorX : Nat
  cursorY : Nat

/-- The cursor before the first character. -/
def initialCursor : Cursor := ⟨initialX, initialY⟩

/-- The new line that `kernel_writeChar` begins at the right border. -/
def wrapLine (cursor : Cursor) : Cursor :=
  if cursor.cursorX + scaledCharWidth > screenWidth - 1 then
    ⟨initialX, (cursor.cursorY + scaledCharHeight) % 2 ^ 16⟩
  else cursor

/-- `kernel_writeChar`, with what it draws. -/
def kernelWriteChar (buffer : Framebuffer) (cursor : Cursor) (ch : UInt8) :
    Cursor × List GlyphPixel :=
  let cursor := wrapLine cursor
  if cursor.cursorY + scaledCharHeight > screenHeight - 1 then (cursor, [])
  else if ch = 0x0a then
    (⟨initialX, (cursor.cursorY + scaledCharHeight) % 2 ^ 16⟩, [])
  else if ch = 0x0d then (⟨initialX, cursor.cursorY⟩, [])
  else
    (⟨(cursor.cursorX + scaledCharWidth) % 2 ^ 16, cursor.cursorY⟩,
      framebufferDrawChar buffer ch cursor.cursorX cursor.cursorY 0x0F shellZoomLevel)

/-- The cursor after a sequence of characters. -/
def cursorAfter (buffer : Framebuffer) (cursor : Cursor) (chars : List UInt8) : Cursor :=
  chars.foldl (fun cursor ch => (kernelWriteChar buffer cursor ch).1) cursor

/-- `kernel_writeStr` from index `i` on, which is a `uint32_t`.  The string is given byte by byte.
-/
def kernelWriteStr (buffer : Framebuffer) (str : Nat → UInt8) : Nat → Nat → Cursor → Option Cursor
  | 0, _, _ => none
  | fuel + 1, i, cursor =>
      if str i = 0 then some cursor
      else
        kernelWriteStr buffer str fuel ((i + 1) % 2 ^ 32) (kernelWriteChar buffer cursor (str i)).1

/-- `kernel_writeStr` passes every character before the terminator on. -/
theorem kernelWriteStr_eq_cursorAfter {buffer : Framebuffer} {cursor : Cursor} {str : Nat → UInt8}
    {count i : Nat} (plain : ∀ k < count, str (i + k) ≠ 0) (ended : str (i + count) = 0)
    (fits : i + count < 2 ^ 32) :
    kernelWriteStr buffer str (count + 1) i cursor =
      some (cursorAfter buffer cursor ((List.range' i count).map str)) := by
  induction count generalizing i cursor with
  | zero =>
      rw [Nat.add_zero] at ended
      rw [kernelWriteStr, if_pos ended]
      rfl
  | succ count ih =>
      have here : str i ≠ 0 := plain 0 (Nat.succ_pos count)
      have next : (i + 1) % 2 ^ 32 = i + 1 := Nat.mod_eq_of_lt (by omega)
      have later : ∀ k < count, str (i + 1 + k) ≠ 0 := by
        intro k bound
        rw [Nat.add_assoc, Nat.add_comm 1]
        exact plain (k + 1) (by omega)
      have stop : str (i + 1 + count) = 0 := by
        rw [Nat.add_assoc, Nat.add_comm 1]
        exact ended
      rw [kernelWriteStr, if_neg here, next, ih later stop (by omega)]
      rfl

/-- Without a terminator in its range of indices, `kernel_writeStr` starts again and again. -/
theorem kernelWriteStr_unterminated {buffer : Framebuffer} {str : Nat → UInt8}
    (plain : ∀ k < 2 ^ 32, str k ≠ 0) {fuel i : Nat} (inside : i < 2 ^ 32) (cursor : Cursor) :
    kernelWriteStr buffer str fuel i cursor = none := by
  induction fuel generalizing i cursor with
  | zero => rfl
  | succ fuel ih =>
      rw [kernelWriteStr, if_neg (plain i inside)]
      exact ih (Nat.mod_lt _ (by decide)) _

/-- The position of a pixel. -/
def GlyphPixel.position (pixel : GlyphPixel) : Int × Int := (pixel.store.x, pixel.store.y)

/-- The pixels of a character cell, one row below the cursor. -/
def CellPixel (cursor : Cursor) (position : Int × Int) : Prop :=
  (cursor.cursorX : Int) ≤ position.1 ∧ position.1 < cursor.cursorX + 16 ∧
    (cursor.cursorY : Int) + 1 ≤ position.2 ∧ position.2 < cursor.cursorY + 17

/-- The position of a pixel of the screen. -/
def OnScreen (position : Int × Int) : Prop :=
  0 ≤ position.1 ∧ position.1 < screenWidth ∧ 0 ≤ position.2 ∧ position.2 < screenHeight

/-- The pixels fill the cell and nothing else. -/
def FillsCell (pixels : List GlyphPixel) (cell : Cursor) : Prop :=
  ∀ position, (∃ pixel ∈ pixels, pixel.position = position) ↔ CellPixel cell position

/-- Two cells without a common pixel. -/
def DisjointCells (cell cell' : Cursor) : Prop :=
  ∀ position, CellPixel cell position → ¬ CellPixel cell' position

/-- A pixel of the screen lies in a buffer of 1080 lines of at least 1920 pixels. -/
theorem framebufferDrawPixel_address {buffer : Framebuffer} {x y : Int} {attr : Nat}
    (on_screen : OnScreen (x, y)) (granted : 1920 * 4 ≤ buffer.pitch)
    (offsets_fit : buffer.pitch * 1080 < 2 ^ 31) :
    (buffer.fb : Int) ≤ (framebufferDrawPixel buffer x y attr).address ∧
      (framebufferDrawPixel buffer x y attr).address + 4 ≤ buffer.fb + buffer.pitch * 1080 := by
  obtain ⟨left, right, top, bottom⟩ := on_screen
  simp only [screenWidth, screenHeight] at right bottom
  have lines_before : y * buffer.pitch ≤ 1079 * buffer.pitch :=
    mul_le_mul_of_nonneg_right (by omega) (by omega)
  have lines_nonneg : 0 ≤ y * (buffer.pitch : Int) := mul_nonneg top (by omega)
  have offset : (y * buffer.pitch + x * 4).bmod (2 ^ 32) = y * buffer.pitch + x * 4 :=
    Int.bmod_eq_of_le (by omega) (by omega)
  simp only [framebufferDrawPixel, offset]
  omega

/-! ## Glyphs -/

section Draw

variable {buffer : Framebuffer} {x y : Int} {attr zoom : Nat}

theorem mem_drawGlyphRows {rows i glyph : Nat} {position : Int × Int} :
    (∃ pixel ∈ drawGlyphRows buffer x y attr zoom rows i glyph, pixel.position = position) ↔
      x ≤ position.1 ∧ position.1 < x + (fontWidth * zoom : Nat) ∧
        y + i ≤ position.2 ∧ position.2 < y + i + rows := by
  induction rows generalizing i glyph with
  | zero =>
      simp only [drawGlyphRows, List.not_mem_nil, false_and, exists_false, false_iff]
      omega
  | succ rows ih =>
      simp only [drawGlyphRows, List.mem_append, or_and_right, exists_or, ih]
      constructor
      · rintro (⟨pixel, member, rfl⟩ | later)
        · obtain ⟨j, inRow, rfl⟩ := List.mem_map.mp member
          have bound := List.mem_range.mp inRow
          simp only [GlyphPixel.position, drawGlyphPixel, framebufferDrawPixel]
          omega
        · push_cast at later ⊢
          omega
      · rintro ⟨left, right, above, below⟩
        by_cases firstRow : position.2 = y + i
        · refine Or.inl ⟨_, List.mem_map_of_mem (List.mem_range.mpr ?_),
            (?_ : GlyphPixel.position (drawGlyphPixel buffer glyph x y attr zoom i
              (position.1 - x).toNat) = position)⟩
          · omega
          · simp only [GlyphPixel.position, drawGlyphPixel, framebufferDrawPixel]
            ext <;> simp only <;> omega
        · right
          push_cast at below ⊢
          omega

theorem fontRead_drawGlyphRows {rows i glyph : Nat} {pixel : GlyphPixel}
    (member : pixel ∈ drawGlyphRows buffer x y attr zoom rows (i + 1) (glyph + i / zoom)) :
    ∃ r < i + rows, pixel.fontRead = glyph + r / zoom := by
  induction rows generalizing i with
  | zero => simp [drawGlyphRows] at member
  | succ rows ih =>
      have nextLine : glyph + i / zoom + (if (i + 1) % zoom ≠ 0 then 0 else fontBpl) =
          glyph + (i + 1) / zoom := by
        rw [Nat.succ_div]
        simp only [Nat.dvd_iff_mod_eq_zero, ne_eq, ite_not, fontBpl, Nat.add_assoc]
      rw [drawGlyphRows, nextLine, List.mem_append] at member
      rcases member with first | later
      · obtain ⟨j, -, rfl⟩ := List.mem_map.mp first
        exact ⟨i, by omega, rfl⟩
      · obtain ⟨r, bound, read⟩ := ih later
        exact ⟨r, by omega, read⟩

end Draw

theorem fontRead_framebufferDrawChar {buffer : Framebuffer} {ch : UInt8} {x y : Int}
    {attr : Nat} {pixel : GlyphPixel}
    (member : pixel ∈ framebufferDrawChar buffer ch x y attr shellZoomLevel) :
    pixel.fontRead < fontNumglyphs * fontBpg := by
  obtain ⟨r, bound, read⟩ := @fontRead_drawGlyphRows _ _ _ _ _ _ 0 _ _
    (by simpa [framebufferDrawChar] using member)
  simp only [fontHeight, shellZoomLevel] at bound read
  rw [read]
  split_ifs with known <;> simp only [fontNumglyphs, fontBpg] at known ⊢ <;> omega

theorem fillsCell_framebufferDrawChar {buffer : Framebuffer} {ch : UInt8} {cursor : Cursor}
    {attr : Nat} :
    FillsCell (framebufferDrawChar buffer ch cursor.cursorX cursor.cursorY attr shellZoomLevel)
      cursor := by
  intro position
  rw [framebufferDrawChar, mem_drawGlyphRows, CellPixel]
  simp only [fontWidth, fontHeight, shellZoomLevel]
  omega

/-! ## The cursor -/

/-- The positions that the cursor takes. -/
structure CursorInv (cursor : Cursor) : Prop where
  column : cursor.cursorX % 16 = 15
  line : cursor.cursorY % 16 = 15
  left : cursor.cursorX ≤ 1919
  top : cursor.cursorY ≤ 1071
  last : cursor.cursorY = 1071 → cursor.cursorX = 15

theorem CursorInv.initial : CursorInv initialCursor := by
  constructor <;> decide

section Step

variable {buffer : Framebuffer} {cursor : Cursor} {ch : UInt8}

theorem CursorInv.wrapLine (invariant : CursorInv cursor) :
    CursorInv (wrapLine cursor) ∧ (wrapLine cursor).cursorX ≤ 1903 := by
  obtain ⟨column, line, left, top, last⟩ := invariant
  rw [PellOs.wrapLine]
  split_ifs with border
  · simp only [scaledCharWidth, scaledCharHeight, shellZoomLevel, screenWidth] at border ⊢
    refine ⟨⟨rfl, ?_, ?_, ?_, fun _ => rfl⟩, ?_⟩ <;> dsimp only [initialX] <;> omega
  · simp only [scaledCharWidth, shellZoomLevel, screenWidth] at border
    exact ⟨⟨column, line, left, top, last⟩, by omega⟩

theorem kernelWriteChar_cases (buffer : Framebuffer) (ch : UInt8) (invariant : CursorInv cursor) :
    (wrapLine cursor).cursorY = 1071 ∧
        kernelWriteChar buffer cursor ch = (wrapLine cursor, []) ∨
      (wrapLine cursor).cursorY ≤ 1055 ∧
        (ch = 0x0a ∧ kernelWriteChar buffer cursor ch =
            (⟨15, (wrapLine cursor).cursorY + 16⟩, []) ∨
          ch = 0x0d ∧ kernelWriteChar buffer cursor ch = (⟨15, (wrapLine cursor).cursorY⟩, []) ∨
          kernelWriteChar buffer cursor ch =
            (⟨(wrapLine cursor).cursorX + 16, (wrapLine cursor).cursorY⟩,
              framebufferDrawChar buffer ch (wrapLine cursor).cursorX (wrapLine cursor).cursorY
                0x0F shellZoomLevel)) := by
  obtain ⟨⟨-, line, -, top, -⟩, room⟩ := invariant.wrapLine
  rw [kernelWriteChar]
  simp only [scaledCharWidth, scaledCharHeight, screenHeight, initialX, shellZoomLevel]
  have noWrapX : ((PellOs.wrapLine cursor).cursorX + 8 * 2) % 2 ^ 16 =
      (PellOs.wrapLine cursor).cursorX + 16 := by omega
  have noWrapY : ((PellOs.wrapLine cursor).cursorY + 8 * 2) % 2 ^ 16 =
      (PellOs.wrapLine cursor).cursorY + 16 := by omega
  rw [noWrapX, noWrapY]
  by_cases bottom : (PellOs.wrapLine cursor).cursorY + 8 * 2 > 1080 - 1
  · exact Or.inl ⟨by omega, if_pos bottom⟩
  refine Or.inr ⟨by omega, ?_⟩
  by_cases newline : ch = 0x0a
  · exact Or.inl ⟨newline, (if_neg bottom).trans (if_pos newline)⟩
  by_cases carriage : ch = 0x0d
  · exact Or.inr (Or.inl ⟨carriage,
      (if_neg bottom).trans ((if_neg newline).trans (if_pos carriage))⟩)
  · exact Or.inr (Or.inr
      ((if_neg bottom).trans ((if_neg newline).trans (if_neg carriage))))

theorem CursorInv.step (invariant : CursorInv cursor) (buffer : Framebuffer) (ch : UInt8) :
    CursorInv (kernelWriteChar buffer cursor ch).1 := by
  obtain ⟨⟨column, line, left, top, last⟩, room⟩ := invariant.wrapLine
  rcases kernelWriteChar_cases buffer ch invariant with
    ⟨-, result⟩ | ⟨bottom, ⟨-, result⟩ | ⟨-, result⟩ | result⟩ <;> rw [result]
  · exact ⟨column, line, left, top, last⟩
  all_goals constructor <;> dsimp only <;> omega

theorem CursorInv.cursorAfter (invariant : CursorInv cursor) (buffer : Framebuffer)
    (chars : List UInt8) : CursorInv (cursorAfter buffer cursor chars) := by
  induction chars generalizing cursor with
  | nil => exact invariant
  | cons ch chars ih => exact ih (invariant.step buffer ch)

end Step

/-! ## Order on the screen -/

/-- The cursor has left the cell of `cell` behind. -/
def Behind (cell cursor : Cursor) : Prop :=
  cell.cursorY + 16 ≤ cursor.cursorY ∨
    cell.cursorY = cursor.cursorY ∧ cell.cursorX + 16 ≤ cursor.cursorX

section Order

variable {buffer : Framebuffer} {cell cursor : Cursor} {ch : UInt8}

theorem Behind.wrapLine (behind : Behind cell cursor) (invariant : CursorInv cursor) :
    Behind cell (wrapLine cursor) := by
  have top := invariant.top
  rw [PellOs.wrapLine]
  split_ifs with border
  · simp only [Behind, scaledCharHeight, shellZoomLevel] at behind ⊢
    omega
  · exact behind

theorem Behind.step (behind : Behind cell cursor) (invariant : CursorInv cursor)
    (not_return : ch ≠ 0x0d) : Behind cell (kernelWriteChar buffer cursor ch).1 := by
  have wrapped := behind.wrapLine invariant
  rcases kernelWriteChar_cases buffer ch invariant with
    ⟨-, result⟩ | ⟨-, ⟨-, result⟩ | ⟨carriage, -⟩ | result⟩
  · rw [result]
    exact wrapped
  · rw [result]
    simp only [Behind] at wrapped ⊢
    omega
  · exact absurd carriage not_return
  · rw [result]
    simp only [Behind] at wrapped ⊢
    omega

theorem Behind.cursorAfter (behind : Behind cell cursor) (invariant : CursorInv cursor)
    {chars : List UInt8} (no_return : 0x0d ∉ chars) :
    Behind cell (cursorAfter buffer cursor chars) := by
  induction chars generalizing cursor with
  | nil => exact behind
  | cons ch chars ih =>
      rw [List.mem_cons, not_or] at no_return
      exact ih (behind.step invariant (Ne.symm no_return.1)) (invariant.step buffer ch) no_return.2

/-- A cell that the cursor has left shares no pixel with the one that it is at. -/
theorem Behind.disjoint (behind : Behind cell cursor) : DisjointCells cell cursor := by
  intro position drawn
  simp only [CellPixel, Behind] at *
  omega

/-- A character that draws something is drawn at the cursor, above the last line. -/
theorem kernelWriteChar_of_drawn (invariant : CursorInv cursor)
    (drawn : (kernelWriteChar buffer cursor ch).2 ≠ []) :
    (wrapLine cursor).cursorY ≤ 1055 ∧
      kernelWriteChar buffer cursor ch =
        (⟨(wrapLine cursor).cursorX + 16, (wrapLine cursor).cursorY⟩,
          framebufferDrawChar buffer ch (wrapLine cursor).cursorX (wrapLine cursor).cursorY 0x0F
            shellZoomLevel) := by
  rcases kernelWriteChar_cases buffer ch invariant with
    ⟨-, result⟩ | ⟨above, ⟨-, result⟩ | ⟨-, result⟩ | result⟩
  · exact absurd (congrArg Prod.snd result) drawn
  · exact absurd (congrArg Prod.snd result) drawn
  · exact absurd (congrArg Prod.snd result) drawn
  · exact ⟨above, result⟩

theorem behind_of_drawn (invariant : CursorInv cursor)
    (drawn : (kernelWriteChar buffer cursor ch).2 ≠ []) :
    Behind (wrapLine cursor) (kernelWriteChar buffer cursor ch).1 := by
  rw [(kernelWriteChar_of_drawn invariant drawn).2]
  exact Or.inr ⟨rfl, le_rfl⟩

end Order

/-! ## The screen -/

section Screen

variable {buffer : Framebuffer} {cursor : Cursor} {ch : UInt8}

/-- What a character draws fills the cell at the cursor, or nothing is drawn. -/
theorem drawn_cell (invariant : CursorInv cursor)
    (drawn : (kernelWriteChar buffer cursor ch).2 ≠ []) :
    FillsCell (kernelWriteChar buffer cursor ch).2 (wrapLine cursor) := by
  rw [(kernelWriteChar_of_drawn invariant drawn).2]
  exact fillsCell_framebufferDrawChar

theorem drawn_on_screen (invariant : CursorInv cursor)
    (drawn : (kernelWriteChar buffer cursor ch).2 ≠ []) {position : Int × Int}
    (inside : CellPixel (wrapLine cursor) position) : OnScreen position := by
  have room := invariant.wrapLine.2
  have above := (kernelWriteChar_of_drawn invariant drawn).1
  simp only [CellPixel, OnScreen, screenWidth, screenHeight] at *
  omega

theorem fontRead_kernelWriteChar {pixel : GlyphPixel}
    (member : pixel ∈ (kernelWriteChar buffer cursor ch).2) :
    pixel.fontRead < fontNumglyphs * fontBpg := by
  rw [kernelWriteChar] at member
  split_ifs at member
  · exact absurd member List.not_mem_nil
  · exact absurd member List.not_mem_nil
  · exact absurd member List.not_mem_nil
  · exact fontRead_framebufferDrawChar member

end Screen

/-- Whatever is written from the initial cursor on, every pixel lies on the screen, the font is read
inside its table, no addition to the cursor wraps, and two characters without a carriage return
between them fill disjoint cells. -/
theorem shell_draws_on_screen (buffer : Framebuffer) (before : List UInt8) (ch : UInt8) :
    (∀ pixel ∈ (kernelWriteChar buffer (cursorAfter buffer initialCursor before) ch).2,
      OnScreen pixel.position ∧ pixel.fontRead < fontNumglyphs * fontBpg) ∧
    (cursorAfter buffer initialCursor before).cursorX + scaledCharWidth < 2 ^ 16 ∧
    (cursorAfter buffer initialCursor before).cursorY + scaledCharHeight + scaledCharHeight <
      2 ^ 16 ∧
    ∀ (between : List UInt8) (other : UInt8), 0x0d ∉ between →
      (kernelWriteChar buffer (cursorAfter buffer initialCursor before) ch).2 ≠ [] →
      (kernelWriteChar buffer
        (cursorAfter buffer initialCursor (before ++ ch :: between)) other).2 ≠ [] →
      ∃ cell cell', DisjointCells cell cell' ∧
        FillsCell (kernelWriteChar buffer (cursorAfter buffer initialCursor before) ch).2 cell ∧
        FillsCell (kernelWriteChar buffer
          (cursorAfter buffer initialCursor (before ++ ch :: between)) other).2 cell' := by
  have invariant := CursorInv.initial.cursorAfter buffer before
  refine ⟨fun pixel member => ⟨?_, fontRead_kernelWriteChar member⟩, ?_, ?_, ?_⟩
  · have drawn := List.ne_nil_of_mem member
    exact drawn_on_screen invariant drawn ((drawn_cell invariant drawn _).mp ⟨pixel, member, rfl⟩)
  · have left := invariant.left
    simp only [scaledCharWidth, shellZoomLevel]
    omega
  · have top := invariant.top
    simp only [scaledCharHeight, shellZoomLevel]
    omega
  · intro between other no_return drawn drawn'
    have split : cursorAfter buffer initialCursor (before ++ ch :: between) =
        cursorAfter buffer
          (kernelWriteChar buffer (cursorAfter buffer initialCursor before) ch).1 between :=
      List.foldl_append
    rw [split] at drawn' ⊢
    have invariant' := (invariant.step buffer ch).cursorAfter buffer between
    have behind : Behind _ (cursorAfter buffer _ between) :=
      (behind_of_drawn invariant drawn).cursorAfter (invariant.step buffer ch) no_return
    exact ⟨_, _, (behind.wrapLine invariant').disjoint, drawn_cell invariant drawn,
      drawn_cell invariant' drawn'⟩

/-- A buffer whose table of characters is empty. -/
def blankBuffer : Framebuffer := ⟨0x3c000000, 7680, fun _ => 0⟩

/-- The characters `A`, new line and `B`. -/
theorem shell_draws_on_screen_two_lines :
    0x0d ∉ [(0x0a : UInt8)] ∧
    (kernelWriteChar blankBuffer (cursorAfter blankBuffer initialCursor []) 0x41).2 ≠ [] ∧
    (kernelWriteChar blankBuffer
      (cursorAfter blankBuffer initialCursor ([] ++ 0x41 :: [0x0a])) 0x42).2 ≠ [] ∧
    ∃ cell cell', DisjointCells cell cell' ∧
      FillsCell (kernelWriteChar blankBuffer (cursorAfter blankBuffer initialCursor []) 0x41).2
        cell ∧
      FillsCell (kernelWriteChar blankBuffer
        (cursorAfter blankBuffer initialCursor ([] ++ 0x41 :: [0x0a])) 0x42).2 cell' := by
  have drawn : (kernelWriteChar blankBuffer (cursorAfter blankBuffer initialCursor []) 0x41).2 ≠
      [] := by
    simp [kernelWriteChar, cursorAfter, wrapLine, initialCursor, framebufferDrawChar,
      drawGlyphRows, initialX, initialY, scaledCharWidth, scaledCharHeight, shellZoomLevel,
      screenWidth, screenHeight, fontHeight, fontWidth]
  have drawn' : (kernelWriteChar blankBuffer
      (cursorAfter blankBuffer initialCursor ([] ++ 0x41 :: [0x0a])) 0x42).2 ≠ [] := by
    simp [kernelWriteChar, cursorAfter, wrapLine, initialCursor, framebufferDrawChar,
      drawGlyphRows, initialX, initialY, scaledCharWidth, scaledCharHeight, shellZoomLevel,
      screenWidth, screenHeight, fontHeight, fontWidth]
  exact ⟨by decide, drawn, drawn',
    (shell_draws_on_screen blankBuffer [] 0x41).2.2.2 [0x0a] 0x42 (by decide) drawn drawn'⟩

end PellOs
