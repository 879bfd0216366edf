import Newbos.Tty.Framebuffer

/-!
# The terminal refines a terminal of unlimited height

The reference terminal never forgets a row: it has a cursor in an unbounded
sheet of 80 columns and a window of 25 rows that follows the cursor down.  The
framebuffer shows that window after every byte.
-/

namespace Newbos

/-- A sheet of cells in reading order, the cursor, and the first row that is
still visible. -/
structure Terminal where
  cells : Nat → UInt8
  cursor : Nat
  top : Nat

namespace Terminal

def blank : Terminal where
  cells := fun _ => asciiSpace
  cursor := 0
  top := 0

/-- Scroll until the row of the cursor is among the 25 visible ones. -/
def follow (terminal : Terminal) : Terminal :=
  { terminal with top := max terminal.top (terminal.cursor / 80 - 24) }

/-- Store a character and advance. -/
def put (b : UInt8) (terminal : Terminal) : Terminal :=
  follow { terminal with
    cells := Store.set terminal.cells terminal.cursor b
    cursor := terminal.cursor + 1 }

/-- Go to the first column of the next row. -/
def newline (terminal : Terminal) : Terminal :=
  follow { terminal with cursor := 80 * (terminal.cursor / 80 + 1) }

/-- Step back, but not out of the window, and blank the cell. -/
def backspace (terminal : Terminal) : Terminal :=
  let cursor :=
    if 80 * terminal.top < terminal.cursor then terminal.cursor - 1
    else terminal.cursor
  { terminal with
    cells := Store.set terminal.cells cursor asciiSpace
    cursor := cursor }

def write (b : UInt8) (terminal : Terminal) : Terminal :=
  if b = asciiNewline then terminal.newline
  else if b = ttyBackspaceAscii then terminal.backspace
  else if b = asciiTab then (put asciiSpace)^[4] terminal
  else terminal.put b

def writeAll (bytes : List UInt8) (terminal : Terminal) : Terminal :=
  bytes.foldl (fun terminal b => terminal.write b) terminal

end Terminal

/-- The framebuffer shows the window of the reference terminal, and the sheet
is blank below it.  The cursor may stand just past the window. -/
structure ShowsWindow (tty : Tty) (terminal : Terminal) : Prop where
  cursor : terminal.cursor = tty.cursorPos + 80 * terminal.top
  char : ∀ position, position < 2000 →
    tty.charAt position = terminal.cells (position + 80 * terminal.top)
  attr : ∀ position, position < 2000 →
    tty.attributeAt position = blackOnWhite
  blankBelow : ∀ position, 80 * (terminal.top + 25) ≤ position →
    terminal.cells position = asciiSpace

/-- The framebuffer shows the reference terminal. -/
structure Shows (tty : Tty) (terminal : Terminal) : Prop where
  window : ShowsWindow tty terminal
  inside : tty.cursorPos < 2000

/-- The end of `tty_write_byte`. -/
def scrollIfNeeded (tty : Tty) : Tty :=
  if ttyNumCols * ttyNumRows ≤ tty.cursorPos then
    ttyMoveCursor 24 0 (scroll tty)
  else tty

section Equations

variable (tty : Tty)

theorem ttyWriteByte_newline :
    ttyWriteByte asciiNewline tty =
      scrollIfNeeded (moveCursorStart (moveCursorDown tty)) := by
  rfl

theorem ttyWriteByte_backspace :
    ttyWriteByte ttyBackspaceAscii tty =
      scrollIfNeeded (writeCell (2 * (moveCursorBack tty).cursorPos)
        asciiSpace (moveCursorBack tty)) := by
  rfl

theorem ttyWriteByte_tab :
    ttyWriteByte asciiTab tty =
      scrollIfNeeded ((ttyWriteByte asciiSpace)^[4] tty) := by
  have special : ¬(asciiTab ≠ asciiNewline ∧ asciiTab ≠ asciiTab ∧
      asciiTab ≠ ttyBackspaceAscii) := by decide
  have notNewline : asciiTab ≠ asciiNewline := by decide
  have notBackspace : asciiTab ≠ ttyBackspaceAscii := by decide
  rw [ttyWriteByte_eq]
  simp only [ttyWriteByteBody, if_neg special, if_neg notNewline,
    if_neg notBackspace, if_true, scrollIfNeeded]

theorem ttyWriteByte_plain {b : UInt8} (notNewline : b ≠ asciiNewline)
    (notTab : b ≠ asciiTab) (notBackspace : b ≠ ttyBackspaceAscii) :
    ttyWriteByte b tty =
      scrollIfNeeded (moveCursorForward
        (writeCell (2 * tty.cursorPos) b tty)) := by
  simp only [ttyWriteByte, ttyWriteByteBody, if_neg notNewline,
    if_neg notTab, if_neg notBackspace, scrollIfNeeded,
    if_pos (And.intro notNewline (And.intro notTab notBackspace))]

end Equations

section Steps

variable {tty : Tty} {terminal : Terminal}

/-- Scrolling when the cursor has left the window brings it back. -/
theorem scrollIfNeeded_shows (window : ShowsWindow tty terminal)
    (near : tty.cursorPos ≤ 2000) :
    Shows (scrollIfNeeded tty) terminal.follow ∧
      WritesBelow 4000 tty (scrollIfNeeded tty) := by
  have cursorEq := window.cursor
  unfold scrollIfNeeded
  split_ifs with past
  · have atEnd : tty.cursorPos = 2000 := Nat.le_antisymm near past
    have topEq : terminal.follow.top = terminal.top + 1 := by
      simp only [Terminal.follow]
      omega
    have painted := scroll_painted tty
    refine ⟨⟨⟨?_, ?_, ?_, ?_⟩, ?_⟩, ?_⟩
    · rw [topEq]
      simp only [ttyMoveCursor, placeCursor_cursorPos, w16, ttyNumCols,
        Terminal.follow]
      omega
    · intro position small
      rw [ttyMoveCursor, placeCursor_charAt, painted.char, topEq,
        if_pos ⟨Nat.zero_le _, small⟩]
      split_ifs with upper
      · have moved : position + 80 * (terminal.top + 1) =
            position + 80 + 80 * terminal.top := by omega
        rw [window.char (position + 80) (by omega), moved]
        rfl
      · rw [Terminal.follow, window.blankBelow _ (by omega)]
    · intro position small
      rw [ttyMoveCursor, placeCursor_attributeAt, painted.attr,
        if_pos ⟨Nat.zero_le _, small⟩]
    · intro position below
      rw [topEq] at below
      exact window.blankBelow position (by omega)
    · simp [ttyMoveCursor, w16, ttyNumCols]
    · exact painted.writes.trans (placeCursor_writes _ _ _)
  · have still : terminal.follow = terminal := by
      have topEq : max terminal.top (terminal.cursor / 80 - 24) =
          terminal.top := by
        simp only [ttyNumCols, ttyNumRows] at past
        omega
      simp only [Terminal.follow, topEq]
    rw [still]
    exact ⟨⟨window, Nat.lt_of_not_le past⟩, WritesBelow.refl _ _⟩

theorem ShowsWindow.move (window : ShowsWindow tty terminal)
    {loc cursor : Nat} (cursorEq : cursor = loc + 80 * terminal.top) :
    ShowsWindow (placeCursor loc tty) { terminal with cursor := cursor } where
  cursor := by
    simpa using cursorEq
  char := fun position small => by
    rw [placeCursor_charAt]
    exact window.char position small
  attr := fun position small => by
    rw [placeCursor_attributeAt]
    exact window.attr position small
  blankBelow := window.blankBelow

theorem ShowsWindow.paint (window : ShowsWindow tty terminal)
    {position : Nat} (visible : position < 2000) (b : UInt8) :
    ShowsWindow (writeCell (2 * position) b tty)
      { terminal with
        cells := Store.set terminal.cells (position + 80 * terminal.top)
          b } := by
  have painted := Painted.cell tty position b
  refine ⟨?_, ?_, ?_, ?_⟩
  · exact window.cursor
  · intro other small
    rw [painted.char other]
    simp only [Store.set]
    split_ifs with inside same
    · rfl
    · omega
    · omega
    · exact window.char other small
  · intro other small
    rw [painted.attr other]
    split_ifs
    · rfl
    · exact window.attr other small
  · intro other below
    change 80 * (terminal.top + 25) ≤ other at below
    change Store.set terminal.cells _ b other = asciiSpace
    rw [Store.set_other _ _ (by omega)]
    exact window.blankBelow other below

theorem put_shows (shows_ : Shows tty terminal) {b : UInt8}
    (notNewline : b ≠ asciiNewline) (notTab : b ≠ asciiTab)
    (notBackspace : b ≠ ttyBackspaceAscii) :
    Shows (ttyWriteByte b tty) (terminal.put b) ∧
      WritesBelow 4000 tty (ttyWriteByte b tty) := by
  have inside := shows_.inside
  have cursorEq := shows_.window.cursor
  rw [ttyWriteByte_plain tty notNewline notTab notBackspace]
  have forward : w16 (tty.cursorPos + 1) = tty.cursorPos + 1 :=
    Nat.mod_eq_of_lt (by omega)
  have painted := shows_.window.paint inside b
  rw [← cursorEq] at painted
  have advanced : terminal.cursor + 1 =
      tty.cursorPos + 1 + 80 * terminal.top := by omega
  have moved := painted.move advanced
  obtain ⟨after, writes⟩ := scrollIfNeeded_shows moved (by simp; omega)
  rw [moveCursorForward, (Painted.cell tty tty.cursorPos b).cursorPos,
    forward]
  refine ⟨after, ?_⟩
  have cellWrites := (Painted.cell tty tty.cursorPos b).writes.mono
    (show 2 * (tty.cursorPos + 1) ≤ 4000 by omega)
  exact (cellWrites.trans (placeCursor_writes _ _ _)).trans writes

theorem newline_shows (shows_ : Shows tty terminal) :
    Shows (ttyWriteByte asciiNewline tty) terminal.newline ∧
      WritesBelow 4000 tty (ttyWriteByte asciiNewline tty) := by
  have inside := shows_.inside
  have cursorEq := shows_.window.cursor
  rw [ttyWriteByte_newline]
  have down : w16 (tty.cursorPos + 80) = tty.cursorPos + 80 :=
    Nat.mod_eq_of_lt (by omega)
  have start : tty.cursorPos + 80 - (tty.cursorPos + 80) % 80 =
      80 * (tty.cursorPos / 80 + 1) := by omega
  rw [moveCursorStart, moveCursorDown, placeCursor_cursorPos, down, start]
  have below : terminal.cursor + 80 =
      tty.cursorPos + 80 + 80 * terminal.top := by omega
  have nextRow : 80 * (terminal.cursor / 80 + 1) =
      80 * (tty.cursorPos / 80 + 1) + 80 * terminal.top := by omega
  have moved := (shows_.window.move below).move nextRow
  obtain ⟨after, writes⟩ := scrollIfNeeded_shows moved (by simp; omega)
  refine ⟨after, ?_⟩
  exact ((placeCursor_writes _ _ _).trans (placeCursor_writes _ _ _)).trans
    writes

theorem backspace_shows (shows_ : Shows tty terminal) :
    Shows (ttyWriteByte ttyBackspaceAscii tty) terminal.backspace ∧
      WritesBelow 4000 tty (ttyWriteByte ttyBackspaceAscii tty) := by
  have inside := shows_.inside
  have cursorEq := shows_.window.cursor
  -- The reference steps back exactly when the driver does.
  obtain ⟨loc, small, backEq, backWrites, moved⟩ :
      ∃ loc, loc < 2000 ∧ (moveCursorBack tty).cursorPos = loc ∧
        WritesBelow 4000 tty (moveCursorBack tty) ∧
        ShowsWindow (moveCursorBack tty)
          { terminal with
            cursor := if 80 * terminal.top < terminal.cursor then
              terminal.cursor - 1 else terminal.cursor } := by
    by_cases atStart : tty.cursorPos = 0
    · refine ⟨0, by omega, ?_⟩
      have stays : ¬80 * terminal.top < terminal.cursor := by omega
      rw [moveCursorBack, if_neg (by simpa using atStart), if_neg stays]
      exact ⟨atStart, WritesBelow.refl _ _, shows_.window⟩
    · refine ⟨tty.cursorPos - 1, by omega, ?_⟩
      have steps : 80 * terminal.top < terminal.cursor := by omega
      rw [moveCursorBack, if_pos atStart, if_pos steps]
      refine ⟨placeCursor_cursorPos _ _, placeCursor_writes _ _ _, ?_⟩
      exact shows_.window.move (by omega)
  rw [ttyWriteByte_backspace, backEq]
  have cursorAfter := moved.cursor
  simp only [backEq] at cursorAfter
  have painted := moved.paint small asciiSpace
  simp only [← cursorAfter] at painted
  have stillInside : (writeCell (2 * loc) asciiSpace
      (moveCursorBack tty)).cursorPos < 2000 := by
    rw [(Painted.cell (moveCursorBack tty) loc asciiSpace).cursorPos, backEq]
    exact small
  have cellWrites := (Painted.cell (moveCursorBack tty) loc
    asciiSpace).writes.mono (show 2 * (loc + 1) ≤ 4000 by omega)
  have noScroll : scrollIfNeeded (writeCell (2 * loc) asciiSpace
      (moveCursorBack tty)) =
      writeCell (2 * loc) asciiSpace (moveCursorBack tty) := by
    rw [scrollIfNeeded, if_neg (by simp only [ttyNumCols, ttyNumRows]; omega)]
  rw [noScroll]
  exact ⟨⟨painted, stillInside⟩, backWrites.trans cellWrites⟩

theorem spaces_show (count : Nat) (shows_ : Shows tty terminal) :
    Shows ((ttyWriteByte asciiSpace)^[count] tty)
        ((Terminal.put asciiSpace)^[count] terminal) ∧
      WritesBelow 4000 tty ((ttyWriteByte asciiSpace)^[count] tty) := by
  induction count with
  | zero => exact ⟨shows_, WritesBelow.refl _ _⟩
  | succ count induction =>
      obtain ⟨earlier, earlierWrites⟩ := induction
      obtain ⟨next, nextWrites⟩ := put_shows earlier
        (show asciiSpace ≠ asciiNewline by decide) (by decide) (by decide)
      rw [Function.iterate_succ_apply', Function.iterate_succ_apply']
      exact ⟨next, earlierWrites.trans nextWrites⟩

theorem tab_shows (shows_ : Shows tty terminal) :
    Shows (ttyWriteByte asciiTab tty)
        ((Terminal.put asciiSpace)^[4] terminal) ∧
      WritesBelow 4000 tty (ttyWriteByte asciiTab tty) := by
  obtain ⟨after, writes⟩ := spaces_show 4 shows_
  have inside := after.inside
  rw [ttyWriteByte_tab, scrollIfNeeded,
    if_neg (by simp only [ttyNumCols, ttyNumRows]; omega)]
  exact ⟨after, writes⟩

/-- One byte on both sides. -/
theorem write_shows (shows_ : Shows tty terminal) (b : UInt8) :
    Shows (ttyWriteByte b tty) (terminal.write b) ∧
      WritesBelow 4000 tty (ttyWriteByte b tty) := by
  unfold Terminal.write
  split_ifs with newline backspace tab
  · rw [newline]
    exact newline_shows shows_
  · rw [backspace]
    exact backspace_shows shows_
  · rw [tab]
    exact tab_shows shows_
  · exact put_shows shows_ newline tab backspace

theorem clear_shows (tty : Tty) : Shows (ttyClear tty) Terminal.blank := by
  have painted := clearRows_painted 25 tty
  refine ⟨⟨?_, ?_, ?_, ?_⟩, ?_⟩
  · simp [ttyClear, ttyMoveCursor, Terminal.blank, w16]
  · intro position small
    rw [ttyClear, ttyMoveCursor, placeCursor_charAt, painted.char,
      if_pos (by omega)]
    rfl
  · intro position small
    rw [ttyClear, ttyMoveCursor, placeCursor_attributeAt, painted.attr,
      if_pos (by omega)]
  · intro position _
    rfl
  · simp [ttyClear, ttyMoveCursor, w16]

end Steps

theorem writeBytes_shows {tty : Tty} {terminal : Terminal}
    (shows_ : Shows tty terminal) (bytes : List UInt8) :
    Shows (ttyWriteBytes bytes tty) (terminal.writeAll bytes) := by
  induction bytes generalizing tty terminal with
  | nil => exact shows_
  | cons b bytes induction =>
      exact induction (write_shows shows_ b).1

/-- After `tty_clear` and any bytes, the framebuffer is the window of the
reference terminal that has scrolled as many rows, the cursor is inside it, and
the next call writes inside the framebuffer only. -/
theorem tty_refinement (initial : Tty) (bytes : List UInt8) :
    let tty := ttyWriteBytes bytes (ttyClear initial)
    let terminal := Terminal.blank.writeAll bytes
    tty.cursorPos < 2000 ∧
      (∀ b, WritesBelow 4000 tty (ttyWriteByte b tty)) ∧
      terminal.cursor = tty.cursorPos + 80 * terminal.top ∧
      ∀ row col, row < 25 → col < 80 →
        tty.fb (toAddress row col) =
          terminal.cells (80 * (terminal.top + row) + col) ∧
        tty.fb (toAddress row col + 1) = 0x0F := by
  intro tty terminal
  have shows_ : Shows tty terminal :=
    writeBytes_shows (clear_shows initial) bytes
  refine ⟨shows_.inside, ?_, shows_.window.cursor, ?_⟩
  · intro b
    exact (write_shows shows_ b).2
  · intro row col rowSmall colSmall
    have address : toAddress row col = 2 * (80 * row + col) := by
      simp only [toAddress, ttyNumCols]
      omega
    have position : 80 * (terminal.top + row) + col =
        80 * row + col + 80 * terminal.top := by omega
    rw [address, position]
    exact ⟨shows_.window.char (80 * row + col) (by omega),
      shows_.window.attr (80 * row + col) (by omega)⟩

/-- A screen with every byte zero. -/
def zeroTty : Tty where
  fb := fun _ => 0
  cursorPos := 0
  written := []
  crtcIndex := 0
  crtc := fun _ => 0

theorem tty_refinement_oneLetter :
    (ttyWriteBytes [65] (ttyClear zeroTty)).fb (toAddress 0 0) = 65 ∧
      (ttyWriteBytes [65] (ttyClear zeroTty)).fb (toAddress 0 0 + 1) =
        0x0F :=
  (tty_refinement zeroTty [65]).2.2.2 0 0 (by decide) (by decide)

/-! ## The cursor of the display controller -/

/-- The display controller shows the cursor where the driver has it. -/
def CursorShown (tty : Tty) : Prop :=
  256 * tty.crtc ttyHighByte + tty.crtc ttyLowByte = tty.cursorPos

theorem placeCursor_shown {loc : Nat} (small : loc < 65536) (tty : Tty) :
    CursorShown (placeCursor loc tty) := by
  rw [CursorShown, placeCursor_cursorPos]
  exact placeCursor_crtc small tty

theorem Painted.shown {tty after : Tty} {first last : Nat}
    {chars : Nat → UInt8} (painted : Painted tty after first last chars)
    (shown : CursorShown tty) : CursorShown after := by
  rw [CursorShown, painted.crtc, painted.cursorPos]
  exact shown

theorem scrollIfNeeded_shown {tty : Tty} (shown : CursorShown tty) :
    CursorShown (scrollIfNeeded tty) := by
  unfold scrollIfNeeded
  split_ifs
  · exact placeCursor_shown (by decide) _
  · exact shown

theorem plain_shown {tty : Tty} {b : UInt8} (notNewline : b ≠ asciiNewline)
    (notTab : b ≠ asciiTab) (notBackspace : b ≠ ttyBackspaceAscii) :
    CursorShown (ttyWriteByte b tty) := by
  rw [ttyWriteByte_plain tty notNewline notTab notBackspace]
  apply scrollIfNeeded_shown
  exact placeCursor_shown (Nat.mod_lt _ (by decide)) _

theorem write_shown {tty : Tty} (shown : CursorShown tty)
    (inside : tty.cursorPos < 2000) (b : UInt8) :
    CursorShown (ttyWriteByte b tty) := by
  by_cases newline : b = asciiNewline
  · rw [newline, ttyWriteByte_newline]
    apply scrollIfNeeded_shown
    apply placeCursor_shown
    rw [moveCursorDown, placeCursor_cursorPos]
    have small : w16 (tty.cursorPos + ttyNumCols) < 65536 :=
      Nat.mod_lt _ (by decide)
    omega
  · by_cases backspace : b = ttyBackspaceAscii
    · rw [backspace, ttyWriteByte_backspace]
      apply scrollIfNeeded_shown
      apply (Painted.cell _ _ _).shown
      unfold moveCursorBack
      split_ifs
      · exact placeCursor_shown (by omega) _
      · exact shown
    · by_cases tab : b = asciiTab
      · rw [tab, ttyWriteByte_tab]
        apply scrollIfNeeded_shown
        rw [Function.iterate_succ_apply']
        exact plain_shown (by decide) (by decide) (by decide)
      · exact plain_shown newline tab backspace

/-- After `tty_clear` and any bytes the display controller shows the cursor at
`cursor_pos`. -/
theorem tty_cursor_shown (initial : Tty) (bytes : List UInt8) :
    CursorShown (ttyWriteBytes bytes (ttyClear initial)) := by
  have start : CursorShown (ttyClear initial) :=
    placeCursor_shown (by decide) _
  have shows_ := clear_shows initial
  generalize ttyClear initial = tty at start shows_
  generalize Terminal.blank = terminal at shows_
  induction bytes generalizing tty terminal with
  | nil => exact start
  | cons b bytes induction =>
      exact induction _ (write_shown start shows_.inside b) _
        (write_shows shows_ b).1

end Newbos
