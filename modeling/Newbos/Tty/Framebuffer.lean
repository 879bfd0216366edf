import Newbos.Library.Word

/-!
# The text framebuffer

The terminal driver keeps a flat 16-bit cursor over an 80x25 screen of two-byte
cells and programs the cursor of the display controller.  Every byte it writes
to the framebuffer is recorded by its offset.
-/

namespace Newbos

abbrev ttyNumCols : Nat := 80

abbrev ttyNumRows : Nat := 25

abbrev ttyCursorDataPort : Nat := 0x3D5

abbrev ttyCursorIndexPort : Nat := 0x3D4

abbrev ttyHighByte : Nat := 14

abbrev ttyLowByte : Nat := 15

/-- `BLACK_ON_WHITE`. -/
abbrev blackOnWhite : UInt8 := 0x0F

/-- `TTY_BACKSPACE_ASCII`. -/
abbrev ttyBackspaceAscii : UInt8 := 8

abbrev asciiTab : UInt8 := 9

abbrev asciiNewline : UInt8 := 10

abbrev asciiSpace : UInt8 := 32

/-- The value of an unsigned 16-bit expression. -/
def w16 (value : Nat) : Nat :=
  value % 65536

/-- Bytes by offset from `fb`, `cursor_pos`, the offsets written so far, and
the registers of the display controller. -/
structure Tty where
  fb : Nat → UInt8
  cursorPos : Nat
  written : List Nat
  crtcIndex : Nat
  crtc : Nat → Nat

/-- `outb` to one of the two ports of the display controller. -/
def outb (port value : Nat) (tty : Tty) : Tty :=
  if port = ttyCursorIndexPort then
    { tty with crtcIndex := value % 256 }
  else if port = ttyCursorDataPort then
    { tty with crtc := Store.set tty.crtc tty.crtcIndex (value % 256) }
  else tty

/-- `TO_ADDRESS`, as an offset from `fb`. -/
def toAddress (row col : Nat) : Nat :=
  2 * (row * ttyNumCols + col)

def readCell (row col : Nat) (tty : Tty) : UInt8 :=
  tty.fb (toAddress row col)

def writeCell (cell : Nat) (b : UInt8) (tty : Tty) : Tty :=
  { tty with
    fb := Store.set (Store.set tty.fb cell b) (cell + 1) blackOnWhite
    written := (cell + 1) :: cell :: tty.written }

def writeAt (b : UInt8) (row col : Nat) (tty : Tty) : Tty :=
  writeCell (toAddress row col) b tty

def setCursor (loc : Nat) (tty : Tty) : Tty :=
  let tty := outb ttyCursorIndexPort ttyHighByte tty
  let tty := outb ttyCursorDataPort (loc / 256) tty
  let tty := outb ttyCursorIndexPort ttyLowByte tty
  outb ttyCursorDataPort loc tty

/-- Assign `cursor_pos` and program it. -/
def placeCursor (loc : Nat) (tty : Tty) : Tty :=
  setCursor loc { tty with cursorPos := loc }

def moveCursorForward (tty : Tty) : Tty :=
  placeCursor (w16 (tty.cursorPos + 1)) tty

def moveCursorBack (tty : Tty) : Tty :=
  if tty.cursorPos ≠ 0 then placeCursor (tty.cursorPos - 1) tty
  else tty

def moveCursorDown (tty : Tty) : Tty :=
  placeCursor (w16 (tty.cursorPos + ttyNumCols)) tty

def moveCursorStart (tty : Tty) : Tty :=
  placeCursor (tty.cursorPos - tty.cursorPos % ttyNumCols) tty

def ttyMoveCursor (row col : Nat) (tty : Tty) : Tty :=
  placeCursor (w16 (row * ttyNumCols + col)) tty

/-- The first `count` columns of one row of the copying loop of `scroll`. -/
def scrollRow (row : Nat) : Nat → Tty → Tty
  | 0, tty => tty
  | count + 1, tty =>
      let tty := scrollRow row count tty
      writeAt (readCell row count tty) (row - 1) count tty

/-- The rows 1 to `count` of the copying loop of `scroll`. -/
def scrollRows : Nat → Tty → Tty
  | 0, tty => tty
  | count + 1, tty => scrollRow (count + 1) ttyNumCols (scrollRows count tty)

/-- A loop that blanks the first `count` columns of a row. -/
def blankRow (row : Nat) : Nat → Tty → Tty
  | 0, tty => tty
  | count + 1, tty => writeAt asciiSpace row count (blankRow row count tty)

def scroll (tty : Tty) : Tty :=
  blankRow (ttyNumRows - 1) ttyNumCols (scrollRows (ttyNumRows - 1) tty)

/-- The outer loop of `tty_clear`. -/
def clearRows : Nat → Tty → Tty
  | 0, tty => tty
  | count + 1, tty => blankRow count ttyNumCols (clearRows count tty)

def ttyClear (tty : Tty) : Tty :=
  ttyMoveCursor 0 0 (clearRows ttyNumRows tty)

/-- The body of `tty_write_byte`, over the function it calls for tabs. -/
def ttyWriteByteBody (ttyWriteByte : UInt8 → Tty → Tty) (b : UInt8)
    (tty : Tty) : Tty :=
  let tty :=
    if b ≠ asciiNewline ∧ b ≠ asciiTab ∧ b ≠ ttyBackspaceAscii then
      writeCell (2 * tty.cursorPos) b tty
    else tty
  let tty :=
    if b = asciiNewline then moveCursorStart (moveCursorDown tty)
    else if b = ttyBackspaceAscii then
      let tty := moveCursorBack tty
      writeCell (2 * tty.cursorPos) asciiSpace tty
    else if b = asciiTab then
      (ttyWriteByte asciiSpace)^[4] tty
    else moveCursorForward tty
  if ttyNumCols * ttyNumRows ≤ tty.cursorPos then
    ttyMoveCursor 24 0 (scroll tty)
  else tty

/-- `tty_write_byte`; only a tab calls it again, and that with a space. -/
def ttyWriteByte (b : UInt8) (tty : Tty) : Tty :=
  ttyWriteByteBody (ttyWriteByteBody fun _ tty => tty) b tty

private theorem ttyWriteByteBody_of_not_tab
    (first second : UInt8 → Tty → Tty) {b : UInt8} (notTab : b ≠ asciiTab)
    (tty : Tty) :
    ttyWriteByteBody first b tty = ttyWriteByteBody second b tty := by
  simp only [ttyWriteByteBody, if_neg notTab]

theorem ttyWriteByte_eq (b : UInt8) (tty : Tty) :
    ttyWriteByte b tty = ttyWriteByteBody ttyWriteByte b tty := by
  have space : (ttyWriteByteBody fun _ tty => tty) asciiSpace =
      ttyWriteByte asciiSpace := by
    funext tty
    exact ttyWriteByteBody_of_not_tab _ _ (by decide) tty
  rw [ttyWriteByte]
  simp only [ttyWriteByteBody, ← space]

/-- The characters written one after the other. -/
def ttyWriteBytes (bytes : List UInt8) (tty : Tty) : Tty :=
  bytes.foldl (fun tty b => ttyWriteByte b tty) tty

/-! ## Cells -/

def Tty.charAt (tty : Tty) (position : Nat) : UInt8 :=
  tty.fb (2 * position)

def Tty.attributeAt (tty : Tty) (position : Nat) : UInt8 :=
  tty.fb (2 * position + 1)

/-- Every framebuffer byte written since `tty` has an offset below `limit`. -/
def WritesBelow (limit : Nat) (tty after : Tty) : Prop :=
  ∃ log, after.written = log ++ tty.written ∧
    ∀ offset ∈ log, offset < limit

theorem WritesBelow.refl (limit : Nat) (tty : Tty) :
    WritesBelow limit tty tty :=
  ⟨[], rfl, by simp⟩

theorem WritesBelow.trans {limit : Nat} {tty middle after : Tty}
    (first : WritesBelow limit tty middle)
    (second : WritesBelow limit middle after) :
    WritesBelow limit tty after := by
  obtain ⟨firstLog, firstEq, firstSmall⟩ := first
  obtain ⟨secondLog, secondEq, secondSmall⟩ := second
  refine ⟨secondLog ++ firstLog, ?_, ?_⟩
  · rw [secondEq, firstEq, List.append_assoc]
  · intro offset member
    cases List.mem_append.mp member with
    | inl later => exact secondSmall offset later
    | inr earlier => exact firstSmall offset earlier

theorem WritesBelow.mono {small large : Nat} {tty after : Tty}
    (writes : WritesBelow small tty after) (bound : small ≤ large) :
    WritesBelow large tty after := by
  obtain ⟨log, logEq, below⟩ := writes
  exact ⟨log, logEq, fun offset member =>
    Nat.lt_of_lt_of_le (below offset member) bound⟩

/-- The cells from `first` to `last` now hold `chars`; nothing else changed. -/
structure Painted (tty after : Tty) (first last : Nat)
    (chars : Nat → UInt8) : Prop where
  char : ∀ position, after.charAt position =
    if first ≤ position ∧ position < last then chars position
    else tty.charAt position
  attr : ∀ position, after.attributeAt position =
    if first ≤ position ∧ position < last then blackOnWhite
    else tty.attributeAt position
  cursorPos : after.cursorPos = tty.cursorPos
  crtc : after.crtc = tty.crtc
  writes : WritesBelow (2 * last) tty after

namespace Painted

variable {tty middle after : Tty} {first between last : Nat}
  {chars others : Nat → UInt8}

theorem empty (tty : Tty) (first : Nat) (chars : Nat → UInt8) :
    Painted tty tty first first chars where
  char := fun position => by
    rw [if_neg (by omega)]
  attr := fun position => by
    rw [if_neg (by omega)]
  cursorPos := rfl
  crtc := rfl
  writes := WritesBelow.refl _ _

theorem congr (painted : Painted tty after first last chars)
    (same : ∀ position, first ≤ position → position < last →
      others position = chars position) :
    Painted tty after first last others where
  char := fun position => by
    rw [painted.char position]
    split_ifs with inside
    · exact (same position inside.1 inside.2).symm
    · rfl
  attr := painted.attr
  cursorPos := painted.cursorPos
  crtc := painted.crtc
  writes := painted.writes

theorem trans (earlier : Painted tty middle first between chars)
    (later : Painted middle after between last chars)
    (firstBetween : first ≤ between) (betweenLast : between ≤ last) :
    Painted tty after first last chars where
  char := fun position => by
    rw [later.char position, earlier.char position]
    split_ifs <;> first | rfl | omega
  attr := fun position => by
    rw [later.attr position, earlier.attr position]
    split_ifs <;> first | rfl | omega
  cursorPos := later.cursorPos.trans earlier.cursorPos
  crtc := later.crtc.trans earlier.crtc
  writes := (earlier.writes.mono (by omega)).trans later.writes

theorem cell (tty : Tty) (position : Nat) (b : UInt8) :
    Painted tty (writeCell (2 * position) b tty) position (position + 1)
      (fun _ => b) where
  char := fun other => by
    simp only [Tty.charAt, writeCell, Store.set]
    split_ifs <;> first | rfl | omega
  attr := fun other => by
    simp only [Tty.attributeAt, writeCell, Store.set]
    split_ifs <;> first | rfl | omega
  cursorPos := rfl
  crtc := rfl
  writes := ⟨[2 * position + 1, 2 * position], rfl, by
    intro offset member
    simp only [List.mem_cons, List.not_mem_nil, or_false] at member
    omega⟩

theorem at_ (tty : Tty) (b : UInt8) (row col : Nat) :
    Painted tty (writeAt b row col tty) (80 * row + col)
      (80 * row + col + 1) (fun _ => b) := by
  have position : toAddress row col = 2 * (80 * row + col) := by
    simp only [toAddress, ttyNumCols]
    omega
  rw [writeAt, position]
  exact cell tty _ b

end Painted

theorem scrollRow_painted (row : Nat) {count : Nat} (small : count ≤ 80)
    (tty : Tty) :
    Painted tty (scrollRow (row + 1) count tty) (80 * row) (80 * row + count)
      (fun position => tty.charAt (position + 80)) := by
  induction count with
  | zero => exact Painted.empty _ _ _
  | succ count induction =>
      have painted := induction (by omega)
      have copied : readCell (row + 1) count (scrollRow (row + 1) count tty) =
          tty.charAt (80 * row + count + 80) := by
        have address : toAddress (row + 1) count =
            2 * (80 * row + count + 80) := by
          simp only [toAddress, ttyNumCols]
          omega
        have unchanged := painted.char (80 * row + count + 80)
        rw [if_neg (by omega)] at unchanged
        rw [readCell, address]
        exact unchanged
      rw [scrollRow, copied]
      refine painted.trans ((Painted.at_ _ _ row count).congr ?_)
        (by omega) (by omega)
      intro position lower upper
      have same : position = 80 * row + count := by omega
      rw [same]

theorem scrollRows_painted (count : Nat) (tty : Tty) :
    Painted tty (scrollRows count tty) 0 (80 * count)
      (fun position => tty.charAt (position + 80)) := by
  induction count with
  | zero => exact Painted.empty _ _ _
  | succ count induction =>
      have next := scrollRow_painted count (Nat.le_refl 80)
        (scrollRows count tty)
      rw [scrollRows]
      refine induction.trans (next.congr ?_) (by omega) (by omega)
      intro position lower _
      rw [induction.char (position + 80), if_neg (by omega)]

theorem blankRow_painted (row count : Nat) (tty : Tty) :
    Painted tty (blankRow row count tty) (80 * row) (80 * row + count)
      (fun _ => asciiSpace) := by
  induction count with
  | zero => exact Painted.empty _ _ _
  | succ count induction =>
      rw [blankRow]
      exact induction.trans (Painted.at_ _ _ row count) (by omega) (by omega)

theorem scroll_painted (tty : Tty) :
    Painted tty (scroll tty) 0 2000
      (fun position => if position < 1920 then tty.charAt (position + 80)
        else asciiSpace) := by
  have copied := scrollRows_painted 24 tty
  have blanked := blankRow_painted 24 80 (scrollRows 24 tty)
  refine Painted.trans (copied.congr ?_) (blanked.congr ?_) (by omega)
    (by omega)
  · intro position _ upper
    rw [if_pos (by omega)]
  · intro position lower _
    rw [if_neg (by omega)]

theorem clearRows_painted (count : Nat) (tty : Tty) :
    Painted tty (clearRows count tty) 0 (80 * count)
      (fun _ => asciiSpace) := by
  induction count with
  | zero => exact Painted.empty _ _ _
  | succ count induction =>
      rw [clearRows]
      exact induction.trans (blankRow_painted count 80 _) (by omega)
        (by omega)

/-! ## The cursor -/

@[simp] theorem placeCursor_cursorPos (loc : Nat) (tty : Tty) :
    (placeCursor loc tty).cursorPos = loc := by
  simp [placeCursor, setCursor, outb]

@[simp] theorem placeCursor_fb (loc : Nat) (tty : Tty) :
    (placeCursor loc tty).fb = tty.fb := by
  simp [placeCursor, setCursor, outb]

@[simp] theorem placeCursor_written (loc : Nat) (tty : Tty) :
    (placeCursor loc tty).written = tty.written := by
  simp [placeCursor, setCursor, outb]

/-- The display controller shows the cursor at `loc`. -/
theorem placeCursor_crtc {loc : Nat} (small : loc < 65536) (tty : Tty) :
    256 * (placeCursor loc tty).crtc ttyHighByte +
      (placeCursor loc tty).crtc ttyLowByte = loc := by
  have high : (placeCursor loc tty).crtc ttyHighByte = loc / 256 % 256 := by
    simp [placeCursor, setCursor, outb, Store.set, ttyHighByte, ttyLowByte]
  have low : (placeCursor loc tty).crtc ttyLowByte = loc % 256 := by
    simp [placeCursor, setCursor, outb, ttyLowByte]
  rw [high, low]
  omega

@[simp] theorem placeCursor_charAt (loc : Nat) (tty : Tty)
    (position : Nat) :
    (placeCursor loc tty).charAt position = tty.charAt position := by
  simp [Tty.charAt]

@[simp] theorem placeCursor_attributeAt (loc : Nat) (tty : Tty)
    (position : Nat) :
    (placeCursor loc tty).attributeAt position =
      tty.attributeAt position := by
  simp [Tty.attributeAt]

theorem placeCursor_writes (limit loc : Nat) (tty : Tty) :
    WritesBelow limit tty (placeCursor loc tty) :=
  ⟨[], by simp, by simp⟩

end Newbos
