import OsLabs.Core.Terminal
import OsLabs.Jos.Printfmt

/-!
# The console output

`cons_putc` gives a character to the serial port, to the parallel port and to
the screen.  The screen driver shows a tab by calling `cons_putc` again, so that
five blanks go to the ports as well.
-/

namespace OsLabs.Jos

open Function

/-! ## `kern/console.c` -/

def crtCols : ℕ := 80

def crtRows : ℕ := 25

def crtSize : ℕ := crtRows * crtCols

/-- The output devices: the colour `csa`, the display memory and its cursor, and what has been
done to them: the cells that characters were written to, the places that scrolling wrote to, the
cursor registers of the 6845, and the bytes sent to the two ports. -/
structure Console where
  csa : Word
  crtBuf : ℕ → BitVec 16
  crtPos : BitVec 16
  written : List (ℕ × BitVec 16)
  scrolled : List ℕ
  cursor : BitVec 8 × BitVec 8
  serial : List (BitVec 8)
  parallel : List (BitVec 8)

/-- A character constant in a byte or a cell. -/
def chrCell (c : Char) : BitVec 16 := BitVec.ofNat 16 c.toNat

/-- `c |= csa`, unless `c` has bits above its low byte. -/
def shade (csa c : Word) : Word := if c &&& ~~~0xff = 0 then c ||| csa else c

namespace Console

/-- `crt_buf[crt_pos] = cell`. -/
def writeCell (s : Console) (cell : BitVec 16) : Console :=
  { s with crtBuf := update s.crtBuf s.crtPos.toNat cell,
           written := s.written ++ [(s.crtPos.toNat, cell)] }

/-- The `memmove` of the rows, and the blanks in the last row. -/
def scroll (s : Console) : Console :=
  { s with crtBuf := Screen.moveUp crtRows crtCols (0x0700 ||| chrCell ' ') s.crtBuf,
           crtPos := s.crtPos - BitVec.ofNat 16 crtCols,
           scrolled := s.scrolled ++ List.range crtSize }

/-- The end of `cga_putc`: the screen scrolls if the cursor has left it, and the 6845 is told. -/
def settle (s : Console) : Console :=
  let s := if crtSize ≤ s.crtPos.toNat then s.scroll else s
  { s with cursor := ((s.crtPos >>> 8).setWidth 8, s.crtPos.setWidth 8) }

/-- `serial_putc`, which waits for the port for a while and sends in any case. -/
def serialPutc (s : Console) (c : Word) : Console :=
  { s with serial := s.serial ++ [c.setWidth 8] }

/-- `lpt_putc`. -/
def lptPutc (s : Console) (c : Word) : Console :=
  { s with parallel := s.parallel ++ [c.setWidth 8] }

/-- `cga_putc` for a character, with its colour, that is no tab. -/
def cgaPutcCell (s : Console) (c : Word) : Console :=
  if c &&& 0xff = chr '\x08' then
    if s.crtPos = 0 then s
    else
      { s with crtPos := s.crtPos - 1 }.writeCell
        ((c &&& ~~~0xff).setWidth 16 ||| chrCell ' ')
  else if c &&& 0xff = chr '\n' then
    let pos := s.crtPos + BitVec.ofNat 16 crtCols
    { s with crtPos := pos - pos % BitVec.ofNat 16 crtCols }
  else if c &&& 0xff = chr '\r' then
    { s with crtPos := s.crtPos - s.crtPos % BitVec.ofNat 16 crtCols }
  else
    let s := s.writeCell (c.setWidth 16)
    { s with crtPos := s.crtPos + 1 }

end Console

/-- The colour that `cga_putc` uses. -/
def defaultCsa (csa : Word) : Word := if csa = 0 then 0x0700 else csa

/-- The character is shown as a tab. -/
def IsTab (csa c : Word) : Prop := shade (defaultCsa csa) c &&& 0xff = chr '\t'

instance (csa c : Word) : Decidable (IsTab csa c) := inferInstanceAs (Decidable (_ = _))

/-- No colour makes a control character of a blank. -/
theorem blank_ne_control (csa : Word) {control : Word} (hcontrol : control.getLsbD 5 = false) :
    shade csa (chr ' ') &&& 0xff ≠ control := by
  intro hsame
  have hbit := congrArg (fun w : Word => w.getLsbD 5) hsame
  have hshade : shade csa (chr ' ') = chr ' ' ||| csa := if_pos (by decide)
  have hblank : (chr ' ').getLsbD 5 = true := by decide
  have hmask : (0xff : Word).getLsbD 5 = true := by decide
  simp only [hshade, BitVec.getLsbD_and, BitVec.getLsbD_or, hblank, hmask, hcontrol, Bool.true_or,
    Bool.and_true, Bool.true_eq_false] at hbit

theorem blank_not_tab (csa : Word) : ¬ IsTab csa (chr ' ') :=
  blank_ne_control (defaultCsa csa) (by decide)

/-- `cga_putc`. -/
def Console.cgaPutc (s : Console) (c : Word) : Console :=
  if IsTab s.csa c then
    let s := { s with csa := defaultCsa s.csa }
    let putBlank (s : Console) : Console :=
      ((s.serialPutc (chr ' ')).lptPutc (chr ' ')).cgaPutc (chr ' ')
    (putBlank (putBlank (putBlank (putBlank (putBlank s))))).settle
  else
    ({ s with csa := defaultCsa s.csa }.cgaPutcCell (shade (defaultCsa s.csa) c)).settle
termination_by if IsTab s.csa c then 1 else 0
decreasing_by
  rw [if_neg (blank_not_tab _), if_pos ‹_›]
  exact Nat.one_pos

/-- `cons_putc`, and `cputchar`. -/
def Console.consPutc (s : Console) (c : Word) : Console :=
  ((s.serialPutc c).lptPutc c).cgaPutc c

end OsLabs.Jos
