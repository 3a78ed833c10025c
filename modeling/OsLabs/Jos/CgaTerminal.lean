import OsLabs.Core.Logs
import OsLabs.Jos.Console

/-!
# The screen as a terminal

`cga_putc` keeps its cursor as a place in the display memory, advances it by
different amounts and corrects it once at the end.  What the memory shows is a
terminal of 25 rows and 80 columns.
-/

namespace OsLabs.Jos

open Function
open OsLabs.Screen (Terminal Shows moveUp)
open OsLabs.Logs (Grows)

/-- The screen. -/
abbrev CrtTerminal := Terminal 25 80 (BitVec 16)

/-- The blank that scrolling leaves. -/
def crtBlank : BitVec 16 := 0x0700 ||| chrCell ' '

/-- A character, with its colour, that is no tab. -/
def CrtTerminal.displayCell (t : CrtTerminal) (c : Word) : CrtTerminal :=
  if c &&& 0xff = chr '\x08' then t.erase ((c &&& ~~~0xff).setWidth 16 ||| chrCell ' ')
  else if c &&& 0xff = chr '\n' then t.newline crtBlank
  else if c &&& 0xff = chr '\r' then t.carriageReturn
  else t.put crtBlank (c.setWidth 16)

/-- What a character does to the screen while the colour is `csa`; a tab is five blanks. -/
def CrtTerminal.display (t : CrtTerminal) (csa c : Word) : CrtTerminal :=
  if IsTab csa c then
    (fun t : CrtTerminal => t.displayCell (shade (defaultCsa csa) (chr ' ')))^[5] t
  else t.displayCell (shade (defaultCsa csa) c)

/-- From `s`, the console has come to show `t`, and has written within the display memory. -/
structure Draws (s s' : Console) (t : CrtTerminal) : Prop where
  shows : Shows s'.crtBuf s'.crtPos.toNat t
  written : Grows (fun w : ℕ × BitVec 16 => w.1 < crtSize) s.written s'.written
  scrolled : Grows (· < crtSize) s.scrolled s'.scrolled

section Draw

variable {s s' s'' : Console} {t t' : CrtTerminal} {c : Word}

theorem Draws.refl (hshows : Shows s.crtBuf s.crtPos.toNat t) : Draws s s t :=
  ⟨hshows, Grows.refl _, Grows.refl _⟩

theorem Draws.trans (hfirst : Draws s s' t) (hsecond : Draws s' s'' t') : Draws s s'' t' where
  shows := hsecond.shows
  written := hfirst.written.trans hsecond.written
  scrolled := hfirst.scrolled.trans hsecond.scrolled

/-- A cursor on the screen stays where it is. -/
theorem settle_within (hpos : s.crtPos.toNat < crtSize) :
    s.settle = { s with cursor := ((s.crtPos >>> 8).setWidth 8, s.crtPos.setWidth 8) } := by
  rw [Console.settle, if_neg (not_le.mpr hpos)]

/-- A cursor behind the screen makes it scroll. -/
theorem settle_scroll (hpos : crtSize ≤ s.crtPos.toNat) :
    s.settle = { s.scroll with
      cursor := ((s.scroll.crtPos >>> 8).setWidth 8, s.scroll.crtPos.setWidth 8) } := by
  rw [Console.settle, if_pos hpos]

/-- What the end of `cga_putc` makes of a cursor that has not left the screen. -/
theorem Draws.settle_within (hdraws : Draws s s' t) : Draws s s'.settle t := by
  have hpos : s'.crtPos.toNat < crtSize := hdraws.shows.pos_lt
  rw [Jos.settle_within hpos]
  exact ⟨hdraws.shows, hdraws.written, hdraws.scrolled⟩

/-- Scrolling writes within the display memory. -/
theorem Draws.settle_scroll (hpos : crtSize ≤ s'.crtPos.toNat)
    (hshows : Shows (moveUp 25 80 crtBlank s'.crtBuf) (s'.crtPos.toNat - 80) t)
    (hwritten : Grows (fun w : ℕ × BitVec 16 => w.1 < crtSize) s.written s'.written)
    (hscrolled : s'.scrolled = s.scrolled) : Draws s s'.settle t := by
  have hsize : crtSize = 2000 := rfl
  have hback : (s'.crtPos - BitVec.ofNat 16 crtCols).toNat = s'.crtPos.toNat - 80 := by
    have hlt := s'.crtPos.isLt
    rw [BitVec.toNat_sub, BitVec.toNat_ofNat, show crtCols = 80 from rfl]
    omega
  rw [Jos.settle_scroll hpos]
  refine ⟨?_, hwritten, List.range crtSize, ?_, fun i => List.mem_range.mp⟩
  · show Shows (moveUp 25 80 crtBlank s'.crtBuf) (s'.crtPos - BitVec.ofNat 16 crtCols).toNat t
    rw [hback]
    exact hshows
  · show s'.scrolled ++ _ = _
    rw [hscrolled]

theorem toNat_mod_cols (pos : BitVec 16) :
    (pos % BitVec.ofNat 16 crtCols).toNat = pos.toNat % 80 := by
  rw [BitVec.toNat_umod]
  rfl

/-- A character that is no tab. -/
theorem Draws.cell (hshows : Shows s.crtBuf s.crtPos.toNat t) (c : Word) :
    Draws s (s.cgaPutcCell c).settle (t.displayCell c) := by
  have hpos : s.crtPos.toNat < 2000 := hshows.pos_lt
  have hsize : crtSize = 2000 := rfl
  have hwrite (cell : BitVec 16) (place : BitVec 16) (hplace : place.toNat < 2000) :
      Grows (fun w : ℕ × BitVec 16 => w.1 < crtSize) s.written
        (s.written ++ [(place.toNat, cell)]) :=
    Grows.snoc _ hplace
  rw [Console.cgaPutcCell, CrtTerminal.displayCell]
  by_cases hback : c &&& 0xff = chr '\x08'
  · rw [if_pos hback, if_pos hback]
    by_cases hzero : s.crtPos = 0
    · rw [if_pos hzero]
      have hstart : Shows s.crtBuf 0 t := by
        rw [hzero] at hshows
        exact hshows
      rw [hstart.erase_start]
      exact (Draws.refl hshows).settle_within
    · rw [if_neg hzero]
      have hnat : s.crtPos.toNat ≠ 0 := fun h => hzero (BitVec.eq_of_toNat_eq h)
      have hless : (s.crtPos - 1).toNat = s.crtPos.toNat - 1 := by
        rw [BitVec.toNat_sub, show (1 : BitVec 16).toNat = 1 from rfl]
        omega
      refine Draws.settle_within ⟨?_, hwrite _ (s.crtPos - 1) (by rw [hless]; omega), Grows.refl _⟩
      show Shows (update s.crtBuf (s.crtPos - 1).toNat _) (s.crtPos - 1).toNat _
      rw [hless]
      exact hshows.erase (by omega) _
  rw [if_neg hback, if_neg hback]
  by_cases hline : c &&& 0xff = chr '\n'
  · rw [if_pos hline, if_pos hline]
    dsimp only
    have hnext : (s.crtPos + BitVec.ofNat 16 crtCols -
        (s.crtPos + BitVec.ofNat 16 crtCols) % BitVec.ofNat 16 crtCols).toNat =
        s.crtPos.toNat - s.crtPos.toNat % 80 + 80 := by
      have hsum : (s.crtPos + BitVec.ofNat 16 crtCols).toNat = s.crtPos.toNat + 80 := by
        rw [BitVec.toNat_add, BitVec.toNat_ofNat, show crtCols = 80 from rfl]
        omega
      rw [BitVec.toNat_sub, toNat_mod_cols, hsum]
      omega
    by_cases hroom : s.crtPos.toNat - s.crtPos.toNat % 80 + 80 < 2000
    · refine Draws.settle_within ⟨?_, Grows.refl _, Grows.refl _⟩
      dsimp only
      rw [hnext]
      exact hshows.newline hroom
    · refine Draws.settle_scroll ?_ ?_ (Grows.refl _) rfl
      · dsimp only
        rw [hnext]
        omega
      · dsimp only
        rw [hnext, Nat.add_sub_cancel]
        exact hshows.newline_scroll (by omega)
  rw [if_neg hline, if_neg hline]
  by_cases hreturn : c &&& 0xff = chr '\r'
  · rw [if_pos hreturn, if_pos hreturn]
    have hstart : (s.crtPos - s.crtPos % BitVec.ofNat 16 crtCols).toNat =
        s.crtPos.toNat - s.crtPos.toNat % 80 := by
      rw [BitVec.toNat_sub, toNat_mod_cols]
      omega
    refine Draws.settle_within ⟨?_, Grows.refl _, Grows.refl _⟩
    dsimp only
    rw [hstart]
    exact hshows.carriageReturn
  · rw [if_neg hreturn, if_neg hreturn]
    have hnext : (s.crtPos + 1).toNat = s.crtPos.toNat + 1 := by
      rw [BitVec.toNat_add, show (1 : BitVec 16).toNat = 1 from rfl]
      omega
    by_cases hroom : s.crtPos.toNat + 1 < 2000
    · refine Draws.settle_within ⟨?_, hwrite _ _ hpos, Grows.refl _⟩
      show Shows (update s.crtBuf s.crtPos.toNat _) (s.crtPos + 1).toNat _
      rw [hnext]
      exact hshows.put hroom _
    · refine Draws.settle_scroll ?_ ?_ (hwrite _ _ hpos) rfl
      · show crtSize ≤ (s.crtPos + 1).toNat
        omega
      · show Shows (moveUp 25 80 crtBlank (update s.crtBuf s.crtPos.toNat _))
          ((s.crtPos + 1).toNat - 80) _
        rw [hnext]
        exact hshows.put_scroll (by omega) _

theorem csa_settle (s : Console) : s.settle.csa = s.csa := by
  rw [Console.settle]
  dsimp only
  split <;> rfl

theorem csa_cgaPutcCell (s : Console) (c : Word) : (s.cgaPutcCell c).settle.csa = s.csa := by
  rw [csa_settle, Console.cgaPutcCell]
  repeat' split
  all_goals rfl

theorem defaultCsa_self (csa : Word) : defaultCsa (defaultCsa csa) = defaultCsa csa := by
  by_cases hzero : csa = 0
  · rw [hzero]
    decide
  · have hsame : defaultCsa csa = csa := if_neg hzero
    rw [hsame, hsame]

theorem cgaPutc_of_not_tab (hnot : ¬ IsTab s.csa c) :
    s.cgaPutc c =
      ({ s with csa := defaultCsa s.csa }.cgaPutcCell (shade (defaultCsa s.csa) c)).settle := by
  rw [Console.cgaPutc, if_neg hnot]

/-- A tab gives five blanks to all devices. -/
theorem cgaPutc_of_tab (htab : IsTab s.csa c) :
    s.cgaPutc c =
      ((fun s : Console => s.consPutc (chr ' '))^[5] { s with csa := defaultCsa s.csa }).settle := by
  rw [Console.cgaPutc, if_pos htab]
  rfl

theorem consPutc_of_not_tab (hnot : ¬ IsTab s.csa c) :
    s.consPutc c =
      ({ (s.serialPutc c).lptPutc c with csa := defaultCsa s.csa }.cgaPutcCell
        (shade (defaultCsa s.csa) c)).settle :=
  cgaPutc_of_not_tab (s := (s.serialPutc c).lptPutc c) hnot

/-- A blank is shown by the screen as one cell. -/
theorem Draws.blank (hshows : Shows s.crtBuf s.crtPos.toNat t) :
    Draws s (s.consPutc (chr ' ')) (t.displayCell (shade (defaultCsa s.csa) (chr ' '))) := by
  rw [consPutc_of_not_tab (blank_not_tab s.csa)]
  have hcell := Draws.cell
    (s := { (s.serialPutc (chr ' ')).lptPutc (chr ' ') with csa := defaultCsa s.csa }) hshows
    (shade (defaultCsa s.csa) (chr ' '))
  exact ⟨hcell.shows, hcell.written, hcell.scrolled⟩

theorem csa_blank (s : Console) : (s.consPutc (chr ' ')).csa = defaultCsa s.csa := by
  rw [consPutc_of_not_tab (blank_not_tab s.csa), csa_cgaPutcCell]

theorem csa_blanks (n : ℕ) :
    ∀ s : Console, defaultCsa s.csa = s.csa →
      ((fun s : Console => s.consPutc (chr ' '))^[n] s).csa = s.csa := by
  induction n with
  | zero => exact fun _ _ => rfl
  | succ n ih =>
    intro s hcsa
    have hnext : (s.consPutc (chr ' ')).csa = s.csa := (csa_blank s).trans hcsa
    rw [iterate_succ_apply, ih _ (by rw [hnext, hcsa]), hnext]

theorem Draws.blanks (n : ℕ) :
    ∀ (s : Console) (t : CrtTerminal), Shows s.crtBuf s.crtPos.toNat t →
      defaultCsa s.csa = s.csa →
      Draws s ((fun s : Console => s.consPutc (chr ' '))^[n] s)
        ((fun t : CrtTerminal => t.displayCell (shade s.csa (chr ' ')))^[n] t) := by
  induction n with
  | zero => exact fun _ _ hshows _ => Draws.refl hshows
  | succ n ih =>
    intro s t hshows hcsa
    have hnext : (s.consPutc (chr ' ')).csa = s.csa := (csa_blank s).trans hcsa
    have hfirst := Draws.blank hshows
    rw [hcsa] at hfirst
    have hrest := ih _ _ hfirst.shows (by rw [hnext, hcsa])
    rw [hnext] at hrest
    rw [iterate_succ_apply, iterate_succ_apply]
    exact hfirst.trans hrest

/-- `cga_putc` remembers the colour it has used. -/
theorem csa_cgaPutc (s : Console) (c : Word) : (s.cgaPutc c).csa = defaultCsa s.csa := by
  by_cases htab : IsTab s.csa c
  · rw [cgaPutc_of_tab htab, csa_settle, csa_blanks 5 _ (defaultCsa_self s.csa)]
  · rw [cgaPutc_of_not_tab htab, csa_cgaPutcCell]

/-- `cga_putc` does to the screen what its character does to the terminal. -/
theorem Draws.putc (hshows : Shows s.crtBuf s.crtPos.toNat t) (c : Word) :
    Draws s (s.cgaPutc c) (t.display s.csa c) := by
  have hstart : Draws s { s with csa := defaultCsa s.csa } t :=
    ⟨hshows, Grows.refl _, Grows.refl _⟩
  by_cases htab : IsTab s.csa c
  · have hblanks := Draws.blanks 5 { s with csa := defaultCsa s.csa } t hshows
      (defaultCsa_self s.csa)
    rw [cgaPutc_of_tab htab, CrtTerminal.display, if_pos htab]
    exact (hstart.trans hblanks).settle_within
  · rw [cgaPutc_of_not_tab htab, CrtTerminal.display, if_neg htab]
    exact hstart.trans (Draws.cell (s := { s with csa := defaultCsa s.csa }) hshows _)

end Draw

/-! ## Runs -/

/-- `cga_putc` with the colour that the caller has set. -/
def Console.cgaCall (s : Console) (call : Word × Word) : Console :=
  { s with csa := call.1 }.cgaPutc call.2

def CrtTerminal.displayCall (t : CrtTerminal) (call : Word × Word) : CrtTerminal :=
  t.display call.1 call.2

/-- The terminal that a console shows. -/
def Console.terminal (s : Console) (hpos : s.crtPos.toNat < crtSize) : CrtTerminal where
  cell r c := s.crtBuf (80 * r + c)
  row := ⟨s.crtPos.toNat / 80, Nat.div_lt_of_lt_mul hpos⟩
  col := ⟨s.crtPos.toNat % 80, Nat.mod_lt _ (by decide)⟩

theorem Console.shows_terminal (s : Console) (hpos : s.crtPos.toNat < crtSize) :
    Shows s.crtBuf s.crtPos.toNat (s.terminal hpos) where
  cells _ _ := rfl
  cursor := (Nat.div_add_mod _ 80).symm

theorem Draws.calls (calls : List (Word × Word)) :
    ∀ (s : Console) (t : CrtTerminal), Shows s.crtBuf s.crtPos.toNat t →
      Draws s (calls.foldl Console.cgaCall s) (calls.foldl CrtTerminal.displayCall t) := by
  induction calls with
  | nil => exact fun _ _ hshows => Draws.refl hshows
  | cons call calls ih =>
    intro s t hshows
    have hputc := Draws.putc (s := { s with csa := call.1 }) hshows call.2
    have hfirst : Draws s (s.cgaCall call) (t.displayCall call) :=
      ⟨hputc.shows, hputc.written, hputc.scrolled⟩
    exact hfirst.trans (ih _ _ hfirst.shows)

/-- Any sequence of characters in any colours does to the display memory and its cursor what it
does to a terminal of 25 rows and 80 columns, and writes nowhere else. -/
theorem cgaPutc_terminal (s : Console) (hpos : s.crtPos.toNat < crtSize)
    (calls : List (Word × Word)) :
    let s' := calls.foldl Console.cgaCall s
    let t := calls.foldl CrtTerminal.displayCall (s.terminal hpos)
    s'.crtPos.toNat < crtSize ∧ s'.crtPos.toNat = crtCols * t.row + t.col ∧
      (∀ (r : Fin 25) (c : Fin 80), s'.crtBuf (crtCols * r + c) = t.cell r c) ∧
      Grows (fun w : ℕ × BitVec 16 => w.1 < crtSize) s.written s'.written ∧
      Grows (· < crtSize) s.scrolled s'.scrolled := by
  have hdraws := Draws.calls calls s _ (s.shows_terminal hpos)
  exact ⟨hdraws.shows.pos_lt, hdraws.shows.cursor, hdraws.shows.cells, hdraws.written,
    hdraws.scrolled⟩

/-- The screen after start-up, with the cursor in its last cell. -/
def lastCell : Console where
  csa := 0x0700
  crtBuf _ := crtBlank
  crtPos := 1999
  written := []
  scrolled := []
  cursor := (0x07, 0xcf)
  serial := []
  parallel := []

/-- A tab across the end of the screen. -/
theorem cgaPutc_terminal_tab :
    let s' := [(0x0700, chr '\t')].foldl Console.cgaCall lastCell
    let t := [(0x0700, chr '\t')].foldl CrtTerminal.displayCall (lastCell.terminal (by decide))
    s'.crtPos.toNat < crtSize ∧ s'.crtPos.toNat = crtCols * t.row + t.col ∧
      (∀ (r : Fin 25) (c : Fin 80), s'.crtBuf (crtCols * r + c) = t.cell r c) ∧
      Grows (fun w : ℕ × BitVec 16 => w.1 < crtSize) [] s'.written ∧
      Grows (· < crtSize) [] s'.scrolled :=
  cgaPutc_terminal lastCell (by decide) [(0x0700, chr '\t')]

end OsLabs.Jos
