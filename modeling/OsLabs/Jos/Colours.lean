import OsLabs.Jos.CgaTerminal
import OsLabs.Jos.FormatRuns

/-!
# How long a colour lasts

`%m` sets the colour of what follows.  `cga_putc` gives it only to characters
without bits above their low byte, and every `vprintfmt` sets the default colour
at its end, the nested one of `%e` too.
-/

namespace OsLabs.Jos

open Function
open OsLabs.Logs (Grows)

/-! ## One character -/

/-- The attribute in a value of `csa`, or in a character that has one. -/
def colourByte (colour : Word) : BitVec 8 := (colour >>> 8).setWidth 8

/-- The attribute of a cell. -/
def cellColour (cell : BitVec 16) : BitVec 8 := (cell >>> 8).setWidth 8

/-- What gives a character its attribute: the colour, or its own upper bits; a tab is blanks. -/
def colourOf (csa ch : Word) : Word :=
  if ch &&& ~~~0xff = 0 ∨ IsTab csa ch then defaultCsa csa else ch

/-- The character only moves the cursor. -/
def MovesCursor (csa ch : Word) : Prop :=
  shade (defaultCsa csa) ch &&& 0xff = chr '\n' ∨ shade (defaultCsa csa) ch &&& 0xff = chr '\r'

section Cell

variable {s : Console}

theorem cellColour_setWidth (w : Word) : cellColour (w.setWidth 16) = colourByte w := by
  ext i hi
  simp only [cellColour, colourByte, BitVec.getElem_setWidth, BitVec.getLsbD_ushiftRight,
    BitVec.getLsbD_setWidth]
  rw [decide_eq_true (by omega), Bool.true_and]

theorem cellColour_erased (w : Word) :
    cellColour ((w &&& ~~~0xff).setWidth 16 ||| chrCell ' ') = colourByte w := by
  ext i hi
  simp only [cellColour, colourByte, BitVec.getElem_setWidth, BitVec.getLsbD_ushiftRight,
    BitVec.getLsbD_or, BitVec.getLsbD_setWidth, BitVec.getLsbD_and]
  interval_cases i <;> simp [chrCell]

theorem colourByte_shade {csa ch : Word} (hplain : ch &&& ~~~0xff = 0) :
    colourByte (shade csa ch) = colourByte csa := by
  rw [shade, if_pos hplain]
  ext i hi
  have hmask : (~~~0xff : Word).getLsbD (8 + i) = true := by
    interval_cases i <;> rfl
  have hbit : ch.getLsbD (8 + i) = false := by
    have hall : (ch &&& ~~~0xff).getLsbD (8 + i) = (0#32).getLsbD (8 + i) :=
      congrArg (fun w : Word => w.getLsbD (8 + i)) hplain
    rwa [BitVec.getLsbD_and, hmask, Bool.and_true, BitVec.getLsbD_zero] at hall
  simp only [colourByte, BitVec.getElem_setWidth, BitVec.getLsbD_ushiftRight, BitVec.getLsbD_or,
    hbit, Bool.false_or]

theorem written_settle (s : Console) : s.settle.written = s.written := by
  rw [Console.settle]
  dsimp only
  split <;> rfl

/-- What a character that is no tab writes to the display memory. -/
theorem written_cell (s : Console) (c : Word) :
    ∃ cells, (s.cgaPutcCell c).settle.written = s.written ++ cells ∧
      (∀ cell ∈ cells, cellColour cell.2 = colourByte c) ∧
      (c &&& 0xff = chr '\n' ∨ c &&& 0xff = chr '\r' → cells = []) ∧
      (¬ (c &&& 0xff = chr '\n' ∨ c &&& 0xff = chr '\r') → s.crtPos ≠ 0 → cells ≠ []) := by
  rw [written_settle, Console.cgaPutcCell]
  have hone (place : ℕ) {cell : BitVec 16} (hcell : cellColour cell = colourByte c) :
      ∀ w ∈ [(place, cell)], cellColour w.2 = colourByte c := fun w hw => by
    rw [List.mem_singleton.mp hw]
    exact hcell
  have hnone : ∀ w ∈ ([] : List (ℕ × BitVec 16)), cellColour w.2 = colourByte c := fun _ hmem =>
    absurd hmem List.not_mem_nil
  by_cases hback : c &&& 0xff = chr '\x08'
  · have hstays : ¬ (c &&& 0xff = chr '\n' ∨ c &&& 0xff = chr '\r') := by
      rw [hback]
      decide
    rw [if_pos hback]
    by_cases hzero : s.crtPos = 0
    · rw [if_pos hzero]
      exact ⟨[], (List.append_nil _).symm, hnone, fun _ => rfl, fun _ hpos => absurd hzero hpos⟩
    · rw [if_neg hzero]
      exact ⟨_, rfl, hone _ (cellColour_erased c), fun hmoves => absurd hmoves hstays,
        fun _ _ => List.cons_ne_nil _ _⟩
  rw [if_neg hback]
  by_cases hline : c &&& 0xff = chr '\n'
  · rw [if_pos hline]
    exact ⟨[], (List.append_nil _).symm, hnone, fun _ => rfl,
      fun hstays _ => absurd (Or.inl hline) hstays⟩
  rw [if_neg hline]
  by_cases hreturn : c &&& 0xff = chr '\r'
  · rw [if_pos hreturn]
    exact ⟨[], (List.append_nil _).symm, hnone, fun _ => rfl,
      fun hstays _ => absurd (Or.inr hreturn) hstays⟩
  · rw [if_neg hreturn]
    exact ⟨_, rfl, hone _ (cellColour_setWidth c),
      fun hmoves => (hmoves.elim hline hreturn).elim, fun _ _ => List.cons_ne_nil _ _⟩

/-- The blanks of a tab. -/
theorem written_blanks (n : ℕ) :
    ∀ s : Console, defaultCsa s.csa = s.csa →
      ∃ cells, ((fun s : Console => s.consPutc (chr ' '))^[n] s).written = s.written ++ cells ∧
        (∀ cell ∈ cells, cellColour cell.2 = colourByte s.csa) ∧
        (n ≠ 0 → s.crtPos ≠ 0 → cells ≠ []) := by
  induction n with
  | zero => exact fun s _ => ⟨[], (List.append_nil _).symm, nofun, fun h => absurd rfl h⟩
  | succ n ih =>
    intro s hcsa
    have hnext : (s.consPutc (chr ' ')).csa = s.csa := (csa_blank s).trans hcsa
    obtain ⟨rest, hrest, hcolours, -⟩ := ih (s.consPutc (chr ' ')) (by rw [hnext, hcsa])
    obtain ⟨first, hfirst, hcolour, -, hsome⟩ := written_cell
      { (s.serialPutc (chr ' ')).lptPutc (chr ' ') with csa := defaultCsa s.csa }
      (shade (defaultCsa s.csa) (chr ' '))
    rw [← consPutc_of_not_tab (blank_not_tab s.csa)] at hfirst
    rw [colourByte_shade (by decide), hcsa] at hcolour
    rw [hnext] at hcolours
    refine ⟨first ++ rest, ?_, ?_, fun _ hpos => ?_⟩
    · rw [iterate_succ_apply, hrest, hfirst, List.append_assoc]
      rfl
    · exact fun cell hcell => (List.mem_append.mp hcell).elim (hcolour cell) (hcolours cell)
    · have hstays := not_or.mpr ⟨@blank_ne_control (defaultCsa s.csa) (chr '\n') (by decide),
        @blank_ne_control (defaultCsa s.csa) (chr '\r') (by decide)⟩
      exact fun hnil => hsome hstays hpos (List.append_eq_nil_iff.mp hnil).1

/-- What `cga_putc` writes to the display memory. -/
theorem written_cgaPutc (s : Console) (ch : Word) :
    ∃ cells, (s.cgaPutc ch).written = s.written ++ cells ∧
      (∀ cell ∈ cells, cellColour cell.2 = colourByte (colourOf s.csa ch)) ∧
      (MovesCursor s.csa ch → cells = []) ∧
      (¬ MovesCursor s.csa ch → s.crtPos ≠ 0 → cells ≠ []) := by
  by_cases htab : IsTab s.csa ch
  · have hstays : ¬ MovesCursor s.csa ch := by
      rw [MovesCursor, show shade (defaultCsa s.csa) ch &&& 0xff = chr '\t' from htab]
      decide
    obtain ⟨cells, hcells, hcolours, hsome⟩ :=
      written_blanks 5 { s with csa := defaultCsa s.csa } (defaultCsa_self s.csa)
    rw [cgaPutc_of_tab htab, written_settle, colourOf, if_pos (Or.inr htab)]
    exact ⟨cells, hcells, hcolours, fun hmoves => absurd hmoves hstays,
      fun _ => hsome (by decide)⟩
  · obtain ⟨cells, hcells, hcolours, hnone, hsome⟩ :=
      written_cell { s with csa := defaultCsa s.csa } (shade (defaultCsa s.csa) ch)
    rw [cgaPutc_of_not_tab htab]
    refine ⟨cells, hcells, fun cell hcell => (hcolours cell hcell).trans ?_, hnone, hsome⟩
    rw [colourOf]
    by_cases hplain : ch &&& ~~~0xff = 0
    · rw [if_pos (Or.inl hplain), colourByte_shade hplain]
    · rw [if_neg (not_or.mpr ⟨hplain, htab⟩), shade, if_neg hplain]

end Cell

/-- Wherever the cursor is, the character is displayed with the attribute that `value` has. -/
def Displayed (csa ch : Word) (value : BitVec 64) : Prop :=
  ∀ s : Console, s.csa = csa →
    Grows (fun cell : ℕ × BitVec 16 => cellColour cell.2 = (value >>> 8).setWidth 8)
      s.written (s.cgaPutc ch).written

/-- The character keeps the attribute that `value` has. -/
def CharKeeps (csa ch : Word) (value : BitVec 64) : Prop :=
  MovesCursor csa ch ∨ colourByte (colourOf csa ch) = (value >>> 8).setWidth 8

instance (csa ch : Word) (value : BitVec 64) : Decidable (CharKeeps csa ch value) :=
  inferInstanceAs (Decidable ((_ = _ ∨ _ = _) ∨ _ = _))

theorem displayed_iff {csa ch : Word} {value : BitVec 64} :
    Displayed csa ch value ↔ CharKeeps csa ch value := by
  constructor
  · intro hall
    -- a cursor in the last cell
    obtain ⟨more, hmore, hdisplayed⟩ := hall { lastCell with csa := csa } rfl
    obtain ⟨cells, hcells, hcolours, -, hsome⟩ := written_cgaPutc { lastCell with csa := csa } ch
    have hsame : cells = more := List.append_cancel_left (hcells.symm.trans hmore)
    by_cases hmoves : MovesCursor csa ch
    · exact Or.inl hmoves
    · obtain ⟨cell, hcell⟩ := List.exists_mem_of_ne_nil _
        (hsome hmoves (show (1999 : BitVec 16) ≠ 0 by decide))
      exact Or.inr ((hcolours cell hcell).symm.trans (hdisplayed cell (hsame ▸ hcell)))
  · rintro hkeeps s rfl
    obtain ⟨cells, hcells, hcolours, hnone, -⟩ := written_cgaPutc s ch
    refine ⟨cells, hcells, fun cell hcell => ?_⟩
    rcases hkeeps with hmoves | hcolour
    · rw [hnone hmoves] at hcell
      cases hcell
    · exact (hcolours cell hcell).trans hcolour

/-! ## Whole formats -/

/-- The value of the last `%m`. -/
def Piece.marks (value : BitVec 64) : Piece → BitVec 64
  | .colour num => num
  | _ => value

/-- The characters emitted, each with the colour at that time and the value of the last `%m`. -/
def marked (csa : Word) (value : BitVec 64) :
    List (Piece × List Word) → List (Word × Word × BitVec 64)
  | [] => []
  | (piece, chars) :: rest =>
      (chars.map fun ch => (ch, csa, value)) ++ marked (piece.after csa) (piece.marks value) rest

/-- The pieces keep the colours of their `%m`. -/
def KeepColours (memory : Memory) (csa : Word) (value : BitVec 64) : List Piece → Prop
  | [] => True
  | piece :: rest =>
      (value ≠ 0 → ∀ chars, piece.Text memory chars → ∀ ch ∈ chars, CharKeeps csa ch value) ∧
        KeepColours memory (piece.after csa) (piece.marks value) rest

/-- What the run has emitted after a `%m` is displayed with the attribute of the `%m`, up to the
next one, and the run leaves the default colour. -/
def ColourLasts (memory : Memory) (fmt : List (BitVec 8)) (args : List Word) (csa : Word)
    (out : Printer) : Prop :=
  ∃ emitted, pieces fmt args = some (emitted.map Prod.fst) ∧
    (∀ e ∈ emitted, e.1.Text memory e.2) ∧
    out.chars = (marked csa 0 emitted).map (fun entry => (entry.1, entry.2.1)) ∧
    (∀ entry ∈ marked csa 0 emitted, entry.2.2 ≠ 0 →
      Displayed entry.2.1 entry.1 entry.2.2) ∧ out.csa = 0x0700

section Whole

variable {memory : Memory} {fuel : ℕ} {fmt : List (BitVec 8)} {args : List Word} {csa : Word}
variable {value : BitVec 64} {emitted : List (Piece × List Word)} {out : Printer}

theorem Piece.Text.unique {piece : Piece} {chars chars' : List Word}
    (htext : piece.Text memory chars) (htext' : piece.Text memory chars') : chars = chars' := by
  cases piece with
  | error arg => exact htext.2.trans htext'.2.symm
  | string spec arg =>
    obtain ⟨bytes, hbytes, rfl⟩ := htext
    obtain ⟨bytes', hbytes', rfl⟩ := htext'
    rw [hbytes.unique hbytes']
  | _ => exact Eq.trans htext htext'.symm

theorem marked_coloured :
    (marked csa value emitted).map (fun entry => (entry.1, entry.2.1)) = coloured csa emitted := by
  induction emitted generalizing csa value with
  | nil => rfl
  | cons e emitted ih =>
    rw [marked, coloured, List.map_append, List.map_map, ih]
    rfl

/-- The pieces keep the colours just when each character is displayed with the attribute of the
last `%m`. -/
theorem keepColours_iff (htexts : ∀ e ∈ emitted, e.1.Text memory e.2) :
    KeepColours memory csa value (emitted.map Prod.fst) ↔
      ∀ entry ∈ marked csa value emitted, entry.2.2 ≠ 0 →
        Displayed entry.2.1 entry.1 entry.2.2 := by
  induction emitted generalizing csa value with
  | nil => exact iff_of_true trivial nofun
  | cons e emitted ih =>
    obtain ⟨htext, hrest⟩ := List.forall_mem_cons.mp htexts
    rw [List.map_cons, KeepColours, ih hrest, marked, List.forall_mem_append, List.forall_mem_map]
    refine and_congr_left fun _ => ?_
    constructor
    · exact fun hkeeps ch hch hne => displayed_iff.mpr (hkeeps hne _ htext ch hch)
    · intro hdisplayed hne chars hchars ch hch
      rw [hchars.unique htext] at hch
      exact displayed_iff.mp (hdisplayed ch hch hne)

/-- The colour of each `%m` lasts if and only if the pieces keep the colours. -/
theorem colour_lasts_iff {ps : List Piece} (hnul : 0 ∉ fmt) (hpieces : pieces fmt args = some ps)
    (hrun : vprintfmt memory fuel fmt 0 args (Printer.start csa) = some out) :
    ColourLasts memory fmt args csa out ↔ KeepColours memory csa 0 ps := by
  constructor
  · rintro ⟨emitted, hemitted, htexts, -, hdisplayed, -⟩
    have hps : ps = emitted.map Prod.fst := Option.some.inj (hpieces.symm.trans hemitted)
    rw [hps, keepColours_iff htexts]
    exact hdisplayed
  · intro hkeeps
    obtain ⟨emitted, hemitted, htexts, hchars, hcsa, -⟩ := vprintfmt_emits List.drop_zero
      (Nat.zero_le _) hnul hrun
    have hps : ps = emitted.map Prod.fst := Option.some.inj (hpieces.symm.trans hemitted)
    rw [hps, keepColours_iff htexts] at hkeeps
    refine ⟨emitted, hemitted, htexts, ?_, hkeeps, hcsa⟩
    rw [marked_coloured, hchars]
    rfl

end Whole

/-- `%e` ends the colour: the letter behind it has the default one. -/
theorem error_ends_colour : ¬ ∀ (memory : Memory) (fuel : ℕ) (fmt : List (BitVec 8))
    (args : List Word) (csa : Word) (out : Printer), 0 ∉ fmt →
      vprintfmt memory fuel fmt 0 args (Printer.start csa) = some out →
      ColourLasts memory fmt args csa out := by
  intro hall
  have hfmt : text "%m%ea" = [percentByte, BitVec.ofNat 8 'm'.toNat, percentByte,
      BitVec.ofNat 8 'e'.toNat, BitVec.ofNat 8 'a'.toNat] := rfl
  have hpieces : pieces (text "%m%ea") [0x0100, 1] =
      some [.colour 0x0100, .error 1, .plain (BitVec.ofNat 8 'a'.toNat)] := by
    rw [hfmt, pieces_single rfl, pieces_single rfl,
      pieces_plain ⟨by decide, by decide⟩, pieces]
    rfl
  have hrun : ∃ out, vprintfmt (fun _ => none) 30 (text "%m%ea") 0 [0x0100, 1]
      (Printer.start 0x0700) = some out := ⟨_, rfl⟩
  obtain ⟨out, hrun⟩ := hrun
  obtain ⟨emitted, hemitted, htexts, -, hdisplayed, -⟩ := hall _ _ _ _ _ out (by decide) hrun
  have hkeeps := (keepColours_iff htexts).mpr hdisplayed
  rw [← Option.some.inj (hpieces.symm.trans hemitted)] at hkeeps
  have hletter : CharKeeps 0x0700 (chr 'a') 0x0100 :=
    hkeeps.2.2.1 (by decide) _ rfl _ List.mem_cons_self
  exact absurd hletter (by decide)

/-- A letter in a colour. -/
theorem colour_lasts_letter :
    ColourLasts (fun _ => none) (text "%ma") [0x0100] 0x0700
      ⟨[0, 1, 2, 3], [], [(chr 'a', 0x0100)], 0x0700⟩ := by
  have hpieces : pieces (text "%ma") [0x0100] =
      some [.colour 0x0100, .plain (BitVec.ofNat 8 'a'.toNat)] := by
    rw [show text "%ma" = [percentByte, BitVec.ofNat 8 'm'.toNat, BitVec.ofNat 8 'a'.toNat] from
      rfl, pieces_single rfl, pieces_plain ⟨by decide, by decide⟩, pieces]
    rfl
  have hrun : vprintfmt (fun _ => none) 4 (text "%ma") 0 [0x0100] (Printer.start 0x0700) =
      some ⟨[0, 1, 2, 3], [], [(chr 'a', 0x0100)], 0x0700⟩ := rfl
  refine (colour_lasts_iff (by decide) hpieces hrun).mpr ⟨fun hzero => absurd rfl hzero, ?_, trivial⟩
  intro _ chars hchars ch hch
  rw [show chars = [chr 'a'] from hchars, List.mem_singleton] at hch
  rw [hch]
  decide

end OsLabs.Jos
