import Mathlib.Logic.Function.Basic
import Mathlib.Tactic.Ring
import Mathlib.Order.Defs.LinearOrder

/-!
# Scrolling terminals

A screen of rows and columns with a cursor: writing past the last cell moves all
rows up by one and leaves a blank row at the bottom.  A display memory keeps the
cells one row behind the other, and the cursor as a place in it.
-/

namespace OsLabs.Screen

open Function

structure Terminal (rows cols : ℕ) (α : Type*) where
  cell : Fin rows → Fin cols → α
  row : Fin rows
  col : Fin cols

variable {rows cols : ℕ} {α : Type*}

namespace Terminal

/-- All rows move up by one. -/
def scroll (blank : α) (t : Terminal rows cols α) : Terminal rows cols α :=
  { t with cell := fun r c => if hr : r + 1 < rows then t.cell ⟨r + 1, hr⟩ c else blank }

def lineFeed (blank : α) (t : Terminal rows cols α) : Terminal rows cols α :=
  if hrow : t.row + 1 < rows then { t with row := ⟨t.row + 1, hrow⟩ } else t.scroll blank

def carriageReturn (t : Terminal rows cols α) : Terminal rows cols α :=
  { t with col := ⟨0, (Nat.zero_le _).trans_lt t.col.isLt⟩ }

/-- The first cell of the next row. -/
def newline (blank : α) (t : Terminal rows cols α) : Terminal rows cols α :=
  (t.lineFeed blank).carriageReturn

/-- The cell at the cursor is written. -/
def write (t : Terminal rows cols α) (item : α) : Terminal rows cols α :=
  { t with cell := update t.cell t.row (update (t.cell t.row) t.col item) }

/-- The cell at the cursor is written and the cursor moves on. -/
def put (blank : α) (t : Terminal rows cols α) (item : α) : Terminal rows cols α :=
  if hcol : t.col + 1 < cols then { t.write item with col := ⟨t.col + 1, hcol⟩ }
  else (t.write item).newline blank

/-- The cursor moves back, over the beginning of a row too, and the cell there is written; nothing
happens at the first cell of the screen. -/
def erase (t : Terminal rows cols α) (item : α) : Terminal rows cols α :=
  if 0 < (t.col : ℕ) then
    { t with col := ⟨t.col - 1, (Nat.sub_le _ _).trans_lt t.col.isLt⟩ }.write item
  else if 0 < (t.row : ℕ) then
    { t with
      row := ⟨t.row - 1, (Nat.sub_le _ _).trans_lt t.row.isLt⟩,
      col := ⟨cols - 1, Nat.sub_lt ((Nat.zero_le _).trans_lt t.col.isLt) Nat.one_pos⟩ }.write item
  else t

end Terminal

/-! ## Display memory -/

/-- The display memory shows the terminal. -/
structure Shows (buf : ℕ → α) (pos : ℕ) (t : Terminal rows cols α) : Prop where
  cells : ∀ (r : Fin rows) (c : Fin cols), buf (cols * r + c) = t.cell r c
  cursor : pos = cols * t.row + t.col

/-- The display memory when it has been moved up by a row. -/
def moveUp (rows cols : ℕ) (blank : α) (buf : ℕ → α) (i : ℕ) : α :=
  if i < cols * (rows - 1) then buf (i + cols) else if i < cols * rows then blank else buf i

variable {buf : ℕ → α} {pos : ℕ} {t : Terminal rows cols α} {blank item : α}

theorem place_lt (r : Fin rows) (c : Fin cols) : cols * r + c < cols * rows := by
  calc
    cols * (r : ℕ) + c < cols * r + cols := Nat.add_lt_add_left c.isLt _
    _ = cols * (r + 1) := (Nat.mul_succ _ _).symm
    _ ≤ cols * rows := Nat.mul_le_mul_left _ r.isLt

/-- Places of different cells are different. -/
theorem place_inj {r r' : Fin rows} {c c' : Fin cols}
    (hsame : cols * (r : ℕ) + c = cols * r' + c') : r = r' ∧ c = c' := by
  have hpos : 0 < cols := (Nat.zero_le _).trans_lt c.isLt
  have hrow : (r : ℕ) = r' := by
    have hdiv := congrArg (· / cols) hsame
    simpa only [Nat.mul_add_div hpos, Nat.div_eq_of_lt c.isLt, Nat.div_eq_of_lt c'.isLt,
      Nat.add_zero] using hdiv
  have hcol : (c : ℕ) = c' := by
    rw [hrow] at hsame
    exact Nat.add_left_cancel hsame
  exact ⟨Fin.ext hrow, Fin.ext hcol⟩

namespace Shows

theorem pos_lt (hshows : Shows buf pos t) : pos < cols * rows := by
  rw [hshows.cursor]
  exact place_lt t.row t.col

theorem pos_mod (hshows : Shows buf pos t) : pos % cols = t.col := by
  rw [hshows.cursor, Nat.mul_add_mod, Nat.mod_eq_of_lt t.col.isLt]

/-- The place of the first cell of the row. -/
theorem row_start (hshows : Shows buf pos t) : pos - pos % cols = cols * t.row := by
  rw [hshows.pos_mod, hshows.cursor, Nat.add_sub_cancel]

theorem write (hshows : Shows buf pos t) (item : α) :
    Shows (update buf pos item) pos (t.write item) where
  cells r c := by
    change _ = update t.cell t.row (update (t.cell t.row) t.col item) r c
    by_cases hrow : r = t.row
    · subst hrow
      rw [update_self]
      by_cases hcol : c = t.col
      · rw [hcol, ← hshows.cursor, update_self, update_self]
      · rw [update_of_ne hcol, update_of_ne, hshows.cells]
        intro hsame
        exact hcol (place_inj (hsame.trans hshows.cursor)).2
    · rw [update_of_ne hrow, update_of_ne, hshows.cells]
      intro hsame
      exact hrow (place_inj (hsame.trans hshows.cursor)).1
  cursor := hshows.cursor

theorem scroll (hshows : Shows buf pos t) (blank : α) :
    Shows (moveUp rows cols blank buf) pos (t.scroll blank) where
  cells r c := by
    have hbound := place_lt r c
    have hlast : cols * (rows - 1) + cols = cols * rows := by
      rw [← Nat.mul_succ, Nat.succ_eq_add_one, Nat.sub_add_cancel ((Nat.zero_le _).trans_lt r.isLt)]
    change moveUp rows cols blank buf (cols * r + c) =
      if hr : (r : ℕ) + 1 < rows then t.cell ⟨r + 1, hr⟩ c else blank
    rw [moveUp]
    by_cases hr : (r : ℕ) + 1 < rows
    · have hnext := hshows.cells ⟨r + 1, hr⟩ c
      have hplace : cols * (r : ℕ) + c + cols = cols * (r + 1) + c := by
        rw [Nat.mul_succ]
        omega
      have hbefore : cols * (r : ℕ) + c + cols < cols * rows := by
        rw [hplace]
        exact place_lt ⟨r + 1, hr⟩ c
      rw [if_pos (by omega), dif_pos hr, hplace]
      exact hnext
    · have hrow : (r : ℕ) = rows - 1 := by omega
      rw [if_neg (by rw [hrow]; omega), if_pos hbound, dif_neg hr]
  cursor := hshows.cursor

theorem carriageReturn (hshows : Shows buf pos t) :
    Shows buf (pos - pos % cols) t.carriageReturn :=
  ⟨hshows.cells, hshows.row_start⟩

/-- A new line, within the screen. -/
theorem newline (hshows : Shows buf pos t) (hroom : pos - pos % cols + cols < cols * rows) :
    Shows buf (pos - pos % cols + cols) (t.newline blank) := by
  have hcols : cols * ((t.row : ℕ) + 1) < cols * rows := by
    rw [Nat.mul_succ, ← hshows.row_start]
    exact hroom
  have hrow : (t.row : ℕ) + 1 < rows := Nat.lt_of_mul_lt_mul_left hcols
  rw [Terminal.newline, Terminal.lineFeed, dif_pos hrow]
  refine ⟨hshows.cells, ?_⟩
  rw [hshows.row_start]
  exact (Nat.mul_succ _ _).symm

/-- A new line at the bottom. -/
theorem newline_scroll (hshows : Shows buf pos t)
    (hfull : cols * rows ≤ pos - pos % cols + cols) :
    Shows (moveUp rows cols blank buf) (pos - pos % cols) (t.newline blank) := by
  have hpos : 0 < cols := (Nat.zero_le _).trans_lt t.col.isLt
  have hrow : ¬ (t.row : ℕ) + 1 < rows := by
    intro hlt
    have hless := Nat.mul_lt_mul_of_pos_left hlt hpos
    rw [Nat.mul_succ, ← hshows.row_start] at hless
    omega
  rw [Terminal.newline, Terminal.lineFeed, dif_neg hrow]
  exact (hshows.scroll blank).carriageReturn

theorem put (hshows : Shows buf pos t) (hroom : pos + 1 < cols * rows) (item : α) :
    Shows (update buf pos item) (pos + 1) (t.put blank item) := by
  have hwrite := hshows.write item
  rw [Terminal.put]
  by_cases hcol : (t.col : ℕ) + 1 < cols
  · rw [dif_pos hcol]
    refine ⟨hwrite.cells, ?_⟩
    change pos + 1 = cols * t.row + (t.col + 1)
    rw [hshows.cursor, Nat.add_assoc]
  · -- the last cell of a row
    have hnext : pos + 1 = pos - pos % cols + cols := by
      rw [hshows.row_start, hshows.cursor]
      have hlt := t.col.isLt
      omega
    rw [dif_neg hcol, hnext]
    exact hwrite.newline (hnext ▸ hroom)

theorem put_scroll (hshows : Shows buf pos t) (hfull : cols * rows ≤ pos + 1) (item : α) :
    Shows (moveUp rows cols blank (update buf pos item)) (pos + 1 - cols) (t.put blank item) := by
  have hwrite := hshows.write item
  have hlt := t.col.isLt
  have hcol : ¬ (t.col : ℕ) + 1 < cols := by
    intro hless
    have hbound := place_lt t.row ⟨t.col + 1, hless⟩
    rw [hshows.cursor] at hfull
    have hplace : cols * (t.row : ℕ) + ((t.col : ℕ) + 1) < cols * rows := hbound
    omega
  have hnext : pos + 1 = pos - pos % cols + cols := by
    rw [hshows.row_start, hshows.cursor]
    omega
  have hstart : pos + 1 - cols = pos - pos % cols := by omega
  rw [Terminal.put, dif_neg hcol, hstart]
  exact hwrite.newline_scroll (hnext ▸ hfull)

theorem erase (hshows : Shows buf pos t) (hpos : 0 < pos) (item : α) :
    Shows (update buf (pos - 1) item) (pos - 1) (t.erase item) := by
  have hlt := t.col.isLt
  have hcursor := hshows.cursor
  rw [Terminal.erase]
  by_cases hcol : 0 < (t.col : ℕ)
  · rw [if_pos hcol]
    refine Shows.write (t := { t with col := ⟨t.col - 1, _⟩ }) ⟨hshows.cells, ?_⟩ item
    show pos - 1 = cols * t.row + (t.col - 1)
    omega
  · have hrow : 0 < (t.row : ℕ) := by
      by_contra hzero
      rw [Nat.eq_zero_of_not_pos hzero, Nat.mul_zero] at hcursor
      omega
    rw [if_neg hcol, if_pos hrow]
    refine Shows.write (t := { t with row := ⟨t.row - 1, _⟩, col := ⟨cols - 1, _⟩ })
      ⟨hshows.cells, ?_⟩ item
    show pos - 1 = cols * (t.row - 1) + (cols - 1)
    have hstep : cols * (t.row : ℕ) = cols * (t.row - 1) + cols := by
      rw [← Nat.mul_succ, Nat.succ_eq_add_one, Nat.sub_add_cancel hrow]
    omega

theorem erase_start (hshows : Shows buf 0 t) (item : α) : t.erase item = t := by
  have hcursor := hshows.cursor
  have hlt := t.col.isLt
  have hrow : ¬ 0 < (t.row : ℕ) := by
    intro hpos
    have hmul := Nat.mul_pos ((Nat.zero_le _).trans_lt hlt) hpos
    omega
  rw [Terminal.erase, if_neg (by omega), if_neg hrow]

end Shows

end OsLabs.Screen
