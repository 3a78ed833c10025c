import Mathlib.Logic.Function.Iterate

/-!
# Ring buffers

A ring buffer keeps a queue between a position for reading and a position for
writing, both of which wrap around at the end of the buffer.  With nothing but
the two positions, a buffer of `n` cells holds at most `n - 1` items: a full one
would look empty.
-/

namespace OsLabs.Ring

open Function

/-! ## Positions -/

/-- A position after `pos++` and the wrap. -/
def next (n pos : ℕ) : ℕ := if pos + 1 = n then 0 else pos + 1

/-- The position `offset` cells further, for `offset ≤ n`. -/
def place (n pos offset : ℕ) : ℕ := if pos + offset < n then pos + offset else pos + offset - n

section Positions

variable {n pos offset : ℕ}

theorem next_lt (hpos : pos < n) : next n pos < n := by
  rw [next]
  split <;> omega

theorem place_zero (hpos : pos < n) : place n pos 0 = pos := if_pos hpos

/-- All the way round. -/
theorem place_self (pos : ℕ) : place n pos n = pos := by
  rw [place, if_neg (Nat.not_lt.mpr (Nat.le_add_left n pos)), Nat.add_sub_cancel]

theorem place_lt (hpos : pos < n) (hoffset : offset ≤ n) : place n pos offset < n := by
  rw [place]
  split <;> omega

theorem next_place (hpos : pos < n) (hoffset : offset < n) :
    next n (place n pos offset) = place n pos (offset + 1) := by
  rw [next, place, place]
  split <;> split <;> split <;> omega

theorem place_next (pos : ℕ) (hoffset : offset < n) :
    place n (next n pos) offset = place n pos (offset + 1) := by
  rw [next, place, place]
  split <;> split <;> split <;> omega

theorem place_inj {i j : ℕ} (hi : i < n) (hj : j < n)
    (hsame : place n pos i = place n pos j) : i = j := by
  rw [place, place] at hsame
  split at hsame <;> split at hsame <;> omega

theorem iterate_next (hpos : pos < n) :
    ∀ count, count ≤ n → (next n)^[count] pos = place n pos count := by
  intro count
  induction count with
  | zero => exact fun _ => (place_zero hpos).symm
  | succ count ih =>
    intro hcount
    rw [iterate_succ_apply', ih (Nat.le_of_succ_le hcount), next_place hpos hcount]

end Positions

/-! ## Queues -/

/-- The buffer holds the queue, from `rpos` up to `wpos`. -/
structure Holds {α : Type*} {n : ℕ} (buf : Vector α n) (rpos wpos : ℕ) (queue : List α) :
    Prop where
  rpos_lt : rpos < n
  short : queue.length < n
  wpos_eq : wpos = place n rpos queue.length
  cells : ∀ (i : ℕ) (hi : i < queue.length), buf[place n rpos i]? = some queue[i]

namespace Holds

variable {α : Type*} {n rpos wpos : ℕ} {buf : Vector α n} {queue : List α} {item : α}

theorem empty (buf : Vector α n) (hpos : rpos < n) : Holds buf rpos rpos [] where
  rpos_lt := hpos
  short := Nat.zero_lt_of_lt hpos
  wpos_eq := (place_zero hpos).symm
  cells i hi := absurd hi (Nat.not_lt_zero i)

theorem wpos_lt (hholds : Holds buf rpos wpos queue) : wpos < n := by
  rw [hholds.wpos_eq]
  exact place_lt hholds.rpos_lt (Nat.le_of_lt hholds.short)

/-- The positions are the same just when the queue is empty. -/
theorem same_iff (hholds : Holds buf rpos wpos queue) : rpos = wpos ↔ queue = [] := by
  have hpos := hholds.rpos_lt
  have hshort := hholds.short
  rw [hholds.wpos_eq, ← List.length_eq_zero_iff]
  constructor
  · intro hsame
    exact (place_inj (Nat.zero_lt_of_lt hpos) hshort
      ((place_zero hpos).trans hsame)).symm
  · intro hzero
    rw [hzero, place_zero hpos]

theorem put (hholds : Holds buf rpos wpos queue) (hroom : queue.length + 1 < n) (item : α) :
    Holds (buf.set wpos item hholds.wpos_lt) rpos (next n wpos) (queue ++ [item]) where
  rpos_lt := hholds.rpos_lt
  short := by rwa [List.length_append, List.length_singleton]
  wpos_eq := by
    rw [List.length_append, List.length_singleton, hholds.wpos_eq,
      next_place hholds.rpos_lt hholds.short]
  cells i hi := by
    rw [List.length_append, List.length_singleton] at hi
    have hwpos := hholds.wpos_eq
    by_cases hlast : i = queue.length
    · subst hlast
      rw [← hwpos, List.getElem_concat_length rfl]
      exact Vector.getElem?_set_self hholds.wpos_lt
    · have hold : i < queue.length := by omega
      have hne : wpos ≠ place n rpos i := by
        intro hsame
        exact hlast (place_inj (by omega) hholds.short (hsame.symm.trans hwpos))
      rw [Vector.getElem?_set_ne hholds.wpos_lt hne, List.getElem_append_left hold]
      exact hholds.cells i hold

theorem get (hholds : Holds buf rpos wpos (item :: queue)) :
    buf[rpos]? = some item ∧ Holds buf (next n rpos) wpos queue := by
  have hpos := hholds.rpos_lt
  have hshort := hholds.short
  rw [List.length_cons] at hshort
  refine ⟨?_, next_lt hpos, by omega, ?_, fun i hi => ?_⟩
  · have hfirst := hholds.cells 0 (Nat.succ_pos _)
    rwa [place_zero hpos] at hfirst
  · rw [hholds.wpos_eq, List.length_cons, place_next rpos (by omega)]
  · have hlater := hholds.cells (i + 1) (Nat.succ_lt_succ hi)
    rwa [← place_next rpos (by omega), List.getElem_cons_succ] at hlater

end Holds

end OsLabs.Ring
