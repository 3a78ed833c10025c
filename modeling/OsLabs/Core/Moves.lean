import Mathlib.Data.BitVec
import Mathlib.Data.Set.Basic
import Mathlib.Logic.Function.Basic
import Mathlib.Tactic.Abel

/-!
# Moves within a memory

A move gives every cell of a region what stood at a fixed distance from it and
leaves the other cells alone.  Moves over two regions make one over both, as
long as the second takes nothing from where the first has written.  Runs over
the units of a window, upwards or downwards, are moves of the window.
-/

namespace OsLabs.Moves

section Regions

variable {A B : Type*} [Add A] {distance : A} {region region' : Set A} {before mid after : A → B}

/-- Behind the move each cell of the region holds what the cell at the distance held before it. -/
structure Moved (distance : A) (region : Set A) (before after : A → B) : Prop where
  inside : ∀ a ∈ region, after a = before (a + distance)
  outside : ∀ a ∉ region, after a = before a

namespace Moved

theorem refl (distance : A) (memory : A → B) : Moved distance ∅ memory memory where
  inside _ ha := ha.elim
  outside _ _ := rfl

/-- A move determines the memory behind it. -/
theorem unique {after' : A → B} (hmoved : Moved distance region before after)
    (hmoved' : Moved distance region before after') : after = after' := by
  funext a
  by_cases ha : a ∈ region
  · exact (hmoved.inside a ha).trans (hmoved'.inside a ha).symm
  · exact (hmoved.outside a ha).trans (hmoved'.outside a ha).symm

/-- A second move that takes nothing from the region of the first. -/
theorem union (hfirst : Moved distance region before mid)
    (hsecond : Moved distance region' mid after)
    (hapart : ∀ a ∈ region', a + distance ∉ region) :
    Moved distance (region ∪ region') before after where
  inside a ha := by
    by_cases hnew : a ∈ region'
    · rw [hsecond.inside a hnew, hfirst.outside _ (hapart a hnew)]
    · rw [hsecond.outside a hnew, hfirst.inside a (ha.resolve_right hnew)]
  outside a ha := by
    have hneither := not_or.mp ha
    rw [hsecond.outside a hneither.2, hfirst.outside a hneither.1]

end Moved

end Regions

/-! ## Windows -/

section Windows

variable {w : ℕ} {B : Type*} {start a : BitVec w} {count more : ℕ}

/-- The addresses from `start` on, modulo 2^w. -/
def window (start : BitVec w) (count : ℕ) : Set (BitVec w) := {a | (a - start).toNat < count}

theorem window_zero (start : BitVec w) : window start 0 = ∅ :=
  Set.eq_empty_of_forall_notMem fun a => Nat.not_lt_zero (a - start).toNat

theorem mem_window_iff :
    a ∈ window start count ↔ ∃ i < count, a = start + BitVec.ofNat w i := by
  constructor
  · intro ha
    refine ⟨(a - start).toNat, ha, ?_⟩
    rw [BitVec.ofNat_toNat, BitVec.setWidth_eq]
    exact (add_sub_cancel start a).symm
  · rintro ⟨i, hi, rfl⟩
    change (start + BitVec.ofNat w i - start).toNat < count
    rw [add_sub_cancel_left, BitVec.toNat_ofNat]
    exact (Nat.mod_le _ _).trans_lt hi

/-- The distance from a later start. -/
theorem toNat_sub_add (a start : BitVec w) (count : ℕ) (hcount : count ≤ 2 ^ w) :
    (a - (start + BitVec.ofNat w count)).toNat =
      ((a - start).toNat + (2 ^ w - count)) % 2 ^ w := by
  rw [← sub_sub, BitVec.toNat_sub, BitVec.toNat_ofNat, Nat.add_comm]
  rcases hcount.eq_or_lt with rfl | hlt
  · rw [Nat.mod_self, Nat.sub_zero, Nat.add_mod_right, Nat.sub_self, Nat.add_zero]
  · rw [Nat.mod_eq_of_lt hlt]

theorem mem_window_add (hcount : count + more ≤ 2 ^ w) :
    a ∈ window (start + BitVec.ofNat w count) more ↔
      count ≤ (a - start).toNat ∧ (a - start).toNat < count + more := by
  have hlt := (a - start).isLt
  change (a - (start + BitVec.ofNat w count)).toNat < more ↔ _
  rcases Nat.eq_zero_or_pos more with rfl | hpos
  · omega
  rw [toNat_sub_add a start count (by omega)]
  by_cases hle : count ≤ (a - start).toNat
  · rw [show (a - start).toNat + (2 ^ w - count) = (a - start).toNat - count + 2 ^ w by omega,
      Nat.add_mod_right, Nat.mod_eq_of_lt (by omega)]
    omega
  · rw [Nat.mod_eq_of_lt (by omega)]
    omega

/-- Two windows, one behind the other. -/
theorem window_union (hcount : count + more ≤ 2 ^ w) :
    window start count ∪ window (start + BitVec.ofNat w count) more =
      window start (count + more) := by
  ext a
  rw [Set.mem_union, mem_window_add hcount]
  change (a - start).toNat < count ∨ _ ↔ (a - start).toNat < count + more
  omega

end Windows

/-! ## Copies of units -/

section Units

variable {w : ℕ} {B : Type*} {memory : BitVec w → B}

/-- The cells from `start` on. -/
def load (memory : BitVec w → B) (start : BitVec w) : ℕ → List B
  | 0 => []
  | count + 1 => memory start :: load memory (start + 1) count

/-- The cells from `start` on are given values. -/
def store (memory : BitVec w → B) (start : BitVec w) : List B → BitVec w → B
  | [] => memory
  | cell :: cells => store (Function.update memory start cell) (start + 1) cells

/-- Copies of units, each read as a whole before it is written; `step` leads to the next. -/
def copyUnits (width : ℕ) (step : BitVec w) :
    ℕ → BitVec w → BitVec w → (BitVec w → B) → BitVec w → B
  | 0, _, _, memory => memory
  | count + 1, dst, src, memory =>
      copyUnits width step count (dst + step) (src + step)
        (store memory dst (load memory src width))

@[simp]
theorem length_load (memory : BitVec w → B) (start : BitVec w) (count : ℕ) :
    (load memory start count).length = count := by
  induction count generalizing start with
  | zero => rfl
  | succ count ih => rw [load, List.length_cons, ih]

theorem getElem?_load {start : BitVec w} {count i : ℕ} (hi : i < count) :
    (load memory start count)[i]? = some (memory (start + BitVec.ofNat w i)) := by
  induction count generalizing start i with
  | zero => omega
  | succ count ih =>
    cases i with
    | zero =>
      have hzero : start + BitVec.ofNat w 0 = start := BitVec.add_zero start
      rw [hzero]
      rfl
    | succ i =>
      have hplace : start + 1 + BitVec.ofNat w i = start + BitVec.ofNat w (i + 1) := by
        rw [Nat.add_comm i, BitVec.ofNat_add, ← BitVec.add_assoc]
        rfl
      rw [load, List.getElem?_cons_succ, ih (by omega), hplace]

/-- Where the cells are stored, by their distance from the start. -/
theorem store_apply {cells : List B} (hlength : cells.length ≤ 2 ^ w) (start a : BitVec w) :
    store memory start cells a = (cells[(a - start).toNat]?).getD (memory a) := by
  induction cells generalizing memory start with
  | nil => rfl
  | cons cell cells ih =>
    rw [List.length_cons] at hlength
    have hnext : (a - (start + 1)).toNat = ((a - start).toNat + (2 ^ w - 1)) % 2 ^ w :=
      toNat_sub_add a start 1 Nat.one_le_two_pow
    rw [store, ih (by omega), hnext]
    by_cases ha : a = start
    · have hnone : cells[2 ^ w - 1]? = none := List.getElem?_eq_none (by omega)
      have hzero : (start - start).toNat = 0 := by rw [sub_self]; rfl
      rw [ha, hzero, Nat.zero_add, Nat.mod_eq_of_lt (by omega), hnone, Function.update_self]
      rfl
    · obtain ⟨k, hk⟩ : ∃ k, (a - start).toNat = k + 1 :=
        Nat.exists_eq_succ_of_ne_zero fun hzero => ha (sub_eq_zero.mp (BitVec.toNat_inj.mp hzero))
      have hlt := (a - start).isLt
      have hplace : (k + 1 + (2 ^ w - 1)) % 2 ^ w = k := by
        rw [show k + 1 + (2 ^ w - 1) = k + 2 ^ w by omega, Nat.add_mod_right,
          Nat.mod_eq_of_lt (by omega)]
      rw [hk, hplace, List.getElem?_cons_succ, Function.update_of_ne ha]

/-- A unit that is read and then written is moved. -/
theorem moved_unit (dst src : BitVec w) {width : ℕ} (hwidth : width ≤ 2 ^ w) :
    Moved (src - dst) (window dst width) memory (store memory dst (load memory src width)) where
  inside a ha := by
    have hsource : src + (a - dst) = a + (src - dst) := by abel
    rw [store_apply (by rwa [length_load]), getElem?_load ha, BitVec.ofNat_toNat,
      BitVec.setWidth_eq, hsource]
    rfl
  outside a ha := by
    have hnone : (load memory src width)[(a - dst).toNat]? = none :=
      List.getElem?_eq_none (by rw [length_load]; exact Nat.le_of_not_lt ha)
    rw [store_apply (by rwa [length_load]), hnone]
    rfl

/-- Upwards, where no unit is written below one that is still to be read. -/
theorem moved_upwards {dst src : BitVec w} {width count : ℕ}
    (hroom : (src - dst).toNat + count * width ≤ 2 ^ w) :
    Moved (src - dst) (window dst (count * width)) memory
      (copyUnits width (BitVec.ofNat w width) count dst src memory) := by
  induction count generalizing dst src memory with
  | zero =>
    rw [Nat.zero_mul, window_zero]
    exact Moved.refl _ memory
  | succ count ih =>
    have hdistance : src + BitVec.ofNat w width - (dst + BitVec.ofNat w width) = src - dst :=
      add_sub_add_right_eq_sub _ _ _
    have hunits : (count + 1) * width = width + count * width := by
      rw [Nat.succ_mul, Nat.add_comm]
    rw [hunits] at hroom ⊢
    have hrest := @ih (store memory dst (load memory src width)) (dst + BitVec.ofNat w width)
      (src + BitVec.ofNat w width) (by rw [hdistance]; omega)
    rw [hdistance] at hrest
    rw [← window_union (by omega)]
    refine (moved_unit dst src (by omega)).union hrest fun a ha hsource => ?_
    rw [mem_window_add (by omega)] at ha
    -- the source of a later unit stands at or above that unit
    have hplace : (a + (src - dst) - dst).toNat = (a - dst).toNat + (src - dst).toNat := by
      rw [show a + (src - dst) - dst = a - dst + (src - dst) by abel, BitVec.toNat_add,
        Nat.mod_eq_of_lt (by omega)]
    change (a + (src - dst) - dst).toNat < width at hsource
    omega

/-- Downwards from the last unit, where no unit is written above one that is still to be read. -/
theorem moved_downwards {dst src : BitVec w} {width count : ℕ}
    (hroom : (dst - src).toNat + count * width ≤ 2 ^ w) :
    Moved (src - dst) (window dst (count * width)) memory
      (copyUnits width (-BitVec.ofNat w width) count
        (dst + BitVec.ofNat w (count * width) - BitVec.ofNat w width)
        (src + BitVec.ofNat w (count * width) - BitVec.ofNat w width) memory) := by
  induction count generalizing memory with
  | zero =>
    rw [Nat.zero_mul, window_zero]
    exact Moved.refl _ memory
  | succ count ih =>
    have hunits : (count + 1) * width = count * width + width := Nat.succ_mul count width
    rw [hunits] at hroom ⊢
    have hlast (p : BitVec w) : p + BitVec.ofNat w (count * width + width) - BitVec.ofNat w width =
        p + BitVec.ofNat w (count * width) := by
      rw [BitVec.ofNat_add, ← BitVec.add_assoc, add_sub_cancel_right]
    have hunit := @moved_unit w B memory (dst + BitVec.ofNat w (count * width))
      (src + BitVec.ofNat w (count * width)) width (by omega)
    rw [add_sub_add_right_eq_sub] at hunit
    rw [hlast, hlast, copyUnits, ← sub_eq_add_neg, ← sub_eq_add_neg, ← window_union (by omega),
      Set.union_comm]
    refine hunit.union (ih (by omega)) fun a ha hsource => ?_
    rw [mem_window_add (by omega)] at hsource
    change (a - dst).toNat < count * width at ha
    have hplace : (a + (src - dst) - dst).toNat =
        ((a - dst).toNat + (2 ^ w - (dst - src).toNat)) % 2 ^ w := by
      rw [show a + (src - dst) - dst = a - dst - (dst - src) by abel, BitVec.toNat_sub,
        Nat.add_comm]
    have hlt := (dst - src).isLt
    rw [hplace] at hsource
    by_cases hbelow : (dst - src).toNat ≤ (a - dst).toNat
    · rw [show (a - dst).toNat + (2 ^ w - (dst - src).toNat) =
        (a - dst).toNat - (dst - src).toNat + 2 ^ w by omega, Nat.add_mod_right,
        Nat.mod_eq_of_lt (by omega)] at hsource
      omega
    · rw [Nat.mod_eq_of_lt (by omega)] at hsource
      omega

end Units

end OsLabs.Moves
