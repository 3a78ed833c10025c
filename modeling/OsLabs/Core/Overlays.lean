import Mathlib.Data.List.Induction
import Mathlib.Data.Option.Basic
import Mathlib.Logic.Nontrivial.Basic

/-!
# Layers over a memory

A layer gives values to the cells that it covers.  Layers are laid one over the
other: a cell has its value from the last layer that covers it, and where none
does, the value it had.
-/

namespace OsLabs.Overlays

variable {L A B : Type*} (covers : L → A → Prop) [∀ layer a, Decidable (covers layer a)]
  (cell : L → A → B)

/-- One layer over a memory. -/
def layOver (memory : A → B) (layer : L) : A → B :=
  fun a => if covers layer a then cell layer a else memory a

/-- Layers, the first at the bottom. -/
def overlay (layers : List L) (memory : A → B) : A → B := layers.foldl (layOver covers cell) memory

/-- The last layer that covers a cell. -/
def top (layers : List L) (a : A) : Option L := layers.reverse.find? (covers · a)

section Lemmas

variable {covers cell} {layers : List L} {layer : L} {memory : A → B} {a : A}

theorem layOver_covered (ha : covers layer a) : layOver covers cell memory layer a = cell layer a :=
  if_pos ha

theorem layOver_uncovered (ha : ¬ covers layer a) : layOver covers cell memory layer a = memory a :=
  if_neg ha

theorem top_concat_covered (ha : covers layer a) :
    top covers (layers ++ [layer]) a = some layer := by
  rw [top, List.reverse_append]
  exact List.find?_cons_of_pos (decide_eq_true ha)

theorem top_concat_uncovered (ha : ¬ covers layer a) :
    top covers (layers ++ [layer]) a = top covers layers a := by
  rw [top, List.reverse_append]
  exact List.find?_cons_of_neg fun h => ha (of_decide_eq_true h)

theorem mem_of_top (htop : top covers layers a = some layer) : layer ∈ layers ∧ covers layer a :=
  ⟨List.mem_reverse.mp (List.mem_of_find?_eq_some htop),
    of_decide_eq_true (List.find?_some (p := (covers · a)) htop)⟩

theorem exists_top (hmem : layer ∈ layers) (ha : covers layer a) :
    ∃ last, top covers layers a = some last :=
  Option.isSome_iff_exists.mp <|
    List.find?_isSome.mpr ⟨layer, List.mem_reverse.mpr hmem, decide_eq_true ha⟩

/-- The value of a cell is that of the last layer over it. -/
theorem overlay_apply (layers : List L) (memory : A → B) (a : A) :
    overlay covers cell layers memory a =
      (top covers layers a).elim (memory a) fun layer => cell layer a := by
  induction layers using List.reverseRecOn with
  | nil => rfl
  | append_singleton layers layer ih =>
    rw [overlay, List.foldl_append]
    change layOver covers cell (overlay covers cell layers memory) layer a = _
    by_cases ha : covers layer a
    · rw [layOver_covered ha, top_concat_covered ha]
      rfl
    · rw [layOver_uncovered ha, top_concat_uncovered ha, ih]

theorem overlay_uncovered (ha : ∀ layer ∈ layers, ¬ covers layer a) :
    overlay covers cell layers memory a = memory a := by
  have htop : top covers layers a = none := by
    rw [Option.eq_none_iff_forall_ne_some]
    intro layer htop
    exact ha layer (mem_of_top htop).1 (mem_of_top htop).2
  rw [overlay_apply, htop]
  rfl

/-- A cell has a value whatever stood there before exactly if the last layer over it says so. -/
theorem forall_overlay_iff [Nontrivial B] {b : B} :
    (∀ memory, overlay covers cell layers memory a = b) ↔
      ∃ layer, top covers layers a = some layer ∧ cell layer a = b := by
  constructor
  · intro hall
    obtain ⟨other, hother⟩ := exists_ne b
    have hvalue := hall fun _ => other
    rw [overlay_apply] at hvalue
    cases htop : top covers layers a with
    | none =>
      rw [htop] at hvalue
      exact (hother hvalue).elim
    | some layer =>
      rw [htop] at hvalue
      exact ⟨layer, rfl, hvalue⟩
  · rintro ⟨layer, htop, hcell⟩ memory
    rw [overlay_apply, htop]
    exact hcell

end Lemmas

end OsLabs.Overlays
