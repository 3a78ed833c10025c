import Mathlib

/-!
# Reference counting over a finite set of slots

Objects of a pool are referenced from slots.  Every object has a counter of
fixed width, and the objects that nothing references are kept on a free list.
`Balanced` says when counters and free list agree with the slots.  A counter
may exceed the number of references by a known `slack`: an operation that
counts a reference before it stores it (or after it cleared it) passes through
states with slack, and an operation that counts too much leaves slack behind.

The rules below describe one primitive effect each; the effect of a whole
operation is their composition.
-/

namespace OsLabs.RefLedger

open Function

variable {Key Obj : Type*} [DecidableEq Key] [DecidableEq Obj]

/-- Number of slots that reference `obj`. -/
def refs (keys : Finset Key) (slot : Key → Option Obj) (obj : Obj) : ℕ :=
  (keys.filter fun key => slot key = some obj).card

omit [DecidableEq Key] in
theorem refs_eq_zero_iff {keys : Finset Key} {slot : Key → Option Obj} {obj : Obj} :
    refs keys slot obj = 0 ↔ ∀ key ∈ keys, slot key ≠ some obj := by
  rw [refs, Finset.card_eq_zero, Finset.filter_eq_empty_iff]

omit [DecidableEq Key] in
theorem refs_pos {keys : Finset Key} {slot : Key → Option Obj} {obj : Obj} {key : Key}
    (hkey : key ∈ keys) (hslot : slot key = some obj) : 0 < refs keys slot obj :=
  Finset.card_pos.mpr ⟨key, Finset.mem_filter.mpr ⟨hkey, hslot⟩⟩

omit [DecidableEq Key] in
theorem refs_congr {keys : Finset Key} {slot slot' : Key → Option Obj} {obj : Obj}
    (hagree : ∀ key ∈ keys, slot' key = slot key) :
    refs keys slot' obj = refs keys slot obj := by
  rw [refs, refs, Finset.filter_congr fun key hkey => by rw [hagree key hkey]]

omit [DecidableEq Key] in
/-- References from two kinds of slots. -/
theorem refs_split (keys : Finset Key) (slot : Key → Option Obj) (obj : Obj) (kind : Key → Prop)
    [DecidablePred kind] : refs keys slot obj =
      refs (keys.filter kind) slot obj + refs (keys.filter fun key => ¬ kind key) slot obj := by
  rw [refs, refs, refs, Finset.filter_filter, Finset.filter_filter,
    ← Finset.card_filter_add_card_filter_not kind, Finset.filter_filter, Finset.filter_filter]
  simp only [and_comm]

omit [DecidableEq Key] in
/-- References appear in the changed slots only. -/
theorem refs_le_of_new {keys : Finset Key} {slot slot' : Key → Option Obj}
    (changed : Finset Key) (obj : Obj)
    (hnew : ∀ key ∈ keys, slot' key = some obj → slot key = some obj ∨ key ∈ changed) :
    refs keys slot' obj ≤ refs keys slot obj + changed.card := by
  classical
  refine (Finset.card_le_card fun key hkey => ?_).trans (Finset.card_union_le _ _)
  obtain ⟨hmem, hslot⟩ := Finset.mem_filter.mp hkey
  rcases hnew key hmem hslot with hold | hchanged
  · exact Finset.mem_union_left _ (Finset.mem_filter.mpr ⟨hmem, hold⟩)
  · exact Finset.mem_union_right _ hchanged

/-- Changing few slots adds few references. -/
theorem refs_le_add_card {keys : Finset Key} {slot slot' : Key → Option Obj}
    (changed : Finset Key) (obj : Obj)
    (hagree : ∀ key ∈ keys, key ∉ changed → slot' key = slot key) :
    refs keys slot' obj ≤ refs keys slot obj + changed.card := by
  refine refs_le_of_new changed obj fun key hkey hslot => ?_
  by_cases hchanged : key ∈ changed
  · exact Or.inr hchanged
  · exact Or.inl (by rw [← hagree key hkey hchanged, hslot])

/-- Changing one slot changes the count by what leaves and what enters it. -/
theorem refs_update {keys : Finset Key} (slot : Key → Option Obj) {key : Key}
    (hkey : key ∈ keys) (value : Option Obj) (obj : Obj) :
    refs keys (update slot key value) obj + (if slot key = some obj then 1 else 0) =
      refs keys slot obj + (if value = some obj then 1 else 0) := by
  have hrest : ∑ other ∈ keys.erase key,
        (if update slot key value other = some obj then 1 else 0) =
      ∑ other ∈ keys.erase key, (if slot other = some obj then 1 else 0) := by
    refine Finset.sum_congr rfl fun other hother => ?_
    rw [update_of_ne (Finset.ne_of_mem_erase hother)]
  rw [refs, refs, Finset.card_filter, Finset.card_filter,
    ← Finset.add_sum_erase keys _ hkey, ← Finset.add_sum_erase keys _ hkey, hrest,
    update_self]
  omega

/-- Counters, free list and slots agree, up to `slack`.  `held` is an object
that was taken from the free list and is not referenced yet. -/
structure Balanced {width : ℕ} (keys : Finset Key) (pool : Set Obj)
    (slot : Key → Option Obj) (count : Obj → BitVec width) (free : List Obj)
    (held : Option Obj) (slack : Obj → ℕ) : Prop where
  free_nodup : free.Nodup
  free_mem : ∀ obj ∈ free, obj ∈ pool
  slot_mem : ∀ key ∈ keys, ∀ obj, slot key = some obj → obj ∈ pool
  count_eq : ∀ obj ∈ pool, count obj = BitVec.ofNat width (refs keys slot obj + slack obj)
  free_unref : ∀ obj ∈ free, refs keys slot obj = 0
  not_lost : ∀ obj ∈ pool, obj ∉ free → held = some obj ∨ 0 < refs keys slot obj + slack obj
  held_mem : ∀ obj, held = some obj → obj ∈ pool ∧ obj ∉ free

namespace Balanced

variable {width : ℕ} {keys : Finset Key} {pool : Set Obj} {slot : Key → Option Obj}
variable {count : Obj → BitVec width} {free : List Obj} {held : Option Obj}
variable {slack : Obj → ℕ}

omit [DecidableEq Key] in
/-- A referenced object is not free. -/
theorem slot_not_free (hbal : Balanced keys pool slot count free held slack)
    {key : Key} (hkey : key ∈ keys) {obj : Obj} (hslot : slot key = some obj) :
    obj ∉ free := by
  intro hfree
  exact refs_eq_zero_iff.mp (hbal.free_unref obj hfree) key hkey hslot

omit [DecidableEq Key] in
/-- Only the slots of the key set matter. -/
theorem congr_slot (hbal : Balanced keys pool slot count free held slack)
    {slot' : Key → Option Obj} (hagree : ∀ key ∈ keys, slot' key = slot key) :
    Balanced keys pool slot' count free held slack where
  free_nodup := hbal.free_nodup
  free_mem := hbal.free_mem
  slot_mem := fun key hkey obj hslot =>
    hbal.slot_mem key hkey obj (by rw [← hagree key hkey, hslot])
  count_eq := fun obj hobj => by rw [refs_congr hagree, hbal.count_eq obj hobj]
  free_unref := fun obj hobj => by rw [refs_congr hagree, hbal.free_unref obj hobj]
  not_lost := fun obj hobj hfree => by rw [refs_congr hagree]; exact hbal.not_lost obj hobj hfree
  held_mem := hbal.held_mem

omit [DecidableEq Key] in
/-- Only counters of the pool matter. -/
theorem congr_count (hbal : Balanced keys pool slot count free held slack)
    {count' : Obj → BitVec width} (hagree : ∀ obj ∈ pool, count' obj = count obj) :
    Balanced keys pool slot count' free held slack :=
  { hbal with count_eq := fun obj hobj => by rw [hagree obj hobj, hbal.count_eq obj hobj] }

omit [DecidableEq Key] in
theorem congr_slack (hbal : Balanced keys pool slot count free held slack)
    {slack' : Obj → ℕ} (hagree : ∀ obj ∈ pool, slack' obj = slack obj) :
    Balanced keys pool slot count free held slack' :=
  { hbal with
    count_eq := fun obj hobj => by rw [hagree obj hobj, hbal.count_eq obj hobj]
    not_lost := fun obj hobj hfree => by
      rw [hagree obj hobj]
      exact hbal.not_lost obj hobj hfree }

omit [DecidableEq Key] in
/-- Take the first free object in hand. -/
theorem take {obj : Obj} (hbal : Balanced keys pool slot count (obj :: free) none slack) :
    Balanced keys pool slot count free (some obj) slack where
  free_nodup := hbal.free_nodup.of_cons
  free_mem := fun other hother => hbal.free_mem other (List.mem_cons_of_mem _ hother)
  slot_mem := hbal.slot_mem
  count_eq := hbal.count_eq
  free_unref := fun other hother => hbal.free_unref other (List.mem_cons_of_mem _ hother)
  not_lost := fun other hother hfree => by
    by_cases hsame : obj = other
    · exact Or.inl (congrArg some hsame)
    · refine Or.inr ((hbal.not_lost other hother ?_).resolve_left (by simp))
      simp [Ne.symm hsame, hfree]
  held_mem := fun other hother => by
    cases hother
    exact ⟨hbal.free_mem _ List.mem_cons_self, (List.nodup_cons.mp hbal.free_nodup).1⟩

omit [DecidableEq Key] in
/-- Remove the first free object, whose next reference is already counted. -/
theorem pop {obj : Obj} (hbal : Balanced keys pool slot count (obj :: free) held slack)
    (hcounted : 0 < slack obj) : Balanced keys pool slot count free held slack where
  free_nodup := hbal.free_nodup.of_cons
  free_mem := fun other hother => hbal.free_mem other (List.mem_cons_of_mem _ hother)
  slot_mem := hbal.slot_mem
  count_eq := hbal.count_eq
  free_unref := fun other hother => hbal.free_unref other (List.mem_cons_of_mem _ hother)
  not_lost := fun other hother hfree => by
    by_cases hsame : other = obj
    · subst hsame
      exact Or.inr (by omega)
    · exact hbal.not_lost other hother (by simp [hsame, hfree])
  held_mem := fun other hother => by
    obtain ⟨hpool, hnot⟩ := hbal.held_mem other hother
    exact ⟨hpool, fun hmem => hnot (List.mem_cons_of_mem _ hmem)⟩

omit [DecidableEq Key] in
/-- Put an unreferenced object (the one in hand, if any) on the free list. -/
theorem release {obj : Obj} (hbal : Balanced keys pool slot count free held slack)
    (hpool : obj ∈ pool) (hfree : obj ∉ free) (hunref : refs keys slot obj = 0)
    (hheld : ∀ other, held = some other → other = obj) :
    Balanced keys pool slot count (obj :: free) none slack where
  free_nodup := List.nodup_cons.mpr ⟨hfree, hbal.free_nodup⟩
  free_mem := fun other hother => by
    rcases List.mem_cons.mp hother with rfl | hrest
    · exact hpool
    · exact hbal.free_mem other hrest
  slot_mem := hbal.slot_mem
  count_eq := hbal.count_eq
  free_unref := fun other hother => by
    rcases List.mem_cons.mp hother with rfl | hrest
    · exact hunref
    · exact hbal.free_unref other hrest
  not_lost := fun other hother hnot => by
    rw [List.mem_cons, not_or] at hnot
    refine (hbal.not_lost other hother hnot.2).imp (fun h => ?_) id
    exact absurd (hheld other h) hnot.1
  held_mem := by simp

omit [DecidableEq Key] in
/-- An object in hand that is counted need not be remembered. -/
theorem put_down {obj : Obj} (hbal : Balanced keys pool slot count free (some obj) slack)
    (hcounted : 0 < refs keys slot obj + slack obj) :
    Balanced keys pool slot count free none slack :=
  { hbal with
    not_lost := fun other hother hfree => by
      rcases hbal.not_lost other hother hfree with hsame | hpos
      · cases hsame
        exact Or.inr hcounted
      · exact Or.inr hpos
    held_mem := by simp }

omit [DecidableEq Key] in
/-- Count one reference more. -/
theorem inc (hbal : Balanced keys pool slot count free held slack) (obj : Obj) :
    Balanced keys pool slot (update count obj (count obj + 1)) free held
      (fun other => slack other + if other = obj then 1 else 0) :=
  { hbal with
    count_eq := fun other hother => by
      by_cases hsame : other = obj
      · subst hsame
        rw [update_self, hbal.count_eq other hother, if_pos rfl, ← Nat.add_assoc]
        exact (BitVec.ofNat_add _ 1).symm
      · rw [update_of_ne hsame, hbal.count_eq other hother, if_neg hsame, Nat.add_zero]
    not_lost := fun other hother hfree => by
      refine (hbal.not_lost other hother hfree).imp id fun hpos => ?_
      omega }

/-- Store a reference that is already counted into an empty slot. -/
theorem point {key : Key} (hkey : key ∈ keys) (hempty : slot key = none) {obj : Obj}
    (hpool : obj ∈ pool) (hfree : obj ∉ free)
    (hbal : Balanced keys pool slot count free held
      (fun other => slack other + if other = obj then 1 else 0)) :
    Balanced keys pool (update slot key (some obj)) count free held slack := by
  have hrefs : ∀ other, refs keys (update slot key (some obj)) other =
      refs keys slot other + if other = obj then 1 else 0 := by
    intro other
    have hchange := refs_update slot hkey (some obj) other
    rw [hempty] at hchange
    simpa [eq_comm] using hchange
  refine
    { hbal with
      slot_mem := fun other hother target htarget => ?_
      count_eq := fun other hother => ?_
      free_unref := fun other hother => ?_
      not_lost := fun other hother hnot => ?_ }
  · by_cases hsame : other = key
    · subst hsame
      rw [update_self] at htarget
      cases htarget
      exact hpool
    · rw [update_of_ne hsame] at htarget
      exact hbal.slot_mem other hother target htarget
  · rw [hbal.count_eq other hother, hrefs]
    congr 1
    omega
  · have hne : other ≠ obj := fun hsame => hfree (hsame ▸ hother)
    rw [hrefs, hbal.free_unref other hother, if_neg hne]
  · refine (hbal.not_lost other hother hnot).imp id fun hpos => ?_
    rw [hrefs]
    omega

/-- Clear a slot, leaving its reference counted. -/
theorem clear {key : Key} (hkey : key ∈ keys) {obj : Obj} (hslot : slot key = some obj)
    (hbal : Balanced keys pool slot count free held slack) :
    Balanced keys pool (update slot key none) count free held
      (fun other => slack other + if other = obj then 1 else 0) := by
  have hrefs : ∀ other, refs keys (update slot key none) other +
      (if other = obj then 1 else 0) = refs keys slot other := by
    intro other
    have hchange := refs_update slot hkey none other
    rw [hslot] at hchange
    simpa [eq_comm] using hchange
  refine
    { hbal with
      slot_mem := fun other hother target htarget => ?_
      count_eq := fun other hother => ?_
      free_unref := fun other hother => ?_
      not_lost := fun other hother hnot => ?_ }
  · by_cases hsame : other = key
    · subst hsame
      simp at htarget
    · rw [update_of_ne hsame] at htarget
      exact hbal.slot_mem other hother target htarget
  · rw [hbal.count_eq other hother, ← hrefs other]
    congr 1
    omega
  · have hzero := hbal.free_unref other hother
    rw [← hrefs] at hzero
    omega
  · refine (hbal.not_lost other hother hnot).imp id fun hpos => ?_
    rw [← hrefs] at hpos
    omega

omit [DecidableEq Key] in
/-- Count one reference less, and free the object when none is left.  Provided
the true number fits the counter, the counter reaches zero exactly then. -/
theorem dec {obj : Obj} (hpool : obj ∈ pool) (hfree : obj ∉ free) (hheld : held ≠ some obj)
    (hbound : refs keys slot obj + slack obj < 2 ^ width)
    (hbal : Balanced keys pool slot count free held
      (fun other => slack other + if other = obj then 1 else 0)) :
    Balanced keys pool slot (update count obj (count obj - 1))
      (if count obj - 1 = 0 then obj :: free else free) held slack := by
  have hcount : count obj - 1 = BitVec.ofNat width (refs keys slot obj + slack obj) := by
    rw [hbal.count_eq obj hpool, if_pos rfl, ← Nat.add_assoc, BitVec.ofNat_add]
    exact BitVec.add_sub_cancel _ _
  have hzero : count obj - 1 = 0 ↔ refs keys slot obj + slack obj = 0 := by
    rw [hcount, ← BitVec.toNat_inj, BitVec.toNat_ofNat, Nat.mod_eq_of_lt hbound]
    simp
  have hcounts : ∀ other ∈ pool, update count obj (count obj - 1) other =
      BitVec.ofNat width (refs keys slot other + slack other) := by
    intro other hother
    by_cases hsame : other = obj
    · subst hsame
      rw [update_self, hcount]
    · rw [update_of_ne hsame, hbal.count_eq other hother, if_neg hsame, Nat.add_zero]
  have hlost : ∀ other ∈ pool, other ≠ obj → other ∉ free →
      held = some other ∨ 0 < refs keys slot other + slack other := by
    intro other hother hne hnot
    simpa [hne] using hbal.not_lost other hother hnot
  split
  case isTrue hdead =>
      have hnone := hzero.mp hdead
      refine
        { hbal with
          free_nodup := List.nodup_cons.mpr ⟨hfree, hbal.free_nodup⟩
          free_mem := fun other hother => ?_
          count_eq := hcounts
          free_unref := fun other hother => ?_
          not_lost := fun other hother hnot => ?_
          held_mem := fun other hother => ?_ }
      · rcases List.mem_cons.mp hother with rfl | hrest
        · exact hpool
        · exact hbal.free_mem other hrest
      · rcases List.mem_cons.mp hother with rfl | hrest
        · omega
        · exact hbal.free_unref other hrest
      · rw [List.mem_cons, not_or] at hnot
        exact hlost other hother hnot.1 hnot.2
      · obtain ⟨hmem, hnot⟩ := hbal.held_mem other hother
        refine ⟨hmem, ?_⟩
        rw [List.mem_cons, not_or]
        exact ⟨fun hsame => hheld (hsame ▸ hother), hnot⟩
  case isFalse halive =>
      refine
        { hbal with
          count_eq := hcounts
          not_lost := fun other hother hnot => ?_ }
      by_cases hsame : other = obj
      · subst hsame
        have hne := mt hzero.mpr halive
        exact Or.inr (by omega)
      · exact hlost other hother hsame hnot

omit [DecidableEq Key] in
/-- Without slack and with nothing in hand, the counters that fit their width
are exact, and the free objects are the unreferenced ones. -/
theorem exact (hbal : Balanced keys pool slot count free none slack) {obj : Obj}
    (hpool : obj ∈ pool) (hslack : slack obj = 0)
    (hbound : refs keys slot obj < 2 ^ width) :
    (count obj).toNat = refs keys slot obj ∧
      (obj ∈ free ↔ refs keys slot obj = 0) := by
  refine ⟨?_, hbal.free_unref obj, fun hzero => ?_⟩
  · rw [hbal.count_eq obj hpool, hslack, Nat.add_zero, BitVec.toNat_ofNat,
      Nat.mod_eq_of_lt hbound]
  · by_contra hnot
    have hpos := (hbal.not_lost obj hpool hnot).resolve_left (by simp)
    omega

end Balanced

end OsLabs.RefLedger
