import Mathlib.Data.Fin.Basic
import Mathlib.Order.Fin.Basic

/-!
# Taking turns on a ring

Places on a ring are served one at a time.  `turns last next` is the number of
places from the one behind `last` up to `next`, both counted.  If every decision
serves the first ready place behind the last one, then a place that stays ready
is passed over fewer times than there are places: whatever else becomes ready
or stops being so, each decision moves the last served place towards it.
-/

namespace OsLabs.Turns

variable {n : ℕ}

/-- How far place `next` is behind place `last`, a full circle for `last` itself. -/
def turns (last next : Fin n) : ℕ := (next + (n - 1 - last)) % n + 1

theorem turns_of_lt {last next : Fin n} (hlt : last < next) :
    turns last next = (next : ℕ) - last := by
  have hnext := next.isLt
  have hvalue : (last : ℕ) < next := hlt
  unfold turns
  rw [show (next : ℕ) + (n - 1 - last) = (next - last - 1) + n by omega, Nat.add_mod_right,
    Nat.mod_eq_of_lt (by omega)]
  omega

theorem turns_of_le {last next : Fin n} (hle : next ≤ last) :
    turns last next = (next : ℕ) + n - last := by
  have hlast := last.isLt
  have hvalue : (next : ℕ) ≤ last := hle
  unfold turns
  rw [Nat.mod_eq_of_lt (by omega)]
  omega

theorem turns_pos (last next : Fin n) : 0 < turns last next :=
  Nat.succ_pos _

theorem turns_le (last next : Fin n) : turns last next ≤ n := by
  have hnext := next.isLt
  exact Nat.mod_lt _ (by omega)

/-- Every other place is reached before the circle closes. -/
theorem turns_lt {last next : Fin n} (hne : next ≠ last) : turns last next < n := by
  have hnext := next.isLt
  have hlast := last.isLt
  rcases lt_or_gt_of_ne hne with hlt | hgt
  · have hvalue : (next : ℕ) < last := hlt
    rw [turns_of_le hlt.le]
    omega
  · have hvalue : (last : ℕ) < next := hgt
    rw [turns_of_lt hgt]
    omega

/-- Two places are never the same number of turns away. -/
theorem turns_injective {last i j : Fin n} (hsame : turns last i = turns last j) : i = j := by
  have hi := i.isLt
  have hj := j.isLt
  apply Fin.ext
  rcases lt_or_ge last i with hfirst | hfirst <;>
    rcases lt_or_ge last j with hsecond | hsecond <;>
    simp only [turns_of_lt, turns_of_le, hfirst, hsecond] at hsame <;>
    simp only [Fin.lt_def, Fin.le_def] at hfirst hsecond <;>
    omega

/-- Serving a place on the way brings `next` closer by its turns. -/
theorem turns_via {last via next : Fin n} (hne : next ≠ via)
    (hway : turns last via ≤ turns last next) :
    turns last via + turns via next = turns last next := by
  have hvalues : (next : ℕ) ≠ via := Fin.val_ne_of_ne hne
  have hnext := next.isLt
  have hvia := via.isLt
  have hlast := last.isLt
  rcases lt_or_ge last via with hfirst | hfirst <;>
    rcases lt_or_ge last next with hsecond | hsecond <;>
    rcases lt_or_ge via next with hthird | hthird <;>
    simp only [turns_of_lt, turns_of_le, hfirst, hsecond, hthird] at hway ⊢ <;>
    simp only [Fin.lt_def, Fin.le_def] at hfirst hsecond hthird <;>
    omega

/-- How often each ready place was passed over: fewer times than the circle
leaves between the last served place and it. -/
structure Waiting (ready : Fin n → Prop) (last : Option (Fin n)) (waited : Fin n → ℕ) :
    Prop where
  idle : last = none → ∀ place, waited place = 0
  bound : ∀ served, last = some served → ∀ place, ready place →
    waited place + turns served place ≤ n
  unready : ∀ place, ¬ ready place → waited place = 0

namespace Waiting

variable {ready ready' : Fin n → Prop} {last : Option (Fin n)} {waited waited' : Fin n → ℕ}

theorem start (ready : Fin n → Prop) : Waiting ready none fun _ => 0 where
  idle := fun _ _ => rfl
  bound := fun _ hsome => by cases hsome
  unready := fun _ _ => rfl

/-- No place is passed over a full circle of times. -/
theorem lt (hwaiting : Waiting ready last waited) (place : Fin n) : waited place < n := by
  have hplace := place.isLt
  by_cases hready : ready place
  · cases hlast : last with
    | none =>
        rw [hwaiting.idle hlast]
        omega
    | some served =>
        have hbound := hwaiting.bound served hlast place hready
        have hpos := turns_pos served place
        omega
  · rw [hwaiting.unready place hready]
    omega

/-- Places become ready or stop being so. -/
theorem change (hwaiting : Waiting ready last waited)
    (hstay : ∀ place, ready place → ready' place → waited' place = waited place)
    (hreset : ∀ place, ¬ (ready place ∧ ready' place) → waited' place = 0) :
    Waiting ready' last waited' where
  idle := fun hnone place => by
    by_cases hboth : ready place ∧ ready' place
    · rw [hstay place hboth.1 hboth.2, hwaiting.idle hnone]
    · exact hreset place hboth
  bound := fun served hserved place hready' => by
    by_cases hready : ready place
    · rw [hstay place hready hready']
      exact hwaiting.bound served hserved place hready
    · rw [hreset place fun hboth => hready hboth.1, Nat.zero_add]
      exact turns_le served place
  unready := fun place hunready => hreset place fun hboth => hunready hboth.2

/-- A decision serves the first ready place behind the last one. -/
theorem serve (hwaiting : Waiting ready last waited) {place : Fin n}
    (hfirst : ∀ served, last = some served → ∀ other, ready other →
      turns served place ≤ turns served other)
    (hpassed : ∀ other, ready other → ready' other → other ≠ place →
      waited' other = waited other + 1)
    (hreset : ∀ other, ¬ (ready other ∧ ready' other ∧ other ≠ place) → waited' other = 0) :
    Waiting ready' (some place) waited' where
  idle := fun hnone => by cases hnone
  bound := fun served hserved other hready' => by
    cases hserved
    by_cases hcounted : ready other ∧ other ≠ place
    · obtain ⟨hready, hne⟩ := hcounted
      rw [hpassed other hready hready' hne]
      cases hlast : last with
      | none =>
          rw [hwaiting.idle hlast]
          have hlt := turns_lt hne
          omega
      | some served =>
          have hway := turns_via hne (hfirst served hlast other hready)
          have hbound := hwaiting.bound served hlast other hready
          have hpos := turns_pos served place
          omega
    · rw [hreset other fun hall => hcounted ⟨hall.1, hall.2.2⟩, Nat.zero_add]
      exact turns_le place other
  unready := fun other hunready => hreset other fun hall => hunready hall.2.1

end Waiting

end OsLabs.Turns
