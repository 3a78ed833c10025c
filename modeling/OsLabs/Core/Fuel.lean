import Mathlib.Data.Option.Basic
import Mathlib.Order.Basic

/-!
# Runs with a bound

A loop that need not end is a function of a number of rounds: it has a result
as soon as the rounds suffice.  Where each step passes results on, more rounds
never change one.
-/

namespace OsLabs.Fuel

variable {α β : Type*}

/-- Every result of `first` is one of `second`. -/
def Extends (first second : Option α) : Prop := ∀ result, first = some result → second = some result

namespace Extends

variable {first second third : Option α}

theorem refl (first : Option α) : Extends first first := fun _ h => h

theorem trans (hfirst : Extends first second) (hsecond : Extends second third) :
    Extends first third :=
  fun result h => hsecond result (hfirst result h)

theorem of_none (second : Option α) : Extends none second := fun _ h => nomatch h

theorem bind {f g : α → Option β} (hfirst : Extends first second)
    (hrest : ∀ result, Extends (f result) (g result)) : Extends (first.bind f) (second.bind g) := by
  intro result h
  obtain ⟨mid, hmid, hresult⟩ := Option.bind_eq_some_iff.mp h
  rw [hfirst mid hmid, Option.bind_some]
  exact hrest mid result hresult

theorem map (f : α → β) (hfirst : Extends first second) :
    Extends (first.map f) (second.map f) := by
  intro result h
  obtain ⟨mid, hmid, hresult⟩ := Option.map_eq_some_iff.mp h
  rw [hfirst mid hmid, Option.map_some, hresult]

theorem ite {p : Prop} [Decidable p] {first' second' : Option α} (hthen : Extends first second)
    (helse : Extends first' second') :
    Extends (if p then first else first') (if p then second else second') := by
  split
  · exact hthen
  · exact helse

end Extends

/-- What one more round keeps, any number of them keeps. -/
theorem extends_of_le {run : ℕ → Option α} (hstep : ∀ fuel, Extends (run fuel) (run (fuel + 1)))
    {fuel fuel' : ℕ} (hle : fuel ≤ fuel') : Extends (run fuel) (run fuel') := by
  induction hle with
  | refl => exact Extends.refl _
  | step _ ih => exact ih.trans (hstep _)

end OsLabs.Fuel
