import Mathlib.Data.List.Basic

/-!
# Logs

A log lists what has been done so far; it only grows at its end.
-/

namespace OsLabs.Logs

variable {α : Type*} {p q : α → Prop} {first second third : List α}

/-- Entries with the property have been added to the log. -/
def Grows (p : α → Prop) (old new : List α) : Prop :=
  ∃ more, new = old ++ more ∧ ∀ entry ∈ more, p entry

namespace Grows

theorem refl (log : List α) : Grows p log log :=
  ⟨[], (List.append_nil log).symm, fun _ h => nomatch h⟩

theorem trans (hfirst : Grows p first second) (hsecond : Grows p second third) :
    Grows p first third := by
  obtain ⟨more, rfl, hmore⟩ := hfirst
  obtain ⟨rest, rfl, hrest⟩ := hsecond
  refine ⟨more ++ rest, List.append_assoc first more rest, fun entry hentry => ?_⟩
  exact (List.mem_append.mp hentry).elim (hmore entry) (hrest entry)

theorem snoc (log : List α) {entry : α} (hentry : p entry) : Grows p log (log ++ [entry]) :=
  ⟨[entry], rfl, fun _ hmem => List.mem_singleton.mp hmem ▸ hentry⟩

theorem mono (hgrows : Grows p first second) (himp : ∀ entry, p entry → q entry) :
    Grows q first second := by
  obtain ⟨more, hmore, hall⟩ := hgrows
  exact ⟨more, hmore, fun entry hentry => himp entry (hall entry hentry)⟩

end Grows

end OsLabs.Logs
