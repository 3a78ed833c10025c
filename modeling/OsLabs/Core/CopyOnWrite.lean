import Mathlib.Data.Set.Basic
import Mathlib.Logic.Function.Basic

/-!
# Private contents of shared frames

Places map frames, some of them for writing.  A place owns what it finds in its
frame as long as no other place may write there, except for those it lends to.
Copying a frame when it is written keeps this: a frame is shared without
writers, and a writer has its frame to itself.
-/

namespace OsLabs.CopyOnWrite

open Function

/-- A frame, and whether it may be written through the mapping. -/
structure Mapping (Frame : Type*) where
  frame : Frame
  writable : Bool

/-- What the places map, and what the frames hold. -/
structure Memory (Place Frame Data : Type*) where
  entry : Place → Option (Mapping Frame)
  data : Frame → Data

variable {Place Frame Data : Type*}

namespace Memory

def Maps (m : Memory Place Frame Data) (p : Place) (f : Frame) : Prop :=
  ∃ writable, m.entry p = some ⟨f, writable⟩

def Writes (m : Memory Place Frame Data) (p : Place) (f : Frame) : Prop :=
  m.entry p = some ⟨f, true⟩

variable {m m' : Memory Place Frame Data} {p q : Place} {f g : Frame}

theorem Writes.maps (hwrites : m.Writes p f) : m.Maps p f := ⟨true, hwrites⟩

theorem Maps.unique (hf : m.Maps p f) (hg : m.Maps p g) : f = g := by
  obtain ⟨_, hf⟩ := hf
  obtain ⟨_, hg⟩ := hg
  exact congrArg Mapping.frame (Option.some.inj (hf.symm.trans hg))

theorem maps_congr (hentry : m'.entry p = m.entry p) : m'.Maps p f ↔ m.Maps p f := by
  rw [Maps, Maps, hentry]

theorem writes_congr (hentry : m'.entry p = m.entry p) : m'.Writes p f ↔ m.Writes p f := by
  rw [Writes, Writes, hentry]

end Memory

/-- The places in `tracked` find what they own; `lends p q` says that `q` may write what `p`
maps. -/
structure Private (tracked : Set Place) (lends : Place → Place → Prop) (own : Place → Data)
    (m : Memory Place Frame Data) : Prop where
  holds : ∀ p ∈ tracked, ∀ f, m.Maps p f → m.data f = own p
  alone : ∀ p ∈ tracked, ∀ f, m.Maps p f → ∀ q, m.Writes q f → q = p ∨ lends p q

namespace Private

variable {tracked tracked' : Set Place} {lends lends' : Place → Place → Prop}
variable {own own' : Place → Data} {m m' : Memory Place Frame Data} {p q : Place} {f : Frame}

/-- A change of the owners, not of memory. -/
theorem retrack (h : Private tracked lends own m)
    (htracked : ∀ p ∈ tracked', ∀ f, m.Maps p f → p ∈ tracked ∧ own' p = own p)
    (hlends : ∀ p ∈ tracked', ∀ q f, m.Maps p f → m.Writes q f → lends p q → lends' p q) :
    Private tracked' lends' own' m where
  holds := fun p hp f hmaps => by
    obtain ⟨hold, hown⟩ := htracked p hp f hmaps
    rw [hown]
    exact h.holds p hold f hmaps
  alone := fun p hp f hmaps q hwrites =>
    (h.alone p (htracked p hp f hmaps).1 f hmaps q hwrites).imp_right
      (hlends p hp q f hmaps hwrites)

/-- Mappings may go, and frames change that are not tracked. -/
theorem shrink (h : Private tracked lends own m)
    (hentry : ∀ p, m'.entry p = m.entry p ∨ m'.entry p = none)
    (hdata : ∀ p ∈ tracked, ∀ f, m.Maps p f → m'.data f = m.data f) :
    Private tracked lends own m' := by
  have hold {p : Place} {f : Frame} {writable : Bool} (hmaps : m'.entry p = some ⟨f, writable⟩) :
      m.entry p = some ⟨f, writable⟩ := by
    rcases hentry p with hsame | hnone
    · rw [← hsame]
      exact hmaps
    · rw [hnone] at hmaps
      cases hmaps
  refine ⟨fun p hp f hmaps => ?_, fun p hp f hmaps q hwrites => ?_⟩
  · have hmaps' := hmaps.imp fun _ => hold
    rw [hdata p hp f hmaps']
    exact h.holds p hp f hmaps'
  · exact h.alone p hp f (hmaps.imp fun _ => hold) q (hold hwrites)

/-- A store through `q`: it reaches those that lend to `q`, and no other place. -/
theorem write (h : Private tracked lends own m) [DecidableEq Place] [DecidableEq Frame]
    [∀ p, Decidable (lends p q)] (hwrites : m.Writes q f) (hlent : ∀ p, lends p q → m.Maps p f)
    (d : Data) : Private tracked lends (fun p => if p = q ∨ lends p q then d else own p)
      { m with data := update m.data f d } where
  holds := fun p hp g hmaps => by
    change update m.data f d g = if p = q ∨ lends p q then d else own p
    by_cases hreach : p = q ∨ lends p q
    · have hf : m.Maps p f := by
        rcases hreach with rfl | hlends
        · exact hwrites.maps
        · exact hlent p hlends
      rw [if_pos hreach, Memory.Maps.unique hmaps hf, update_self]
    · have hne : g ≠ f := fun hsame => by
        rw [hsame] at hmaps
        exact hreach ((h.alone p hp f hmaps q hwrites).imp_left Eq.symm)
      rw [if_neg hreach, update_of_ne hne]
      exact h.holds p hp g hmaps
  alone := h.alone

/-- The mapping of one place changes: what has to be seen is that the new frame holds what the
place owns, who else writes it, and who else reads it if the place may write. -/
theorem remap (h : Private tracked lends own m) (hentry : ∀ q, q ≠ p → m'.entry q = m.entry q)
    (hdata : ∀ q f, q ≠ p → m.Maps q f → m'.data f = m.data f)
    (hown : ∀ q, q ≠ p → own' q = own q) (htracked : ∀ q ∈ tracked', q ≠ p → q ∈ tracked)
    (hlends : ∀ a ∈ tracked, ∀ b f, a ≠ p → b ≠ p → m.Maps a f → m.Writes b f → lends a b →
      lends' a b)
    (hholds : ∀ f, p ∈ tracked' → m'.Maps p f → m'.data f = own' p)
    (hwriters : ∀ f, p ∈ tracked' → m'.Maps p f → ∀ q, q ≠ p → m.Writes q f → lends' p q)
    (hreaders : ∀ f, m'.Writes p f → ∀ q ∈ tracked, q ≠ p → m.Maps q f → lends' q p) :
    Private tracked' lends' own' m' where
  holds := fun q hq f hmaps => by
    by_cases hp : q = p
    · subst hp
      exact hholds f hq hmaps
    · have hold := (Memory.maps_congr (hentry q hp)).mp hmaps
      rw [hdata q f hp hold, hown q hp]
      exact h.holds q (htracked q hq hp) f hold
  alone := fun q hq f hmaps r hwrites => by
    by_cases hr : r = p
    · subst hr
      by_cases hq' : q = r
      · exact Or.inl hq'.symm
      · exact Or.inr (hreaders f hwrites q (htracked q hq hq') hq'
          ((Memory.maps_congr (hentry q hq')).mp hmaps))
    · have hold := (Memory.writes_congr (hentry r hr)).mp hwrites
      by_cases hq' : q = p
      · subst hq'
        exact Or.inr (hwriters f hq hmaps r hr hold)
      · have htrack := htracked q hq hq'
        have hmaps' := (Memory.maps_congr (hentry q hq')).mp hmaps
        exact (h.alone q htrack f hmaps' r hold).imp_right
          (hlends q htrack r f hq' hr hmaps' hold)

/-- A place gets a frame that no place maps. -/
theorem fresh (h : Private tracked lends own m) (hentry : ∀ q, q ≠ p → m'.entry q = m.entry q)
    (hdata : ∀ q f, q ≠ p → m.Maps q f → m'.data f = m.data f)
    (hown : ∀ q, q ≠ p → own' q = own q) (htracked : ∀ q ∈ tracked', q ≠ p → q ∈ tracked)
    (hlends : ∀ a ∈ tracked, ∀ b f, a ≠ p → b ≠ p → m.Maps a f → m.Writes b f → lends a b →
      lends' a b)
    (hfresh : ∀ q, ¬ m.Maps q f) (hnew : m'.Maps p f) (hholds : p ∈ tracked' → m'.data f = own' p) :
    Private tracked' lends' own' m' := by
  have hsame {g : Frame} (hmaps : m'.Maps p g) : g = f := Memory.Maps.unique hmaps hnew
  exact h.remap hentry hdata hown htracked hlends
    (fun g hp hmaps => by rw [hsame hmaps]; exact hholds hp)
    (fun g _ hmaps q _ hwrites => by
      rw [hsame hmaps] at hwrites
      exact absurd hwrites.maps (hfresh q))
    fun g hwrites q _ _ hmaps => by
      rw [hsame hwrites.maps] at hmaps
      exact absurd hmaps (hfresh q)

end Private

end OsLabs.CopyOnWrite
