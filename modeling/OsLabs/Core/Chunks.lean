import Mathlib.Data.List.Basic

/-!
# Output in chunks

A buffer that is handed on as soon as it holds `capacity` items, and at the end
once more, with what is left in it.
-/

namespace OsLabs.Buffering

/-- What has been handed on, and what waits in the buffer. -/
structure Chunked (α : Type*) where
  chunks : List (List α)
  pending : List α

variable {α : Type*} {capacity : ℕ}

namespace Chunked

def empty : Chunked α := ⟨[], []⟩

/-- One more item. -/
def push (capacity : ℕ) (c : Chunked α) (item : α) : Chunked α :=
  if c.pending.length + 1 = capacity then ⟨c.chunks ++ [c.pending ++ [item]], []⟩
  else ⟨c.chunks, c.pending ++ [item]⟩

/-- What has been handed on after the end. -/
def close (c : Chunked α) : List (List α) := c.chunks ++ [c.pending]

/-- All items so far, in their order. -/
def all (c : Chunked α) : List α := c.chunks.flatten ++ c.pending

/-- No chunk is too long, and the buffer is not full. -/
structure Fits (capacity : ℕ) (c : Chunked α) : Prop where
  chunks : ∀ chunk ∈ c.chunks, chunk.length = capacity
  pending : c.pending.length < capacity

theorem flatten_close (c : Chunked α) : c.close.flatten = c.all := by
  rw [close, all, List.flatten_append, List.flatten_singleton]

theorem all_push (c : Chunked α) (item : α) : (c.push capacity item).all = c.all ++ [item] := by
  rw [push]
  split
  · simp only [all, List.flatten_append, List.flatten_singleton, List.append_assoc, List.append_nil]
  · rw [all, all, List.append_assoc]

variable {c : Chunked α}

theorem Fits.push (hfits : Fits capacity c) (item : α) : Fits capacity (c.push capacity item) := by
  have hpending := hfits.pending
  rw [Chunked.push]
  split
  case isTrue hfull =>
    refine ⟨fun chunk hchunk => ?_, by rw [List.length_nil]; omega⟩
    rcases List.mem_append.mp hchunk with hold | hnew
    · exact hfits.chunks chunk hold
    · rw [List.mem_singleton.mp hnew, List.length_append, List.length_singleton, hfull]
  case isFalse hroom =>
    refine ⟨hfits.chunks, ?_⟩
    rw [List.length_append, List.length_singleton]
    omega

theorem all_foldl (items : List α) (c : Chunked α) :
    (items.foldl (push capacity) c).all = c.all ++ items := by
  induction items generalizing c with
  | nil => rw [List.foldl_nil, List.append_nil]
  | cons item items ih =>
    rw [List.foldl_cons, ih, all_push, List.append_assoc, List.singleton_append]

theorem Fits.foldl (hfits : Fits capacity c) (items : List α) :
    Fits capacity (items.foldl (Chunked.push capacity) c) := by
  induction items generalizing c with
  | nil => exact hfits
  | cons item items ih => exact ih (hfits.push item)

theorem Fits.empty (hpos : 0 < capacity) : Fits capacity (Chunked.empty : Chunked α) :=
  ⟨fun _ hchunk => absurd hchunk List.not_mem_nil, hpos⟩

theorem Fits.close (hfits : Fits capacity c) {chunk : List α} (hchunk : chunk ∈ c.close) :
    chunk.length ≤ capacity := by
  rcases List.mem_append.mp hchunk with hold | hlast
  · exact Nat.le_of_eq (hfits.chunks chunk hold)
  · rw [List.mem_singleton.mp hlast]
    exact Nat.le_of_lt hfits.pending

end Chunked

end OsLabs.Buffering
