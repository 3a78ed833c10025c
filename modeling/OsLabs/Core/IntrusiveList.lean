import Mathlib.Logic.Function.Basic
import Mathlib.Data.List.Nodup

/-!
# Intrusive singly linked lists

A list threaded through a link field of its own elements: a head pointer, and
in every element a pointer to the next one.  `Threads next head items` says
that following the links from `head` visits exactly `items` and then stops.
Nothing forbids a cycle in the representation, so acyclicity is a consequence
of being threaded at all and not of the type of the elements.
-/

namespace OsLabs.IntrusiveList

open Function

variable {Node : Type*}

/-- The links, followed from the head, visit `items` in this order and end. -/
inductive Threads (next : Node → Option Node) : Option Node → List Node → Prop
  | nil : Threads next none []
  | cons {node : Node} {items : List Node} :
      Threads next (next node) items → Threads next (some node) (node :: items)

theorem threads_none_iff {next : Node → Option Node} {items : List Node} :
    Threads next none items ↔ items = [] := by
  constructor
  · intro hthreads
    cases hthreads
    rfl
  · rintro rfl
    exact Threads.nil

/-- The head pointer of a threaded list is its first item. -/
theorem Threads.head_eq {next : Node → Option Node} {head : Option Node}
    {items : List Node} (hthreads : Threads next head items) :
    head = items.head? := by
  cases hthreads <;> rfl

theorem Threads.tail {next : Node → Option Node} {node : Node}
    {items : List Node} (hthreads : Threads next (some node) (node :: items)) :
    Threads next (next node) items := by
  cases hthreads
  assumption

/-- The head pointer determines the whole list. -/
theorem Threads.unique {next : Node → Option Node} {head : Option Node}
    {left right : List Node} (hleft : Threads next head left)
    (hright : Threads next head right) : left = right := by
  induction hleft generalizing right with
  | nil => exact (threads_none_iff.mp hright).symm
  | cons _ ih =>
      cases hright with
      | cons hrest => rw [ih hrest]

/-- Every item is itself the head of what follows it. -/
theorem Threads.suffix {next : Node → Option Node} {head : Option Node}
    {before after : List Node} {node : Node}
    (hthreads : Threads next head (before ++ node :: after)) :
    Threads next (some node) (node :: after) := by
  induction before generalizing head with
  | nil =>
      cases hthreads with
      | cons hrest => exact Threads.cons hrest
  | cons _ before ih =>
      cases hthreads with
      | cons hrest => exact ih hrest

/-- A list that ends visits no element twice: a second visit would be followed
by the same items as the first one, which are strictly more. -/
theorem Threads.nodup {next : Node → Option Node} {head : Option Node}
    {items : List Node} (hthreads : Threads next head items) : items.Nodup := by
  induction hthreads with
  | nil => exact List.nodup_nil
  | @cons node items hrest ih =>
      refine List.nodup_cons.mpr ⟨fun hmem => ?_, ih⟩
      obtain ⟨before, after, rfl⟩ := List.append_of_mem hmem
      have hagain : Threads next (some node) (node :: after) := hrest.suffix
      have hsame := (Threads.cons hrest).unique hagain
      have hlength := congrArg List.length hsame
      simp only [List.length_cons, List.length_append] at hlength
      omega

/-- Links of elements outside the list do not matter. -/
theorem Threads.congr {next next' : Node → Option Node} {head : Option Node}
    {items : List Node} (hthreads : Threads next head items)
    (hagree : ∀ node ∈ items, next' node = next node) :
    Threads next' head items := by
  induction hthreads with
  | nil => exact Threads.nil
  | @cons node items _ ih =>
      have hrest := ih fun other hother => hagree other (List.mem_cons_of_mem _ hother)
      rw [← hagree node List.mem_cons_self] at hrest
      exact Threads.cons hrest

/-- Pushing an element that is not on the list. -/
theorem Threads.push [DecidableEq Node] {next : Node → Option Node}
    {head : Option Node} {items : List Node} {node : Node}
    (hthreads : Threads next head items) (hfresh : node ∉ items) :
    Threads (update next node head) (some node) (node :: items) := by
  refine Threads.cons ?_
  rw [update_self]
  refine hthreads.congr fun other hother => update_of_ne ?_ _ _
  rintro rfl
  exact hfresh hother

end OsLabs.IntrusiveList
