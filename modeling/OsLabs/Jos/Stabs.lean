import OsLabs.Jos.Mmu

/-!
# Stab tables

`struct Stab` of `inc/stab.h` and the binary search of `kern/kdebug.c`, which
the Lab 5 and the Lab 7 kernel share.  A read of the table may fail; a search
that reads outside what it was given fails with it.  Indices are integers: a
table fits into the address space, so the sum of two indices fits into an
`int`.
-/

namespace OsLabs.Jos

/-- `struct Stab`, without `n_other`. -/
structure Stab where
  nStrx : Word
  nType : BitVec 8
  nDesc : BitVec 16
  nValue : Word
  deriving DecidableEq

def nFun : BitVec 8 := 0x24
def nSline : BitVec 8 := 0x44
def nSo : BitVec 8 := 0x64
def nSol : BitVec 8 := 0x84
def nPsym : BitVec 8 := 0xa0

/-- A table as the kernel reads it, one field at a time. -/
structure Stabs where
  nStrx : ℤ → Option Word
  nType : ℤ → Option (BitVec 8)
  nDesc : ℤ → Option (BitVec 16)
  nValue : ℤ → Option Word

/-- The part of a table that lies between two indices. -/
def Stabs.within (stab : ℤ → Stab) (first last : ℤ) : Stabs where
  nStrx := fun i => if first ≤ i ∧ i ≤ last then some (stab i).nStrx else none
  nType := fun i => if first ≤ i ∧ i ≤ last then some (stab i).nType else none
  nDesc := fun i => if first ≤ i ∧ i ≤ last then some (stab i).nDesc else none
  nValue := fun i => if first ≤ i ∧ i ≤ last then some (stab i).nValue else none

/-! ## `stab_binsearch` -/

/-- The local variables of `stab_binsearch`, with `*region_left` and
`*region_right`. -/
structure Search where
  l : ℤ
  r : ℤ
  left : ℤ
  right : ℤ
  anyMatches : Bool
  addr : Word

section Search

variable (stabs : Stabs) (type : BitVec 8)

/-- The search for the last entry of the right type among the `count` entries
from `l` on; `l - 1` when there is none. -/
def backTo (l : ℤ) : ℕ → Option ℤ
  | 0 => some (l - 1)
  | k + 1 => do
      if (← stabs.nType (l + k)) = type then return l + k else backTo l k

/-- `(l + r) / 2`; the division of C rounds towards zero. -/
def middle (l r : ℤ) : ℤ :=
  (l + r).tdiv 2

/-- One iteration of the binary search. -/
def probe (s : Search) : Option Search := do
  let trueM := middle s.l s.r
  let m ← backTo stabs type s.l (trueM - s.l + 1).toNat
  if m < s.l then return { s with l := trueM + 1 }
  else
    let value ← stabs.nValue m
    if value < s.addr then
      return { s with anyMatches := true, left := m, l := trueM + 1 }
    else if s.addr < value then
      return { s with anyMatches := true, right := m - 1, r := m - 1 }
    else
      -- exact match, but the search goes on to find the right end
      return { s with anyMatches := true, left := m, l := m, addr := s.addr + 1 }

/-- At most `fuel` iterations. -/
def searchLoop : ℕ → Search → Option Search
  | 0, s => if s.l ≤ s.r then none else some s
  | fuel + 1, s => if s.l ≤ s.r then (probe stabs type s).bind (searchLoop fuel) else some s

/-- The last loop: the rightmost entry of the right type among the `count`
entries behind `left`, or `left`. -/
def rightmost (left : ℤ) : ℕ → Option ℤ
  | 0 => some left
  | k + 1 => do
      if (← stabs.nType (left + k + 1)) = type then return left + k + 1 else rightmost left k

/-- `stab_binsearch`: the new `*region_left` and `*region_right`. -/
def stabBinsearch (left right : ℤ) (addr : Word) : Option (ℤ × ℤ) := do
  let s ← searchLoop stabs type (2 * (right - left + 1).toNat + 1)
    ⟨left, right, left, right, false, addr⟩
  if s.anyMatches = false then return (s.left, s.left - 1)
  else if s.right ≤ s.left then return (s.right, s.right)
  else
    let l ← rightmost stabs type s.left (s.right - s.left).toNat
    return (l, s.right)

end Search

end OsLabs.Jos
