import OsLabs.Jos.Mmu

/-!
# Physical pages and page tables

The page allocator and the page table primitives of `kern/pmap.c`.  A kernel
virtual address of a page is represented by the page's number, a null pointer
by `none`.  An outer `Option` is the outcome of a function that may panic
(`KADDR` and `pa2page` check their argument against `npages`); `none` there
means that the kernel stops.

The arrays `pages[]` and `envs[]`, the table of CPUs and the kernel image are
objects of their own, as they are for the C program; `mem` holds the contents
of physical pages used as page directories, page tables and user memory.
-/

namespace OsLabs.Jos

open Function

/-- `struct PageInfo`. -/
structure PageInfo where
  ppLink : Option ℕ
  ppRef : BitVec 16

/-- The state `kern/pmap.c` works on. -/
structure Phys where
  /-- amount of physical memory, in pages -/
  npages : ℕ
  /-- physical page state array -/
  pages : ℕ → PageInfo
  /-- free list of physical pages -/
  pageFreeList : Option ℕ
  /-- the words of each page, as the software wrote them -/
  mem : ℕ → ℕ → Word
  /-- accessed and dirty flags that the MMU has set since -/
  mmuBits : ℕ → ℕ → Word

/-! ## Error codes (`inc/error.h`) -/

def eBadEnv : Word := 2
def eInval : Word := 3
def eNoMem : Word := 4
def eNoFreeEnv : Word := 5
def eFault : Word := 6
def eIpcNotRecv : Word := 7

namespace Phys

def link (σ : Phys) (pp : ℕ) : Option ℕ := (σ.pages pp).ppLink

def ref (σ : Phys) (pp : ℕ) : BitVec 16 := (σ.pages pp).ppRef

/-- A word read from memory.  In a present entry the MMU may have set the
accessed and dirty flags after the kernel wrote it. -/
def load (σ : Phys) (page index : ℕ) : Word :=
  if σ.mem page index &&& pteP = 0 then σ.mem page index
  else σ.mem page index ||| (σ.mmuBits page index &&& (pteA ||| pteD))

def store (σ : Phys) (page index : ℕ) (value : Word) : Phys :=
  { σ with
    mem := update σ.mem page (update (σ.mem page) index value)
    mmuBits := update σ.mmuBits page (update (σ.mmuBits page) index 0) }

/-- `memset(page2kva(pp), 0, PGSIZE)`. -/
def zeroPage (σ : Phys) (pp : ℕ) : Phys :=
  { σ with
    mem := update σ.mem pp fun _ => 0
    mmuBits := update σ.mmuBits pp fun _ => 0 }

/-- `memcpy(dst, src, PGSIZE)` between two pages. -/
def copyPage (σ : Phys) (dst src : ℕ) : Phys :=
  { σ with
    mem := update σ.mem dst (σ.load src)
    mmuBits := update σ.mmuBits dst fun _ => 0 }

def setRef (σ : Phys) (pp : ℕ) (ref : BitVec 16) : Phys :=
  { σ with pages := update σ.pages pp { σ.pages pp with ppRef := ref } }

/-- `pp->pp_ref++`. -/
def incRef (σ : Phys) (pp : ℕ) : Phys := σ.setRef pp ((σ.pages pp).ppRef + 1)

/-- `KADDR`, and likewise `pa2page`: the page of a physical address. -/
def pa2page (σ : Phys) (pa : Word) : Option ℕ :=
  if pgnum pa < σ.npages then some (pgnum pa) else none

end Phys

/-! ## Allocation -/

/-- `page_alloc`; the flag is `alloc_flags & ALLOC_ZERO`. -/
def pageAlloc (σ : Phys) (allocZero : Bool) : Option ℕ × Phys :=
  match σ.pageFreeList with
  | none => (none, σ)
  | some pp =>
      let σ := { σ with pageFreeList := (σ.pages pp).ppLink }
      (some pp, if allocZero then σ.zeroPage pp else σ)

def pageFree (σ : Phys) (pp : ℕ) : Phys :=
  { σ with
    pages := update σ.pages pp { σ.pages pp with ppLink := σ.pageFreeList }
    pageFreeList := some pp }

def pageDecref (σ : Phys) (pp : ℕ) : Phys :=
  let ref := (σ.pages pp).ppRef - 1
  let σ := σ.setRef pp ref
  if ref = 0 then pageFree σ pp else σ

/-! ## Walking and changing page tables -/

/-- `pgdir_walk`: the table page and index of the entry for `va`. -/
def pgdirWalk (σ : Phys) (pgdir : ℕ) (va : Word) (create : Bool) :
    Option (Option (ℕ × ℕ) × Phys) := do
  let dindex := pdx va
  let tindex := ptx va
  if σ.load pgdir dindex &&& pteP = 0 then
    if create then
      match pageAlloc σ true with
      | (none, σ) => return (none, σ)
      | (some pg, σ) =>
          let σ := σ.incRef pg
          let σ := σ.store pgdir dindex (page2pa pg ||| pteP ||| pteU ||| pteW)
          let p ← σ.pa2page (pteAddr (σ.load pgdir dindex))
          return (some (p, tindex), σ)
    else return (none, σ)
  else
    let p ← σ.pa2page (pteAddr (σ.load pgdir dindex))
    return (some (p, tindex), σ)

/-- The first `count` iterations of the loop of `boot_map_region`. -/
def bootMapPages (σ : Phys) (pgdir : ℕ) (va pa perm : Word) : ℕ → Option Phys
  | 0 => some σ
  | i + 1 => do
      let σ ← bootMapPages σ pgdir va pa perm i
      let offset := BitVec.ofNat 32 i * pgSize
      match ← pgdirWalk σ pgdir (va + offset) true with
      | (none, _) => none
      | (some (table, index), σ) =>
          return σ.store table index ((pa + offset) ||| perm ||| pteP)

def bootMapRegion (σ : Phys) (pgdir : ℕ) (va size pa perm : Word) : Option Phys :=
  bootMapPages σ pgdir va pa perm (size / pgSize).toNat

/-- `page_lookup`: the page mapped at `va` and the place of its entry. -/
def pageLookup (σ : Phys) (pgdir : ℕ) (va : Word) :
    Option (Option (ℕ × (ℕ × ℕ))) := do
  match ← pgdirWalk σ pgdir va false with
  | (none, _) => return none
  | (some (table, index), _) =>
      if σ.load table index &&& pteP = 0 then return none
      else
        let pg ← σ.pa2page (pteAddr (σ.load table index))
        return some (pg, (table, index))

def pageRemove (σ : Phys) (pgdir : ℕ) (va : Word) : Option Phys := do
  match ← pageLookup σ pgdir va with
  | none => return σ
  | some (pg, (table, index)) => return (pageDecref σ pg).store table index 0

/-- `page_insert`: `0` on success, `-E_NO_MEM` when no page table could be
allocated. -/
def pageInsert (σ : Phys) (pgdir pp : ℕ) (va perm : Word) : Option (Word × Phys) := do
  match ← pgdirWalk σ pgdir va true with
  | (none, σ) => return (-eNoMem, σ)
  | (some (table, index), σ) =>
      -- counted before the old mapping goes, so that re-inserting the same
      -- page does not free it in between
      let σ := σ.incRef pp
      let σ ← if σ.load table index &&& pteP = 0 then some σ else pageRemove σ pgdir va
      return (0, σ.store table index (page2pa pp ||| perm ||| pteP))

/-! ## Checking user memory -/

/-- The loop of `user_mem_check` over `count` pages from `i`: the address it
reports, or `none` when every page passes. -/
def userMemCheckFrom (σ : Phys) (pgdir : ℕ) (va perm : Word) :
    ℕ → Word → Option (Option Word)
  | 0, _ => some none
  | count + 1, i => do
      let bad : Bool ← match ← pgdirWalk σ pgdir i false with
        | (none, _) => some true
        | (some (table, index), _) =>
            let entry := σ.load table index
            some (entry &&& pteP = 0 || entry &&& perm ≠ perm)
      if ulim ≤ i ∨ bad then return some (if i < va then va else i)
      else userMemCheckFrom σ pgdir va perm count (i + pgSize)

/-- `user_mem_check`: `none` for the result `0`, and the value left in
`user_mem_check_addr` for the result `-E_FAULT`. -/
def userMemCheck (σ : Phys) (pgdir : ℕ) (va len perm : Word) : Option (Option Word) :=
  let first := roundDown va
  let last := roundUp (va + len)
  let count := if first < last then ((last - first) / pgSize).toNat else 0
  userMemCheckFrom σ pgdir va perm count first

/-! ## Memory as the MMU reaches it -/

/-- The page that an access to `va` reaches through `pgdir`, when the entries
of both levels have all the flags `need`. -/
def mmuPage (σ : Phys) (pgdir : ℕ) (va need : Word) : Option ℕ :=
  let pde := σ.load pgdir (pdx va)
  let pte := σ.load (pgnum pde) (ptx va)
  if pde &&& need = need ∧ pte &&& need = need then some (pgnum pte) else none

/-- One byte of a little-endian word. -/
def getByte (word : Word) (k : ℕ) : BitVec 8 := (word >>> (8 * k)).setWidth 8

def setByte (word : Word) (k : ℕ) (byte : BitVec 8) : Word :=
  (word &&& ~~~(0xFF#32 <<< (8 * k))) ||| (byte.setWidth 32 <<< (8 * k))

/-- Offset in a page (`PGOFF`). -/
def pgoff (la : Word) : ℕ := (la &&& 0xFFF).toNat

def Phys.loadByte (σ : Phys) (page offset : ℕ) : BitVec 8 :=
  getByte (σ.mem page (offset / 4)) (offset % 4)

def Phys.storeByte (σ : Phys) (page offset : ℕ) (byte : BitVec 8) : Phys :=
  σ.store page (offset / 4) (setByte (σ.mem page (offset / 4)) (offset % 4) byte)

/-- A store of the kernel to a user address: supervisor accesses respect the
write flag (`CR0_WP`), and a fault in kernel mode is a panic. -/
def kernelStore (σ : Phys) (pgdir : ℕ) (va : Word) (byte : BitVec 8) : Option Phys := do
  let page ← mmuPage σ pgdir va (pteP ||| pteW)
  return σ.storeByte page (pgoff va) byte

/-- Consecutive bytes stored by the kernel from `va` on. -/
def kernelStores (σ : Phys) (pgdir : ℕ) (va : Word) : List (BitVec 8) → Option Phys
  | [] => some σ
  | byte :: bytes => do
      let σ ← kernelStore σ pgdir va byte
      kernelStores σ pgdir (va + 1) bytes

end OsLabs.Jos
