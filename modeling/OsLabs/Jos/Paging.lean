import OsLabs.Jos.Tables

/-!
# What the page table primitives do

`Paged` is the representation invariant of `kern/pmap.c` for the user halves
of a family of page directories: the free list is threaded through
`pages[]`, the reference counters agree with the slots, and page directories
and page tables are used for nothing else.  Each primitive gets one theorem
that gives its result and says how the slots change; callers use these and
never unfold a primitive.
-/

namespace OsLabs.Jos

open Function
open OsLabs.IntrusiveList
open OsLabs.RefLedger

variable {ι : Type*} [Fintype ι] [DecidableEq ι]

/-- The representation invariant.  `pool` holds the pages the allocator works
with, `free` the free list, `held` a page taken from it and not yet mapped,
and `slack` what the counters count beyond the user entries. -/
structure Paged (pool : Set ℕ) (dirs : ι → Option ℕ) (σ : Phys) (free : List ℕ)
    (held : Option ℕ) (slack : ℕ → ℕ) : Prop where
  threads : Threads σ.link σ.pageFreeList free
  balanced : Balanced (userKeys ι) pool (tableSlot σ dirs) σ.ref free held slack
  exclusive : Exclusive σ dirs
  dir_busy : ∀ i dir, dirs i = some dir → dir ∉ free ∧ held ≠ some dir
  pool_lt : ∀ page ∈ pool, page < σ.npages
  npages_le : σ.npages ≤ 2 ^ 20

/-- What an operation leaves alone, besides the user entries it is about: the
pages in use that hold no entries, the kernel half of every directory, and
the counters of pages outside the pool. -/
structure Frame (pool : Set ℕ) (dirs : ι → Option ℕ) (σ : Phys) (free : List ℕ)
    (σ' : Phys) : Prop where
  npages : σ'.npages = σ.npages
  mem_other : ∀ page, page ∉ free → NotTable σ dirs page → σ'.mem page = σ.mem page
  dir_high : ∀ i dir, dirs i = some dir → ∀ d, userPdes ≤ d → σ'.mem dir d = σ.mem dir d
  ref_other : ∀ page, page ∉ pool → σ'.ref page = σ.ref page

omit [Fintype ι] [DecidableEq ι] in
theorem Frame.refl (pool : Set ℕ) (dirs : ι → Option ℕ) (σ : Phys)
    (free : List ℕ) : Frame pool dirs σ free σ :=
  ⟨rfl, fun _ _ _ => rfl, fun _ _ _ _ _ => rfl, fun _ _ => rfl⟩

/-! ## Updates of the page array -/

section Updates

variable (σ : Phys) (pp : ℕ)

@[simp] theorem link_incRef : (σ.incRef pp).link = σ.link := by
  funext other
  by_cases h : other = pp <;> simp [Phys.link, Phys.incRef, Phys.setRef, h]

@[simp] theorem link_setRef (ref : BitVec 16) : (σ.setRef pp ref).link = σ.link := by
  funext other
  by_cases h : other = pp <;> simp [Phys.link, Phys.setRef, h]

@[simp] theorem ref_setRef (ref : BitVec 16) :
    (σ.setRef pp ref).ref = update σ.ref pp ref := by
  funext other
  by_cases h : other = pp <;> simp [Phys.ref, Phys.setRef, h]

@[simp] theorem ref_incRef : (σ.incRef pp).ref = update σ.ref pp (σ.ref pp + 1) := by
  rw [Phys.incRef, ref_setRef]
  rfl

@[simp] theorem mem_incRef : (σ.incRef pp).mem = σ.mem := rfl
@[simp] theorem mem_setRef (ref : BitVec 16) : (σ.setRef pp ref).mem = σ.mem := rfl
@[simp] theorem npages_incRef : (σ.incRef pp).npages = σ.npages := rfl
@[simp] theorem npages_setRef (ref : BitVec 16) : (σ.setRef pp ref).npages = σ.npages := rfl
@[simp] theorem freeList_setRef (ref : BitVec 16) :
    (σ.setRef pp ref).pageFreeList = σ.pageFreeList := rfl
@[simp] theorem freeList_incRef : (σ.incRef pp).pageFreeList = σ.pageFreeList := rfl

variable (index : ℕ) (value : Word)

@[simp] theorem link_store : (σ.store pp index value).link = σ.link := rfl
@[simp] theorem ref_store : (σ.store pp index value).ref = σ.ref := rfl
@[simp] theorem npages_store : (σ.store pp index value).npages = σ.npages := rfl
@[simp] theorem freeList_store :
    (σ.store pp index value).pageFreeList = σ.pageFreeList := rfl

theorem mem_store_of_ne {page : ℕ} (hne : page ≠ pp) :
    (σ.store pp index value).mem page = σ.mem page := update_of_ne hne _ _

theorem mem_store_self (other : ℕ) :
    (σ.store pp index value).mem pp other = update (σ.mem pp) index value other := by
  simp [Phys.store]

@[simp] theorem link_pageFree : (pageFree σ pp).link = update σ.link pp σ.pageFreeList := by
  funext other
  by_cases h : other = pp <;> simp [Phys.link, pageFree, h]

@[simp] theorem ref_pageFree : (pageFree σ pp).ref = σ.ref := by
  funext other
  by_cases h : other = pp <;> simp [Phys.ref, pageFree, h]

@[simp] theorem mem_pageFree : (pageFree σ pp).mem = σ.mem := rfl
@[simp] theorem npages_pageFree : (pageFree σ pp).npages = σ.npages := rfl

@[simp] theorem mem_pageDecref : (pageDecref σ pp).mem = σ.mem := by
  unfold pageDecref
  dsimp only
  split <;> rfl

@[simp] theorem npages_pageDecref : (pageDecref σ pp).npages = σ.npages := by
  unfold pageDecref
  dsimp only
  split <;> rfl

@[simp] theorem ref_pageDecref :
    (pageDecref σ pp).ref = update σ.ref pp (σ.ref pp - 1) := by
  unfold pageDecref
  dsimp only
  split <;> simp [Phys.ref]

/-- The free list after `page_decref`. -/
theorem threads_pageDecref {free : List ℕ} (hthreads : Threads σ.link σ.pageFreeList free)
    (hfree : pp ∉ free) :
    Threads (pageDecref σ pp).link (pageDecref σ pp).pageFreeList
      (if σ.ref pp - 1 = 0 then pp :: free else free) := by
  unfold pageDecref Phys.ref
  dsimp only
  split
  · rw [link_pageFree]
    simpa [pageFree] using hthreads.push hfree
  · simpa using hthreads

end Updates

omit [Fintype ι] [DecidableEq ι] in
/-- The view depends on memory only. -/
theorem wordAt_congr_mem {σ σ' : Phys} (hmem : σ'.mem = σ.mem) (dirs : ι → Option ℕ) :
    wordAt σ' dirs = wordAt σ dirs := by
  funext key
  cases key with
  | pde i d => simp only [wordAt, pdeWord, hmem]
  | pte i d t => simp only [wordAt, pdeWord, hmem]

omit [Fintype ι] [DecidableEq ι] in
theorem tableSlot_congr_mem {σ σ' : Phys} (hmem : σ'.mem = σ.mem) (dirs : ι → Option ℕ) :
    tableSlot σ' dirs = tableSlot σ dirs := by
  funext key
  rw [tableSlot, tableSlot, wordAt_congr_mem hmem]

/-! ## Changing one slot keeps tables exclusive -/

section ExclusiveUpdates

variable {σ σ' : Phys} {dirs : ι → Option ℕ} {place : TableKey ι}

theorem Exclusive.congr (hexcl : Exclusive σ dirs)
    (hslots : ∀ key ∈ userKeys ι, tableSlot σ' dirs key = tableSlot σ dirs key) :
    Exclusive σ' dirs where
  dir_inj := hexcl.dir_inj
  dir_unref := fun i dir hdir key hkey => by
    rw [hslots key hkey]
    exact hexcl.dir_unref i dir hdir key hkey
  table_unique := fun i d table hd htable key hkey hslot => by
    rw [hslots _ (pde_mem_userKeys.mpr hd)] at htable
    rw [hslots key hkey] at hslot
    exact hexcl.table_unique i d table hd htable key hkey hslot

theorem Exclusive.cleared (hexcl : Exclusive σ dirs)
    (hslots : ∀ key ∈ userKeys ι,
      tableSlot σ' dirs key = update (tableSlot σ dirs) place none key) :
    Exclusive σ' dirs := by
  have hold : ∀ key ∈ userKeys ι, ∀ page, tableSlot σ' dirs key = some page →
      tableSlot σ dirs key = some page := by
    intro key hkey page hpage
    rw [hslots key hkey] at hpage
    by_cases hsame : key = place
    · rw [hsame, update_self] at hpage
      cases hpage
    · rwa [update_of_ne hsame] at hpage
  exact
    { dir_inj := hexcl.dir_inj
      dir_unref := fun i dir hdir key hkey hslot =>
        hexcl.dir_unref i dir hdir key hkey (hold key hkey dir hslot)
      table_unique := fun i d table hd htable key hkey hslot =>
        hexcl.table_unique i d table hd (hold _ (pde_mem_userKeys.mpr hd) table htable) key hkey
          (hold key hkey table hslot) }

/-- Mapping a page that is no table at a table entry. -/
theorem Exclusive.mapped (hexcl : Exclusive σ dirs) {i : ι} {d t page : ℕ}
    (hpage : NotTable σ dirs page)
    (hslots : ∀ key ∈ userKeys ι,
      tableSlot σ' dirs key = update (tableSlot σ dirs) (.pte i d t) (some page) key) :
    Exclusive σ' dirs where
  dir_inj := hexcl.dir_inj
  dir_unref := fun j dir hdir key hkey hslot => by
    rw [hslots key hkey] at hslot
    by_cases hsame : key = .pte i d t
    · rw [hsame, update_self] at hslot
      cases hslot
      exact hpage.1 j hdir
    · rw [update_of_ne hsame] at hslot
      exact hexcl.dir_unref j dir hdir key hkey hslot
  table_unique := fun j e table he htable key hkey hslot => by
    rw [hslots _ (pde_mem_userKeys.mpr he), update_of_ne (by simp)] at htable
    rw [hslots key hkey] at hslot
    by_cases hsame : key = .pte i d t
    · rw [hsame, update_self] at hslot
      cases hslot
      exact absurd htable (hpage.2 j e he)
    · rw [update_of_ne hsame] at hslot
      exact hexcl.table_unique j e table he htable key hkey hslot

/-- Installing an unreferenced page as a page table. -/
theorem Exclusive.installed (hexcl : Exclusive σ dirs) {i : ι} {d page : ℕ}
    (hdirs : ∀ j, dirs j ≠ some page)
    (hunref : ∀ key ∈ userKeys ι, tableSlot σ dirs key ≠ some page)
    (hslots : ∀ key ∈ userKeys ι,
      tableSlot σ' dirs key = update (tableSlot σ dirs) (.pde i d) (some page) key) :
    Exclusive σ' dirs where
  dir_inj := hexcl.dir_inj
  dir_unref := fun j dir hdir key hkey hslot => by
    rw [hslots key hkey] at hslot
    by_cases hsame : key = .pde i d
    · rw [hsame, update_self] at hslot
      cases hslot
      exact hdirs j hdir
    · rw [update_of_ne hsame] at hslot
      exact hexcl.dir_unref j dir hdir key hkey hslot
  table_unique := fun j e table he htable key hkey hslot => by
    rw [hslots _ (pde_mem_userKeys.mpr he)] at htable
    rw [hslots key hkey] at hslot
    by_cases hsame : TableKey.pde j e = .pde i d
    · rw [hsame, update_self] at htable
      cases htable
      rw [hsame]
      by_contra hne
      rw [update_of_ne hne] at hslot
      exact hunref key hkey hslot
    · rw [update_of_ne hsame] at htable
      by_cases hkeys : key = .pde i d
      · rw [hkeys, update_self] at hslot
        cases hslot
        exact absurd htable (hunref _ (pde_mem_userKeys.mpr he))
      · rw [update_of_ne hkeys] at hslot
        exact hexcl.table_unique j e table he htable key hkey hslot

end ExclusiveUpdates

namespace Paged

variable {pool : Set ℕ} {dirs : ι → Option ℕ} {σ : Phys} {free : List ℕ}
variable {held : Option ℕ} {slack : ℕ → ℕ}

/-- A free page is no directory and no page table. -/
theorem free_notTable (hpaged : Paged pool dirs σ free held slack) {page : ℕ}
    (hpage : page ∈ free) : NotTable σ dirs page := by
  refine ⟨fun i hdir => (hpaged.dir_busy i page hdir).1 hpage, fun i d hd => ?_⟩
  exact refs_eq_zero_iff.mp (hpaged.balanced.free_unref page hpage) _
    (pde_mem_userKeys.mpr hd)

/-- A page mapped by a user entry is no directory and no page table. -/
theorem mapped_notTable (hpaged : Paged pool dirs σ free held slack) {i : ι} {d t page : ℕ}
    (hd : d < userPdes) (ht : t < nptEntries)
    (hslot : tableSlot σ dirs (.pte i d t) = some page) : NotTable σ dirs page := by
  have hkey : TableKey.pte i d t ∈ userKeys ι := pte_mem_userKeys.mpr ⟨hd, ht⟩
  refine ⟨fun j hdir => hpaged.exclusive.dir_unref j page hdir _ hkey hslot,
    fun j e he htable => ?_⟩
  have hkeys := hpaged.exclusive.table_unique j e page he htable _ hkey hslot
  cases hkeys

theorem slot_lt (hpaged : Paged pool dirs σ free held slack) {key : TableKey ι}
    (hkey : key ∈ userKeys ι) {page : ℕ} (hslot : tableSlot σ dirs key = some page) :
    page < σ.npages :=
  hpaged.pool_lt page (hpaged.balanced.slot_mem key hkey page hslot)

/-- The view of an operation that changes counters and links only. -/
theorem frame_pages (_hpaged : Paged pool dirs σ free held slack) {σ' : Phys}
    (hmem : σ'.mem = σ.mem) (hnpages : σ'.npages = σ.npages)
    (href : ∀ page, page ∉ pool → σ'.ref page = σ.ref page) :
    Frame pool dirs σ free σ' :=
  ⟨hnpages, fun _ _ _ => by rw [hmem], fun _ _ _ _ _ => by rw [hmem], href⟩

end Paged

end OsLabs.Jos
