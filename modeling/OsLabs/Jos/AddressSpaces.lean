import OsLabs.Jos.BootLayout
import OsLabs.Jos.Primitives

/-!
# The address spaces of all environments

`Spaces` is the invariant of physical memory while environments exist: the
representation invariant of the page tables, with every page directory counted
once; the kernel half of every directory as `env_setup_vm` copied it; and user
mappings only of pages that were given to the environment.  Each operation of
the kernel on memory gets one theorem.
-/

namespace OsLabs.Jos

open Function
open OsLabs.IntrusiveList
open OsLabs.RefLedger

variable {ι : Type*} [Fintype ι] [DecidableEq ι]

/-! ## Entries up to the flags of the MMU -/

/-- Two entries that differ at most in the flags that the MMU sets. -/
def SameEntry (left right : Word) : Prop :=
  left &&& ~~~(pteA ||| pteD) = right &&& ~~~(pteA ||| pteD)

theorem not_and_of_disjoint {flags mask : Word} (hmask : flags &&& mask = 0) :
    ~~~flags &&& mask = mask := by
  ext i hi
  have hbit := congrArg (fun w : Word => w.getLsbD i) hmask
  simp at hbit
  simp
  grind

theorem SameEntry.and_eq {left right mask : Word} (hsame : SameEntry left right)
    (hmask : (pteA ||| pteD) &&& mask = 0) : left &&& mask = right &&& mask := by
  have hcover : ∀ w : Word, w &&& mask = w &&& ~~~(pteA ||| pteD) &&& mask := fun w => by
    rw [BitVec.and_assoc, not_and_of_disjoint hmask]
  rw [hcover left, hcover right, hsame]

theorem SameEntry.pgnum_eq {left right : Word} (hsame : SameEntry left right) :
    pgnum left = pgnum right := by
  rw [← pgnum_pteAddr left, ← pgnum_pteAddr right, pteAddr, pteAddr,
    hsame.and_eq (by decide)]

theorem SameEntry.entryPage_eq {left right : Word} (hsame : SameEntry left right) :
    entryPage left = entryPage right := by
  rw [entryPage, entryPage, hsame.and_eq (show (pteA ||| pteD) &&& pteP = 0 by decide), hsame.pgnum_eq]

theorem sameEntry_load (σ : Phys) (page index : ℕ) :
    SameEntry (σ.load page index) (σ.mem page index) :=
  load_and σ page index (by decide)

/-! ## The invariant -/

/-- What booting on `m` left outside `pool`: the kernel's page directory, whose
entries below `UTOP` are empty, and its page tables. -/
structure KernelImage (m : Machine) (pool : Set ℕ) (base : Phys) : Prop where
  pool_sub : ∀ page ∈ pool, page ∈ m.pool
  kern_not_pool : m.kernPgdir ∉ pool
  user_empty : ∀ d < userPdes, entryPage (base.mem m.kernPgdir d) = none
  tables : ∀ d, userPdes ≤ d → d < 1024 → d ≠ uvptIndex → ∀ table,
    entryPage (base.mem m.kernPgdir d) = some table →
    table ∉ pool ∧ ∀ i < nptEntries, m.Window d i (base.mem table i)

/-- The kernel half of an environment's page directory. -/
structure KernelPart (m : Machine) (base σ : Phys) (dir : ℕ) : Prop where
  uvpt_entry : σ.mem dir uvptIndex = page2pa dir ||| pteP ||| pteU
  copied : ∀ d, userPdes ≤ d → d < 1024 → d ≠ uvptIndex →
    SameEntry (σ.mem dir d) (base.mem m.kernPgdir d)

/-- What the counters count beyond user entries: page directories, and
references that exist no more. -/
def owned (dirs : ι → Option ℕ) (leak : ℕ → ℕ) (page : ℕ) : ℕ :=
  refs Finset.univ dirs page + leak page

/-- References to a page, and what else its counter counts. -/
def counted (σ : Phys) (dirs : ι → Option ℕ) (leak : ℕ → ℕ) (page : ℕ) : ℕ :=
  refs (userKeys ι) (tableSlot σ dirs) page + owned dirs leak page

/-- The invariant.  `Good` is a condition on the entries of user mappings,
`given` says which pages each environment was given, and `leak` what the
counters count too much. -/
structure Spaces (m : Machine) (pool : Set ℕ) (base : Phys) (Good : Word → Prop)
    (dirs : ι → Option ℕ) (given : ι → Set ℕ) (σ : Phys) (free : List ℕ)
    (leak : ℕ → ℕ) : Prop where
  paged : Paged pool dirs σ free none (owned dirs leak)
  fits : ∀ page ∈ pool, counted σ dirs leak page < 2 ^ 16
  dir_pool : ∀ e dir, dirs e = some dir → dir ∈ pool
  npages : σ.npages = base.npages
  mem_kept : ∀ page, page ∉ pool → σ.mem page = base.mem page
  ref_kept : ∀ page, page ∉ pool → σ.ref page = base.ref page
  kernel_part : ∀ e dir, dirs e = some dir → KernelPart m base σ dir
  user_ptes : ∀ e d t page, d < userPdes → t < nptEntries →
    tableSlot σ dirs (.pte e d t) = some page →
    page ∈ given e ∧ Good (wordAt σ dirs (.pte e d t))

/-- An increment of `pp_ref` that does not wrap, and neither does the one for a
new page table. -/
def InsertRoom (σ : Phys) (pgdir pp : ℕ) (va : Word) : Prop :=
  σ.ref pp ≠ 0xFFFF ∧
    (σ.mem pgdir (pdx va) &&& pteP = 0 → ∀ pg, σ.pageFreeList = some pg → σ.ref pg ≠ 0xFFFF)

/-- One page more for one environment. -/
def give (given : ι → Set ℕ) (e : ι) (page : ℕ) : ι → Set ℕ :=
  update given e (insert page (given e))

omit [Fintype ι] in
theorem mem_give (given : ι → Set ℕ) (e : ι) (page : ℕ) : page ∈ give given e page e := by
  rw [give, update_self]
  exact Set.mem_insert _ _

omit [Fintype ι] in
theorem give_sub (given : ι → Set ℕ) (e : ι) (page : ℕ) {k : ι} {other : ℕ}
    (hmem : other ∈ given k) : other ∈ give given e page k := by
  by_cases hk : k = e
  · subst hk
    rw [give, update_self]
    exact Set.mem_insert_of_mem _ hmem
  · rwa [give, update_of_ne hk]

namespace Spaces

variable {m : Machine} {pool : Set ℕ} {base : Phys} {Good : Word → Prop}
variable {dirs : ι → Option ℕ} {given : ι → Set ℕ} {σ : Phys} {free : List ℕ}
variable {leak : ℕ → ℕ}

/-- A counter below its maximum counts fewer than `2 ^ 16 - 1` references. -/
theorem counted_lt (hspaces : Spaces m pool base Good dirs given σ free leak) {page : ℕ}
    (hpage : page ∈ pool) (hroom : σ.ref page ≠ 0xFFFF) :
    counted σ dirs leak page < 2 ^ 16 - 1 := by
  have hfits := hspaces.fits page hpage
  have hcount := hspaces.paged.balanced.count_eq page hpage
  by_contra hfull
  have hmax : refs (userKeys ι) (tableSlot σ dirs) page + owned dirs leak page = 65535 := by
    unfold counted at hfits hfull
    omega
  rw [hmax] at hcount
  exact hroom hcount

theorem notTable_of_not_pool (hspaces : Spaces m pool base Good dirs given σ free leak)
    {page : ℕ} (hpage : page ∉ pool) : NotTable σ dirs page :=
  ⟨fun e hdir => hpage (hspaces.dir_pool e page hdir), fun _ _ hd hslot =>
    hpage (hspaces.paged.balanced.slot_mem _ (pde_mem_userKeys.mpr hd) page hslot)⟩

theorem not_free_of_not_pool (hspaces : Spaces m pool base Good dirs given σ free leak)
    {page : ℕ} (hpage : page ∉ pool) : page ∉ free := fun hmem =>
  hpage (hspaces.paged.balanced.free_mem page hmem)

/-- What an operation keeps that respects the frame of the primitives. -/
theorem of_frame (hspaces : Spaces m pool base Good dirs given σ free leak) {σ' : Phys}
    {free' : List ℕ} {leak' : ℕ → ℕ} {given' : ι → Set ℕ} (hframe : Frame pool dirs σ free σ')
    (hpaged : Paged pool dirs σ' free' none (owned dirs leak'))
    (hfits : ∀ page ∈ pool, counted σ' dirs leak' page < 2 ^ 16)
    (hptes : ∀ e d t page, d < userPdes → t < nptEntries →
      tableSlot σ' dirs (.pte e d t) = some page →
      page ∈ given' e ∧ Good (wordAt σ' dirs (.pte e d t))) :
    Spaces m pool base Good dirs given' σ' free' leak' where
  paged := hpaged
  fits := hfits
  dir_pool := hspaces.dir_pool
  npages := hframe.npages.trans hspaces.npages
  mem_kept := fun page hpage => by
    rw [hframe.mem_other page (hspaces.not_free_of_not_pool hpage)
      (hspaces.notTable_of_not_pool hpage), hspaces.mem_kept page hpage]
  ref_kept := fun page hpage => by rw [hframe.ref_other page hpage, hspaces.ref_kept page hpage]
  kernel_part := fun e dir hdir => by
    obtain ⟨huvpt, hcopied⟩ := hspaces.kernel_part e dir hdir
    have hhigh := hframe.dir_high e dir hdir
    refine ⟨?_, fun d hlow hd hne => ?_⟩
    · rw [hhigh _ (by rw [userPdes_eq, uvptIndex_eq]; decide), huvpt]
    · rw [hhigh d hlow]
      exact hcopied d hlow hd hne
  user_ptes := hptes

/-! ## Insertion and removal -/

/-- What an insertion keeps that started in `τ`, which differs from `σ` in free
pages at most. -/
theorem of_inserted (hspaces : Spaces m pool base Good dirs given σ free leak) {τ σ' : Phys}
    {rest free' : List ℕ} {i : ι} {pp : ℕ} {va entry : Word} {given' : ι → Set ℕ}
    (hview : ∀ key ∈ userKeys ι, wordAt τ dirs key = wordAt σ dirs key)
    (hsub : ∀ page ∈ rest, page ∈ free) (hframe : Frame pool dirs σ free σ')
    (hinserted : Inserted pool dirs τ rest (owned dirs leak) i va entry σ' free')
    (hpool : pp ∈ pool) (hrest : pp ∉ rest) (hentry : entryPage entry = some pp)
    (hgood : Good entry) (hroom : σ.ref pp ≠ 0xFFFF)
    (hwalkRoom : tableSlot σ dirs (.pde i (pdx va)) = none →
      ∀ pg, rest.head? = some pg → σ.ref pg ≠ 0xFFFF)
    (hgive : pp ∈ given' i) (hkeep : ∀ e d t page, d < userPdes → t < nptEntries →
      tableSlot σ dirs (.pte e d t) = some page → page ∈ given e → page ∈ given' e)
    (hva : va < utop) :
    Spaces m pool base Good dirs given' σ' free' leak := by
  have hslots : ∀ key ∈ userKeys ι, tableSlot τ dirs key = tableSlot σ dirs key :=
    fun key hkey => by rw [tableSlot, hview key hkey, tableSlot]
  have hhead : ∀ pg, rest.head? = some pg → pg ∈ pool := fun pg hpg =>
    hspaces.paged.balanced.free_mem pg (hsub pg (List.mem_of_mem_head? hpg))
  have hbound : ∀ pg, rest.head? = some pg → pg < 2 ^ 20 := fun pg hpg =>
    lt_of_lt_of_le (hspaces.paged.pool_lt pg (hhead pg hpg)) hspaces.paged.npages_le
  refine hspaces.of_frame hframe hinserted.paged (fun page hpage => ?_)
    fun e d t page hd ht hslot => ?_
  · have hrefs := hinserted.refs_le_pages hbound hentry page
    rw [refs_congr hslots, hslots _ (pde_mem_userKeys.mpr (pdx_lt_userPdes hva))] at hrefs
    have hfits := hspaces.fits page hpage
    unfold counted at hfits ⊢
    by_cases hsame : page = pp
    · subst hsame
      have hlt := hspaces.counted_lt hpage hroom
      have hnothead : ¬ (rest.head? = some page ∧ tableSlot σ dirs (.pde i (pdx va)) = none) :=
        fun h => hrest (List.mem_of_mem_head? h.1)
      rw [if_pos rfl, if_neg hnothead] at hrefs
      unfold counted at hlt
      omega
    · rw [if_neg hsame] at hrefs
      by_cases hwalk : rest.head? = some page ∧ tableSlot σ dirs (.pde i (pdx va)) = none
      · have hlt := hspaces.counted_lt hpage (hwalkRoom hwalk.2 page hwalk.1)
        rw [if_pos hwalk] at hrefs
        unfold counted at hlt
        omega
      · rw [if_neg hwalk] at hrefs
        omega
  · have hword := hinserted.ptes e d t hd ht
    by_cases hsame : TableKey.pte e d t = pteKey i va
    · rw [hsame, update_self] at hword
      rw [tableSlot, hsame, hword, hentry] at hslot
      cases hslot
      have he : e = i := (TableKey.pte.inj hsame).1
      subst he
      rw [hsame, hword]
      exact ⟨hgive, hgood⟩
    · rw [update_of_ne hsame, hview _ (pte_mem_userKeys.mpr ⟨hd, ht⟩)] at hword
      rw [tableSlot, hword] at hslot
      obtain ⟨hgiven, hold⟩ := hspaces.user_ptes e d t page hd ht hslot
      rw [hword]
      exact ⟨hkeep e d t page hd ht hslot hgiven, hold⟩

/-- `page_insert` of a page of the pool. -/
theorem insert (hspaces : Spaces m pool base Good dirs given σ free leak) {i : ι} {dir pp : ℕ}
    {va perm : Word} {given' : ι → Set ℕ} (hdir : dirs i = some dir) (hva : va < utop)
    (hpool : pp ∈ pool) (hfree : pp ∉ free) (hnot : NotTable σ dirs pp)
    (hfit : pteAddr (page2pa pp ||| perm) = page2pa pp)
    (hgood : Good (page2pa pp ||| perm ||| pteP)) (hroom : InsertRoom σ dir pp va)
    (hgive : pp ∈ given' i) (hkeep : ∀ e d t page, d < userPdes → t < nptEntries →
      tableSlot σ dirs (.pte e d t) = some page → page ∈ given e → page ∈ given' e) :
    (tableSlot σ dirs (.pde i (pdx va)) = none ∧ free = [] ∧
      pageInsert σ dir pp va perm = some (-eNoMem, σ)) ∨
    ∃ σ' free', pageInsert σ dir pp va perm = some (0, σ') ∧
      Inserted pool dirs σ free (owned dirs leak) i va (page2pa pp ||| perm ||| pteP) σ' free' ∧
      Spaces m pool base Good dirs given' σ' free' leak := by
  have hentry : entryPage (page2pa pp ||| perm ||| pteP) = some pp :=
    entryPage_entry (lt_of_lt_of_le (hspaces.paged.pool_lt pp hpool) hspaces.paged.npages_le) hfit
  rcases pageInsert_spec hspaces.paged hdir hva hpool hfree hnot hentry
    (fun old hslot => hspaces.fits old
      (hspaces.paged.balanced.slot_mem _ (pteKey_mem hva i) old hslot)) (by simp) with
    hfailed | ⟨σ', free', hresult, hinserted⟩
  · exact Or.inl hfailed
  · refine Or.inr ⟨σ', free', hresult, hinserted, hspaces.of_inserted (fun _ _ => rfl)
      (fun _ h => h) hinserted.frame hinserted hpool hfree hentry hgood hroom.1
      (fun habsent pg hpg => hroom.2 ?_ pg (hspaces.paged.threads.head_eq.trans hpg))
      hgive hkeep hva⟩
    rwa [tableSlot, wordAt_pde hdir, entryPage_eq_none] at habsent

/-- Removing references keeps the counters within their width. -/
theorem fits_of_le (hspaces : Spaces m pool base Good dirs given σ free leak) {σ' : Phys}
    (hslots : ∀ key ∈ userKeys ι, ∀ page, tableSlot σ' dirs key = some page →
      tableSlot σ dirs key = some page) :
    ∀ page ∈ pool, counted σ' dirs leak page < 2 ^ 16 := by
  intro page hpage
  have hrefs := refs_le_of_new ∅ page fun key hkey hslot =>
    Or.inl (hslots key hkey page hslot)
  have hfits := hspaces.fits page hpage
  rw [Finset.card_empty] at hrefs
  unfold counted at *
  omega

/-- `page_remove`. -/
theorem remove (hspaces : Spaces m pool base Good dirs given σ free leak) {i : ι} {dir : ℕ}
    {va : Word} (hdir : dirs i = some dir) (hva : va < utop) :
    ∃ σ' free', pageRemove σ dir va = some σ' ∧
      Spaces m pool base Good dirs given σ' free' leak ∧
      ∀ key ∈ userKeys ι,
        tableSlot σ' dirs key = update (tableSlot σ dirs) (pteKey i va) none key := by
  cases hslot : tableSlot σ dirs (pteKey i va) with
  | none =>
      refine ⟨σ, free, pageRemove_none hspaces.paged hdir hva hslot, hspaces, fun key _ => ?_⟩
      by_cases hsame : key = pteKey i va
      · rw [hsame, update_self, hslot]
      · rw [update_of_ne hsame]
  | some page =>
      obtain ⟨table, htable⟩ := table_of_pte hslot
      have hpool := hspaces.paged.balanced.slot_mem _ (pteKey_mem hva i) page hslot
      have hwords := hspaces.paged.wordAt_removed hva htable page 0
      have hslots : ∀ key ∈ userKeys ι,
          tableSlot ((pageDecref σ page).store table (ptx va) 0) dirs key =
            update (tableSlot σ dirs) (pteKey i va) none key := fun key hkey => by
        rw [tableSlot_update (hwords key hkey), entryPage_zero]
      have hold : ∀ key ∈ userKeys ι, ∀ other,
          tableSlot ((pageDecref σ page).store table (ptx va) 0) dirs key = some other →
          key ≠ pteKey i va ∧ tableSlot σ dirs key = some other := fun key hkey other h => by
        rw [hslots key hkey] at h
        by_cases hsame : key = pteKey i va
        · rw [hsame, update_self] at h
          cases h
        · rw [update_of_ne hsame] at h
          exact ⟨hsame, h⟩
      refine ⟨_, _, pageRemove_some hspaces.paged hdir hva htable hslot,
        hspaces.of_frame (hspaces.paged.frame_removed hva htable hpool 0)
          (hspaces.paged.removed hva htable hslot (by simp) (hspaces.fits page hpool).le)
          (hspaces.fits_of_le fun key hkey other h => (hold key hkey other h).2)
          fun e d t other hd ht h => ?_, hslots⟩
      have hkey : TableKey.pte e d t ∈ userKeys ι := pte_mem_userKeys.mpr ⟨hd, ht⟩
      obtain ⟨hne, hslot'⟩ := hold _ hkey other h
      rw [hwords _ hkey, update_of_ne hne]
      exact hspaces.user_ptes e d t other hd ht hslot'

/-! ## Allocation -/

/-- `page_alloc` and the increment that `sys_page_alloc` makes itself. -/
theorem take {pg : ℕ} (hspaces : Spaces m pool base Good dirs given σ (pg :: free) leak)
    (hroom : σ.ref pg ≠ 0xFFFF) :
    Spaces m pool base Good dirs given ((takePage σ pg true).incRef pg) free
      (fun page => leak page + if page = pg then 1 else 0) := by
  have hpool := hspaces.paged.balanced.free_mem pg List.mem_cons_self
  have hview : ∀ key ∈ userKeys ι, wordAt ((takePage σ pg true).incRef pg) dirs key =
      wordAt σ dirs key := fun key hkey => by
    rw [wordAt_congr_mem (mem_incRef _ _), hspaces.paged.wordAt_takePage true key hkey]
  have hslots : ∀ key ∈ userKeys ι, tableSlot ((takePage σ pg true).incRef pg) dirs key =
      tableSlot σ dirs key := fun key hkey => by rw [tableSlot, hview key hkey, tableSlot]
  have howned : owned dirs (fun page => leak page + if page = pg then 1 else 0) =
      fun page => owned dirs leak page + if page = pg then 1 else 0 := by
    funext page
    exact (Nat.add_assoc _ _ _).symm
  have htake := hspaces.paged.frame_takePage true
  refine hspaces.of_frame ⟨by simp, fun page hfree hnot => ?_, fun e dir hdir d hd => ?_,
    fun page hpage => ?_⟩ ?_ (fun page hpage => ?_) fun e d t page hd ht hslot => ?_
  · rw [mem_incRef, htake.mem_other page hfree hnot]
  · rw [mem_incRef, htake.dir_high e dir hdir d hd]
  · have hne : page ≠ pg := fun hsame => hpage (hsame ▸ hpool)
    rw [ref_incRef, update_of_ne hne, ref_takePage]
  · rw [howned]
    exact hspaces.paged.takenCounted true
  · have hfits := hspaces.fits page hpage
    unfold counted at hfits ⊢
    rw [howned, refs_congr hslots]
    dsimp only
    by_cases hsame : page = pg
    · subst hsame
      have hlt := hspaces.counted_lt hpage hroom
      unfold counted at hlt
      rw [if_pos rfl]
      omega
    · rw [if_neg hsame]
      omega
  · have hkey : TableKey.pte e d t ∈ userKeys ι := pte_mem_userKeys.mpr ⟨hd, ht⟩
    rw [hslots _ hkey] at hslot
    rw [hview _ hkey]
    exact hspaces.user_ptes e d t page hd ht hslot

/-- `page_free` of a page that nothing refers to. -/
theorem giveBack {pg : ℕ} (hspaces : Spaces m pool base Good dirs given σ free leak)
    (hpool : pg ∈ pool) (hfree : pg ∉ free) (hdirs : ∀ e, dirs e ≠ some pg)
    (hunref : ∀ key ∈ userKeys ι, tableSlot σ dirs key ≠ some pg) :
    Spaces m pool base Good dirs given (pageFree σ pg) (pg :: free) leak := by
  have hview := tableSlot_congr_mem (mem_pageFree σ pg) dirs
  refine hspaces.of_frame (hspaces.paged.frame_pages (mem_pageFree σ pg) (npages_pageFree σ pg)
    fun page _ => by rw [ref_pageFree])
    (hspaces.paged.freed hpool hfree (by simp) hdirs hunref) (fun page hpage => ?_)
    fun e d t page hd ht hslot => ?_
  · unfold counted
    rw [hview]
    exact hspaces.fits page hpage
  · rw [hview] at hslot
    rw [wordAt_congr_mem (mem_pageFree σ pg)]
    exact hspaces.user_ptes e d t page hd ht hslot

/-- The pages of each environment after page `pg` was allocated for `i`. -/
def regive (given : ι → Set ℕ) (i : ι) (pg : ℕ) : ι → Set ℕ :=
  fun e => if e = i then Insert.insert pg (given e) else given e \ {pg}

/-- The memory part of `sys_page_alloc`: the page is counted twice, by
`sys_page_alloc` and by `page_insert`. -/
theorem allocInsert {pg : ℕ} (hspaces : Spaces m pool base Good dirs given σ (pg :: free) leak)
    {i : ι} {dir : ℕ} {va perm : Word} (hdir : dirs i = some dir) (hva : va < utop)
    (hfit : pteAddr (page2pa pg ||| perm) = page2pa pg)
    (hgood : Good (page2pa pg ||| perm ||| pteP)) (hfirst : σ.ref pg ≠ 0xFFFF)
    (hroom : InsertRoom ((takePage σ pg true).incRef pg) dir pg va) :
    (pageInsert ((takePage σ pg true).incRef pg) dir pg va perm =
        some (-eNoMem, (takePage σ pg true).incRef pg) ∧
      Spaces m pool base Good dirs given (pageFree ((takePage σ pg true).incRef pg) pg)
        (pg :: free) (fun page => leak page + if page = pg then 1 else 0)) ∨
    ∃ σ' free', pageInsert ((takePage σ pg true).incRef pg) dir pg va perm = some (0, σ') ∧
      Inserted pool dirs ((takePage σ pg true).incRef pg) free
        (owned dirs fun page => leak page + if page = pg then 1 else 0) i va
        (page2pa pg ||| perm ||| pteP) σ' free' ∧
      Spaces m pool base Good dirs (regive given i pg) σ' free'
        (fun page => leak page + if page = pg then 1 else 0) := by
  have htaken := hspaces.take hfirst
  have hpool := hspaces.paged.balanced.free_mem pg List.mem_cons_self
  have hfree := (List.nodup_cons.mp hspaces.paged.balanced.free_nodup).1
  have hnot := hspaces.paged.free_notTable (show pg ∈ pg :: free from List.mem_cons_self)
  have hslots : ∀ key ∈ userKeys ι, tableSlot ((takePage σ pg true).incRef pg) dirs key =
      tableSlot σ dirs key := fun key hkey => by
    rw [tableSlot_congr_mem (mem_incRef _ _), hspaces.paged.tableSlot_takePage true key hkey]
  have hunref : ∀ key ∈ userKeys ι,
      tableSlot ((takePage σ pg true).incRef pg) dirs key ≠ some pg := fun key hkey => by
    rw [hslots key hkey]
    exact refs_eq_zero_iff.mp (hspaces.paged.balanced.free_unref pg List.mem_cons_self) key hkey
  have hnot' : NotTable ((takePage σ pg true).incRef pg) dirs pg :=
    ⟨hnot.1, fun j d hd => hunref _ (pde_mem_userKeys.mpr hd)⟩
  have hgive : pg ∈ regive given i pg i := by simp [regive]
  have hkeep : ∀ e d t page, d < userPdes → t < nptEntries →
      tableSlot ((takePage σ pg true).incRef pg) dirs (.pte e d t) = some page →
      page ∈ given e → page ∈ regive given i pg e := by
    intro e d t page hd ht hslot hgiven
    have hne : page ≠ pg := fun hsame =>
      hunref _ (pte_mem_userKeys.mpr ⟨hd, ht⟩) (hsame ▸ hslot)
    unfold regive
    split
    · exact Set.mem_insert_of_mem _ hgiven
    · exact ⟨hgiven, hne⟩
  rcases htaken.insert hdir hva hpool hfree hnot' hfit hgood hroom hgive hkeep with
    ⟨-, -, hfailed⟩ | ⟨σ', free', hresult, hinserted, hdone⟩
  · exact Or.inl ⟨hfailed, htaken.giveBack hpool hfree hnot.1 hunref⟩
  · exact Or.inr ⟨σ', free', hresult, hinserted, hdone⟩

/-! ## Stores into user pages -/

/-- A store into a mapped user page. -/
theorem storeByte (hspaces : Spaces m pool base Good dirs given σ free leak) {page : ℕ}
    (hpool : page ∈ pool) (hnot : NotTable σ dirs page) (offset : ℕ) (byte : BitVec 8) :
    Spaces m pool base Good dirs given (σ.storeByte page offset byte) free leak := by
  have hother : ∀ other, other ≠ page → (σ.storeByte page offset byte).mem other = σ.mem other :=
    fun other hne => mem_store_of_ne σ page _ _ hne
  have hview := wordAt_of_notTable hnot hother
  have hslots : ∀ key ∈ userKeys ι, tableSlot (σ.storeByte page offset byte) dirs key =
      tableSlot σ dirs key := fun key hkey => by rw [tableSlot, hview key hkey, tableSlot]
  have hdirNe : ∀ e dir, dirs e = some dir → dir ≠ page := fun e dir hdir hsame =>
    hnot.1 e (hsame ▸ hdir)
  exact
    { paged :=
        { threads := hspaces.paged.threads
          balanced := hspaces.paged.balanced.congr_slot hslots
          exclusive := hspaces.paged.exclusive.congr hslots
          dir_busy := hspaces.paged.dir_busy
          pool_lt := hspaces.paged.pool_lt
          npages_le := hspaces.paged.npages_le }
      fits := fun other hpage => by
        unfold counted
        rw [refs_congr hslots]
        exact hspaces.fits other hpage
      dir_pool := hspaces.dir_pool
      npages := hspaces.npages
      mem_kept := fun other hpage => by
        rw [hother other fun hsame => hpage (hsame ▸ hpool), hspaces.mem_kept other hpage]
      ref_kept := hspaces.ref_kept
      kernel_part := fun e dir hdir => by
        obtain ⟨huvpt, hcopied⟩ := hspaces.kernel_part e dir hdir
        have hsame := hother dir (hdirNe e dir hdir)
        exact ⟨by rw [hsame, huvpt], fun d hlow hd hne => by
          rw [hsame]
          exact hcopied d hlow hd hne⟩
      user_ptes := fun e d t other hd ht hslot => by
        have hkey : TableKey.pte e d t ∈ userKeys ι := pte_mem_userKeys.mpr ⟨hd, ht⟩
        rw [hslots _ hkey] at hslot
        rw [hview _ hkey]
        exact hspaces.user_ptes e d t other hd ht hslot }

/-- The MMU sets flags. -/
theorem setMmuBits (hspaces : Spaces m pool base Good dirs given σ free leak)
    (bits : ℕ → ℕ → Word) :
    Spaces m pool base Good dirs given { σ with mmuBits := bits } free leak :=
  have hmem : Phys.mem { σ with mmuBits := bits } = σ.mem := rfl
  { hspaces with
    paged :=
      { threads := hspaces.paged.threads
        balanced := hspaces.paged.balanced.congr_slot fun key _ => by
          rw [tableSlot_congr_mem hmem]
        exclusive := hspaces.paged.exclusive.congr fun key _ => by rw [tableSlot_congr_mem hmem]
        dir_busy := hspaces.paged.dir_busy
        pool_lt := hspaces.paged.pool_lt
        npages_le := hspaces.paged.npages_le }
    fits := fun page hpage => by
      unfold counted
      rw [tableSlot_congr_mem hmem]
      exact hspaces.fits page hpage
    kernel_part := fun e dir hdir =>
      ⟨(hspaces.kernel_part e dir hdir).uvpt_entry, (hspaces.kernel_part e dir hdir).copied⟩
    user_ptes := fun e d t page hd ht hslot => by
      rw [tableSlot_congr_mem hmem] at hslot
      rw [wordAt_congr_mem hmem]
      exact hspaces.user_ptes e d t page hd ht hslot }

/-! ## Reaching a page -/

section Reach

variable {i : ι} {dir page : ℕ} {va : Word}

/-- A mapped page is in use, and holds no entries. -/
theorem mapped (hspaces : Spaces m pool base Good dirs given σ free leak) (hva : va < utop)
    (hslot : tableSlot σ dirs (pteKey i va) = some page) :
    page ∈ pool ∧ page ∉ free ∧ NotTable σ dirs page :=
  ⟨hspaces.paged.balanced.slot_mem _ (pteKey_mem hva i) page hslot,
    hspaces.paged.balanced.slot_not_free (pteKey_mem hva i) hslot,
    hspaces.paged.mapped_notTable (pdx_lt_userPdes hva) (ptx_lt va) hslot⟩

/-- What `page_lookup` finds. -/
theorem lookup (hspaces : Spaces m pool base Good dirs given σ free leak)
    (hdir : dirs i = some dir) (hva : va < utop) {table index : ℕ}
    (hfound : pageLookup σ dir va = some (some (page, (table, index)))) :
    tableSlot σ dirs (pteKey i va) = some page ∧ pgnum (σ.load table index) = page := by
  cases hslot : tableSlot σ dirs (pteKey i va) with
  | none =>
      rw [pageLookup_none hspaces.paged hdir hva hslot] at hfound
      cases hfound
  | some mapped =>
      obtain ⟨pt, htable⟩ := table_of_pte hslot
      rw [pageLookup_some hspaces.paged hdir hva htable hslot] at hfound
      cases hfound
      refine ⟨rfl, ?_⟩
      rw [pteKey, tableSlot, wordAt_pte htable, entryPage_eq_some] at hslot
      rw [pgnum_load, hslot.2]

omit [DecidableEq ι] [Fintype ι] in
/-- The page that the MMU reaches below `UTOP` is the mapped one. -/
theorem mmuPage_slot {need : Word} (hdir : dirs i = some dir)
    (hneed : need &&& pteP = pteP) (hreach : mmuPage σ dir va need = some page) :
    tableSlot σ dirs (pteKey i va) = some page := by
  have hpresent : ∀ p index, σ.load p index &&& need = need →
      entryPage (σ.mem p index) = some (pgnum (σ.load p index)) := by
    intro p index hflags
    have hp : σ.load p index &&& pteP = pteP := by
      rw [← hneed, ← BitVec.and_assoc, hflags]
    rw [entryPage_eq_some, pgnum_load]
    refine ⟨fun hzero => ?_, rfl⟩
    rw [← load_present, hp] at hzero
    exact absurd hzero (by decide)
  unfold mmuPage at hreach
  dsimp only at hreach
  split at hreach
  case isTrue hflags =>
      cases hreach
      have hpde : tableSlot σ dirs (.pde i (pdx va)) = some (pgnum (σ.load dir (pdx va))) := by
        rw [tableSlot, wordAt_pde hdir, hpresent _ _ hflags.1]
      rw [pteKey, tableSlot, wordAt_pte hpde, hpresent _ _ hflags.2]
  case isFalse => cases hreach

/-- A user program writes below `UTOP` only. -/
theorem user_write (hspaces : Spaces m pool base Good dirs given σ free leak)
    (himage : KernelImage m pool base) (hdir : dirs i = some dir)
    (hreach : mmuPage σ dir va (pteP ||| pteU ||| pteW) = some page) : va < utop := by
  by_contra hhigh
  have htop : utop.toNat = 4005560320 := by decide
  have hlow : userPdes ≤ pdx va := by
    rw [BitVec.not_lt, BitVec.le_def, htop] at hhigh
    rw [userPdes_eq, pdx_eq]
    omega
  have hflag : ∀ w mask : Word, w &&& (pteP ||| pteU ||| pteW) = pteP ||| pteU ||| pteW →
      (pteP ||| pteU ||| pteW) &&& mask = mask → w &&& mask = mask := by
    intro w mask hw hmask
    rw [← hmask, ← BitVec.and_assoc, hw]
  obtain ⟨huvpt, hcopied⟩ := hspaces.kernel_part i dir hdir
  unfold mmuPage at hreach
  dsimp only at hreach
  split at hreach
  case isTrue hflags =>
      obtain ⟨hpde, hpte⟩ := hflags
      by_cases hindex : pdx va = uvptIndex
      · -- the directory itself is mapped read-only
        have hwrite := hflag _ pteW hpde (by decide)
        rw [hindex, load_and _ _ _ (by decide), huvpt, BitVec.and_or_distrib_right,
          BitVec.and_or_distrib_right, aligned_and_flags (pteAddr_page2pa dir) (by decide)] at hwrite
        exact absurd hwrite (by decide)
      · have hsame := hcopied (pdx va) hlow (pdx_lt va) hindex
        have hentry : entryPage (base.mem m.kernPgdir (pdx va)) =
            some (pgnum (σ.load dir (pdx va))) := by
          rw [← hsame.entryPage_eq, entryPage_eq_some, pgnum_load]
          refine ⟨fun hzero => ?_, rfl⟩
          have hp := hflag _ pteP hpde (by decide)
          rw [load_present, hzero] at hp
          exact absurd hp (by decide)
        obtain ⟨htable, hwindow⟩ := himage.tables _ hlow (pdx_lt va) hindex _ hentry
        have hp := hflag _ pteP hpte (by decide)
        have hu := hflag _ pteU hpte (by decide)
        have hw := hflag _ pteW hpte (by decide)
        rw [load_and _ _ _ (by decide), hspaces.mem_kept _ htable] at hp hu hw
        rcases hwindow (ptx va) (ptx_lt va) with hzero | hzero | hzero
        · rw [hzero] at hp
          exact absurd hp (by decide)
        · rw [hzero] at hu
          exact absurd hu (by decide)
        · rw [hzero.1] at hw
          exact absurd hw (by decide)
  case isFalse => cases hreach

/-- Stores of the kernel to user addresses. -/
theorem kernelStores (hspaces : Spaces m pool base Good dirs given σ free leak)
    (hdir : dirs i = some dir) {bytes : List (BitVec 8)} {σ' : Phys}
    (hva : va.toNat + bytes.length ≤ utop.toNat)
    (hstores : Jos.kernelStores σ dir va bytes = some σ') :
    Spaces m pool base Good dirs given σ' free leak := by
  induction bytes generalizing σ va with
  | nil =>
      cases hstores
      exact hspaces
  | cons byte bytes ih =>
      have htop : utop.toNat = 4005560320 := by decide
      rw [List.length_cons] at hva
      obtain ⟨mid, hstore, hrest⟩ := Option.bind_eq_some_iff.mp hstores
      obtain ⟨page, hreach, hmid⟩ := Option.bind_eq_some_iff.mp hstore
      cases hmid
      have hlow : va < utop := by
        rw [BitVec.lt_def]
        omega
      obtain ⟨hpool, -, hnot⟩ := hspaces.mapped hlow
        (mmuPage_slot hdir (by decide) hreach)
      refine ih (hspaces.storeByte hpool hnot _ _) ?_ hrest
      rw [BitVec.toNat_add, show (1 : Word).toNat = 1 by decide]
      omega

end Reach

end Spaces

end OsLabs.Jos
