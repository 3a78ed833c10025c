import OsLabs.Jos.Paging

/-!
# The theorems about the primitives

For `page_alloc`, `pgdir_walk`, `page_lookup`, `page_remove` and
`page_insert`: the result they return from a state that satisfies the
representation invariant, and the invariant and the slots afterwards.
-/

namespace OsLabs.Jos

open Function
open OsLabs.IntrusiveList
open OsLabs.RefLedger

variable {ι : Type*} [Fintype ι] [DecidableEq ι]
variable {pool : Set ℕ} {dirs : ι → Option ℕ} {σ : Phys} {free : List ℕ}
variable {held : Option ℕ} {slack : ℕ → ℕ}

/-! ## Allocation -/

/-- The state after `page_alloc` took `pg`. -/
def takePage (σ : Phys) (pg : ℕ) (zero : Bool) : Phys :=
  let σ := { σ with pageFreeList := σ.link pg }
  if zero then σ.zeroPage pg else σ

section TakePage

variable (pg : ℕ) (zero : Bool)

@[simp] theorem link_takePage : (takePage σ pg zero).link = σ.link := by
  cases zero <;> rfl

@[simp] theorem ref_takePage : (takePage σ pg zero).ref = σ.ref := by
  cases zero <;> rfl

@[simp] theorem npages_takePage : (takePage σ pg zero).npages = σ.npages := by
  cases zero <;> rfl

@[simp] theorem freeList_takePage : (takePage σ pg zero).pageFreeList = σ.link pg := by
  cases zero <;> rfl

theorem mem_takePage_of_ne {page : ℕ} (hne : page ≠ pg) :
    (takePage σ pg zero).mem page = σ.mem page := by
  cases zero
  · rfl
  · exact update_of_ne hne _ _

theorem mem_takePage_self (t : ℕ) : (takePage σ pg true).mem pg t = 0 := by
  simp [takePage, Phys.zeroPage]

end TakePage

theorem pageAlloc_nil (hpaged : Paged pool dirs σ [] held slack) (zero : Bool) :
    pageAlloc σ zero = (none, σ) := by
  have hhead : σ.pageFreeList = none := hpaged.threads.head_eq
  rw [pageAlloc, hhead]

theorem pageAlloc_cons {pg : ℕ} (hpaged : Paged pool dirs σ (pg :: free) held slack)
    (zero : Bool) : pageAlloc σ zero = (some pg, takePage σ pg zero) := by
  have hhead : σ.pageFreeList = some pg := hpaged.threads.head_eq
  rw [pageAlloc, hhead]
  rfl

namespace Paged

theorem threads_tail {pg : ℕ} (hpaged : Paged pool dirs σ (pg :: free) held slack) :
    Threads σ.link (σ.link pg) free := by
  have hthreads := hpaged.threads
  rw [hthreads.head_eq] at hthreads
  exact hthreads.tail

/-- Taking a page does not touch any entry. -/
theorem wordAt_takePage {pg : ℕ} (hpaged : Paged pool dirs σ (pg :: free) held slack)
    (zero : Bool) :
    ∀ key ∈ userKeys ι, wordAt (takePage σ pg zero) dirs key = wordAt σ dirs key :=
  wordAt_of_notTable (hpaged.free_notTable List.mem_cons_self)
    fun _ hne => mem_takePage_of_ne pg zero hne

theorem tableSlot_takePage {pg : ℕ} (hpaged : Paged pool dirs σ (pg :: free) held slack)
    (zero : Bool) :
    ∀ key ∈ userKeys ι, tableSlot (takePage σ pg zero) dirs key = tableSlot σ dirs key :=
  fun key hkey => by rw [tableSlot, hpaged.wordAt_takePage zero key hkey, tableSlot]

theorem frame_takePage {pg : ℕ} (hpaged : Paged pool dirs σ (pg :: free) held slack)
    (zero : Bool) : Frame pool dirs σ (pg :: free) (takePage σ pg zero) where
  npages := npages_takePage pg zero
  mem_other := fun page hfree _ =>
    mem_takePage_of_ne pg zero fun hsame => hfree (hsame ▸ List.mem_cons_self)
  dir_high := fun i dir hdir d _ => by
    rw [mem_takePage_of_ne pg zero]
    rintro rfl
    exact (hpaged.dir_busy i dir hdir).1 List.mem_cons_self
  ref_other := fun page _ => by rw [ref_takePage]

/-- `page_alloc`: the page is in hand. -/
theorem taken {pg : ℕ} (hpaged : Paged pool dirs σ (pg :: free) none slack) (zero : Bool) :
    Paged pool dirs (takePage σ pg zero) free (some pg) slack where
  threads := by simpa using hpaged.threads_tail
  balanced := by
    rw [ref_takePage]
    exact hpaged.balanced.take.congr_slot (hpaged.tableSlot_takePage zero)
  exclusive := hpaged.exclusive.congr (hpaged.tableSlot_takePage zero)
  dir_busy := fun i dir hdir => by
    have hnot := (hpaged.dir_busy i dir hdir).1
    rw [List.mem_cons, not_or] at hnot
    exact ⟨hnot.2, fun hsame => hnot.1 (Option.some.inj hsame).symm⟩
  pool_lt := fun page hpage => by
    rw [npages_takePage]
    exact hpaged.pool_lt page hpage
  npages_le := by rw [npages_takePage]; exact hpaged.npages_le

/-- `page_alloc` followed by `pp_ref++`: the page is counted once and not
referenced yet. -/
theorem takenCounted {pg : ℕ} (hpaged : Paged pool dirs σ (pg :: free) held slack)
    (zero : Bool) :
    Paged pool dirs ((takePage σ pg zero).incRef pg) free held
      (fun page => slack page + if page = pg then 1 else 0) where
  threads := by simpa using hpaged.threads_tail
  balanced := by
    rw [ref_incRef, ref_takePage, tableSlot_congr_mem (mem_incRef _ _)]
    exact ((hpaged.balanced.inc pg).pop (by simp)).congr_slot (hpaged.tableSlot_takePage zero)
  exclusive := hpaged.exclusive.congr fun key hkey => by
    rw [tableSlot_congr_mem (mem_incRef _ _), hpaged.tableSlot_takePage zero key hkey]
  dir_busy := fun i dir hdir => by
    obtain ⟨hnot, hheld⟩ := hpaged.dir_busy i dir hdir
    exact ⟨fun hmem => hnot (List.mem_cons_of_mem _ hmem), hheld⟩
  pool_lt := fun page hpage => by
    rw [npages_incRef, npages_takePage]
    exact hpaged.pool_lt page hpage
  npages_le := by rw [npages_incRef, npages_takePage]; exact hpaged.npages_le

/-- `page_free` of a page that nothing references. -/
theorem freed {pg : ℕ} (hpaged : Paged pool dirs σ free held slack) (hpool : pg ∈ pool)
    (hfree : pg ∉ free) (hheld : ∀ other, held = some other → other = pg)
    (hdirs : ∀ i, dirs i ≠ some pg)
    (hunref : ∀ key ∈ userKeys ι, tableSlot σ dirs key ≠ some pg) :
    Paged pool dirs (pageFree σ pg) (pg :: free) none slack where
  threads := by
    rw [link_pageFree]
    exact hpaged.threads.push hfree
  balanced := by
    rw [ref_pageFree, tableSlot_congr_mem (mem_pageFree _ _)]
    exact hpaged.balanced.release hpool hfree (refs_eq_zero_iff.mpr hunref) hheld
  exclusive := hpaged.exclusive.congr fun key _ => by
    rw [tableSlot_congr_mem (mem_pageFree _ _)]
  dir_busy := fun i dir hdir => by
    refine ⟨?_, by simp⟩
    rw [List.mem_cons, not_or]
    exact ⟨fun hsame => hdirs i (hsame ▸ hdir), (hpaged.dir_busy i dir hdir).1⟩
  pool_lt := hpaged.pool_lt
  npages_le := hpaged.npages_le

/-- Counting a reference that is about to be stored. -/
theorem counted (hpaged : Paged pool dirs σ free held slack) (pp : ℕ) :
    Paged pool dirs (σ.incRef pp) free held
      (fun page => slack page + if page = pp then 1 else 0) where
  threads := by simpa using hpaged.threads
  balanced := by
    rw [ref_incRef, tableSlot_congr_mem (mem_incRef _ _)]
    exact hpaged.balanced.inc pp
  exclusive := hpaged.exclusive.congr fun key _ => by
    rw [tableSlot_congr_mem (mem_incRef _ _)]
  dir_busy := hpaged.dir_busy
  pool_lt := hpaged.pool_lt
  npages_le := hpaged.npages_le

end Paged

/-! ## Walking -/

/-- What `pgdir_walk` writes into the directory for a new page table. -/
def tableEntry (pg : ℕ) : Word := page2pa pg ||| pteP ||| pteU ||| pteW

theorem entryPage_tableEntry {pg : ℕ} (hpg : pg < 2 ^ 20) :
    entryPage (tableEntry pg) = some pg := by
  have hform : tableEntry pg = page2pa pg ||| (pteU ||| pteW) ||| pteP := by
    unfold tableEntry
    ac_rfl
  have hflags : pteAddr (page2pa pg ||| (pteU ||| pteW)) = page2pa pg :=
    pteAddr_page2pa_or (by decide)
  rw [hform]
  exact entryPage_entry hpg hflags

/-- The state after `pgdir_walk` created the page table `pg`. -/
def installTable (σ : Phys) (dir d pg : ℕ) : Phys :=
  ((takePage σ pg true).incRef pg).store dir d (tableEntry pg)

section Walk

variable {i : ι} {dir : ℕ} {va : Word}

theorem pgdirWalk_present (hpaged : Paged pool dirs σ free held slack)
    (hdir : dirs i = some dir) (hva : va < utop) {table : ℕ}
    (htable : tableSlot σ dirs (.pde i (pdx va)) = some table) (create : Bool) :
    pgdirWalk σ dir va create = some (some (table, ptx va), σ) := by
  have hentry : entryPage (σ.mem dir (pdx va)) = some table := by
    rw [← wordAt_pde hdir]
    exact htable
  have hlt := hpaged.slot_lt (pde_mem_userKeys.mpr (pdx_lt_userPdes hva)) htable
  have hpresent : σ.mem dir (pdx va) &&& pteP ≠ 0#32 := (entryPage_eq_some.mp hentry).1
  simp [pgdirWalk, hpresent, pa2page_load hentry hlt]

omit [Fintype ι] [DecidableEq ι] in
theorem pgdirWalk_absent (hdir : dirs i = some dir)
    (habsent : tableSlot σ dirs (.pde i (pdx va)) = none) :
    pgdirWalk σ dir va false = some (none, σ) := by
  rw [tableSlot, wordAt_pde hdir, entryPage_eq_none] at habsent
  simp [pgdirWalk, habsent]

theorem pgdirWalk_exhausted (hpaged : Paged pool dirs σ [] held slack)
    (hdir : dirs i = some dir) (habsent : tableSlot σ dirs (.pde i (pdx va)) = none) :
    pgdirWalk σ dir va true = some (none, σ) := by
  rw [tableSlot, wordAt_pde hdir, entryPage_eq_none] at habsent
  simp [pgdirWalk, habsent, pageAlloc_nil hpaged]

theorem pgdirWalk_create {pg : ℕ} (hpaged : Paged pool dirs σ (pg :: free) held slack)
    (hdir : dirs i = some dir) (habsent : tableSlot σ dirs (.pde i (pdx va)) = none) :
    pgdirWalk σ dir va true = some (some (pg, ptx va), installTable σ dir (pdx va) pg) := by
  rw [tableSlot, wordAt_pde hdir, entryPage_eq_none] at habsent
  have hlt := hpaged.pool_lt pg (hpaged.balanced.free_mem pg List.mem_cons_self)
  have hentry : entryPage ((installTable σ dir (pdx va) pg).mem dir (pdx va)) = some pg := by
    rw [installTable, mem_store_self, update_self,
      entryPage_tableEntry (lt_of_lt_of_le hlt hpaged.npages_le)]
  have hcheck : (installTable σ dir (pdx va) pg).pa2page
      (pteAddr ((installTable σ dir (pdx va) pg).load dir (pdx va))) = some pg :=
    pa2page_load hentry (by simpa [installTable] using hlt)
  rw [installTable, tableEntry] at hcheck
  simp [pgdirWalk, habsent, pageAlloc_cons hpaged, hcheck, installTable, tableEntry]

end Walk

section Install

variable {i : ι} {dir d pg : ℕ}

/-- Creating a page table changes one slot. -/
theorem Paged.wordAt_installTable (hpaged : Paged pool dirs σ (pg :: free) held slack)
    (hdir : dirs i = some dir) (hd : d < userPdes)
    (habsent : tableSlot σ dirs (.pde i d) = none) :
    ∀ key ∈ userKeys ι, wordAt (installTable σ dir d pg) dirs key =
      update (wordAt σ dirs) (.pde i d) (tableEntry pg) key := by
  have hnot := hpaged.free_notTable (show pg ∈ pg :: free from List.mem_cons_self)
  have hlt := hpaged.pool_lt pg (hpaged.balanced.free_mem pg List.mem_cons_self)
  have hne : pg ≠ dir := fun hsame => hnot.1 i (hsame ▸ hdir)
  refine wordAt_install hpaged.exclusive hdir hd habsent hnot
    (entryPage_tableEntry (lt_of_lt_of_le hlt hpaged.npages_le)) (fun t => ?_) (fun e => ?_)
    (fun other hpage hother => ?_)
  · rw [installTable, mem_store_of_ne _ _ _ _ hne, mem_incRef, mem_takePage_self]
  · rw [installTable, mem_store_self, mem_incRef, mem_takePage_of_ne _ _ (Ne.symm hne)]
  · rw [installTable, mem_store_of_ne _ _ _ _ hother, mem_incRef,
      mem_takePage_of_ne _ _ hpage]

theorem Paged.installed (hpaged : Paged pool dirs σ (pg :: free) held slack)
    (hdir : dirs i = some dir) (hd : d < userPdes)
    (habsent : tableSlot σ dirs (.pde i d) = none) :
    Paged pool dirs (installTable σ dir d pg) free held slack := by
  have hpool := hpaged.balanced.free_mem pg List.mem_cons_self
  have hlt := hpaged.pool_lt pg hpool
  have hslots : ∀ key ∈ userKeys ι, tableSlot (installTable σ dir d pg) dirs key =
      update (tableSlot σ dirs) (.pde i d) (some pg) key := fun key hkey => by
    rw [tableSlot_update (hpaged.wordAt_installTable hdir hd habsent key hkey),
      entryPage_tableEntry (lt_of_lt_of_le hlt hpaged.npages_le)]
  have hunref := refs_eq_zero_iff.mp (hpaged.balanced.free_unref pg List.mem_cons_self)
  have hnotfree := (List.nodup_cons.mp hpaged.balanced.free_nodup).1
  exact
    { threads := by simpa [installTable] using hpaged.threads_tail
      balanced := by
        have href : (installTable σ dir d pg).ref = update σ.ref pg (σ.ref pg + 1) := by
          simp [installTable]
        rw [href]
        exact (((hpaged.balanced.inc pg).pop (by simp)).point (pde_mem_userKeys.mpr hd)
          habsent hpool hnotfree).congr_slot hslots
      exclusive := hpaged.exclusive.installed
        (hpaged.free_notTable List.mem_cons_self).1 hunref hslots
      dir_busy := fun j dirj hdirj => by
        obtain ⟨hnot, hheld⟩ := hpaged.dir_busy j dirj hdirj
        exact ⟨fun hmem => hnot (List.mem_cons_of_mem _ hmem), hheld⟩
      pool_lt := by simpa [installTable] using hpaged.pool_lt
      npages_le := by simpa [installTable] using hpaged.npages_le }

theorem Paged.frame_installTable (hpaged : Paged pool dirs σ (pg :: free) held slack)
    (hdir : dirs i = some dir) (hd : d < userPdes) :
    Frame pool dirs σ (pg :: free) (installTable σ dir d pg) := by
  have hpool := hpaged.balanced.free_mem pg List.mem_cons_self
  have hnot := hpaged.free_notTable (show pg ∈ pg :: free from List.mem_cons_self)
  refine ⟨by simp [installTable], fun page hfree hpage => ?_, fun j dirj hdirj e he => ?_,
    fun page hpage => ?_⟩
  · have hne : page ≠ pg := fun hsame => hfree (hsame ▸ List.mem_cons_self)
    have hdirne : page ≠ dir := fun hsame => hpage.1 i (hsame ▸ hdir)
    rw [installTable, mem_store_of_ne _ _ _ _ hdirne, mem_incRef, mem_takePage_of_ne _ _ hne]
  · have hne : dirj ≠ pg := fun hsame => hnot.1 j (hsame ▸ hdirj)
    by_cases hsame : dirj = dir
    · subst hsame
      rw [installTable, mem_store_self, update_of_ne (by omega), mem_incRef,
        mem_takePage_of_ne _ _ hne]
    · rw [installTable, mem_store_of_ne _ _ _ _ hsame, mem_incRef,
        mem_takePage_of_ne _ _ hne]
  · have hne : page ≠ pg := fun hsame => hpage (hsame ▸ hpool)
    simp [installTable, hne]

end Install

/-! ## Looking up -/

section Lookup

variable {i : ι} {dir : ℕ} {va : Word}

theorem pageLookup_none (hpaged : Paged pool dirs σ free held slack)
    (hdir : dirs i = some dir) (hva : va < utop)
    (hslot : tableSlot σ dirs (pteKey i va) = none) : pageLookup σ dir va = some none := by
  cases htable : tableSlot σ dirs (.pde i (pdx va)) with
  | none => simp [pageLookup, pgdirWalk_absent hdir htable]
  | some table =>
      rw [pteKey, tableSlot, wordAt_pte htable, entryPage_eq_none] at hslot
      simp [pageLookup, pgdirWalk_present hpaged hdir hva htable, hslot]

theorem pageLookup_some (hpaged : Paged pool dirs σ free held slack)
    (hdir : dirs i = some dir) (hva : va < utop) {table page : ℕ}
    (htable : tableSlot σ dirs (.pde i (pdx va)) = some table)
    (hslot : tableSlot σ dirs (pteKey i va) = some page) :
    pageLookup σ dir va = some (some (page, (table, ptx va))) := by
  have hlt := hpaged.slot_lt (pteKey_mem hva i) hslot
  rw [pteKey, tableSlot, wordAt_pte htable] at hslot
  have hpresent : σ.mem table (ptx va) &&& pteP ≠ 0#32 := (entryPage_eq_some.mp hslot).1
  simp [pageLookup, pgdirWalk_present hpaged hdir hva htable, hpresent,
    pa2page_load hslot hlt]

/-- `page_lookup` returns the page of the slot. -/
theorem pageLookup_page (hpaged : Paged pool dirs σ free held slack)
    (hdir : dirs i = some dir) (hva : va < utop) :
    (pageLookup σ dir va).map (Option.map Prod.fst) =
      some (tableSlot σ dirs (pteKey i va)) := by
  cases hslot : tableSlot σ dirs (pteKey i va) with
  | none =>
      rw [pageLookup_none hpaged hdir hva hslot]
      rfl
  | some page =>
      obtain ⟨table, htable⟩ := table_of_pte hslot
      rw [pageLookup_some hpaged hdir hva htable hslot]
      rfl

end Lookup

/-! ## Removing -/

section Remove

variable {i : ι} {dir : ℕ} {va : Word}

theorem pageRemove_none (hpaged : Paged pool dirs σ free held slack)
    (hdir : dirs i = some dir) (hva : va < utop)
    (hslot : tableSlot σ dirs (pteKey i va) = none) : pageRemove σ dir va = some σ := by
  simp [pageRemove, pageLookup_none hpaged hdir hva hslot]

theorem pageRemove_some (hpaged : Paged pool dirs σ free held slack)
    (hdir : dirs i = some dir) (hva : va < utop) {table page : ℕ}
    (htable : tableSlot σ dirs (.pde i (pdx va)) = some table)
    (hslot : tableSlot σ dirs (pteKey i va) = some page) :
    pageRemove σ dir va = some ((pageDecref σ page).store table (ptx va) 0) := by
  simp [pageRemove, pageLookup_some hpaged hdir hva htable hslot]

/-- The free list after the last reference may have gone. -/
def freeAfterDec (σ : Phys) (page : ℕ) (free : List ℕ) : List ℕ :=
  if σ.ref page - 1 = 0 then page :: free else free

theorem mem_freeAfterDec {page other : ℕ} (hmem : other ∈ freeAfterDec σ page free) :
    other = page ∨ other ∈ free := by
  unfold freeAfterDec at hmem
  split at hmem
  · exact List.mem_cons.mp hmem
  · exact Or.inr hmem

/-- Clearing one mapping changes one slot. -/
theorem Paged.wordAt_removed (hpaged : Paged pool dirs σ free held slack) (hva : va < utop)
    {table : ℕ} (htable : tableSlot σ dirs (.pde i (pdx va)) = some table) (page : ℕ)
    (value : Word) :
    ∀ key ∈ userKeys ι, wordAt ((pageDecref σ page).store table (ptx va) value) dirs key =
      update (wordAt σ dirs) (pteKey i va) value key := by
  have hsame := tableSlot_congr_mem (mem_pageDecref σ page) dirs
  intro key hkey
  rw [← wordAt_congr_mem (mem_pageDecref σ page) dirs]
  exact wordAt_store_pte (hpaged.exclusive.congr fun key _ => by rw [hsame])
    (pdx_lt_userPdes hva) (by rw [hsame]; exact htable) value key hkey

theorem Paged.removed (hpaged : Paged pool dirs σ free held slack) (hva : va < utop)
    {table page : ℕ} (htable : tableSlot σ dirs (.pde i (pdx va)) = some table)
    (hslot : tableSlot σ dirs (pteKey i va) = some page) (hheld : held ≠ some page)
    (hbound : refs (userKeys ι) (tableSlot σ dirs) page + slack page ≤ 2 ^ 16) :
    Paged pool dirs ((pageDecref σ page).store table (ptx va) 0) (freeAfterDec σ page free)
      held slack := by
  have hkey := pteKey_mem hva i
  have hpool := hpaged.balanced.slot_mem _ hkey page hslot
  have hfree := hpaged.balanced.slot_not_free hkey hslot
  have hslots : ∀ key ∈ userKeys ι,
      tableSlot ((pageDecref σ page).store table (ptx va) 0) dirs key =
        update (tableSlot σ dirs) (pteKey i va) none key := fun key hk => by
    rw [tableSlot_update (hpaged.wordAt_removed hva htable page 0 key hk), entryPage_zero]
  have hrefs := refs_update (tableSlot σ dirs) hkey none page
  rw [if_pos hslot, if_neg (by simp)] at hrefs
  have hnot := hpaged.mapped_notTable (pdx_lt_userPdes hva) (ptx_lt va) hslot
  exact
    { threads := by
        rw [link_store, freeList_store]
        exact threads_pageDecref σ page hpaged.threads hfree
      balanced := by
        rw [ref_store, ref_pageDecref]
        exact ((hpaged.balanced.clear hkey hslot).dec hpool hfree hheld
          (by omega)).congr_slot hslots
      exclusive := hpaged.exclusive.cleared hslots
      dir_busy := fun j dirj hdirj => by
        obtain ⟨hnotfree, hnotheld⟩ := hpaged.dir_busy j dirj hdirj
        refine ⟨fun hmem => ?_, hnotheld⟩
        rcases mem_freeAfterDec hmem with rfl | hold
        · exact hnot.1 j hdirj
        · exact hnotfree hold
      pool_lt := by simpa using hpaged.pool_lt
      npages_le := by simpa using hpaged.npages_le }

theorem Paged.frame_removed (hpaged : Paged pool dirs σ free held slack) (hva : va < utop)
    {table page : ℕ} (htable : tableSlot σ dirs (.pde i (pdx va)) = some table)
    (hpool : page ∈ pool) (value : Word) :
    Frame pool dirs σ free ((pageDecref σ page).store table (ptx va) value) where
  npages := by simp
  mem_other := fun other _ hother => by
    have hne : other ≠ table := fun hsame =>
      hother.2 i _ (pdx_lt_userPdes hva) (hsame ▸ htable)
    rw [mem_store_of_ne _ _ _ _ hne, mem_pageDecref]
  dir_high := fun j dirj hdirj d _ => by
    have hne : dirj ≠ table := fun hsame => hpaged.exclusive.dir_unref j dirj hdirj _
      (pde_mem_userKeys.mpr (pdx_lt_userPdes hva)) (hsame ▸ htable)
    rw [mem_store_of_ne _ _ _ _ hne, mem_pageDecref]
  ref_other := fun other hother => by
    have hne : other ≠ page := fun hsame => hother (hsame ▸ hpool)
    simp [hne]

end Remove

/-! ## Inserting -/

section Insert

variable {i : ι} {va : Word} {pp : ℕ} {entry : Word}

/-- Storing a mapping that is already counted into an empty slot. -/
theorem Paged.pointed
    (hpaged : Paged pool dirs σ free held fun page => slack page + if page = pp then 1 else 0)
    (hva : va < utop) {table : ℕ} (htable : tableSlot σ dirs (.pde i (pdx va)) = some table)
    (hempty : tableSlot σ dirs (pteKey i va) = none) (hpool : pp ∈ pool) (hfree : pp ∉ free)
    (hnot : NotTable σ dirs pp) (hentry : entryPage entry = some pp)
    (hheld : ∀ other, held = some other → other = pp) :
    Paged pool dirs (σ.store table (ptx va) entry) free none slack := by
  have hkey := pteKey_mem hva i
  have hslots : ∀ key ∈ userKeys ι, tableSlot (σ.store table (ptx va) entry) dirs key =
      update (tableSlot σ dirs) (pteKey i va) (some pp) key := fun key hk => by
    rw [tableSlot_update (wordAt_store_pte hpaged.exclusive (pdx_lt_userPdes hva) htable entry
      key hk), hentry]
    rfl
  have hstored := (hpaged.balanced.point hkey hempty hpool hfree).congr_slot hslots
  have hused : tableSlot (σ.store table (ptx va) entry) dirs (pteKey i va) = some pp := by
    rw [hslots _ hkey, update_self]
  have hbalanced : Balanced (userKeys ι) pool (tableSlot (σ.store table (ptx va) entry) dirs)
      σ.ref free none slack := by
    cases hhand : held with
    | none => rwa [hhand] at hstored
    | some other =>
        rw [hhand, hheld other hhand] at hstored
        exact hstored.put_down (Nat.add_pos_left (refs_pos hkey hused) _)
  exact
    { threads := by simpa using hpaged.threads
      balanced := by simpa using hbalanced
      exclusive := hpaged.exclusive.mapped hnot hslots
      dir_busy := fun j dir hdir => ⟨(hpaged.dir_busy j dir hdir).1, by simp⟩
      pool_lt := by simpa using hpaged.pool_lt
      npages_le := by simpa using hpaged.npages_le }

/-- The part of `page_insert` after the walk, with the entry at `index` of
`table`. -/
def insertAt (σ : Phys) (pgdir pp : ℕ) (va entry : Word) (table index : ℕ) : Option Phys := do
  let σ := σ.incRef pp
  let σ ← if σ.load table index &&& pteP = 0 then some σ else pageRemove σ pgdir va
  return σ.store table index entry

theorem pageInsert_of_walk {dir : ℕ} {perm : Word} {walked : Phys} {table index : ℕ}
    (hwalk : pgdirWalk σ dir va true = some (some (table, index), walked)) :
    pageInsert σ dir pp va perm =
      (insertAt walked dir pp va (page2pa pp ||| perm ||| pteP) table index).map
        fun σ' => (0, σ') := by
  simp only [pageInsert, insertAt, hwalk, Option.bind_eq_bind, Option.bind_some]
  split
  · rfl
  · cases pageRemove (walked.incRef pp) dir va <;> rfl

/-- The state after `page_insert` has replaced the mapping of `old`. -/
def replaceAt (σ : Phys) (pp old : ℕ) (entry : Word) (table index : ℕ) : Phys :=
  ((pageDecref (σ.incRef pp) old).store table index 0).store table index entry

/-- A page that is counted on top of its references is not freed by losing
one of them. -/
theorem Paged.counted_survives
    (hpaged : Paged pool dirs σ free held fun page => slack page + if page = pp then 1 else 0)
    {old : ℕ} (hslot : tableSlot σ dirs (pteKey i va) = some old) (hva : va < utop)
    (hpool : pp ∈ pool) (hfree : pp ∉ free)
    (hroom : refs (userKeys ι) (tableSlot σ dirs) old + slack old < 2 ^ 16) :
    pp ∉ freeAfterDec σ old free := by
  intro hmem
  by_cases hsame : pp = old
  · subst hsame
    have hpos := refs_pos (pteKey_mem hva i) hslot
    have hcount := hpaged.balanced.count_eq pp hpool
    rw [if_pos rfl, ← Nat.add_assoc, BitVec.ofNat_add] at hcount
    unfold freeAfterDec at hmem
    rw [hcount] at hmem
    have hne : BitVec.ofNat 16 (refs (userKeys ι) (tableSlot σ dirs) pp + slack pp) ≠ 0 := by
      intro hzero
      have htoNat := congrArg BitVec.toNat hzero
      rw [BitVec.toNat_ofNat, Nat.mod_eq_of_lt hroom] at htoNat
      simp only [BitVec.toNat_zero, BitVec.ofNat_eq_ofNat] at htoNat
      omega
    rw [show BitVec.ofNat 16 (refs (userKeys ι) (tableSlot σ dirs) pp + slack pp) +
      BitVec.ofNat 16 1 - 1 = BitVec.ofNat 16 (refs (userKeys ι) (tableSlot σ dirs) pp +
      slack pp) from BitVec.add_sub_cancel _ _, if_neg hne] at hmem
    exact hfree hmem
  · exact (mem_freeAfterDec hmem).elim hsame hfree

/-- What one change of the mapping at `va` leaves behind: the slot of `va`
holds `entry`, no other slot changed, and only the page that was mapped there
may have become free. -/
structure Remapped (pool : Set ℕ) (dirs : ι → Option ℕ) (σ : Phys) (free : List ℕ)
    (slack : ℕ → ℕ) (i : ι) (va entry : Word) (σ' : Phys) (free' : List ℕ) : Prop where
  paged : Paged pool dirs σ' free' none slack
  words : ∀ key ∈ userKeys ι, wordAt σ' dirs key = update (wordAt σ dirs) (pteKey i va) entry key
  frame : Frame pool dirs σ free σ'
  free_kept : ∀ page ∈ free, page ∈ free'
  free_new : ∀ page ∈ free', page ∈ free ∨ tableSlot σ dirs (pteKey i va) = some page

/-- `page_insert` where nothing was mapped. -/
theorem Paged.insert_fresh (hpaged : Paged pool dirs σ free held slack) (hva : va < utop)
    {table : ℕ} (htable : tableSlot σ dirs (.pde i (pdx va)) = some table)
    (hempty : tableSlot σ dirs (pteKey i va) = none) (hpool : pp ∈ pool) (hfree : pp ∉ free)
    (hnot : NotTable σ dirs pp) (hentry : entryPage entry = some pp)
    (hheld : ∀ other, held = some other → other = pp) :
    Remapped pool dirs σ free slack i va entry ((σ.incRef pp).store table (ptx va) entry)
      free := by
  have hview := tableSlot_congr_mem (mem_incRef σ pp) dirs
  have hword := wordAt_congr_mem (mem_incRef σ pp) dirs
  have hcounted := hpaged.counted pp
  have htable' : tableSlot (σ.incRef pp) dirs (.pde i (pdx va)) = some table := by
    rw [hview, htable]
  refine
    { paged := hcounted.pointed hva htable' (by rw [hview, hempty]) hpool hfree
        ⟨hnot.1, fun j d hd => by rw [hview]; exact hnot.2 j d hd⟩ hentry hheld
      words := fun key hkey => ?_
      frame := ⟨by simp, fun page _ hpage => ?_, fun j dir hdir d _ => ?_, fun page hpage => ?_⟩
      free_kept := fun page hpage => hpage
      free_new := fun page hpage => Or.inl hpage }
  · rw [wordAt_store_pte hcounted.exclusive (pdx_lt_userPdes hva) htable' entry key hkey, hword]
    rfl
  · have hne : page ≠ table := fun hsame =>
      hpage.2 i _ (pdx_lt_userPdes hva) (hsame ▸ htable)
    rw [mem_store_of_ne _ _ _ _ hne, mem_incRef]
  · have hne : dir ≠ table := fun hsame => hpaged.exclusive.dir_unref j dir hdir _
      (pde_mem_userKeys.mpr (pdx_lt_userPdes hva)) (hsame ▸ htable)
    rw [mem_store_of_ne _ _ _ _ hne, mem_incRef]
  · have hne : page ≠ pp := fun hsame => hpage (hsame ▸ hpool)
    simp [hne]

/-- `page_insert` where `old` was mapped; it may be the same page. -/
theorem Paged.insert_replace (hpaged : Paged pool dirs σ free held slack) (hva : va < utop)
    {table old : ℕ} (htable : tableSlot σ dirs (.pde i (pdx va)) = some table)
    (hslot : tableSlot σ dirs (pteKey i va) = some old) (hpool : pp ∈ pool) (hfree : pp ∉ free)
    (hnot : NotTable σ dirs pp) (hentry : entryPage entry = some pp)
    (hroom : refs (userKeys ι) (tableSlot σ dirs) old + slack old < 2 ^ 16)
    (hheld : ∀ other, held = some other → other = pp ∧ other ≠ old) :
    Remapped pool dirs σ free slack i va entry (replaceAt σ pp old entry table (ptx va))
      (freeAfterDec (σ.incRef pp) old free) := by
  have hview := tableSlot_congr_mem (mem_incRef σ pp) dirs
  have hcounted := hpaged.counted pp
  have htable' : tableSlot (σ.incRef pp) dirs (.pde i (pdx va)) = some table := by
    rw [hview, htable]
  have hslot' : tableSlot (σ.incRef pp) dirs (pteKey i va) = some old := by rw [hview, hslot]
  have hne : held ≠ some old := fun hsame => (hheld old hsame).2 rfl
  have hwords := hcounted.wordAt_removed hva htable' old 0
  have hremoved := hcounted.removed hva htable' hslot' hne (by
    rw [hview]
    split <;> omega)
  have hslots : ∀ key ∈ userKeys ι,
      tableSlot ((pageDecref (σ.incRef pp) old).store table (ptx va) 0) dirs key =
        update (tableSlot σ dirs) (pteKey i va) none key := fun key hkey => by
    rw [tableSlot_update (hwords key hkey), hview, entryPage_zero]
  have htable'' : tableSlot ((pageDecref (σ.incRef pp) old).store table (ptx va) 0) dirs
      (.pde i (pdx va)) = some table := by
    rw [hslots _ (pde_mem_userKeys.mpr (pdx_lt_userPdes hva)), update_of_ne (by simp [pteKey]),
      htable]
  have hframe := hcounted.frame_removed hva htable'
    (hpaged.balanced.slot_mem _ (pteKey_mem hva i) old hslot) 0
  have hnot' : NotTable ((pageDecref (σ.incRef pp) old).store table (ptx va) 0) dirs pp :=
    ⟨hnot.1, fun j d hd => by
      rw [hslots _ (pde_mem_userKeys.mpr hd), update_of_ne (by simp [pteKey])]
      exact hnot.2 j d hd⟩
  refine
    { paged := hremoved.pointed hva htable'' (by rw [hslots _ (pteKey_mem hva i), update_self])
        hpool (hcounted.counted_survives hslot' hva hpool hfree (by rw [hview]; exact hroom))
        hnot' hentry fun other hother => (hheld other hother).1
      words := fun key hkey => ?_
      frame := ⟨?_, fun page hfreepage hpage => ?_, fun j dir hdir d hd => ?_,
        fun page hpage => ?_⟩
      free_kept := fun page hpage => ?_
      free_new := fun page hpage => ?_ }
  · rw [replaceAt, wordAt_store_pte hremoved.exclusive (pdx_lt_userPdes hva) htable'' entry key
      hkey]
    change update (wordAt _ dirs) (pteKey i va) entry key = _
    by_cases hsame : key = pteKey i va
    · rw [hsame, update_self, update_self]
    · rw [update_of_ne hsame, update_of_ne hsame, hwords key hkey, update_of_ne hsame,
        wordAt_congr_mem (mem_incRef σ pp) dirs]
  · rw [replaceAt, npages_store, hframe.npages, npages_incRef]
  · have hne : page ≠ table := fun hsame =>
      hpage.2 i _ (pdx_lt_userPdes hva) (hsame ▸ htable)
    rw [replaceAt, mem_store_of_ne _ _ _ _ hne, mem_store_of_ne _ _ _ _ hne, mem_pageDecref,
      mem_incRef]
  · have hne : dir ≠ table := fun hsame => hpaged.exclusive.dir_unref j dir hdir _
      (pde_mem_userKeys.mpr (pdx_lt_userPdes hva)) (hsame ▸ htable)
    rw [replaceAt, mem_store_of_ne _ _ _ _ hne, mem_store_of_ne _ _ _ _ hne, mem_pageDecref,
      mem_incRef]
  · have hne : page ≠ pp := fun hsame => hpage (hsame ▸ hpool)
    rw [replaceAt, ref_store, hframe.ref_other page hpage, ref_incRef, update_of_ne hne]
  · unfold freeAfterDec
    split
    · exact List.mem_cons_of_mem _ hpage
    · exact hpage
  · rcases mem_freeAfterDec hpage with rfl | hmem
    · exact Or.inr hslot
    · exact Or.inl hmem

/-- The part of `page_insert` after the walk. -/
theorem insertAt_spec (hpaged : Paged pool dirs σ free held slack) {dir : ℕ}
    (hdir : dirs i = some dir) (hva : va < utop)
    {table : ℕ} (htable : tableSlot σ dirs (.pde i (pdx va)) = some table)
    (hpool : pp ∈ pool) (hfree : pp ∉ free)
    (hnot : NotTable σ dirs pp) (hentry : entryPage entry = some pp)
    (hroom : ∀ old, tableSlot σ dirs (pteKey i va) = some old →
      refs (userKeys ι) (tableSlot σ dirs) old + slack old < 2 ^ 16)
    (hheld : ∀ other, held = some other →
      other = pp ∧ tableSlot σ dirs (pteKey i va) ≠ some other) :
    ∃ σ' free', insertAt σ dir pp va entry table (ptx va) = some σ' ∧
      Remapped pool dirs σ free slack i va entry σ' free' := by
  have hview := tableSlot_congr_mem (mem_incRef σ pp) dirs
  cases hslot : tableSlot σ dirs (pteKey i va) with
  | none =>
      refine ⟨_, _, ?_, hpaged.insert_fresh hva htable hslot hpool hfree hnot hentry
        fun other hother => (hheld other hother).1⟩
      have habsent : σ.mem table (ptx va) &&& pteP = 0 := by
        rw [pteKey, tableSlot, wordAt_pte htable, entryPage_eq_none] at hslot
        exact hslot
      rw [insertAt, load_present, mem_incRef, if_pos habsent]
      rfl
  | some old =>
      refine ⟨_, _, ?_, hpaged.insert_replace hva htable hslot hpool hfree hnot hentry
        (hroom old hslot) fun other hother => ⟨(hheld other hother).1, fun hsame =>
          (hheld other hother).2 (hsame ▸ hslot)⟩⟩
      have hpresent : ¬ σ.mem table (ptx va) &&& pteP = 0 := by
        rw [pteKey, tableSlot, wordAt_pte htable, entryPage_eq_some] at hslot
        exact hslot.1
      have hremove : pageRemove (σ.incRef pp) dir va =
          some ((pageDecref (σ.incRef pp) old).store table (ptx va) 0) :=
        pageRemove_some (hpaged.counted pp) hdir hva (by rw [hview, htable])
          (by rw [hview, hslot])
      rw [insertAt, load_present, mem_incRef, if_neg hpresent, hremove]
      rfl

/-- What `page_insert` at `va` leaves behind when it succeeds. -/
structure Inserted (pool : Set ℕ) (dirs : ι → Option ℕ) (σ : Phys) (free : List ℕ)
    (slack : ℕ → ℕ) (i : ι) (va entry : Word) (σ' : Phys) (free' : List ℕ) : Prop where
  paged : Paged pool dirs σ' free' none slack
  ptes : ∀ j d t, d < userPdes → t < nptEntries → wordAt σ' dirs (.pte j d t) =
    update (wordAt σ dirs) (pteKey i va) entry (.pte j d t)
  pdes : ∀ j d, d < userPdes → wordAt σ' dirs (.pde j d) = wordAt σ dirs (.pde j d) ∨
    (j = i ∧ d = pdx va) ∧ tableSlot σ dirs (.pde j d) = none ∧
      ∃ pg, free.head? = some pg ∧ wordAt σ' dirs (.pde j d) = tableEntry pg
  frame : Frame pool dirs σ free σ'
  free_new : ∀ page ∈ free', page ∈ free ∨ tableSlot σ dirs (pteKey i va) = some page

/-- An insertion touches two slots at most. -/
theorem Inserted.refs_le {σ' : Phys} {free' : List ℕ}
    (hinserted : Inserted pool dirs σ free slack i va entry σ' free') (page : ℕ) :
    refs (userKeys ι) (tableSlot σ' dirs) page ≤
      refs (userKeys ι) (tableSlot σ dirs) page + 2 := by
  refine (refs_le_add_card {pteKey i va, .pde i (pdx va)} page fun key hkey hother => ?_).trans
    (Nat.add_le_add_left Finset.card_le_two _)
  rw [Finset.mem_insert, Finset.mem_singleton, not_or] at hother
  cases key with
  | pde j d =>
      rcases hinserted.pdes j d (pde_mem_userKeys.mp hkey) with hsame | ⟨⟨rfl, rfl⟩, -⟩
      · rw [tableSlot, hsame, tableSlot]
      · exact absurd rfl hother.2
  | pte j d t =>
      obtain ⟨hd, ht⟩ := pte_mem_userKeys.mp hkey
      rw [tableSlot, hinserted.ptes j d t hd ht, update_of_ne hother.1, tableSlot]

/-- An insertion refers to the inserted page once more, and to the first free
page if it needed a page table. -/
theorem Inserted.refs_le_pages {σ' : Phys} {free' : List ℕ}
    (hinserted : Inserted pool dirs σ free slack i va entry σ' free')
    (hfree : ∀ pg, free.head? = some pg → pg < 2 ^ 20) (hentry : entryPage entry = some pp)
    (page : ℕ) :
    refs (userKeys ι) (tableSlot σ' dirs) page ≤ refs (userKeys ι) (tableSlot σ dirs) page +
      ((if page = pp then 1 else 0) +
        if free.head? = some page ∧ tableSlot σ dirs (.pde i (pdx va)) = none then 1 else 0) := by
  let mapped : Finset (TableKey ι) := if page = pp then {pteKey i va} else ∅
  let walked : Finset (TableKey ι) :=
    if free.head? = some page ∧ tableSlot σ dirs (.pde i (pdx va)) = none then {.pde i (pdx va)}
    else ∅
  have hcard : (mapped ∪ walked).card ≤ (if page = pp then 1 else 0) +
      if free.head? = some page ∧ tableSlot σ dirs (.pde i (pdx va)) = none then 1 else 0 := by
    refine (Finset.card_union_le _ _).trans (Nat.add_le_add ?_ ?_)
    · simp only [mapped]
      split <;> simp
    · simp only [walked]
      split <;> simp
  refine (refs_le_of_new (mapped ∪ walked) page fun key hkey hslot => ?_).trans
    (Nat.add_le_add_left hcard _)
  cases key with
  | pte j d t =>
      obtain ⟨hd, ht⟩ := pte_mem_userKeys.mp hkey
      rw [tableSlot, hinserted.ptes j d t hd ht] at hslot
      by_cases hsame : TableKey.pte j d t = pteKey i va
      · rw [hsame, update_self, hentry] at hslot
        refine Or.inr (Finset.mem_union_left _ ?_)
        simp only [mapped]
        rw [if_pos (Option.some.inj hslot).symm, hsame]
        exact Finset.mem_singleton_self _
      · rw [update_of_ne hsame] at hslot
        exact Or.inl hslot
  | pde j d =>
      rcases hinserted.pdes j d (pde_mem_userKeys.mp hkey) with
        hsame | ⟨⟨rfl, rfl⟩, habsent, pg, hhead, hword⟩
      · rw [tableSlot, hsame] at hslot
        exact Or.inl hslot
      · rw [tableSlot, hword, entryPage_tableEntry (hfree pg hhead)] at hslot
        cases hslot
        refine Or.inr (Finset.mem_union_right _ ?_)
        simp only [walked]
        rw [if_pos ⟨hhead, habsent⟩]
        exact Finset.mem_singleton_self _

theorem Remapped.inserted {σ' : Phys} {free' : List ℕ}
    (hremap : Remapped pool dirs σ free slack i va entry σ' free') :
    Inserted pool dirs σ free slack i va entry σ' free' where
  paged := hremap.paged
  ptes := fun j d t hd ht => hremap.words _ (pte_mem_userKeys.mpr ⟨hd, ht⟩)
  pdes := fun j d hd => Or.inl (by
    rw [hremap.words _ (pde_mem_userKeys.mpr hd), update_of_ne (by simp [pteKey])])
  frame := hremap.frame
  free_new := hremap.free_new

/-- A remapping under a page table that was just created. -/
theorem Remapped.inserted_install {dir pg : ℕ}
    (hpaged : Paged pool dirs σ (pg :: free) held slack) (hdir : dirs i = some dir)
    (hva : va < utop) (habsent : tableSlot σ dirs (.pde i (pdx va)) = none)
    {σ' : Phys} {free' : List ℕ}
    (hremap : Remapped pool dirs (installTable σ dir (pdx va) pg) free slack i va entry
      σ' free') :
    Inserted pool dirs σ (pg :: free) slack i va entry σ' free' := by
  have hd := pdx_lt_userPdes hva
  have hwords := hpaged.wordAt_installTable hdir hd habsent
  have hframe := hpaged.frame_installTable hdir hd
  have hempty : tableSlot (installTable σ dir (pdx va) pg) dirs (pteKey i va) = none := by
    rw [tableSlot_update (hwords _ (pteKey_mem hva i)), update_of_ne (by simp [pteKey]),
      pteKey, tableSlot, wordAt_pte_none habsent, entryPage_zero]
  have hnot : ∀ page, page ∉ pg :: free → NotTable σ dirs page →
      NotTable (installTable σ dir (pdx va) pg) dirs page := by
    intro page hpage hnot
    refine ⟨hnot.1, fun j e he hslot => ?_⟩
    rw [tableSlot_update (hwords _ (pde_mem_userKeys.mpr he)), entryPage_tableEntry
      (lt_of_lt_of_le (hpaged.pool_lt pg (hpaged.balanced.free_mem pg List.mem_cons_self))
        hpaged.npages_le)] at hslot
    by_cases hsame : TableKey.pde j e = .pde i (pdx va)
    · rw [hsame, update_self] at hslot
      exact hpage (Option.some.inj hslot ▸ List.mem_cons_self)
    · rw [update_of_ne hsame] at hslot
      exact hnot.2 j e he hslot
  refine
    { paged := hremap.paged
      ptes := fun j d t hd ht => ?_
      pdes := fun j d hd => ?_
      frame := ⟨?_, fun page hpage hpagenot => ?_, fun j dirj hdirj d hd => ?_,
        fun page hpage => ?_⟩
      free_new := fun page hpage => ?_ }
  · have hkey : TableKey.pte j d t ∈ userKeys ι := pte_mem_userKeys.mpr ⟨hd, ht⟩
    rw [hremap.words _ hkey]
    by_cases hsame : TableKey.pte j d t = pteKey i va
    · rw [hsame, update_self, update_self]
    · rw [update_of_ne hsame, update_of_ne hsame, hwords _ hkey, update_of_ne (by simp)]
  · rw [hremap.words _ (pde_mem_userKeys.mpr hd), update_of_ne (by simp [pteKey]),
      hwords _ (pde_mem_userKeys.mpr hd)]
    by_cases hsame : TableKey.pde j d = .pde i (pdx va)
    · rw [hsame, update_self]
      cases hsame
      exact Or.inr ⟨⟨rfl, rfl⟩, habsent, pg, rfl, rfl⟩
    · rw [update_of_ne hsame]
      exact Or.inl rfl
  · rw [hremap.frame.npages, hframe.npages]
  · rw [hremap.frame.mem_other page (fun hmem => hpage (List.mem_cons_of_mem _ hmem))
      (hnot page hpage hpagenot), hframe.mem_other page hpage hpagenot]
  · rw [hremap.frame.dir_high j dirj hdirj d hd, hframe.dir_high j dirj hdirj d hd]
  · rw [hremap.frame.ref_other page hpage, hframe.ref_other page hpage]
  · rcases hremap.free_new page hpage with hold | hslot
    · exact Or.inl (List.mem_cons_of_mem _ hold)
    · rw [hempty] at hslot
      cases hslot

/-- `page_insert`: it fails only when a page table is missing and no page is
left for one, and then changes nothing. -/
theorem pageInsert_spec (hpaged : Paged pool dirs σ free held slack) {dir : ℕ} {perm : Word}
    (hdir : dirs i = some dir) (hva : va < utop) (hpool : pp ∈ pool) (hfree : pp ∉ free)
    (hnot : NotTable σ dirs pp) (hentry : entryPage (page2pa pp ||| perm ||| pteP) = some pp)
    (hroom : ∀ old, tableSlot σ dirs (pteKey i va) = some old →
      refs (userKeys ι) (tableSlot σ dirs) old + slack old < 2 ^ 16)
    (hheld : ∀ other, held = some other →
      other = pp ∧ tableSlot σ dirs (pteKey i va) ≠ some other) :
    (tableSlot σ dirs (.pde i (pdx va)) = none ∧ free = [] ∧
      pageInsert σ dir pp va perm = some (-eNoMem, σ)) ∨
    ∃ σ' free', pageInsert σ dir pp va perm = some (0, σ') ∧
      Inserted pool dirs σ free slack i va (page2pa pp ||| perm ||| pteP) σ' free' := by
  cases htable : tableSlot σ dirs (.pde i (pdx va)) with
  | some table =>
      obtain ⟨σ', free', hresult, hremap⟩ := insertAt_spec hpaged hdir hva htable hpool hfree
        hnot hentry hroom hheld
      refine Or.inr ⟨σ', free', ?_, hremap.inserted⟩
      rw [pageInsert_of_walk (pgdirWalk_present hpaged hdir hva htable true), hresult]
      rfl
  | none =>
      cases free with
      | nil =>
          refine Or.inl ⟨rfl, rfl, ?_⟩
          rw [pageInsert, pgdirWalk_exhausted hpaged hdir htable]
          rfl
      | cons pg free =>
          have hd := pdx_lt_userPdes hva
          have hlt := hpaged.pool_lt pg (hpaged.balanced.free_mem pg List.mem_cons_self)
          have hslots : ∀ key ∈ userKeys ι,
              tableSlot (installTable σ dir (pdx va) pg) dirs key =
                update (tableSlot σ dirs) (.pde i (pdx va)) (some pg) key := fun key hkey => by
            rw [tableSlot_update (hpaged.wordAt_installTable hdir hd htable key hkey),
              entryPage_tableEntry (lt_of_lt_of_le hlt hpaged.npages_le)]
          have hempty : tableSlot (installTable σ dir (pdx va) pg) dirs (pteKey i va) = none := by
            rw [hslots _ (pteKey_mem hva i), update_of_ne (by simp [pteKey]), pteKey, tableSlot,
              wordAt_pte_none htable, entryPage_zero]
          have hnew : tableSlot (installTable σ dir (pdx va) pg) dirs (.pde i (pdx va)) =
              some pg := by
            rw [hslots _ (pde_mem_userKeys.mpr hd), update_self]
          rw [List.mem_cons, not_or] at hfree
          have hnot' : NotTable (installTable σ dir (pdx va) pg) dirs pp := by
            refine ⟨hnot.1, fun j e he hslot => ?_⟩
            rw [hslots _ (pde_mem_userKeys.mpr he)] at hslot
            by_cases hsame : TableKey.pde j e = .pde i (pdx va)
            · rw [hsame, update_self] at hslot
              exact hfree.1 (Option.some.inj hslot).symm
            · rw [update_of_ne hsame] at hslot
              exact hnot.2 j e he hslot
          obtain ⟨σ', free', hresult, hremap⟩ := insertAt_spec
            (hpaged.installed hdir hd htable) hdir hva hnew hpool hfree.2 hnot' hentry
            (fun old hold => by rw [hempty] at hold; cases hold)
            (fun other hother => ⟨(hheld other hother).1, by rw [hempty]; simp⟩)
          refine Or.inr ⟨σ', free', ?_, hremap.inserted_install hpaged hdir hva htable⟩
          rw [pageInsert_of_walk (pgdirWalk_create hpaged hdir htable), hresult]
          rfl

end Insert

/-! ## Insertion in an arbitrary state -/

/-- `pgdir_walk` fails without a trace. -/
theorem pgdirWalk_fails {σ walked : Phys} {pgdir : ℕ} {va : Word}
    (hwalk : pgdirWalk σ pgdir va true = some (none, walked)) :
    walked = σ ∧ σ.pageFreeList = none ∧ σ.mem pgdir (pdx va) &&& pteP = 0 := by
  by_cases hpresent : σ.mem pgdir (pdx va) &&& pteP = 0
  · cases hhead : σ.pageFreeList with
    | none =>
        simp only [pgdirWalk, load_present, hpresent, if_pos, pageAlloc, hhead] at hwalk
        cases hwalk
        exact ⟨rfl, rfl, hpresent⟩
    | some pg =>
        simp only [pgdirWalk, load_present, hpresent, if_pos, pageAlloc, hhead,
          Option.bind_eq_bind] at hwalk
        obtain ⟨table, -, htable⟩ := Option.bind_eq_some_iff.mp hwalk
        cases htable
  · simp only [pgdirWalk, load_present, if_neg hpresent, Option.bind_eq_bind] at hwalk
    obtain ⟨table, -, htable⟩ := Option.bind_eq_some_iff.mp hwalk
    cases htable

/-- `page_insert` fails exactly when it needs a page table and the free list is
empty, and then changes nothing. -/
theorem pageInsert_result {σ σ' : Phys} {pgdir pp : ℕ} {va perm ret : Word}
    (hresult : pageInsert σ pgdir pp va perm = some (ret, σ')) :
    (ret = -eNoMem ∧ σ' = σ ∧ σ.pageFreeList = none ∧ σ.mem pgdir (pdx va) &&& pteP = 0) ∨
      (ret = 0 ∧ ¬ (σ.pageFreeList = none ∧ σ.mem pgdir (pdx va) &&& pteP = 0)) := by
  cases hwalk : pgdirWalk σ pgdir va true with
  | none => simp [pageInsert, hwalk] at hresult
  | some walk =>
      obtain ⟨place, walked⟩ := walk
      cases place with
      | none =>
          simp only [pageInsert, hwalk, Option.bind_eq_bind, Option.bind_some] at hresult
          cases hresult
          obtain ⟨rfl, hhead, hentry⟩ := pgdirWalk_fails hwalk
          exact Or.inl ⟨rfl, rfl, hhead, hentry⟩
      | some place =>
          refine Or.inr ⟨?_, fun ⟨hhead, hentry⟩ => ?_⟩
          · rw [pageInsert_of_walk hwalk] at hresult
            obtain ⟨stored, -, hpair⟩ := Option.map_eq_some_iff.mp hresult
            exact (congrArg Prod.fst hpair).symm
          · simp [pgdirWalk, hentry, pageAlloc, hhead] at hwalk

end OsLabs.Jos
