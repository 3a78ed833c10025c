import OsLabs.Jos.Loading
import OsLabs.Jos.Operations

/-!
# The memory of the system

The invariant of the address spaces holds in every run in which no call forges
an address, makes a counter wrap or asks for flags it should not have.  With
it comes what each operation does to the pages that the environments map.
-/

namespace OsLabs.Jos

open Function
open OsLabs.IntrusiveList
open OsLabs.RefLedger
open OsLabs.Transition

/-! ## Mapped pages -/

section Mapped

variable {ι : Type*} [Fintype ι] [DecidableEq ι]
variable {m : Machine} {pool : Set ℕ} {base : Phys} {Good : Word → Prop} {quiet : Set ℕ}
variable {dirs dirs' : ι → Option ℕ} {given : ι → Set ℕ} {σ σ' : Phys} {free : List ℕ}
variable {leak : ℕ → ℕ}

/-- The entry of space `i` for `va`. -/
def entryAt (σ : Phys) (dirs : ι → Option ℕ) (i : ι) (va : Word) : Word :=
  wordAt σ dirs (pteKey i va)

/-- The page that space `i` maps at `va`. -/
def mappedAt (σ : Phys) (dirs : ι → Option ℕ) (i : ι) (va : Word) : Option ℕ :=
  tableSlot σ dirs (pteKey i va)

omit [Fintype ι] [DecidableEq ι] in
theorem mappedAt_eq (σ : Phys) (dirs : ι → Option ℕ) (i : ι) (va : Word) :
    mappedAt σ dirs i va = entryPage (entryAt σ dirs i va) := rfl

omit [Fintype ι] [DecidableEq ι] in
/-- The entry depends on the page number of the address only. -/
theorem entryAt_congr {i : ι} {va w : Word} (hpage : pgnum va = pgnum w) :
    entryAt σ dirs i va = entryAt σ dirs i w := by
  rw [pgnum_eq, pgnum_eq] at hpage
  have hpdx : pdx va = pdx w := by
    rw [pdx_eq, pdx_eq]
    omega
  have hptx : ptx va = ptx w := by
    rw [ptx_eq, ptx_eq]
    omega
  rw [entryAt, entryAt, pteKey, pteKey, hpdx, hptx]

omit [Fintype ι] [DecidableEq ι] in
theorem mappedAt_congr {i : ι} {va w : Word} (hpage : pgnum va = pgnum w) :
    mappedAt σ dirs i va = mappedAt σ dirs i w := by
  rw [mappedAt_eq, mappedAt_eq, entryAt_congr hpage]

/-- Space `k` keeps its page tables and its entries, except those that `edit` names. -/
structure ViewKept (edit : Option (ι × Word)) (dirs dirs' : ι → Option ℕ) (σ σ' : Phys) (k : ι) :
    Prop where
  tables : ∀ d < userPdes, tableSlot σ dirs (.pde k d) ≠ none →
    wordAt σ' dirs' (.pde k d) = wordAt σ dirs (.pde k d)
  entries : ∀ w < utop, entryAt σ' dirs' k w = entryAt σ dirs k w ∨
    ∃ va, edit = some (k, va) ∧ pgnum w = pgnum va

/-- No entry changes. -/
def SameMappings (dirs dirs' : ι → Option ℕ) (σ σ' : Phys) : Prop :=
  ∀ k, ViewKept none dirs dirs' σ σ' k

/-- At most the entry of space `i` for `va` changes. -/
def Remaps (dirs : ι → Option ℕ) (σ σ' : Phys) (i : ι) (va : Word) : Prop :=
  ∀ k, ViewKept (some (i, va)) dirs dirs σ σ' k

section Views

variable {edit : Option (ι × Word)} {k : ι}

omit [Fintype ι] [DecidableEq ι] in
theorem ViewKept.refl (edit : Option (ι × Word)) : ViewKept edit dirs dirs σ σ k where
  tables := fun _ _ _ => rfl
  entries := fun _ _ => Or.inl rfl

omit [Fintype ι] [DecidableEq ι] in
/-- A page table that is kept is a page table still. -/
theorem ViewKept.table (hkept : ViewKept edit dirs dirs' σ σ' k) {d : ℕ} (hd : d < userPdes)
    (htable : tableSlot σ dirs (.pde k d) ≠ none) :
    tableSlot σ' dirs' (.pde k d) = tableSlot σ dirs (.pde k d) := by
  rw [tableSlot, hkept.tables d hd htable, tableSlot]

omit [Fintype ι] [DecidableEq ι] in
theorem ViewKept.trans {dirs'' : ι → Option ℕ} {σ'' : Phys}
    (hfirst : ViewKept none dirs dirs' σ σ' k) (hsecond : ViewKept edit dirs' dirs'' σ' σ'' k) :
    ViewKept edit dirs dirs'' σ σ'' k where
  tables := fun d hd htable => by
    have hkept := hfirst.table hd htable
    rw [hsecond.tables d hd (hkept ▸ htable), hfirst.tables d hd htable]
  entries := fun w hw => by
    have hsame : entryAt σ' dirs' k w = entryAt σ dirs k w :=
      (hfirst.entries w hw).resolve_right fun hedit => by
        obtain ⟨va, hnone, -⟩ := hedit
        cases hnone
    rw [← hsame]
    exact hsecond.entries w hw

omit [Fintype ι] [DecidableEq ι] in
theorem ViewKept.weaken (hkept : ViewKept none dirs dirs' σ σ' k) (edit : Option (ι × Word)) :
    ViewKept edit dirs dirs' σ σ' k :=
  hkept.trans (ViewKept.refl edit)

/-- What keeps the words of a space keeps its view. -/
theorem ViewKept.of_words
    (hwords : ∀ key ∈ userKeys ι, key.space = k → wordAt σ' dirs' key = wordAt σ dirs key) :
    ViewKept edit dirs dirs' σ σ' k where
  tables := fun _ hd _ => hwords _ (pde_mem_userKeys.mpr hd) rfl
  entries := fun _ hw => Or.inl (hwords _ (pteKey_mem hw k) rfl)

end Views

omit [Fintype ι] [DecidableEq ι] in
theorem SameMappings.refl : SameMappings dirs dirs σ σ := fun _ => ViewKept.refl none

omit [Fintype ι] [DecidableEq ι] in
theorem SameMappings.trans {dirs'' : ι → Option ℕ} {σ'' : Phys}
    (hfirst : SameMappings dirs dirs' σ σ') (hsecond : SameMappings dirs' dirs'' σ' σ'') :
    SameMappings dirs dirs'' σ σ'' :=
  fun k => (hfirst k).trans (hsecond k)

theorem SameMappings.of_words
    (hwords : ∀ key ∈ userKeys ι, wordAt σ' dirs' key = wordAt σ dirs key) :
    SameMappings dirs dirs' σ σ' := fun _ => ViewKept.of_words fun key hkey _ => hwords key hkey

/-- An insertion that started with the mappings of `σ`. -/
theorem Inserted.remaps {τ : Phys} {rest free' : List ℕ} {slack : ℕ → ℕ} {i : ι}
    {va entry : Word} (hinserted : Inserted pool dirs τ rest slack i va entry σ' free')
    (hview : SameMappings dirs dirs σ τ) : Remaps dirs σ σ' i va := fun k => by
  refine (hview k).trans ⟨fun d hd htable => ?_, fun w hw => ?_⟩
  · exact (hinserted.pdes k d hd).resolve_right fun hnew => htable hnew.2.1
  · by_cases hsame : pteKey k w = pteKey i va
    · obtain ⟨rfl, hpage⟩ := pteKey_eq_iff.mp hsame
      exact Or.inr ⟨va, rfl, hpage⟩
    · left
      rw [entryAt, pteKey, hinserted.ptes k _ _ (pdx_lt_userPdes hw) (ptx_lt w), ← pteKey,
        update_of_ne hsame]
      rfl

/-! ## The invariant between two operations -/

/-- The pages that are allocated, and memory at the start. -/
structure Arena (m : Machine) where
  pool : Set ℕ
  base : Phys
  image : KernelImage m pool base

/-- The invariant of the address spaces.  The counters of the pages in `quiet`
count nothing too much. -/
def MemoryOk (arena : Arena m) (Good : Word → Prop) (quiet : Set ℕ) (given : ι → Set ℕ)
    (dirs : ι → Option ℕ) (σ : Phys) : Prop :=
  ∃ free leak, Spaces m arena.pool arena.base Good dirs given σ free leak ∧
    ∀ page ∈ quiet, leak page = 0

/-- A page of the free list. -/
def FreePage (σ : Phys) (page : ℕ) : Prop :=
  ∃ free, Threads σ.link σ.pageFreeList free ∧ page ∈ free

/-- More pages may be given. -/
theorem Spaces.given_mono (hspaces : Spaces m pool base Good dirs given σ free leak)
    {given' : ι → Set ℕ} (hsub : ∀ e page, page ∈ given e → page ∈ given' e) :
    Spaces m pool base Good dirs given' σ free leak :=
  { hspaces with
    user_ptes := fun e d t page hd ht hslot =>
      (hspaces.user_ptes e d t page hd ht hslot).imp (hsub e page) id }

/-- `page_remove` leaves other entries alone. -/
theorem Spaces.remove_words (hspaces : Spaces m pool base Good dirs given σ free leak) {i : ι}
    {dir : ℕ} {va : Word} (hdir : dirs i = some dir) (hva : va < utop)
    (hrun : pageRemove σ dir va = some σ') {key : TableKey ι} (hkey : key ∈ userKeys ι)
    (hne : key ≠ pteKey i va) : wordAt σ' dirs key = wordAt σ dirs key := by
  cases hslot : tableSlot σ dirs (pteKey i va) with
  | none =>
    cases Option.some.inj ((pageRemove_none hspaces.paged hdir hva hslot).symm.trans hrun)
    rfl
  | some page =>
    obtain ⟨table, htable⟩ := table_of_pte hslot
    cases Option.some.inj
      ((pageRemove_some hspaces.paged hdir hva htable hslot).symm.trans hrun)
    rw [hspaces.paged.wordAt_removed hva htable page 0 key hkey, update_of_ne hne]

/-- A new space leaves the views of all spaces alone. -/
theorem Spaces.view_setupDir {p : ℕ}
    (hspaces : Spaces m pool base Good dirs given σ (p :: free) leak)
    (himage : KernelImage m pool base) {i : ι} (hnone : dirs i = none) :
    SameMappings dirs (update dirs i (some p)) σ (Jos.setupDir σ m.kernPgdir p) := fun k => by
  by_cases hk : k = i
  · subst hk
    have hold (d : ℕ) : tableSlot σ dirs (.pde k d) = none := tableSlot_of_no_dir σ hnone
    refine ⟨fun d _ htable => absurd (hold d) htable, fun w hw => Or.inl ?_⟩
    have hnew : tableSlot (Jos.setupDir σ m.kernPgdir p) (update dirs k (some p))
        (.pde k (pdx w)) = none := by
      rw [tableSlot, wordAt_pde (update_self k (some p) dirs),
        hspaces.setupDir_empty himage (pdx_lt_userPdes hw)]
    rw [entryAt, entryAt, pteKey, wordAt_pte_none hnew, wordAt_pte_none (hold _)]
  · exact ViewKept.of_words fun key hkey hspace =>
      hspaces.wordAt_setupDir m.kernPgdir hkey (hspace ▸ hk)

/-- Booting leaves the invariant. -/
theorem Housed.arena (hhoused : Housed m Good dirs σ) (quiet : Set ℕ) :
    ∃ (arena : Arena m) (given : ι → Set ℕ), MemoryOk arena Good quiet given dirs σ := by
  obtain ⟨pool, base, given, free, himage, hspaces⟩ := hhoused
  exact ⟨⟨pool, base, himage⟩, given, free, noLeak, hspaces, fun _ _ => rfl⟩

namespace MemoryOk

variable {arena : Arena m}

/-- A mapped page is in use. -/
theorem mapped_busy (hmem : MemoryOk arena Good quiet given dirs σ) {i : ι} {va : Word} (hva : va < utop)
    {page : ℕ} (hmapped : mappedAt σ dirs i va = some page) : ¬ FreePage σ page := by
  obtain ⟨free, leak, hspaces, -⟩ := hmem
  rintro ⟨free', hthreads, hfree⟩
  have hunique : free' = free := hthreads.unique hspaces.paged.threads
  rw [hunique] at hfree
  exact hspaces.paged.balanced.slot_not_free (pteKey_mem hva i) hmapped hfree

/-- Different spaces have different directories. -/
theorem dir_inj (hmem : MemoryOk arena Good quiet given dirs σ) {i j : ι} {dir : ℕ}
    (hi : dirs i = some dir) (hj : dirs j = some dir) : i = j := by
  obtain ⟨free, leak, hspaces, -⟩ := hmem
  exact hspaces.paged.exclusive.dir_inj i j dir hi hj

/-! ### Stores -/

theorem storeByte (hmem : MemoryOk arena Good quiet given dirs σ) {i : ι} {va : Word} (hva : va < utop)
    {page : ℕ} (hmapped : mappedAt σ dirs i va = some page) (offset : ℕ) (byte : BitVec 8) :
    MemoryOk arena Good quiet given dirs (σ.storeByte page offset byte) ∧
      SameMappings dirs dirs σ (σ.storeByte page offset byte) := by
  obtain ⟨free, leak, hspaces, hexact⟩ := hmem
  obtain ⟨hpool, -, hnot⟩ := hspaces.mapped hva hmapped
  have hview := wordAt_of_notTable hnot fun other hne =>
    show (σ.storeByte page offset byte).mem other = σ.mem other from
      mem_store_of_ne σ page _ _ hne
  exact ⟨⟨free, leak, hspaces.storeByte hpool hnot offset byte, hexact⟩,
    SameMappings.of_words hview⟩

/-- A store of the program that runs in space `i`. -/
theorem userStore (hmem : MemoryOk arena Good quiet given dirs σ) {i : ι} {dir page : ℕ} {va : Word}
    (hdir : dirs i = some dir)
    (hreach : mmuPage σ dir va (pteP ||| pteU ||| pteW) = some page) (byte : BitVec 8) :
    MemoryOk arena Good quiet given dirs (σ.storeByte page (pgoff va) byte) ∧
      SameMappings dirs dirs σ (σ.storeByte page (pgoff va) byte) := by
  have hva : va < utop := by
    obtain ⟨free, leak, hspaces, -⟩ := hmem
    exact hspaces.user_write arena.image hdir hreach
  have hmapped : mappedAt σ dirs i va = some page :=
    Spaces.mmuPage_slot hdir (by decide) hreach
  exact hmem.storeByte hva hmapped _ byte

theorem kernelStores (hmem : MemoryOk arena Good quiet given dirs σ) {i : ι} {dir : ℕ} {va : Word}
    (hdir : dirs i = some dir) {bytes : List (BitVec 8)}
    (hva : va.toNat + bytes.length ≤ utop.toNat)
    (hstores : Jos.kernelStores σ dir va bytes = some σ') :
    MemoryOk arena Good quiet given dirs σ' ∧ SameMappings dirs dirs σ σ' := by
  induction bytes generalizing σ va with
  | nil =>
    cases hstores
    exact ⟨hmem, SameMappings.refl⟩
  | cons byte bytes ih =>
    have htop : utop.toNat = 4005560320 := by decide
    rw [List.length_cons] at hva
    obtain ⟨mid, hstore, hrest⟩ := Option.bind_eq_some_iff.mp hstores
    obtain ⟨page, hreach, hmid⟩ := Option.bind_eq_some_iff.mp hstore
    cases hmid
    have hlow : va < utop := by
      rw [BitVec.lt_def]
      omega
    have hmapped : mappedAt σ dirs i va = some page :=
      Spaces.mmuPage_slot hdir (by decide) hreach
    obtain ⟨hfirst, hkept⟩ := hmem.storeByte hlow hmapped (pgoff va) byte
    obtain ⟨hdone, hkept'⟩ := ih hfirst (by
      rw [BitVec.toNat_add, show (1 : Word).toNat = 1 by decide]
      omega) hrest
    exact ⟨hdone, hkept.trans hkept'⟩

theorem setMmuBits (hmem : MemoryOk arena Good quiet given dirs σ) (bits : ℕ → ℕ → Word) :
    MemoryOk arena Good quiet given dirs (σ.setMmuBits bits) ∧
      SameMappings dirs dirs σ (σ.setMmuBits bits) := by
  obtain ⟨free, leak, hspaces, hexact⟩ := hmem
  have hsame : (σ.setMmuBits bits).mem = σ.mem := rfl
  refine ⟨⟨free, leak, hspaces.setMmuBits bits, hexact⟩, ?_⟩
  exact SameMappings.of_words fun key _ => congrFun (wordAt_congr_mem hsame dirs) key

/-! ### Mapping and unmapping -/

/-- `page_remove`. -/
theorem remove (hmem : MemoryOk arena Good quiet given dirs σ) {i : ι} {dir : ℕ} {va : Word}
    (hdir : dirs i = some dir) (hva : va < utop) (hrun : pageRemove σ dir va = some σ') :
    MemoryOk arena Good quiet given dirs σ' ∧ Remaps dirs σ σ' i va := by
  obtain ⟨free, leak, hspaces, hexact⟩ := hmem
  obtain ⟨τ, free', hremove, hspaces', -⟩ := hspaces.remove hdir hva
  have hresult : τ = σ' := Option.some.inj (hremove.symm.trans hrun)
  subst hresult
  have hwords (key : TableKey ι) (hkey : key ∈ userKeys ι) (hne : key ≠ pteKey i va) :=
    hspaces.remove_words hdir hva hrun hkey hne
  refine ⟨⟨free', leak, hspaces', hexact⟩, fun k => ⟨fun d hd _ => ?_, fun w hw => ?_⟩⟩
  · exact hwords _ (pde_mem_userKeys.mpr hd) (by rw [pteKey]; exact fun h => by cases h)
  · by_cases hsame : pteKey k w = pteKey i va
    · obtain ⟨rfl, hpage⟩ := pteKey_eq_iff.mp hsame
      exact Or.inr ⟨va, rfl, hpage⟩
    · exact Or.inl (hwords _ (pteKey_mem hw k) hsame)

/-- `page_insert` of a page that is mapped at `w` of space `j`. -/
theorem insert (hmem : MemoryOk arena Good quiet given dirs σ) {i j : ι} {dir pp : ℕ} {va w perm ret : Word}
    (hdir : dirs i = some dir) (hva : va < utop) (hw : w < utop)
    (hmapped : mappedAt σ dirs j w = some pp)
    (hfit : pteAddr (page2pa pp ||| perm) = page2pa pp)
    (hgood : Good (page2pa pp ||| perm ||| pteP)) (hroom : InsertRoom σ dir pp va)
    (hrun : pageInsert σ dir pp va perm = some (ret, σ')) :
    (ret = 0 → MemoryOk arena Good quiet (give given i pp) dirs σ' ∧ Remaps dirs σ σ' i va) ∧
      (ret ≠ 0 → MemoryOk arena Good quiet given dirs σ' ∧ SameMappings dirs dirs σ σ') := by
  obtain ⟨free, leak, hspaces, hexact⟩ := hmem
  obtain ⟨hpool, hfree, hnot⟩ := hspaces.mapped hw hmapped
  rcases hspaces.insert hdir hva hpool hfree hnot hfit hgood hroom (mem_give given i pp)
    (fun _ _ _ _ _ _ _ h => give_sub given i pp h) with
    ⟨-, -, hfailed⟩ | ⟨τ, free', hresult, hinserted, hdone⟩
  · cases Option.some.inj (hfailed.symm.trans hrun)
    exact ⟨fun hret => absurd hret (by decide),
      fun _ => ⟨⟨free, leak, hspaces, hexact⟩, SameMappings.refl⟩⟩
  · cases Option.some.inj (hresult.symm.trans hrun)
    exact ⟨fun _ => ⟨⟨free', leak, hdone, hexact⟩, hinserted.remaps SameMappings.refl⟩,
      fun hret => absurd rfl hret⟩

/-- The memory part of `sys_page_alloc`. -/
theorem alloc (hmem : MemoryOk arena Good quiet given dirs σ) {i : ι} {dir pg : ℕ} {va perm ret : Word}
    (hhead : σ.pageFreeList = some pg) (hdir : dirs i = some dir) (hva : va < utop)
    (hfit : pteAddr (page2pa pg ||| perm) = page2pa pg)
    (hgood : Good (page2pa pg ||| perm ||| pteP)) (hfirst : σ.ref pg ≠ 0xFFFF)
    (hroom : InsertRoom ((takePage σ pg true).incRef pg) dir pg va) (hloud : pg ∉ quiet)
    (hrun : pageInsert ((takePage σ pg true).incRef pg) dir pg va perm = some (ret, σ')) :
    (ret ≠ 0 → MemoryOk arena Good quiet given dirs (pageFree σ' pg) ∧
      SameMappings dirs dirs σ (pageFree σ' pg)) ∧
    (ret = 0 → MemoryOk arena Good quiet (give given i pg) dirs σ' ∧
      Remaps dirs σ σ' i va) := by
  obtain ⟨free, leak, hspaces, hexact⟩ := hmem
  cases free with
  | nil =>
    rw [hspaces.paged.threads.head_eq] at hhead
    cases hhead
  | cons first rest =>
    obtain rfl : first = pg :=
      Option.some.inj (hspaces.paged.threads.head_eq.symm.trans hhead)
    have hview : ∀ key ∈ userKeys ι,
        wordAt ((takePage σ first true).incRef first) dirs key = wordAt σ dirs key :=
      fun key hkey => by
        rw [wordAt_congr_mem (mem_incRef _ _), hspaces.paged.wordAt_takePage true key hkey]
    have hcounts : ∀ page ∈ quiet, leak page + (if page = first then 1 else 0) = 0 :=
      fun page hpage => by
        have hne : page ≠ first := fun hsame => hloud (hsame ▸ hpage)
        rw [hexact page hpage, if_neg hne]
    rcases hspaces.allocInsert hdir hva hfit hgood hfirst hroom with
      ⟨hfailed, hfreed⟩ | ⟨τ, free', hresult, hinserted, hdone⟩
    · cases Option.some.inj (hfailed.symm.trans hrun)
      refine ⟨fun _ => ⟨⟨_, _, hfreed, hcounts⟩,
        SameMappings.of_words fun key hkey => ?_⟩, fun hret => absurd hret (by decide)⟩
      rw [wordAt_congr_mem (mem_pageFree _ _), hview key hkey]
    · cases Option.some.inj (hresult.symm.trans hrun)
      refine ⟨fun hret => absurd rfl hret, fun _ => ⟨⟨free', _, hdone.given_mono ?_, hcounts⟩,
        hinserted.remaps (SameMappings.of_words hview)⟩⟩
      intro e page hpage
      by_cases he : e = i
      · subst he
        rw [give, update_self]
        simpa [Spaces.regive] using hpage
      · rw [give, update_of_ne he]
        rw [Spaces.regive, if_neg he] at hpage
        exact hpage.1

/-! ### Creating and destroying a space -/

theorem fork (hmem : MemoryOk arena Good quiet given dirs σ) {i : ι} {p : ℕ}
    (hhead : σ.pageFreeList = some p) (hnone : dirs i = none) (hroom : σ.ref p ≠ 0xFFFF) :
    MemoryOk arena Good quiet (update given i ∅) (update dirs i (some p)) (setupDir σ m.kernPgdir p) ∧
      SameMappings dirs (update dirs i (some p)) σ (setupDir σ m.kernPgdir p) := by
  obtain ⟨free, leak, hspaces, hexact⟩ := hmem
  cases free with
  | nil =>
    rw [hspaces.paged.threads.head_eq] at hhead
    cases hhead
  | cons first rest =>
    obtain rfl : first = p :=
      Option.some.inj (hspaces.paged.threads.head_eq.symm.trans hhead)
    exact ⟨⟨rest, leak, hspaces.setupDir arena.image hnone hroom, hexact⟩,
      hspaces.view_setupDir arena.image hnone⟩

/-- `env_free`: other spaces keep their mappings. -/
theorem destroy (hmem : MemoryOk arena Good quiet given dirs σ) {i : ι} {dir : ℕ}
    (hdir : dirs i = some dir) (hrun : freeTables σ dir userPdes = some σ') :
    σ'.pa2page (page2pa dir) = some dir ∧
      MemoryOk arena Good quiet given (update dirs i none) (pageDecref σ' dir) ∧
      ∀ k, k ≠ i → ViewKept none dirs (update dirs i none) σ (pageDecref σ' dir) k := by
  obtain ⟨free, leak, hspaces, hexact⟩ := hmem
  obtain ⟨τ, free', hfree, hspaces', hnone, -⟩ := hspaces.freeTables hdir (Nat.le_refl _)
  obtain rfl : τ = σ' := Option.some.inj (hfree.symm.trans hrun)
  obtain ⟨ρ, -, hfree', -, hgone⟩ :=
    hspaces.paged.freeTables hspaces.fits hdir (Nat.le_refl userPdes)
  obtain rfl : τ = ρ := Option.some.inj (hfree.symm.trans hfree')
  obtain ⟨free'', hdone⟩ := hspaces'.dropDir hdir fun key hkey hspace =>
    hnone key hkey hspace (by
      cases key with
      | pde j d => exact pde_mem_userKeys.mp hkey
      | pte j d t => exact (pte_mem_userKeys.mp hkey).1)
  have hlt := hspaces'.paged.pool_lt dir (hspaces'.dir_pool i dir hdir)
  refine ⟨?_, ⟨free'', leak, hdone, hexact⟩, fun k hk => ViewKept.of_words fun key hkey hspace => ?_⟩
  · rw [Phys.pa2page, pgnum_page2pa (lt_of_lt_of_le hlt hspaces'.paged.npages_le), if_pos hlt]
  · have hother : key.space ≠ i := hspace ▸ hk
    rw [wordAt_congr_mem (mem_pageDecref τ dir), wordAt_update_dirs τ dirs none hother,
      hgone.words key hkey fun hin => hother hin.1]

end MemoryOk

end Mapped

end OsLabs.Jos
