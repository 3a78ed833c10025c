import OsLabs.Jos.FaultFrame

/-!
# The user half of a new address space

What `region_alloc` and the stores of the kernel do to an address space that
started empty: the pages that were asked for are mapped, each to a page of its
own, and the user reads what was stored last.
-/

namespace OsLabs.Jos

open Function
open OsLabs.RefLedger

/-! ## What is mapped -/

/-- What a user program reads at `va` in a page that it may write. -/
def userByte (σ : Phys) (dir : ℕ) (va : Word) : Option (BitVec 8) :=
  (mmuPage σ dir va writeFlags).map fun page => σ.loadByte page (pgoff va)

/-- The virtual page `vpn` has its entry in the page table with this index. -/
def tableOf (vpn : ℕ) : ℕ := vpn / nptEntries

/-- The physical pages that it takes to map `touched`: the pages and their page tables. -/
def pagesNeeded (touched : Finset ℕ) : ℕ := touched.card + (touched.image tableOf).card

theorem pagesNeeded_mono {touched more : Finset ℕ} (hsub : touched ⊆ more) :
    pagesNeeded touched ≤ pagesNeeded more :=
  Nat.add_le_add (Finset.card_le_card hsub) (Finset.card_le_card (Finset.image_subset_image hsub))

theorem pagesNeeded_insert {touched : Finset ℕ} {vpn : ℕ} (hnew : vpn ∉ touched) :
    pagesNeeded (insert vpn touched) =
      pagesNeeded touched + 1 + if tableOf vpn ∈ touched.image tableOf then 0 else 1 := by
  rw [pagesNeeded, Finset.card_insert_of_notMem hnew, Finset.image_insert]
  split
  case isTrue htable =>
    rw [Finset.insert_eq_of_mem htable, pagesNeeded]
    omega
  case isFalse htable =>
    rw [Finset.card_insert_of_notMem htable, pagesNeeded]
    omega

theorem tableOf_pgnum (va : Word) : tableOf (pgnum va) = pdx va := by
  rw [tableOf, pgnum_eq, pdx_eq, nptEntries]
  omega

variable {ι : Type*} [Fintype ι] [DecidableEq ι]

omit [Fintype ι] [DecidableEq ι] in
theorem pteKey_congr (i : ι) {va vb : Word} (hsame : pgnum va = pgnum vb) :
    pteKey i va = pteKey i vb := pteKey_eq_iff.mpr ⟨rfl, hsame⟩

/-! ## One page -/

namespace Spaces

variable {m : Machine} {pool : Set ℕ} {base : Phys} {Good : Word → Prop} {dirs : ι → Option ℕ}
variable {given : ι → Set ℕ} {σ σ' : Phys} {pg : ℕ} {rest free' : List ℕ} {i : ι} {dir : ℕ}
variable {va ret : Word}

theorem free_lt (hspaces : Spaces m pool base Good dirs given σ rest noLeak) {page : ℕ}
    (hfree : page ∈ rest) : page < 2 ^ 20 :=
  lt_of_lt_of_le (hspaces.paged.pool_lt page (hspaces.paged.balanced.free_mem page hfree))
    hspaces.paged.npages_le

/-- The entries after a page was loaded at `va`. -/
theorem loadPage_pte (hspaces : Spaces m pool base Good dirs given σ (pg :: rest) noLeak)
    (hinserted : Inserted pool dirs (takePage σ pg false) rest (owned dirs noLeak) i va
      (loadEntry pg) σ' free') {vb : Word} (hvb : vb < utop) :
    wordAt σ' dirs (pteKey i vb) =
      if pgnum vb = pgnum va then loadEntry pg else wordAt σ dirs (pteKey i vb) := by
  have hword : wordAt σ' dirs (pteKey i vb) =
      update (wordAt (takePage σ pg false) dirs) (pteKey i va) (loadEntry pg) (pteKey i vb) :=
    hinserted.ptes i _ _ (pdx_lt_userPdes hvb) (ptx_lt vb)
  rw [hword]
  split
  case isTrue hsame => rw [pteKey_congr i hsame, update_self]
  case isFalse hne =>
    have hkeys : pteKey i vb ≠ pteKey i va := fun hkeys => hne (pteKey_eq_iff.mp hkeys).2
    rw [update_of_ne hkeys,
      hspaces.paged.wordAt_takePage false _ (pteKey_mem hvb i)]

/-- The directory after a page was loaded at `va`. -/
theorem loadPage_pde (hspaces : Spaces m pool base Good dirs given σ (pg :: rest) noLeak)
    (hinserted : Inserted pool dirs (takePage σ pg false) rest (owned dirs noLeak) i va
      (loadEntry pg) σ' free') {d : ℕ} (hd : d < userPdes) :
    wordAt σ' dirs (.pde i d) = wordAt σ dirs (.pde i d) ∨
      d = pdx va ∧ ∃ table ∈ rest, wordAt σ' dirs (.pde i d) = tableEntry table := by
  have hkey : TableKey.pde i d ∈ userKeys ι := pde_mem_userKeys.mpr hd
  rcases hinserted.pdes i d hd with hsame | ⟨⟨-, hindex⟩, -, table, hhead, hword⟩
  · exact Or.inl (hsame.trans (hspaces.paged.wordAt_takePage false _ hkey))
  · exact Or.inr ⟨hindex, table, List.mem_of_mem_head? hhead, hword⟩

/-- Pages in use that hold no entries are not written. -/
theorem loadPage_mem (hspaces : Spaces m pool base Good dirs given σ (pg :: rest) noLeak)
    (hinserted : Inserted pool dirs (takePage σ pg false) rest (owned dirs noLeak) i va
      (loadEntry pg) σ' free') {page : ℕ} (hfree : page ∉ pg :: rest)
    (hnot : NotTable σ dirs page) : σ'.mem page = σ.mem page := by
  have hframe : Frame pool dirs σ (pg :: rest) σ' :=
    (hspaces.paged.frame_takePage false).then hinserted.frame
      (fun _ hpage => List.mem_cons_of_mem _ hpage) (hspaces.paged.tableSlot_takePage false)
  exact hframe.mem_other page hfree hnot

/-- Loading a page writes the directory, the page table and free pages. -/
theorem loadPage_kept (hspaces : Spaces m pool base Good dirs given σ (pg :: rest) noLeak)
    (hdir : dirs i = some dir) (hva : va < utop)
    (hinsert : pageInsert (takePage σ pg false) dir pg va (pteW ||| pteU) = some (ret, σ')) :
    Kept (fun page index => page = dir ∧ index < userPdes ∨
      tableSlot σ dirs (.pde i (pdx va)) = some page ∨ page ∈ pg :: rest) σ σ' := by
  have hhead : (takePage σ pg false).pageFreeList = rest.head? :=
    (hspaces.paged.taken false).threads.head_eq
  have hrest : ∀ page, (takePage σ pg false).pageFreeList = some page → page ∈ rest :=
    fun page hpage => List.mem_of_mem_head? (hhead.symm.trans hpage)
  have hne : dir ≠ pg := fun hsame =>
    (hspaces.paged.dir_busy i dir hdir).1 (hsame ▸ List.mem_cons_self)
  have htaken := Kept.takePage σ pg false
  have hinserted := pageInsert_kept
    (fun page hpage => hspaces.free_lt (List.mem_cons_of_mem _ (hrest page hpage))) hinsert
  refine (htaken.mono ?_).trans (hinserted.mono ?_)
  · rintro page index rfl
    exact Or.inr (Or.inr List.mem_cons_self)
  · rintro page index (⟨hentry, -⟩ | ⟨-, ⟨rfl, rfl⟩ | hpage⟩)
    · rw [mem_takePage_of_ne pg false hne] at hentry
      refine Or.inr (Or.inl ?_)
      rw [tableSlot, wordAt_pde hdir, hentry]
    · exact Or.inl ⟨rfl, pdx_lt_userPdes hva⟩
    · exact Or.inr (Or.inr (List.mem_cons_of_mem _ (hrest page hpage)))

end Spaces

/-! ## An address space that started empty -/

/-- The words that loading a program writes: user entries of the directory, and
pages that were free. -/
def LoaderWrites (dir : ℕ) (free : List ℕ) (page index : ℕ) : Prop :=
  page = dir ∧ index < userPdes ∨ page ∈ free

/-- In space `i`, which was empty in `σ₀` when `free₀` was the free list, the
virtual pages `touched` have been mapped, and nothing else was written. -/
structure Populated (m : Machine) (pool : Set ℕ) (base : Phys) (dirs : ι → Option ℕ) (i : ι)
    (dir : ℕ) (σ₀ : Phys) (free₀ : List ℕ) (touched : Finset ℕ) (σ : Phys) : Prop where
  dir_eq : dirs i = some dir
  spaces : ∃ given free, Spaces m pool base (fun _ => True) dirs given σ free noLeak ∧
    (∀ page ∈ free, page ∈ free₀) ∧ free₀.length ≤ free.length + pagesNeeded touched
  kept : Kept (LoaderWrites dir free₀) σ₀ σ
  entry : ∀ va < utop, pgnum va ∈ touched →
    ∃ page ∈ free₀, page < 2 ^ 20 ∧ wordAt σ dirs (pteKey i va) = loadEntry page
  absent : ∀ va < utop, pgnum va ∉ touched → tableSlot σ dirs (pteKey i va) = none
  apart : ∀ va < utop, ∀ vb < utop, ∀ page, tableSlot σ dirs (pteKey i va) = some page →
    tableSlot σ dirs (pteKey i vb) = some page → pgnum va = pgnum vb
  table : ∀ va < utop, pdx va ∈ touched.image tableOf →
    ∃ table ∈ free₀, table < 2 ^ 20 ∧ wordAt σ dirs (.pde i (pdx va)) = tableEntry table
  no_table : ∀ va < utop, pdx va ∉ touched.image tableOf →
    tableSlot σ dirs (.pde i (pdx va)) = none

omit [Fintype ι] [DecidableEq ι] in
theorem entryPage_loadEntry {page : ℕ} (hpage : page < 2 ^ 20) :
    entryPage (loadEntry page) = some page :=
  entryPage_entry hpage (pteAddr_page2pa_or (by decide))

/-- The flags that the kernel sets in its entries. -/
theorem loadEntry_flags (page : ℕ) : loadEntry page &&& writeFlags = writeFlags := by
  have hform : loadEntry page = page2pa page ||| writeFlags := by
    rw [loadEntry, BitVec.or_assoc]
    rfl
  rw [hform, BitVec.and_or_distrib_right, aligned_and_flags (pteAddr_page2pa page) (by decide)]
  decide

theorem tableEntry_flags (page : ℕ) : tableEntry page &&& writeFlags = writeFlags := by
  have hform : tableEntry page = page2pa page ||| writeFlags := by
    rw [tableEntry, BitVec.or_assoc, BitVec.or_assoc]
    rfl
  rw [hform, BitVec.and_or_distrib_right, aligned_and_flags (pteAddr_page2pa page) (by decide)]
  decide

namespace Populated

variable {m : Machine} {pool : Set ℕ} {base : Phys} {dirs : ι → Option ℕ} {i : ι} {dir : ℕ}
variable {σ₀ σ σ' : Phys} {free₀ : List ℕ} {touched : Finset ℕ} {va : Word}

/-- Nothing is mapped in an empty space. -/
theorem start {given : ι → Set ℕ}
    (hspaces : Spaces m pool base (fun _ => True) dirs given σ free₀ noLeak)
    (hdir : dirs i = some dir) (hempty : ∀ d < userPdes, entryPage (σ.mem dir d) = none) :
    Populated m pool base dirs i dir σ free₀ ∅ σ := by
  have hslots {key : TableKey ι} (hkey : key ∈ userKeys ι) (hspace : key.space = i) :
      tableSlot σ dirs key = none := tableSlot_of_empty σ hdir hempty hkey hspace
  exact
    { dir_eq := hdir
      spaces := ⟨given, free₀, hspaces, fun _ hpage => hpage, Nat.le_add_right _ _⟩
      kept := Kept.refl _ σ
      entry := fun va _ hmem => absurd hmem (Finset.notMem_empty _)
      absent := fun va hva _ => hslots (pteKey_mem hva i) rfl
      apart := fun va hva vb _ page hslot => by
        rw [hslots (pteKey_mem hva i) rfl] at hslot
        cases hslot
      table := fun va _ hmem => by simp at hmem
      no_table := fun va hva _ => hslots (pde_mem_userKeys.mpr (pdx_lt_userPdes hva)) rfl }

theorem slot (hpop : Populated m pool base dirs i dir σ₀ free₀ touched σ) (hva : va < utop)
    (hmem : pgnum va ∈ touched) :
    ∃ page ∈ free₀, tableSlot σ dirs (pteKey i va) = some page := by
  obtain ⟨page, hfree, hlt, hword⟩ := hpop.entry va hva hmem
  exact ⟨page, hfree, by rw [tableSlot, hword, entryPage_loadEntry hlt]⟩

/-- The user may write what is mapped. -/
theorem mmuPage_eq (hpop : Populated m pool base dirs i dir σ₀ free₀ touched σ) (hva : va < utop) :
    mmuPage σ dir va writeFlags = tableSlot σ dirs (pteKey i va) := by
  by_cases hmem : pgnum va ∈ touched
  · have hindex : pdx va ∈ touched.image tableOf :=
      Finset.mem_image.mpr ⟨pgnum va, hmem, tableOf_pgnum va⟩
    obtain ⟨table, -, htableLt, htable⟩ := hpop.table va hva hindex
    obtain ⟨page, -, hlt, hword⟩ := hpop.entry va hva hmem
    have hslot : tableSlot σ dirs (.pde i (pdx va)) = some table := by
      rw [tableSlot, htable, entryPage_tableEntry htableLt]
    have hpde : σ.mem dir (pdx va) = tableEntry table := by
      rw [← wordAt_pde hpop.dir_eq, htable]
    have hnumber : pgnum (σ.load dir (pdx va)) = table := by
      rw [pgnum_load, hpde]
      exact (entryPage_eq_some.mp (entryPage_tableEntry htableLt)).2
    have hpte : σ.mem table (ptx va) = loadEntry page := by
      rw [← hword, pteKey, wordAt_pte hslot]
    have hflags : σ.load dir (pdx va) &&& writeFlags = writeFlags ∧
        σ.load table (ptx va) &&& writeFlags = writeFlags := by
      rw [load_and σ _ _ (by decide), load_and σ _ _ (by decide), hpde, hpte]
      exact ⟨tableEntry_flags table, loadEntry_flags page⟩
    rw [mmuPage, hnumber, if_pos hflags, pgnum_load, hpte, tableSlot, hword,
      entryPage_loadEntry hlt]
    exact congrArg some (entryPage_eq_some.mp (entryPage_loadEntry hlt)).2
  · have hnone := hpop.absent va hva hmem
    rw [hnone]
    cases hreach : mmuPage σ dir va writeFlags with
    | none => rfl
    | some page =>
      rw [Spaces.mmuPage_slot hpop.dir_eq (by decide) hreach] at hnone
      cases hnone

/-- Nothing else is mapped. -/
theorem mmuPage_absent (hpop : Populated m pool base dirs i dir σ₀ free₀ touched σ)
    (hva : va < utop) (hmem : pgnum va ∉ touched) : mmuPage σ dir va pteP = none := by
  cases hreach : mmuPage σ dir va pteP with
  | none => rfl
  | some page =>
    have hnone := hpop.absent va hva hmem
    rw [Spaces.mmuPage_slot hpop.dir_eq (by decide) hreach] at hnone
    cases hnone

theorem userByte_eq (hpop : Populated m pool base dirs i dir σ₀ free₀ touched σ)
    (hva : va < utop) :
    userByte σ dir va =
      (tableSlot σ dirs (pteKey i va)).map fun page => σ.loadByte page (pgoff va) := by
  rw [userByte, hpop.mmuPage_eq hva]

/-! ## `region_alloc` -/

/-- One page more.  Bytes elsewhere stay as they were. -/
theorem loadPage (hpop : Populated m pool base dirs i dir σ₀ free₀ touched σ) (hva : va < utop)
    (hnew : pgnum va ∉ touched) (hroom : pagesNeeded (insert (pgnum va) touched) ≤ free₀.length) :
    ∃ pg σ', pageAlloc σ false = (some pg, takePage σ pg false) ∧
      pageInsert (takePage σ pg false) dir pg va (pteW ||| pteU) = some (0, σ') ∧
      Populated m pool base dirs i dir σ₀ free₀ (insert (pgnum va) touched) σ' ∧
      ∀ vb < utop, pgnum vb ≠ pgnum va → userByte σ' dir vb = userByte σ dir vb := by
  obtain ⟨given, free, hspaces, hsub, hlength⟩ := hpop.spaces
  rw [pagesNeeded_insert hnew] at hroom
  cases free with
  | nil =>
    rw [List.length_nil] at hlength
    omega
  | cons pg rest =>
  have hlt := hspaces.free_lt List.mem_cons_self
  have hunref : ∀ key ∈ userKeys ι, tableSlot σ dirs key ≠ some pg := fun key hkey =>
    refs_eq_zero_iff.mp (hspaces.paged.balanced.free_unref pg List.mem_cons_self) key hkey
  have hindex_iff : tableOf (pgnum va) ∈ touched.image tableOf ↔
      tableSlot σ dirs (.pde i (pdx va)) ≠ none := by
    rw [tableOf_pgnum]
    constructor
    · intro hmem
      obtain ⟨table, -, htableLt, htable⟩ := hpop.table va hva hmem
      rw [tableSlot, htable, entryPage_tableEntry htableLt]
      exact Option.some_ne_none table
    · intro hpresent
      by_contra hmem
      exact hpresent (hpop.no_table va hva hmem)
  obtain ⟨σ', free', hinsert, hinserted, hloaded⟩ :=
    (hspaces.loadPage hpop.dir_eq hva trivial).resolve_left fun hfull => by
      obtain ⟨habsent, hnil, _⟩ := hfull
      -- without a page left there is no room for the page table either
      rw [if_neg fun hmem => hindex_iff.mp hmem habsent] at hroom
      rw [hnil, List.length_singleton] at hlength
      omega
  have hmapped : tableSlot σ' dirs (pteKey i va) = some pg := by
    rw [tableSlot, hspaces.loadPage_pte hinserted hva, if_pos rfl, entryPage_loadEntry hlt]
  have hothers : ∀ vb < utop, pgnum vb ≠ pgnum va →
      tableSlot σ' dirs (pteKey i vb) = tableSlot σ dirs (pteKey i vb) := fun vb hvb hne => by
    rw [tableSlot, hspaces.loadPage_pte hinserted hvb, if_neg hne, tableSlot]
  have hpop' : Populated m pool base dirs i dir σ₀ free₀ (insert (pgnum va) touched) σ' :=
    { dir_eq := hpop.dir_eq
      spaces := by
        refine ⟨_, free', hloaded, fun page hpage => ?_, ?_⟩
        · rcases hinserted.free_new page hpage with hmem | hslot
          · exact hsub page (List.mem_cons_of_mem _ hmem)
          · rw [hspaces.paged.tableSlot_takePage false _ (pteKey_mem hva i),
              hpop.absent va hva hnew] at hslot
            cases hslot
        · rw [pagesNeeded_insert hnew]
          rw [List.length_cons] at hlength
          split
          case isTrue hmem =>
            have hcount := hspaces.loadPage_free_of_table hloaded hinserted (hindex_iff.mp hmem)
            omega
          case isFalse =>
            have hcount := hspaces.loadPage_free hloaded hinserted
            omega
      kept := by
        refine hpop.kept.trans ((hspaces.loadPage_kept hpop.dir_eq hva hinsert).mono ?_)
        rintro page index (hdir | htable | hfree)
        · exact Or.inl hdir
        · by_cases hmem : pdx va ∈ touched.image tableOf
          · obtain ⟨table, hfree, htableLt, hword⟩ := hpop.table va hva hmem
            rw [tableSlot, hword, entryPage_tableEntry htableLt] at htable
            cases htable
            exact Or.inr hfree
          · rw [hpop.no_table va hva hmem] at htable
            cases htable
        · exact Or.inr (hsub page hfree)
      entry := fun vb hvb hmem => by
        rw [hspaces.loadPage_pte hinserted hvb]
        split
        case isTrue => exact ⟨pg, hsub pg List.mem_cons_self, hlt, rfl⟩
        case isFalse hne => exact hpop.entry vb hvb (Finset.mem_of_mem_insert_of_ne hmem hne)
      absent := fun vb hvb hmem => by
        rw [Finset.mem_insert, not_or] at hmem
        rw [hothers vb hvb hmem.1, hpop.absent vb hvb hmem.2]
      apart := fun vb hvb vc hvc page hb hc => by
        by_cases hbSame : pgnum vb = pgnum va
        · by_cases hcSame : pgnum vc = pgnum va
          · rw [hbSame, hcSame]
          · rw [hothers vc hvc hcSame] at hc
            rw [pteKey_congr i hbSame, hmapped] at hb
            cases hb
            exact absurd hc (hunref _ (pteKey_mem hvc i))
        · rw [hothers vb hvb hbSame] at hb
          by_cases hcSame : pgnum vc = pgnum va
          · rw [pteKey_congr i hcSame, hmapped] at hc
            cases hc
            exact absurd hb (hunref _ (pteKey_mem hvb i))
          · rw [hothers vc hvc hcSame] at hc
            exact hpop.apart vb hvb vc hvc page hb hc
      table := fun vb hvb hmem => by
        rcases hspaces.loadPage_pde hinserted (pdx_lt_userPdes hvb) with
          hsame | ⟨-, table, hfree, hword⟩
        · by_cases hold : pdx vb ∈ touched.image tableOf
          · rw [hsame]
            exact hpop.table vb hvb hold
          · rw [Finset.image_insert, Finset.mem_insert, tableOf_pgnum] at hmem
            have hindex : pdx vb = pdx va := hmem.resolve_right hold
            have hnone := hpop.no_table vb hvb hold
            obtain ⟨table, htable⟩ := table_of_pte hmapped
            rw [← hindex, tableSlot, hsame, ← tableSlot, hnone] at htable
            cases htable
        · have hmem' := List.mem_cons_of_mem pg hfree
          exact ⟨table, hsub table hmem', hspaces.free_lt hmem', hword⟩
      no_table := fun vb hvb hmem => by
        rw [Finset.image_insert, Finset.mem_insert, tableOf_pgnum, not_or] at hmem
        rcases hspaces.loadPage_pde hinserted (pdx_lt_userPdes hvb) with hsame | ⟨hindex, -⟩
        · rw [tableSlot, hsame, ← tableSlot, hpop.no_table vb hvb hmem.2]
        · exact absurd hindex hmem.1 }
  refine ⟨pg, σ', pageAlloc_cons hspaces.paged false, hinsert, hpop', fun vb hvb hne => ?_⟩
  rw [hpop'.userByte_eq hvb, hpop.userByte_eq hvb, hothers vb hvb hne]
  cases hslot : tableSlot σ dirs (pteKey i vb) with
  | none => rfl
  | some page =>
    obtain ⟨-, hfree, hnot⟩ := hspaces.mapped hvb hslot
    rw [Option.map_some, Option.map_some, Phys.loadByte, Phys.loadByte,
      hspaces.loadPage_mem hinserted hfree hnot]

/-- The loop of `region_alloc`. -/
theorem regionPages (hpop : Populated m pool base dirs i dir σ₀ free₀ touched σ) (va : Word)
    {count : ℕ} (hrange : va.toNat + count * 4096 ≤ utop.toNat)
    (hnew : Disjoint touched (Finset.Ico (pgnum va) (pgnum va + count)))
    (hroom : pagesNeeded (touched ∪ Finset.Ico (pgnum va) (pgnum va + count)) ≤ free₀.length) :
    ∃ σ', Jos.regionPages σ dir count va = some σ' ∧
      Populated m pool base dirs i dir σ₀ free₀
        (touched ∪ Finset.Ico (pgnum va) (pgnum va + count)) σ' ∧
      ∀ vb < utop, pgnum vb ∉ Finset.Ico (pgnum va) (pgnum va + count) →
        userByte σ' dir vb = userByte σ dir vb := by
  induction count generalizing σ va touched with
  | zero =>
    rw [Nat.add_zero, Finset.Ico_self, Finset.union_empty]
    exact ⟨σ, rfl, hpop, fun _ _ _ => rfl⟩
  | succ count ih =>
    have htop : utop.toNat = 4005560320 := by decide
    have hva : va < utop := by
      rw [BitVec.lt_def]
      omega
    have hnextVa : (va + pgSize).toNat = va.toNat + 4096 := by
      rw [BitVec.toNat_add, show pgSize.toNat = 4096 by decide]
      omega
    have hnext : pgnum (va + pgSize) = pgnum va + 1 := by
      rw [pgnum_eq, pgnum_eq, hnextVa]
      omega
    have hpages : Finset.Ico (pgnum va) (pgnum va + (count + 1)) =
        insert (pgnum va) (Finset.Ico (pgnum va + 1) (pgnum va + 1 + count)) := by
      rw [Nat.add_assoc, Nat.add_comm 1 count, Finset.insert_Ico_add_one_left_eq_Ico (by omega)]
    rw [hpages, Finset.disjoint_insert_right] at hnew
    rw [hpages, Finset.union_insert, ← Finset.insert_union] at hroom
    obtain ⟨pg, loaded, halloc, hinsert, hloaded, hbytes⟩ := hpop.loadPage hva hnew.1
      ((pagesNeeded_mono Finset.subset_union_left).trans hroom)
    have hrest : Disjoint (insert (pgnum va) touched)
        (Finset.Ico (pgnum (va + pgSize)) (pgnum (va + pgSize) + count)) := by
      rw [hnext, Finset.disjoint_insert_left, Finset.mem_Ico]
      exact ⟨by omega, hnew.2⟩
    obtain ⟨σ', hrun, hpop', hkeep⟩ := ih hloaded (va + pgSize) (by omega) hrest
      (by rwa [hnext])
    rw [hnext] at hpop' hkeep
    refine ⟨σ', ?_, ?_, fun vb hvb hout => ?_⟩
    · rw [Jos.regionPages, halloc]
      simp only [hinsert, Option.bind_eq_bind, Option.bind_some]
      exact hrun
    · rwa [hpages, Finset.union_insert, ← Finset.insert_union]
    · rw [hpages, Finset.mem_insert, not_or] at hout
      rw [hkeep vb hvb hout.2, hbytes vb hvb hout.1]

end Populated

/-- The virtual pages that the `len` bytes from `va` on touch. -/
def pagesOf (va len : Word) : Finset ℕ :=
  (Finset.range len.toNat).image fun k => (va.toNat + k) / 4096

theorem pagesOf_eq {va len : Word} (hpos : 0 < len.toNat) : pagesOf va len =
    Finset.Ico (va.toNat / 4096) ((va.toNat + len.toNat + 4095) / 4096) := by
  ext vpn
  simp only [pagesOf, Finset.mem_image, Finset.mem_range, Finset.mem_Ico]
  constructor
  · rintro ⟨k, hk, rfl⟩
    omega
  · intro hvpn
    by_cases hfirst : vpn * 4096 ≤ va.toNat
    · exact ⟨0, hpos, by omega⟩
    · exact ⟨vpn * 4096 - va.toNat, by omega, by omega⟩

namespace Populated

variable {m : Machine} {pool : Set ℕ} {base : Phys} {dirs : ι → Option ℕ} {i : ι} {dir : ℕ}
variable {σ₀ σ σ' : Phys} {free₀ : List ℕ} {touched : Finset ℕ} {va : Word}

theorem regionAlloc (hpop : Populated m pool base dirs i dir σ₀ free₀ touched σ) (va len : Word)
    (hpos : 0 < len.toNat) (hrange : va.toNat + len.toNat ≤ utop.toNat)
    (hnew : Disjoint touched (pagesOf va len))
    (hroom : pagesNeeded (touched ∪ pagesOf va len) ≤ free₀.length) :
    ∃ σ', Jos.regionAlloc σ dir va len = some σ' ∧
      Populated m pool base dirs i dir σ₀ free₀ (touched ∪ pagesOf va len) σ' ∧
      ∀ vb < utop, pgnum vb ∉ pagesOf va len → userByte σ' dir vb = userByte σ dir vb := by
  have htop : utop.toNat = 4005560320 := by decide
  have hfirst := toNat_roundDown va
  have hlast := toNat_roundUp_end va len
  have hlt : roundDown va < roundUp (va + len) := by
    rw [BitVec.lt_def, hfirst, hlast]
    omega
  have hcount : ((roundUp (va + len) - roundDown va) / pgSize).toNat =
      (va.toNat + len.toNat + 4095) / 4096 - va.toNat / 4096 := by
    rw [BitVec.toNat_udiv, BitVec.toNat_sub_of_le (BitVec.le_def.mpr hlt.le), hfirst, hlast,
      show pgSize.toNat = 4096 by decide]
    omega
  have hpages : pagesOf va len = Finset.Ico (pgnum (roundDown va))
      (pgnum (roundDown va) + ((va.toNat + len.toNat + 4095) / 4096 - va.toNat / 4096)) := by
    rw [pagesOf_eq hpos, pgnum_eq, hfirst, Nat.mul_div_cancel _ (by norm_num),
      Nat.add_sub_cancel' (by omega)]
  rw [hpages] at hnew hroom ⊢
  rw [Jos.regionAlloc, if_pos hlt, hcount]
  exact hpop.regionPages _ (by omega) hnew hroom

/-! ## Stores -/

/-- One byte stored. -/
theorem storeByte (hpop : Populated m pool base dirs i dir σ₀ free₀ touched σ) (hva : va < utop)
    {page : ℕ} (hslot : tableSlot σ dirs (pteKey i va) = some page) (byte : BitVec 8) :
    Populated m pool base dirs i dir σ₀ free₀ touched (σ.storeByte page (pgoff va) byte) ∧
      ∀ vb < utop, userByte (σ.storeByte page (pgoff va) byte) dir vb =
        if vb = va then some byte else userByte σ dir vb := by
  obtain ⟨given, free, hspaces, hsub, hlength⟩ := hpop.spaces
  obtain ⟨hpage, hfree, hnot⟩ := hspaces.mapped hva hslot
  have hother : ∀ other, other ≠ page →
      (σ.storeByte page (pgoff va) byte).mem other = σ.mem other :=
    fun other hne => mem_store_of_ne σ page _ _ hne
  have hview := wordAt_of_notTable hnot hother
  have hslots : ∀ vb < utop, tableSlot (σ.storeByte page (pgoff va) byte) dirs (pteKey i vb) =
      tableSlot σ dirs (pteKey i vb) := fun vb hvb => by
    rw [tableSlot, hview _ (pteKey_mem hvb i), tableSlot]
  have hpdes : ∀ vb < utop, wordAt (σ.storeByte page (pgoff va) byte) dirs (.pde i (pdx vb)) =
      wordAt σ dirs (.pde i (pdx vb)) := fun vb hvb =>
    hview _ (pde_mem_userKeys.mpr (pdx_lt_userPdes hvb))
  have hold : page ∈ free₀ := by
    by_cases hmem : pgnum va ∈ touched
    · obtain ⟨other, hother, hslot'⟩ := hpop.slot hva hmem
      rw [hslot] at hslot'
      cases hslot'
      exact hother
    · rw [hpop.absent va hva hmem] at hslot
      cases hslot
  have hpop' : Populated m pool base dirs i dir σ₀ free₀ touched
      (σ.storeByte page (pgoff va) byte) :=
    { dir_eq := hpop.dir_eq
      spaces := ⟨given, free, hspaces.storeByte hpage hnot _ byte, hsub, hlength⟩
      kept := by
        refine hpop.kept.trans ((Kept.store σ page _ _).mono ?_)
        rintro other index ⟨rfl, -⟩
        exact Or.inr hold
      entry := fun vb hvb hmem => by
        rw [hview _ (pteKey_mem hvb i)]
        exact hpop.entry vb hvb hmem
      absent := fun vb hvb hmem => (hslots vb hvb).trans (hpop.absent vb hvb hmem)
      apart := fun vb hvb vc hvc other hb hc => by
        rw [hslots vb hvb] at hb
        rw [hslots vc hvc] at hc
        exact hpop.apart vb hvb vc hvc other hb hc
      table := fun vb hvb hmem => by
        rw [hpdes vb hvb]
        exact hpop.table vb hvb hmem
      no_table := fun vb hvb hmem => by
        rw [tableSlot, hpdes vb hvb]
        exact hpop.no_table vb hvb hmem }
  refine ⟨hpop', fun vb hvb => ?_⟩
  rw [hpop'.userByte_eq hvb, hpop.userByte_eq hvb, hslots vb hvb]
  by_cases hsame : vb = va
  · rw [if_pos hsame, hsame, hslot, Option.map_some, loadByte_storeByte, update_self]
  · rw [if_neg hsame]
    cases hslotb : tableSlot σ dirs (pteKey i vb) with
    | none => rfl
    | some other =>
      rw [Option.map_some, Option.map_some]
      by_cases hpages : other = page
      · -- in one page, at another offset
        subst hpages
        have hvpn := hpop.apart vb hvb va hva other hslotb hslot
        have hoff : pgoff vb ≠ pgoff va := by
          rw [pgnum_eq, pgnum_eq] at hvpn
          rw [pgoff_eq, pgoff_eq]
          intro hoff
          exact hsame (BitVec.eq_of_toNat_eq (by omega))
        rw [loadByte_storeByte, update_of_ne hoff]
      · rw [loadByte_storeByte_of_ne σ hpages]

/-- Consecutive bytes stored in pages that are mapped. -/
theorem kernelStores (hpop : Populated m pool base dirs i dir σ₀ free₀ touched σ) (va : Word)
    (bytes : List (BitVec 8)) (hrange : va.toNat + bytes.length ≤ utop.toNat)
    (hmapped : ∀ k < bytes.length, (va.toNat + k) / 4096 ∈ touched) :
    ∃ σ', Jos.kernelStores σ dir va bytes = some σ' ∧
      Populated m pool base dirs i dir σ₀ free₀ touched σ' ∧
      ∀ vb < utop, userByte σ' dir vb = (bytes[(vb - va).toNat]?).or (userByte σ dir vb) := by
  induction bytes generalizing σ va with
  | nil => exact ⟨σ, rfl, hpop, fun vb _ => by rw [List.getElem?_nil, Option.none_or]⟩
  | cons byte bytes ih =>
    have htop : utop.toNat = 4005560320 := by decide
    rw [List.length_cons] at hrange hmapped
    have hva : va < utop := by
      rw [BitVec.lt_def]
      omega
    have hnext : (va + 1).toNat = va.toNat + 1 := by
      rw [BitVec.toNat_add, show (1 : Word).toNat = 1 by decide]
      omega
    have hmem : pgnum va ∈ touched := by
      rw [pgnum_eq]
      exact hmapped 0 (Nat.succ_pos _)
    obtain ⟨page, -, hslot⟩ := hpop.slot hva hmem
    have hreach : mmuPage σ dir va (pteP ||| pteW) = some page :=
      mmuPage_weaken (by decide) ((hpop.mmuPage_eq hva).trans hslot)
    obtain ⟨hstored, hbyte⟩ := hpop.storeByte hva hslot byte
    obtain ⟨σ', hrun, hpop', hbytes⟩ := ih hstored (va + 1) (by omega) fun k hk => by
      rw [hnext, Nat.add_assoc, Nat.add_comm 1 k]
      exact hmapped (k + 1) (by omega)
    refine ⟨σ', ?_, hpop', fun vb hvb => ?_⟩
    · rw [Jos.kernelStores, kernelStore, hreach]
      exact hrun
    · rw [hbytes vb hvb, hbyte vb hvb]
      by_cases hsame : vb = va
      · have hend : bytes.length ≤ (vb - (va + 1)).toNat := by
          rw [hsame]
          bv_omega
        rw [List.getElem?_eq_none hend, if_pos hsame, hsame, BitVec.sub_self]
        rfl
      · have hdist : (vb - va).toNat = (vb - (va + 1)).toNat + 1 := by bv_omega
        rw [if_neg hsame, hdist, List.getElem?_cons_succ]

end Populated

end OsLabs.Jos
