import OsLabs.Jos.AddressSpaces
import OsLabs.Jos.Effects
import OsLabs.Jos.Release

/-!
# Creating and destroying an address space

`env_setup_vm` adds a directory to the family, `env_free` unmaps everything
below `UTOP` and takes the directory away again.
-/

namespace OsLabs.Jos

open Function
open OsLabs.IntrusiveList
open OsLabs.RefLedger

variable {ι : Type*} [Fintype ι] [DecidableEq ι]

/-- A space whose directory is empty below `UTOP` has no entries. -/
theorem tableSlot_of_empty (σ : Phys) {dirs : ι → Option ℕ} {i : ι} {dir : ℕ}
    (hdir : dirs i = some dir) (hempty : ∀ d < userPdes, entryPage (σ.mem dir d) = none)
    {key : TableKey ι} (hkey : key ∈ userKeys ι) (hspace : key.space = i) :
    tableSlot σ dirs key = none := by
  have hpde : ∀ d < userPdes, tableSlot σ dirs (.pde i d) = none := fun d hd => by
    rw [tableSlot, wordAt_pde hdir, hempty d hd]
  cases key with
  | pde j d =>
      cases hspace
      exact hpde d (pde_mem_userKeys.mp hkey)
  | pte j d t =>
      cases hspace
      have habsent : tableSlot σ dirs (.pde j d) = none := hpde d (pte_mem_userKeys.mp hkey).1
      rw [tableSlot, wordAt_pte_none habsent, entryPage_zero]

/-- One directory more or less, counted as a reference. -/
theorem owned_update (dirs : ι → Option ℕ) (i : ι) (dir : Option ℕ) (leak : ℕ → ℕ) (page : ℕ) :
    owned (update dirs i dir) leak page + (if dirs i = some page then 1 else 0) =
      owned dirs leak page + (if dir = some page then 1 else 0) := by
  have hrefs := refs_update dirs (Finset.mem_univ i) dir page
  unfold owned
  omega

namespace Spaces

variable {m : Machine} {pool : Set ℕ} {base : Phys} {Good : Word → Prop}
variable {dirs : ι → Option ℕ} {given : ι → Set ℕ} {σ : Phys} {free : List ℕ}
variable {leak : ℕ → ℕ}

/-! ## `env_setup_vm` -/

section Setup

variable {p : ℕ}

theorem pageAlloc_eq (hspaces : Spaces m pool base Good dirs given σ (p :: free) leak) :
    (pageAlloc σ true).2 = takePage σ p true := by
  rw [pageAlloc_cons hspaces.paged]

theorem mem_setupDir_of_ne (hspaces : Spaces m pool base Good dirs given σ (p :: free) leak)
    (kern : ℕ) {page : ℕ} (hne : page ≠ p) : (setupDir σ kern p).mem page = σ.mem page := by
  rw [setupDir, mem_store_of_ne _ _ _ _ hne, hspaces.pageAlloc_eq]
  exact (update_of_ne hne _ _).trans (mem_takePage_of_ne p true hne)

/-- The new directory is the kernel's, up to the entry at `UVPT`. -/
theorem mem_setupDir_self (hspaces : Spaces m pool base Good dirs given σ (p :: free) leak)
    {kern : ℕ} (hkern : kern ≠ p) (d : ℕ) :
    (d = uvptIndex → (setupDir σ kern p).mem p d = page2pa p ||| pteP ||| pteU) ∧
      (d ≠ uvptIndex → SameEntry ((setupDir σ kern p).mem p d) (σ.mem kern d)) := by
  rw [setupDir, mem_store_self, hspaces.pageAlloc_eq]
  refine ⟨fun hd => by rw [hd]; exact update_self _ _ _, fun hd => ?_⟩
  have hne : d ≠ pdx uvpt := hd
  rw [update_of_ne hne]
  have hcopy : (((takePage σ p true).incRef p).copyPage p kern).mem p d =
      ((takePage σ p true).incRef p).load kern d := by
    simp [Phys.copyPage]
  have hload := sameEntry_load ((takePage σ p true).incRef p) kern d
  rw [mem_incRef, mem_takePage_of_ne p true hkern] at hload
  rw [hcopy]
  exact hload

/-- Other spaces keep their entries. -/
theorem wordAt_setupDir (hspaces : Spaces m pool base Good dirs given σ (p :: free) leak)
    (kern : ℕ) {i : ι} {key : TableKey ι} (hkey : key ∈ userKeys ι) (hspace : key.space ≠ i) :
    wordAt (Jos.setupDir σ kern p) (update dirs i (some p)) key = wordAt σ dirs key := by
  have hnot := hspaces.paged.free_notTable (show p ∈ p :: free from List.mem_cons_self)
  rw [wordAt_update_dirs _ _ _ hspace, wordAt_of_notTable hnot
    (fun page hne => hspaces.mem_setupDir_of_ne kern hne) key hkey]

/-- The new space is empty. -/
theorem setupDir_empty (hspaces : Spaces m pool base Good dirs given σ (p :: free) leak)
    (himage : KernelImage m pool base) {d : ℕ} (hd : d < userPdes) :
    entryPage ((Jos.setupDir σ m.kernPgdir p).mem p d) = none := by
  have hpool := hspaces.paged.balanced.free_mem p List.mem_cons_self
  have hkern : m.kernPgdir ≠ p := fun hsame => himage.kern_not_pool (hsame ▸ hpool)
  have hne : d ≠ uvptIndex := by
    rw [userPdes_eq] at hd
    rw [uvptIndex_eq]
    omega
  rw [((hspaces.mem_setupDir_self hkern d).2 hne).entryPage_eq,
    hspaces.mem_kept m.kernPgdir himage.kern_not_pool, himage.user_empty d hd]

theorem tableSlot_setupDir (hspaces : Spaces m pool base Good dirs given σ (p :: free) leak)
    (himage : KernelImage m pool base) {i : ι} (hnone : dirs i = none) {key : TableKey ι}
    (hkey : key ∈ userKeys ι) :
    tableSlot (Jos.setupDir σ m.kernPgdir p) (update dirs i (some p)) key =
      tableSlot σ dirs key := by
  by_cases hspace : key.space = i
  · rw [tableSlot_of_empty _ (update_self i (some p) dirs)
      (fun d hd => hspaces.setupDir_empty himage hd) hkey hspace,
      tableSlot_of_no_dir σ (by rw [hspace, hnone])]
  · rw [tableSlot, hspaces.wordAt_setupDir m.kernPgdir hkey hspace, tableSlot]

/-- `env_setup_vm` for a space without a directory. -/
theorem setupDir (hspaces : Spaces m pool base Good dirs given σ (p :: free) leak)
    (himage : KernelImage m pool base) {i : ι} (hnone : dirs i = none)
    (hroom : σ.ref p ≠ 0xFFFF) :
    Spaces m pool base Good (update dirs i (some p)) (update given i ∅)
      (Jos.setupDir σ m.kernPgdir p) free leak := by
  have hpool := hspaces.paged.balanced.free_mem p List.mem_cons_self
  have hnot := hspaces.paged.free_notTable (show p ∈ p :: free from List.mem_cons_self)
  have hfree := (List.nodup_cons.mp hspaces.paged.balanced.free_nodup).1
  have hkern : m.kernPgdir ≠ p := fun hsame => himage.kern_not_pool (hsame ▸ hpool)
  have hkernMem := hspaces.mem_kept m.kernPgdir himage.kern_not_pool
  have hother : ∀ page, page ≠ p → (Jos.setupDir σ m.kernPgdir p).mem page = σ.mem page :=
    fun page hne => hspaces.mem_setupDir_of_ne m.kernPgdir hne
  have hself := hspaces.mem_setupDir_self hkern
  have hslots : ∀ key ∈ userKeys ι,
      tableSlot (Jos.setupDir σ m.kernPgdir p) (update dirs i (some p)) key =
        tableSlot σ dirs key := fun key hkey => hspaces.tableSlot_setupDir himage hnone hkey
  have howned : owned (update dirs i (some p)) leak =
      fun page => owned dirs leak page + if page = p then 1 else 0 := by
    funext page
    have hupdate := owned_update dirs i (some p) leak page
    rw [hnone, if_neg (by simp)] at hupdate
    simpa [eq_comm] using hupdate
  have hcounted := hspaces.paged.takenCounted true
  have hnewDir : ∀ e dir, update dirs i (some p) e = some dir →
      e = i ∧ dir = p ∨ e ≠ i ∧ dirs e = some dir ∧ dir ≠ p := fun e dir hdir => by
    by_cases he : e = i
    · rw [he, update_self] at hdir
      exact Or.inl ⟨he, (Option.some.inj hdir).symm⟩
    · rw [update_of_ne he] at hdir
      exact Or.inr ⟨he, hdir, fun hsame => hnot.1 e (hsame ▸ hdir)⟩
  have hunref := refs_eq_zero_iff.mp (hspaces.paged.balanced.free_unref p List.mem_cons_self)
  have hpages : (Jos.setupDir σ m.kernPgdir p).link = ((takePage σ p true).incRef p).link ∧
      (Jos.setupDir σ m.kernPgdir p).ref = ((takePage σ p true).incRef p).ref ∧
      (Jos.setupDir σ m.kernPgdir p).pageFreeList = ((takePage σ p true).incRef p).pageFreeList ∧
      (Jos.setupDir σ m.kernPgdir p).npages = ((takePage σ p true).incRef p).npages := by
    rw [Jos.setupDir, hspaces.pageAlloc_eq]
    exact ⟨rfl, rfl, rfl, rfl⟩
  exact
    { paged :=
        { threads := by
            rw [hpages.1, hpages.2.2.1]
            exact hcounted.threads
          balanced := by
            rw [hpages.2.1, howned]
            refine hcounted.balanced.congr_slot fun key hkey => ?_
            rw [hslots key hkey, tableSlot_congr_mem (mem_incRef _ _),
              hspaces.paged.tableSlot_takePage true key hkey]
          exclusive :=
            { dir_inj := fun j k dir hj hk => by
                rcases hnewDir j dir hj with ⟨rfl, rfl⟩ | ⟨-, hj', hne⟩
                · rcases hnewDir k dir hk with ⟨rfl, -⟩ | ⟨-, -, hne⟩
                  · rfl
                  · exact absurd rfl hne
                · rcases hnewDir k dir hk with ⟨-, rfl⟩ | ⟨-, hk', -⟩
                  · exact absurd rfl hne
                  · exact hspaces.paged.exclusive.dir_inj j k dir hj' hk'
              dir_unref := fun j dir hj key hkey hslot => by
                rw [hslots key hkey] at hslot
                rcases hnewDir j dir hj with ⟨-, rfl⟩ | ⟨-, hj', -⟩
                · exact hunref key hkey hslot
                · exact hspaces.paged.exclusive.dir_unref j dir hj' key hkey hslot
              table_unique := fun j d table hd htable key hkey hslot => by
                rw [hslots _ (pde_mem_userKeys.mpr hd)] at htable
                rw [hslots key hkey] at hslot
                exact hspaces.paged.exclusive.table_unique j d table hd htable key hkey hslot }
          dir_busy := fun j dir hj => by
            refine ⟨?_, by simp⟩
            rcases hnewDir j dir hj with ⟨-, rfl⟩ | ⟨-, hj', -⟩
            · exact hfree
            · exact fun hmem =>
                (hspaces.paged.dir_busy j dir hj').1 (List.mem_cons_of_mem _ hmem)
          pool_lt := by
            rw [hpages.2.2.2]
            exact hcounted.pool_lt
          npages_le := by
            rw [hpages.2.2.2]
            exact hcounted.npages_le }
      fits := fun page hpage => by
        have hfits := hspaces.fits page hpage
        unfold counted at hfits ⊢
        rw [refs_congr hslots, howned]
        dsimp only
        by_cases hsame : page = p
        · subst hsame
          have hlt := hspaces.counted_lt hpage hroom
          unfold counted at hlt
          rw [if_pos rfl]
          omega
        · rw [if_neg hsame]
          omega
      dir_pool := fun j dir hj => by
        rcases hnewDir j dir hj with ⟨-, rfl⟩ | ⟨-, hj', -⟩
        · exact hpool
        · exact hspaces.dir_pool j dir hj'
      npages := by
        rw [hpages.2.2.2, npages_incRef, npages_takePage, hspaces.npages]
      mem_kept := fun page hpage => by
        rw [hother page fun hsame => hpage (hsame ▸ hpool), hspaces.mem_kept page hpage]
      ref_kept := fun page hpage => by
        have hne : page ≠ p := fun hsame => hpage (hsame ▸ hpool)
        rw [hpages.2.1, ref_incRef, update_of_ne hne, ref_takePage, hspaces.ref_kept page hpage]
      kernel_part := fun j dir hj => by
        rcases hnewDir j dir hj with ⟨-, rfl⟩ | ⟨-, hj', hne⟩
        · refine ⟨(hself _).1 rfl, fun d hlow hd hv => ?_⟩
          rw [← hkernMem]
          exact (hself d).2 hv
        · obtain ⟨huvpt, hcopied⟩ := hspaces.kernel_part j dir hj'
          rw [← hother dir hne] at huvpt
          exact ⟨huvpt, fun d hlow hd hv => by
            rw [hother dir hne]
            exact hcopied d hlow hd hv⟩
      user_ptes := fun e d t page hd ht hslot => by
        have hkey : TableKey.pte e d t ∈ userKeys ι := pte_mem_userKeys.mpr ⟨hd, ht⟩
        by_cases he : e = i
        · rw [tableSlot_of_empty _ (update_self i (some p) dirs)
            (fun d hd => hspaces.setupDir_empty himage hd) hkey he] at hslot
          cases hslot
        · rw [hslots _ hkey] at hslot
          rw [hspaces.wordAt_setupDir m.kernPgdir hkey he, update_of_ne he]
          exact hspaces.user_ptes e d t page hd ht hslot }

end Setup

/-! ## `env_free` -/

section Free

variable {i : ι} {dir d pt : ℕ}

/-- Taking entries away. -/
theorem of_gone (hspaces : Spaces m pool base Good dirs given σ free leak) {σ' : Phys}
    {free' : List ℕ} {gone : TableKey ι → Prop} (hcleared : EntriesGone pool dirs gone σ σ')
    (hpaged : Paged pool dirs σ' free' none (owned dirs leak)) :
    Spaces m pool base Good dirs given σ' free' leak := by
  refine hspaces.of_frame ⟨hcleared.npages, fun page _ => hcleared.mem_other page,
    hcleared.dir_high, hcleared.ref_other⟩ hpaged (hspaces.fits_of_le fun key hkey page hslot =>
      (hcleared.of_slot hkey hslot).2) fun e d t page hd ht hslot => ?_
  have hkey : TableKey.pte e d t ∈ userKeys ι := pte_mem_userKeys.mpr ⟨hd, ht⟩
  obtain ⟨hnot, hold⟩ := hcleared.of_slot hkey hslot
  rw [hcleared.words _ hkey hnot]
  exact hspaces.user_ptes e d t page hd ht hold

/-- The first `count` iterations of the loop of `env_free`. -/
theorem freeTables (hspaces : Spaces m pool base Good dirs given σ free leak)
    (hdir : dirs i = some dir) {count : ℕ} (hcount : count ≤ userPdes) :
    ∃ σ' free', Jos.freeTables σ dir count = some σ' ∧
      Spaces m pool base Good dirs given σ' free' leak ∧
      (∀ key ∈ userKeys ι, key.space = i → key.index < count → tableSlot σ' dirs key = none) ∧
      ∀ key ∈ userKeys ι, key.space ≠ i ∨ count ≤ key.index →
        tableSlot σ' dirs key = tableSlot σ dirs key := by
  obtain ⟨σ', free', hrun, hpaged, hcleared⟩ :=
    hspaces.paged.freeTables hspaces.fits hdir hcount
  refine ⟨σ', free', hrun, hspaces.of_gone hcleared hpaged,
    fun key hkey hspace hindex => hcleared.slots key hkey ⟨hspace, hindex⟩,
    fun key hkey hother => hcleared.slot hkey fun hgone => ?_⟩
  rcases hother with hspace | hindex
  · exact hspace hgone.1
  · exact absurd hgone.2 (Nat.not_lt.mpr hindex)

/-- Giving up an empty directory. -/
theorem dropDir (hspaces : Spaces m pool base Good dirs given σ free leak)
    (hdir : dirs i = some dir)
    (hempty : ∀ key ∈ userKeys ι, key.space = i → tableSlot σ dirs key = none) :
    ∃ free', Spaces m pool base Good (update dirs i none) given (pageDecref σ dir) free' leak := by
  have hpool := hspaces.dir_pool i dir hdir
  have hslots := tableSlot_dropDir dir σ hempty
  have howned : ∀ page, owned (update dirs i none) leak page + (if page = dir then 1 else 0) =
      owned dirs leak page := fun page => by
    have hupdate := owned_update dirs i none leak page
    rw [hdir, if_neg (by simp : ¬ (none : Option ℕ) = some page)] at hupdate
    simpa [eq_comm] using hupdate
  refine ⟨freeAfterDec σ dir free,
    { paged := hspaces.paged.dropDir hspaces.fits hdir hpool hempty howned
      fits := fun page hpage => by
        have hold := hspaces.fits page hpage
        unfold counted at hold ⊢
        rw [refs_congr hslots]
        have hsum := howned page
        omega
      dir_pool := fun j dire hj => hspaces.dir_pool j dire (dirs_of_drop hj).2
      npages := by rw [npages_pageDecref, hspaces.npages]
      mem_kept := fun page hpage => by rw [mem_pageDecref, hspaces.mem_kept page hpage]
      ref_kept := fun page hpage => by
        have hne : page ≠ dir := fun hsame => hpage (hsame ▸ hpool)
        rw [ref_pageDecref, update_of_ne hne, hspaces.ref_kept page hpage]
      kernel_part := fun j dire hj => by
        obtain ⟨huvpt, hcopied⟩ := hspaces.kernel_part j dire (dirs_of_drop hj).2
        exact ⟨by rw [mem_pageDecref, huvpt], fun d hlow hd hv => by
          rw [mem_pageDecref]
          exact hcopied d hlow hd hv⟩
      user_ptes := fun e d t page hd ht hslot => by
        have hkey : TableKey.pte e d t ∈ userKeys ι := pte_mem_userKeys.mpr ⟨hd, ht⟩
        have hspace : (TableKey.pte e d t).space ≠ i := fun hsame => by
          rw [hslots _ hkey, hempty _ hkey hsame] at hslot
          cases hslot
        rw [hslots _ hkey] at hslot
        rw [wordAt_update_dirs _ _ _ hspace, wordAt_congr_mem (mem_pageDecref σ dir)]
        exact hspaces.user_ptes e d t page hd ht hslot }⟩

/-- `env_free`, on the memory. -/
theorem destroyed (hspaces : Spaces m pool base Good dirs given σ free leak)
    (hdir : dirs i = some dir) :
    ∃ σ' free', Jos.freeTables σ dir userPdes = some σ' ∧ σ'.pa2page (page2pa dir) = some dir ∧
      Spaces m pool base Good (update dirs i none) given (pageDecref σ' dir) free' leak := by
  obtain ⟨σ', free', hrun, hspaces', hnone, -⟩ := hspaces.freeTables hdir (Nat.le_refl _)
  have hlt := hspaces'.paged.pool_lt dir (hspaces'.dir_pool i dir hdir)
  obtain ⟨free'', hdone⟩ := hspaces'.dropDir hdir fun key hkey hspace =>
    hnone key hkey hspace (by
      cases key with
      | pde j d => exact pde_mem_userKeys.mp hkey
      | pte j d t => exact (pte_mem_userKeys.mp hkey).1)
  refine ⟨σ', free'', hrun, ?_, hdone⟩
  rw [Phys.pa2page, pgnum_page2pa (lt_of_lt_of_le hlt hspaces'.paged.npages_le), if_pos hlt]

end Free

end Spaces

end OsLabs.Jos
