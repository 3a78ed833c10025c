import OsLabs.Jos.Scripts
import OsLabs.Jos.Memory

/-!
# The end of an environment

`env_free` gives back what the environment held and nothing else.  The theorem
assumes no more than that the counters are right and that page directories
and page tables are not shared.
-/

namespace OsLabs.Jos

open Function
open OsLabs.IntrusiveList
open OsLabs.RefLedger

section Accounts

variable {ι : Type*} [Fintype ι] [DecidableEq ι]

/-- The PTE, PDE and `env_pgdir` references to a page. -/
def pageRefs (σ : Phys) (dirs : ι → Option ℕ) (page : ℕ) : ℕ := counted σ dirs noLeak page

def TableKey.isPte : TableKey ι → Bool
  | .pde _ _ => false
  | .pte _ _ _ => true

/-- The PTEs of space `i` that reference a page. -/
def pteRefs (σ : Phys) (dirs : ι → Option ℕ) (i : ι) (page : ℕ) : ℕ :=
  refs ((userKeys ι).filter fun key => key.space = i ∧ key.isPte) (tableSlot σ dirs) page

/-- The counters of the managed pages are right, and the free list holds
unreferenced pages, each once. -/
structure Accounts (managed : Set ℕ) (dirs : ι → Option ℕ) (σ : Phys) (free : List ℕ) : Prop where
  threads : Threads σ.link σ.pageFreeList free
  nodup : free.Nodup
  free_managed : ∀ page ∈ free, page ∈ managed
  free_unref : ∀ page ∈ free, pageRefs σ dirs page = 0
  ref_managed : ∀ page, pageRefs σ dirs page ≠ 0 → page ∈ managed
  count : ∀ page ∈ managed, (σ.ref page).toNat = pageRefs σ dirs page
  in_memory : ∀ page ∈ managed, page < σ.npages
  npages_le : σ.npages ≤ 2 ^ 20

variable {managed : Set ℕ} {dirs : ι → Option ℕ} {σ : Phys} {free : List ℕ} {i : ι} {dir : ℕ}

theorem pageRefs_eq (σ : Phys) (dirs : ι → Option ℕ) (page : ℕ) : pageRefs σ dirs page =
    refs (userKeys ι) (tableSlot σ dirs) page + refs Finset.univ dirs page := rfl

/-- The pages that are free or referenced. -/
def inUse (dirs : ι → Option ℕ) (σ : Phys) (free : List ℕ) : Set ℕ :=
  {page | page ∈ free ∨ pageRefs σ dirs page ≠ 0}

theorem Accounts.paged (haccounts : Accounts managed dirs σ free) (hexcl : Exclusive σ dirs) :
    Paged (inUse dirs σ free) dirs σ free none (owned dirs noLeak) where
  threads := haccounts.threads
  balanced :=
    { free_nodup := haccounts.nodup
      free_mem := fun page hpage => Or.inl hpage
      slot_mem := fun key hkey page hslot => by
        have hpos := refs_pos hkey hslot
        refine Or.inr ?_
        rw [pageRefs_eq]
        omega
      count_eq := fun page hpage => by
        have hmanaged := hpage.elim (haccounts.free_managed page) (haccounts.ref_managed page)
        have hcount := haccounts.count page hmanaged
        rw [pageRefs, counted] at hcount
        rw [← hcount, BitVec.ofNat_toNat, BitVec.setWidth_eq]
      free_unref := fun page hpage => by
        have hunref := haccounts.free_unref page hpage
        rw [pageRefs_eq] at hunref
        omega
      not_lost := fun page hpage hnot => by
        have hrefs := hpage.resolve_left hnot
        exact Or.inr (Nat.pos_of_ne_zero hrefs)
      held_mem := by simp }
  exclusive := hexcl
  dir_busy := fun j dirj hdirj => by
    refine ⟨fun hfree => ?_, by simp⟩
    have hunref := haccounts.free_unref dirj hfree
    have hpos := refs_pos (Finset.mem_univ j) hdirj
    rw [pageRefs_eq] at hunref
    omega
  pool_lt := fun page hpage =>
    haccounts.in_memory page (hpage.elim (haccounts.free_managed page) (haccounts.ref_managed page))
  npages_le := haccounts.npages_le

/-- What `env_free` leaves of the memory, when it has freed space `i` with directory `dir`. -/
structure Freed (managed : Set ℕ) (dirs : ι → Option ℕ) (σ : Phys) (free : List ℕ) (i : ι)
    (dir : ℕ) (σ' : Phys) (free' : List ℕ) : Prop where
  accounts : Accounts managed (update dirs i none) σ' free'
  directory : dir ∈ free'
  page_tables : ∀ d table, d < userPdes → tableSlot σ dirs (.pde i d) = some table → table ∈ free'
  own_pages : ∀ page, 0 < pteRefs σ dirs i page → pteRefs σ dirs i page = pageRefs σ dirs page →
    page ∈ free'
  other_pages : ∀ page, page ≠ dir → (∀ d < userPdes, tableSlot σ dirs (.pde i d) ≠ some page) →
    ¬ (0 < pteRefs σ dirs i page ∧ pteRefs σ dirs i page = pageRefs σ dirs page) →
    (σ'.ref page).toNat + pteRefs σ dirs i page = (σ.ref page).toNat ∧
      (page ∈ free' ↔ page ∈ free)
  dirs_kept : ∀ j dirj, j ≠ i → dirs j = some dirj → σ'.mem dirj = σ.mem dirj
  entries_kept : ∀ key ∈ userKeys ι, key.space ≠ i →
    wordAt σ' (update dirs i none) key = wordAt σ dirs key

/-- References to a page from space `i`, as PTEs and as PDEs, and from the rest. -/
theorem pageRefs_split (σ : Phys) (dirs : ι → Option ℕ) (i : ι) (page : ℕ) :
    pageRefs σ dirs page = pteRefs σ dirs i page +
      refs ((userKeys ι).filter fun key => key.space = i ∧ ¬ key.isPte) (tableSlot σ dirs) page +
      refs ((userKeys ι).filter fun key => ¬ key.space = i) (tableSlot σ dirs) page +
      refs Finset.univ dirs page := by
  rw [pageRefs_eq, refs_split _ _ _ fun key : TableKey ι => key.space = i,
    refs_split ((userKeys ι).filter fun key => key.space = i) _ _ fun key => key.isPte,
    Finset.filter_filter, Finset.filter_filter, pteRefs]

/-- The references that are left when space `i` is gone. -/
theorem pageRefs_freed {σ' : Phys} (hdir : dirs i = some dir)
    (hgone : ∀ key ∈ userKeys ι, key.space = i → tableSlot σ' (update dirs i none) key = none)
    (hkept : ∀ key ∈ userKeys ι, key.space ≠ i →
      tableSlot σ' (update dirs i none) key = tableSlot σ dirs key) (page : ℕ) :
    pageRefs σ' (update dirs i none) page + (if page = dir then 1 else 0) =
      refs ((userKeys ι).filter fun key => ¬ key.space = i) (tableSlot σ dirs) page +
        refs Finset.univ dirs page := by
  have hnone : refs ((userKeys ι).filter fun key => key.space = i)
      (tableSlot σ' (update dirs i none)) page = 0 := refs_eq_zero_iff.mpr fun key hkey => by
    rw [Finset.mem_filter] at hkey
    rw [hgone key hkey.1 hkey.2]
    simp
  have hsame : refs ((userKeys ι).filter fun key => ¬ key.space = i)
      (tableSlot σ' (update dirs i none)) page =
      refs ((userKeys ι).filter fun key => ¬ key.space = i) (tableSlot σ dirs) page :=
    refs_congr fun key hkey => by
      rw [Finset.mem_filter] at hkey
      exact hkept key hkey.1 hkey.2
  have hdirs := refs_update dirs (Finset.mem_univ i) none page
  rw [hdir, if_neg (by simp : ¬ (none : Option ℕ) = some page)] at hdirs
  simp only [Option.some.injEq, eq_comm (a := dir)] at hdirs
  rw [pageRefs_eq, refs_split _ _ _ fun key : TableKey ι => key.space = i, hnone, hsame]
  omega

/-- The references of space `i` to page tables. -/
def pdeRefs (σ : Phys) (dirs : ι → Option ℕ) (i : ι) (page : ℕ) : ℕ :=
  refs ((userKeys ι).filter fun key => key.space = i ∧ ¬ key.isPte) (tableSlot σ dirs) page

/-- Every reference of space `i` is taken off once. -/
structure TakenOff (managed : Set ℕ) (dirs : ι → Option ℕ) (σ : Phys) (free : List ℕ) (i : ι)
    (dir : ℕ) (σ' : Phys) (free' : List ℕ) : Prop where
  threads : Threads σ'.link σ'.pageFreeList free'
  nodup : free'.Nodup
  npages : σ'.npages = σ.npages
  of_free : ∀ page ∈ free', page ∈ inUse dirs σ free
  sum : ∀ page, pageRefs σ' (update dirs i none) page + pteRefs σ dirs i page +
    pdeRefs σ dirs i page + (if page = dir then 1 else 0) = pageRefs σ dirs page
  count : ∀ page ∈ inUse dirs σ free,
    (σ'.ref page).toNat = pageRefs σ' (update dirs i none) page
  free_iff : ∀ page ∈ inUse dirs σ free,
    page ∈ free' ↔ pageRefs σ' (update dirs i none) page = 0
  ref_other : ∀ page, page ∉ inUse dirs σ free → σ'.ref page = σ.ref page
  dirs_kept : ∀ j dirj, j ≠ i → dirs j = some dirj → σ'.mem dirj = σ.mem dirj
  entries_kept : ∀ key ∈ userKeys ι, key.space ≠ i →
    wordAt σ' (update dirs i none) key = wordAt σ dirs key

theorem inUse_managed (haccounts : Accounts managed dirs σ free) {page : ℕ}
    (hpage : page ∈ inUse dirs σ free) : page ∈ managed :=
  hpage.elim (haccounts.free_managed page) (haccounts.ref_managed page)

theorem Accounts.countsFit (haccounts : Accounts managed dirs σ free) :
    CountsFit (inUse dirs σ free) dirs σ (owned dirs noLeak) := fun page hpage => by
  have hcount := haccounts.count page (inUse_managed haccounts hpage)
  have hlt := (σ.ref page).isLt
  rw [pageRefs, counted] at hcount
  omega

/-- What is free when everything that nobody references is. -/
theorem Paged.free_iff_unref {pool : Set ℕ} {dirs : ι → Option ℕ} {σ : Phys} {free : List ℕ}
    (hpaged : Paged pool dirs σ free none (owned dirs noLeak)) {page : ℕ} (hpage : page ∈ pool) :
    page ∈ free ↔ pageRefs σ dirs page = 0 := by
  constructor
  · intro hmem
    have hunref := hpaged.balanced.free_unref page hmem
    have hnotDir : refs Finset.univ dirs page = 0 :=
      refs_eq_zero_iff.mpr fun j _ hj => (hpaged.dir_busy j page hj).1 hmem
    rw [pageRefs_eq, hunref, hnotDir]
  · intro hzero
    by_contra hnot
    have hpos := (hpaged.balanced.not_lost page hpage hnot).resolve_left (by simp)
    exact absurd hzero (Nat.pos_iff_ne_zero.mp hpos)

theorem Accounts.takenOff (haccounts : Accounts managed dirs σ free) (hexcl : Exclusive σ dirs)
    (hdir : dirs i = some dir) :
    ∃ τ free', freeTables σ dir userPdes = some τ ∧ τ.pa2page (page2pa dir) = some dir ∧
      TakenOff managed dirs σ free i dir (pageDecref τ dir) free' := by
  have hpaged := haccounts.paged hexcl
  have hfit := haccounts.countsFit
  have hdirRefs := refs_pos (Finset.mem_univ i) hdir
  have hdirPool : dir ∈ inUse dirs σ free := by
    refine Or.inr ?_
    rw [pageRefs_eq]
    omega
  obtain ⟨τ, free₁, hrun, hpaged₁, hgone⟩ := hpaged.freeTables hfit hdir (Nat.le_refl _)
  have hlt : dir < τ.npages := hpaged₁.pool_lt dir hdirPool
  have howned : ∀ page, owned (update dirs i none) noLeak page + (if page = dir then 1 else 0) =
      owned dirs noLeak page := fun page => by
    have hupdate := owned_update dirs i none noLeak page
    rw [hdir, if_neg (by simp : ¬ (none : Option ℕ) = some page)] at hupdate
    simpa [eq_comm] using hupdate
  have hempty : ∀ key ∈ userKeys ι, key.space = i → tableSlot τ dirs key = none :=
    fun key hkey hspace => hgone.slots key hkey ⟨hspace, index_lt hkey⟩
  have hpaged₂ := hpaged₁.dropDir (hgone.countsFit hfit) hdir hdirPool hempty howned
  have hslots := tableSlot_dropDir dir τ hempty
  have hleft : ∀ page, pageRefs (pageDecref τ dir) (update dirs i none) page +
      (if page = dir then 1 else 0) =
      refs ((userKeys ι).filter fun key => ¬ key.space = i) (tableSlot σ dirs) page +
        refs Finset.univ dirs page :=
    pageRefs_freed hdir (fun key hkey hspace => (hslots key hkey).trans (hempty key hkey hspace))
      fun key hkey hspace => (hslots key hkey).trans (hgone.slot hkey fun h => hspace h.1)
  have hsum : ∀ page, pageRefs (pageDecref τ dir) (update dirs i none) page + pteRefs σ dirs i page +
      pdeRefs σ dirs i page + (if page = dir then 1 else 0) = pageRefs σ dirs page := fun page => by
    have hpage := hleft page
    rw [pageRefs_split σ dirs i page, pdeRefs]
    omega
  refine ⟨τ, freeAfterDec τ dir free₁, hrun, ?_,
    { threads := hpaged₂.threads
      nodup := hpaged₂.balanced.free_nodup
      npages := by rw [npages_pageDecref, hgone.npages]
      of_free := hpaged₂.balanced.free_mem
      sum := hsum
      count := fun page hpage => ?_
      free_iff := fun page hpage => hpaged₂.free_iff_unref hpage
      ref_other := fun page hpage => ?_
      dirs_kept := fun j dirj hne hdirj => ?_
      entries_kept := fun key hkey hspace => ?_ }⟩
  · rw [Phys.pa2page, pgnum_page2pa (lt_of_lt_of_le hlt hpaged₁.npages_le), if_pos hlt]
  · have hcount := hpaged₂.balanced.count_eq page hpage
    have hbound : pageRefs σ dirs page < 2 ^ 16 := hfit page hpage
    have hpages := hsum page
    have hvalue : refs (userKeys ι) (tableSlot (pageDecref τ dir) (update dirs i none)) page +
        owned (update dirs i none) noLeak page =
        pageRefs (pageDecref τ dir) (update dirs i none) page := rfl
    rw [hcount, hvalue, BitVec.toNat_ofNat, Nat.mod_eq_of_lt (by omega)]
  · have hne : page ≠ dir := fun hsame => hpage (hsame ▸ hdirPool)
    rw [ref_pageDecref, update_of_ne hne, hgone.ref_other page hpage]
  · rw [mem_pageDecref]
    funext d
    by_cases hd : d < userPdes
    · have hkey : TableKey.pde j d ∈ userKeys ι := pde_mem_userKeys.mpr hd
      have hword := hgone.words _ hkey fun h => hne h.1
      rwa [wordAt_pde hdirj, wordAt_pde hdirj] at hword
    · exact hgone.dir_high j dirj hdirj d (not_lt.mp hd)
  · rw [wordAt_update_dirs _ dirs none hspace, wordAt_congr_mem (mem_pageDecref τ dir)]
    exact hgone.words key hkey fun h => hspace h.1

variable {σ' : Phys} {free' : List ℕ}

theorem TakenOff.accounts (hoff : TakenOff managed dirs σ free i dir σ' free')
    (haccounts : Accounts managed dirs σ free) :
    Accounts managed (update dirs i none) σ' free' where
  threads := hoff.threads
  nodup := hoff.nodup
  free_managed := fun page hpage => inUse_managed haccounts (hoff.of_free page hpage)
  free_unref := fun page hpage => (hoff.free_iff page (hoff.of_free page hpage)).mp hpage
  ref_managed := fun page hrefs => haccounts.ref_managed page (by
    have hsum := hoff.sum page
    omega)
  count := fun page hpage => by
    by_cases huse : page ∈ inUse dirs σ free
    · exact hoff.count page huse
    · have hnot : ¬ pageRefs σ dirs page ≠ 0 := fun h => huse (Or.inr h)
      have hcount := haccounts.count page hpage
      have hsum := hoff.sum page
      rw [hoff.ref_other page huse]
      omega
  in_memory := fun page hpage => by
    rw [hoff.npages]
    exact haccounts.in_memory page hpage
  npages_le := by
    rw [hoff.npages]
    exact haccounts.npages_le

/-- A page all of whose references are gone is free. -/
theorem TakenOff.free_of_refs (hoff : TakenOff managed dirs σ free i dir σ' free') {page : ℕ}
    (hsome : pageRefs σ dirs page ≠ 0)
    (hall : pageRefs σ dirs page ≤ pteRefs σ dirs i page + pdeRefs σ dirs i page +
      if page = dir then 1 else 0) : page ∈ free' := by
  have hsum := hoff.sum page
  exact (hoff.free_iff page (Or.inr hsome)).mpr (by omega)

/-- A directory is referenced once, as `env_pgdir`. -/
theorem pageRefs_dir (hexcl : Exclusive σ dirs) (hdir : dirs i = some dir) :
    pageRefs σ dirs dir = 1 := by
  have hslots : refs (userKeys ι) (tableSlot σ dirs) dir = 0 :=
    refs_eq_zero_iff.mpr fun key hkey => hexcl.dir_unref i dir hdir key hkey
  have hone : refs Finset.univ dirs dir = 1 := by
    refine Finset.card_eq_one.mpr ⟨i, ?_⟩
    ext j
    rw [Finset.mem_filter, Finset.mem_singleton]
    exact ⟨fun hj => hexcl.dir_inj j i dir hj.2 hdir, fun hj => ⟨Finset.mem_univ j, hj ▸ hdir⟩⟩
  rw [pageRefs_eq, hslots, hone]

/-- A page table is referenced once, from its PDE. -/
theorem pageRefs_table (hexcl : Exclusive σ dirs) {d table : ℕ} (hd : d < userPdes)
    (htable : tableSlot σ dirs (.pde i d) = some table) :
    pageRefs σ dirs table = 1 ∧ 0 < pdeRefs σ dirs i table := by
  have hkey : TableKey.pde i d ∈ userKeys ι := pde_mem_userKeys.mpr hd
  have hslots : refs (userKeys ι) (tableSlot σ dirs) table = 1 := by
    refine Finset.card_eq_one.mpr ⟨.pde i d, ?_⟩
    ext key
    rw [Finset.mem_filter, Finset.mem_singleton]
    exact ⟨fun h => hexcl.table_unique i d table hd htable key h.1 h.2, fun h => h ▸ ⟨hkey, htable⟩⟩
  have hnotDir : refs Finset.univ dirs table = 0 :=
    refs_eq_zero_iff.mpr fun j _ hj => hexcl.dir_unref j table hj _ hkey htable
  have hpos : 0 < pdeRefs σ dirs i table :=
    refs_pos (Finset.mem_filter.mpr ⟨hkey, rfl, by simp [TableKey.isPte]⟩) htable
  rw [pageRefs_eq, hslots, hnotDir]
  exact ⟨rfl, hpos⟩

/-- `env_free` on the memory. -/
theorem TakenOff.freed (hoff : TakenOff managed dirs σ free i dir σ' free')
    (haccounts : Accounts managed dirs σ free) (hexcl : Exclusive σ dirs)
    (hdir : dirs i = some dir) : Freed managed dirs σ free i dir σ' free' where
  accounts := hoff.accounts haccounts
  directory := by
    have hone := pageRefs_dir hexcl hdir
    refine hoff.free_of_refs (by omega) ?_
    rw [if_pos rfl]
    omega
  page_tables := fun d table hd htable => by
    have hone := pageRefs_table hexcl hd htable
    exact hoff.free_of_refs (by omega) (by omega)
  own_pages := fun page hpos hall => hoff.free_of_refs (by omega) (by omega)
  other_pages := fun page hnotDir hnotTable hnotOwn => by
    have hsum := hoff.sum page
    have hpde : pdeRefs σ dirs i page = 0 := refs_eq_zero_iff.mpr fun key hkey hslot => by
      obtain ⟨hmem, rfl, hkind⟩ := Finset.mem_filter.mp hkey
      cases key with
      | pde j d => exact hnotTable d (pde_mem_userKeys.mp hmem) hslot
      | pte j d t => exact hkind rfl
    rw [hpde, if_neg hnotDir] at hsum
    by_cases huse : page ∈ inUse dirs σ free
    · have hcount := hoff.count page huse
      have hcount₀ := haccounts.count page (inUse_managed haccounts huse)
      refine ⟨by omega, ?_⟩
      rw [hoff.free_iff page huse]
      constructor
      · intro hzero
        refine huse.resolve_right fun hsome => ?_
        exact hnotOwn ⟨by omega, by omega⟩
      · intro hfree
        have hunref := haccounts.free_unref page hfree
        omega
    · have hunref : ¬ pageRefs σ dirs page ≠ 0 := fun h => huse (Or.inr h)
      rw [hoff.ref_other page huse]
      refine ⟨by omega, fun hfree => absurd (hoff.of_free page hfree) huse,
        fun hfree => absurd (Or.inl hfree) huse⟩
  dirs_kept := hoff.dirs_kept
  entries_kept := hoff.entries_kept

/-- The memory of a kernel that runs has right counters. -/
theorem Spaces.accounts {m : Machine} {pool : Set ℕ} {base : Phys} {Good : Word → Prop}
    {given : ι → Set ℕ} (hspaces : Spaces m pool base Good dirs given σ free noLeak) :
    Accounts pool dirs σ free where
  threads := hspaces.paged.threads
  nodup := hspaces.paged.balanced.free_nodup
  free_managed := hspaces.paged.balanced.free_mem
  free_unref := fun page hpage =>
    (hspaces.paged.free_iff_unref (hspaces.paged.balanced.free_mem page hpage)).mp hpage
  ref_managed := fun page hrefs => by
    rw [pageRefs_eq] at hrefs
    by_cases hslots : refs (userKeys ι) (tableSlot σ dirs) page = 0
    · have hdirs : refs Finset.univ dirs page ≠ 0 := by omega
      rw [Ne, refs_eq_zero_iff] at hdirs
      push Not at hdirs
      obtain ⟨j, -, hj⟩ := hdirs
      exact hspaces.dir_pool j page hj
    · rw [refs_eq_zero_iff] at hslots
      push Not at hslots
      obtain ⟨key, hkey, hslot⟩ := hslots
      exact hspaces.paged.balanced.slot_mem key hkey page hslot
  count := fun page hpage => by
    have hcount := hspaces.paged.balanced.count_eq page hpage
    have hfits : pageRefs σ dirs page < 2 ^ 16 := hspaces.fits page hpage
    have hvalue : refs (userKeys ι) (tableSlot σ dirs) page + owned dirs noLeak page =
        pageRefs σ dirs page := rfl
    rw [hcount, hvalue, BitVec.toNat_ofNat, Nat.mod_eq_of_lt hfits]
  in_memory := hspaces.paged.pool_lt
  npages_le := hspaces.paged.npages_le

end Accounts

/-! ## The kernel -/

/-- What holds after `env_free(e)`. -/
structure Released (managed : Set ℕ) (s : Kernel) (free : List ℕ) (e : Slot) (dir : ℕ)
    (s' : Kernel) (free' : List ℕ) : Prop where
  freed : Freed managed (dirsOf s) s.phys free e dir s'.phys free'
  dirs : dirsOf s' = update (dirsOf s) e none
  status : (s'.envs e).status = .free
  head : s'.envFreeList = some e
  link : (s'.envs e).link = s.envFreeList
  others : ∀ k, k ≠ e → s'.envs k = s.envs k

/-- `env_free` gives back what the environment held, and nothing else. -/
theorem env_free_releases {managed : Set ℕ} {s : Kernel} {free : List ℕ} {c dir : ℕ} {e : Slot}
    (haccounts : Accounts managed (dirsOf s) s.phys free) (hexcl : Exclusive s.phys (dirsOf s))
    (hlive : (s.envs e).pgdir = some dir) :
    ∃ s' free', envFree s c e = some s' ∧ Released managed s free e dir s' free' := by
  obtain ⟨τ, free', hrun, hpage, hoff⟩ := haccounts.takenOff hexcl hlive
  obtain ⟨s', hdone, -⟩ := envFree_of_tables (c := c) hlive hrun hpage
  obtain ⟨dir', σ', pt, hdir, htables, hpt, rfl⟩ := envFree_cases hdone
  obtain rfl := Option.some.inj (hlive.symm.trans hdir)
  obtain rfl := Option.some.inj (hrun.symm.trans htables)
  obtain rfl := Option.some.inj (hpage.symm.trans hpt)
  refine ⟨_, free', hdone, ?_⟩
  exact
    { freed := hoff.freed haccounts hexcl hlive
      dirs := by
        funext k
        by_cases hsame : k = e
        · simp [dirsOf, hsame]
        · simp [dirsOf, hsame]
      status := by simp
      head := rfl
      link := by simp
      others := fun k hne => update_of_ne hne _ _ }

theorem booted_env_free : ∃ booted, Boots uniprocessor [idleProgram, idleProgram] booted ∧
    ∃ managed free dir s' free', Accounts managed (dirsOf booted) booted.phys free ∧
      envFree booted 0 firstSlot = some s' ∧
      Released managed booted free firstSlot dir s' free' := by
  obtain ⟨booted, hboots, hidle⟩ := uniprocessor_idle
  obtain ⟨pool, base, given, free, -, -, hspaces⟩ := hidle.memory
  obtain ⟨dir, henv⟩ := hidle.env firstSlot (by decide)
  have hlive : (booted.envs firstSlot).pgdir = some dir := by
    rw [henv]
    rfl
  obtain ⟨s', free', hdone, hreleased⟩ := env_free_releases (c := 0) hspaces.accounts
    hspaces.paged.exclusive hlive
  exact ⟨booted, hboots, pool, free, dir, s', free', hspaces.accounts, hdone, hreleased⟩

/-! ## A page table with two owners -/

section SharedTable

variable {ι : Type*} [Fintype ι] [DecidableEq ι]

/-- Two spaces, with the directories in pages 1 and 2. -/
def twoDirs (i j : ι) : ι → Option ℕ := update (update (fun _ => none) i (some 1)) j (some 2)

/-- Both directories refer to the empty page table in page 3, and page 4 is free. -/
def sharedTable : Phys where
  npages := 5
  pages := fun page => ⟨none, if page = 3 then 2 else if page = 1 ∨ page = 2 then 1 else 0⟩
  pageFreeList := some 4
  mem := fun page index =>
    if (page = 1 ∨ page = 2) ∧ index = 0 then page2pa 3 ||| (pteW ||| pteU ||| pteP) else 0
  mmuBits := fun _ _ => 0

omit [Fintype ι] in
theorem tableSlot_sharedTable {i j : ι} (hne : i ≠ j) (key : TableKey ι) :
    tableSlot sharedTable (twoDirs i j) key =
      if key = .pde i 0 ∨ key = .pde j 0 then some 3 else none := by
  have hpresent : entryPage (page2pa 3 ||| (pteW ||| pteU ||| pteP)) = some 3 := by decide
  have hpde : ∀ k d, pdeWord sharedTable (twoDirs i j) k d =
      if (k = i ∨ k = j) ∧ d = 0 then page2pa 3 ||| (pteW ||| pteU ||| pteP) else 0 := fun k d => by
    by_cases hj : k = j
    · subst hj
      simp [pdeWord, twoDirs, sharedTable]
    · by_cases hi : k = i
      · subst hi
        simp [pdeWord, twoDirs, sharedTable, update_of_ne hj]
      · simp [pdeWord, twoDirs, hi, hj]
  cases key with
  | pde k d =>
    rw [tableSlot, wordAt, hpde]
    by_cases hk : (k = i ∨ k = j) ∧ d = 0
    · obtain ⟨hk, rfl⟩ := hk
      rw [if_pos ⟨hk, rfl⟩, hpresent, if_pos (by simpa using hk)]
    · rw [if_neg hk, entryPage_zero, if_neg fun h => hk (by
        simp only [TableKey.pde.injEq] at h
        tauto)]
  | pte k d t =>
    have hzero : wordAt sharedTable (twoDirs i j) (.pte k d t) = 0 := by
      rw [wordAt, hpde]
      by_cases hk : (k = i ∨ k = j) ∧ d = 0
      · rw [if_pos hk, hpresent]
        rfl
      · rw [if_neg hk, entryPage_zero]
    rw [tableSlot, hzero, entryPage_zero, if_neg (by simp)]

/-- The counters of the example are right. -/
theorem sharedTable_accounts {i j : ι} (hne : i ≠ j) :
    Accounts {page | page < 5 ∧ page ≠ 0} (twoDirs i j) sharedTable [4] := by
  have hslots : ∀ page, refs (userKeys ι) (tableSlot sharedTable (twoDirs i j)) page =
      if page = 3 then 2 else 0 := fun page => by
    by_cases hpage : page = 3
    · subst hpage
      rw [if_pos rfl, ← Finset.card_pair (a := TableKey.pde i 0) (b := .pde j 0) (by simpa using hne)]
      refine congrArg Finset.card ?_
      ext key
      rw [Finset.mem_filter, tableSlot_sharedTable hne, Finset.mem_insert, Finset.mem_singleton]
      constructor
      · intro hkey
        by_contra hnot
        rw [if_neg hnot] at hkey
        cases hkey.2
      · intro hkey
        refine ⟨?_, if_pos hkey⟩
        rcases hkey with rfl | rfl <;> exact pde_mem_userKeys.mpr (by decide)
    · rw [if_neg hpage]
      refine refs_eq_zero_iff.mpr fun key _ hslot => ?_
      rw [tableSlot_sharedTable hne] at hslot
      split at hslot
      · exact hpage (Option.some.inj hslot).symm
      · cases hslot
  have hdirs : ∀ page, refs Finset.univ (twoDirs i j) page =
      if page = 1 ∨ page = 2 then 1 else 0 := fun page => by
    have hj := refs_update (update (fun _ => none) i (some 1)) (Finset.mem_univ j) (some 2) page
    have hi := refs_update (fun _ : ι => (none : Option ℕ)) (Finset.mem_univ i) (some 1) page
    have hnone : refs Finset.univ (fun _ : ι => (none : Option ℕ)) page = 0 :=
      refs_eq_zero_iff.mpr fun k _ => by simp
    rw [update_of_ne hne.symm] at hj
    simp only [hnone, reduceCtorEq, if_false, Option.some.injEq] at hi hj
    rw [twoDirs]
    split_ifs at hi hj ⊢ <;> omega
  have hrefs : ∀ page, pageRefs sharedTable (twoDirs i j) page = (sharedTable.ref page).toNat :=
    fun page => by
      rw [pageRefs_eq, hslots, hdirs, Phys.ref, sharedTable]
      split_ifs <;> simp_all
  exact
    { threads := .cons .nil
      nodup := by simp
      free_managed := by simp
      free_unref := fun page hpage => by
        rw [hrefs, List.mem_singleton.mp hpage]
        rfl
      ref_managed := fun page hpage => by
        rw [pageRefs_eq, hslots, hdirs] at hpage
        change page < 5 ∧ page ≠ 0
        split_ifs at hpage <;> omega
      count := fun page _ => (hrefs page).symm
      in_memory := fun page hpage => hpage.1
      npages_le := by decide }

end SharedTable

/-- A page table without present entries. -/
theorem unmapTable_empty {σ : Phys} {pt : ℕ} (hempty : ∀ t, σ.mem pt t &&& pteP = 0)
    (pgdir d count : ℕ) : unmapTable σ pgdir d pt count = some σ := by
  induction count with
  | zero => rfl
  | succ k ih => simp [unmapTable, ih, hempty k]

/-- A directory whose only entry is the first one. -/
theorem freeTables_first {σ τ : Phys} {pgdir : ℕ} (hfirst : freeTables σ pgdir 1 = some τ)
    (hrest : ∀ d, 1 ≤ d → τ.mem pgdir d &&& pteP = 0) (count : ℕ) :
    freeTables σ pgdir (count + 1) = some τ := by
  induction count with
  | zero => exact hfirst
  | succ k ih =>
    rw [freeTables, ih]
    simp [hrest (k + 1) (by omega)]

/-- Two environments that share the page table. -/
def sharing : Kernel where
  phys := sharedTable
  kernPgdir := 0
  envs := fun e => { Env.zero with
    pgdir := twoDirs firstSlot secondSlot e
    status := if e = firstSlot ∨ e = secondSlot then .runnable else .free }
  envFreeList := none
  cpus := fun _ => ⟨.started, none, 0⟩

/-- The page table is not freed with the first of them, and page 4 stays on the free list. -/
theorem sharing_env_free :
    Accounts {page | page < 5 ∧ page ≠ 0} (dirsOf sharing) sharing.phys [4] ∧
    tableSlot sharing.phys (dirsOf sharing) (.pde firstSlot 0) = some 3 ∧
    ∃ s', envFree sharing 0 firstSlot = some s' ∧
      Threads s'.phys.link s'.phys.pageFreeList [1, 4] := by
  have hne : firstSlot ≠ secondSlot := by decide
  have hdirs : dirsOf sharing = twoDirs firstSlot secondSlot := rfl
  refine ⟨sharedTable_accounts hne, ?_, ?_⟩
  · rw [hdirs]
    exact (tableSlot_sharedTable hne _).trans (if_pos (Or.inl rfl))
  have hlive : (sharing.envs firstSlot).pgdir = some 1 := rfl
  have hunmap := unmapTable_empty (σ := sharedTable) (fun t => by
    change (if (3 = 1 ∨ 3 = 2) ∧ t = 0 then _ else (0 : Word)) &&& pteP = 0
    simp) 1 0 nptEntries
  have hfirst : freeTables sharedTable 1 1 =
      some (pageDecref (sharedTable.store 1 0 0) 3) := by
    have hload : sharedTable.load 1 0 = page2pa 3 ||| (pteW ||| pteU ||| pteP) := by decide
    have hpa : sharedTable.pa2page (pteAddr (page2pa 3 ||| (pteW ||| pteU ||| pteP))) = some 3 := by
      decide
    have hpresent : ¬ sharedTable.mem 1 0 &&& pteP = 0 := by decide
    rw [freeTables, freeTables, Option.bind_eq_bind, Option.bind_some, load_present, if_neg hpresent,
      hload, hpa]
    simp only [Option.bind_eq_bind, Option.bind_some, hunmap]
    rfl
  have hrun : freeTables sharedTable 1 userPdes =
      some (pageDecref (sharedTable.store 1 0 0) 3) := by
    rw [userPdes_eq]
    refine freeTables_first hfirst (fun d hd => ?_) 954
    rw [mem_pageDecref, mem_store_self, update_of_ne (by omega)]
    simp [sharedTable, show d ≠ 0 by omega]
  have hpage : (pageDecref (sharedTable.store 1 0 0) 3).pa2page (page2pa 1) = some 1 := by decide
  obtain ⟨s', hdone, hphys⟩ := envFree_of_tables (c := 0) hlive hrun hpage
  refine ⟨s', hdone, ?_⟩
  rw [hphys]
  exact .cons (.cons .nil)

end OsLabs.Jos
