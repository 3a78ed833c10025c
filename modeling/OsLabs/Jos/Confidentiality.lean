import OsLabs.Jos.BootWindows
import OsLabs.Jos.Isolation

/-!
# What user programs can read

Besides its own pages an environment reads the arrays that the kernel shows at
`UPAGES` and `UENVS`, and whatever lies behind them: the window at `UENVS` is
longer than the array, and the pages behind it are on the free list.
-/

namespace OsLabs.Jos

open Function
open OsLabs.Transition

/-- A load by user code of environment `e` reaches the page. -/
def LoadsFrom (s : Kernel) (e : Slot) (page : ℕ) : Prop :=
  ∃ dir va, dirsOf s e = some dir ∧ mmuPage s.phys dir va (pteP ||| pteU) = some page

/-- A page given to the environment, its page directory or a page table in it. -/
def OwnPage (s : Kernel) (given : Slot → Set ℕ) (e : Slot) (page : ℕ) : Prop :=
  page ∈ given e ∨
    ∃ dir d, dirsOf s e = some dir ∧ d < 1024 ∧ entryPage (s.phys.mem dir d) = some page

/-- A page of `pages` or `envs`. -/
def Machine.Shown (m : Machine) (page : ℕ) : Prop := m.pagesStart ≤ page ∧ page < m.med

/-- A page of memory behind `envs` that the window at `UENVS` covers. -/
def Machine.Overshown (m : Machine) (page : ℕ) : Prop :=
  m.med ≤ page ∧ page < m.envsStart + 1024 ∧ page < m.npages

/-- A page in one of the windows. -/
def Machine.InWindow (m : Machine) (page : ℕ) : Prop :=
  (m.pagesStart ≤ page ∧ page < m.pagesStart + 1024) ∨
    (m.envsStart ≤ page ∧ page < m.envsStart + 1024)

/-- Of the memory, user code of the environment reads its own pages and the two arrays only. -/
def Confidential (m : Machine) (s : Kernel) (given : Slot → Set ℕ) (e : Slot) : Prop :=
  ∀ page < m.npages, LoadsFrom s e page → OwnPage s given e page ∨ m.Shown page

/-! ## One address space -/

section Reading

variable {ι : Type*} [Fintype ι] [DecidableEq ι]
variable {m : Machine} {pool : Set ℕ} {base : Phys} {Good : Word → Prop}
variable {dirs : ι → Option ℕ} {given : ι → Set ℕ} {σ : Phys} {free : List ℕ}
variable {leak : ℕ → ℕ} {i : ι} {dir page : ℕ} {va : Word}

theorem mmuPage_flags {need : Word} (hreach : mmuPage σ dir va need = some page) :
    σ.load dir (pdx va) &&& need = need ∧
      σ.load (pgnum (σ.mem dir (pdx va))) (ptx va) &&& need = need ∧
      pgnum (σ.mem (pgnum (σ.mem dir (pdx va))) (ptx va)) = page := by
  rw [mmuPage] at hreach
  split at hreach
  case isTrue hflags =>
    rw [pgnum_load] at hflags
    refine ⟨hflags.1, hflags.2, ?_⟩
    rw [pgnum_load, pgnum_load] at hreach
    exact Option.some.inj hreach
  case isFalse => cases hreach

/-- An entry with the flags that user code needs is present and for users. -/
theorem entry_of_userFlags {index : ℕ}
    (hflags : σ.load page index &&& (pteP ||| pteU) = pteP ||| pteU) :
    σ.mem page index &&& pteP ≠ 0 ∧ σ.mem page index &&& pteU ≠ 0 := by
  have hpart {mask : Word} (hmask : (pteP ||| pteU) &&& mask = mask)
      (hset : (pteA ||| pteD) &&& mask = 0) (hne : mask ≠ 0) :
      σ.mem page index &&& mask ≠ 0 := by
    rw [← load_and σ page index hset, ← hmask, ← BitVec.and_assoc, hflags, hmask]
    exact hne
  exact ⟨hpart (by decide) (by decide) (by decide), hpart (by decide) (by decide) (by decide)⟩

/-- What a load by user code can reach. -/
theorem Spaces.read_cases (hspaces : Spaces m pool base Good dirs given σ free leak)
    (himage : KernelImage m pool base) (hdir : dirs i = some dir)
    (hreach : mmuPage σ dir va (pteP ||| pteU) = some page) :
    page ∈ given i ∨ (∃ d < 1024, entryPage (σ.mem dir d) = some page) ∨ m.InWindow page := by
  by_cases hlow : pdx va < userPdes
  · have hslot := Spaces.mmuPage_slot hdir (by decide) hreach
    exact Or.inl (hspaces.user_ptes i _ _ page hlow (ptx_lt va) hslot).1
  · obtain ⟨hpde, hpte, hpage⟩ := mmuPage_flags hreach
    obtain ⟨huvpt, hcopied⟩ := hspaces.kernel_part i dir hdir
    by_cases hindex : pdx va = uvptIndex
    · -- through the directory itself, the page tables
      have hself : pgnum (σ.mem dir (pdx va)) = dir := by
        have hlt := lt_of_lt_of_le (hspaces.paged.pool_lt dir (hspaces.dir_pool i dir hdir))
          hspaces.paged.npages_le
        rw [hindex, huvpt, pgnum_or, pgnum_or, pgnum_page2pa hlt, show pgnum pteU = 0 by decide,
          show pgnum pteP = 0 by decide, Nat.or_zero, Nat.or_zero]
      rw [hself] at hpte hpage
      exact Or.inr (Or.inl ⟨ptx va, ptx_lt va, entryPage_eq_some.mpr
        ⟨(entry_of_userFlags hpte).1, hpage⟩⟩)
    · have hsame := hcopied (pdx va) (Nat.le_of_not_lt hlow) (pdx_lt va) hindex
      have hentry : entryPage (base.mem m.kernPgdir (pdx va)) =
          some (pgnum (σ.mem dir (pdx va))) := by
        rw [← hsame.entryPage_eq]
        exact entryPage_eq_some.mpr ⟨(entry_of_userFlags hpde).1, rfl⟩
      obtain ⟨htable, hwindow⟩ :=
        himage.tables _ (Nat.le_of_not_lt hlow) (pdx_lt va) hindex _ hentry
      have hpresent := entry_of_userFlags hpte
      rw [hspaces.mem_kept _ htable] at hpresent hpage
      have hptx : ptx va < 1024 := ptx_lt va
      rcases hwindow (ptx va) (ptx_lt va) with hzero | hzero | hshown
      · exact absurd hzero hpresent.1
      · exact absurd hzero hpresent.2
      · rcases hshown.2 with ⟨-, hnumber⟩ | ⟨-, hnumber⟩
        · exact Or.inr (Or.inr (Or.inl (by omega)))
        · exact Or.inr (Or.inr (Or.inr (by omega)))

/-- An entry of the kernel's page tables that is for users. -/
theorem Spaces.read_entry (hspaces : Spaces m pool base Good dirs given σ free leak)
    (himage : KernelImage m pool base) (hdir : dirs i = some dir)
    (hopen : Opened m.kernPgdir base) (hlow : userPdes ≤ pdx va) (hne : pdx va ≠ uvptIndex)
    {entry : Word} (hentry : EntryIs m.kernPgdir base va entry)
    (hflags : entry &&& (pteP ||| pteU) = pteP ||| pteU) :
    mmuPage σ dir va (pteP ||| pteU) = some (pgnum entry) := by
  obtain ⟨table, htable, hword⟩ := hentry
  have hsame := (hspaces.kernel_part i dir hdir).copied (pdx va) hlow (pdx_lt va) hne
  have hnumber : pgnum (σ.mem dir (pdx va)) = table := by
    rw [hsame.pgnum_eq]
    exact (entryPage_eq_some.mp htable).2
  have hkept := hspaces.mem_kept table (himage.tables _ hlow (pdx_lt va) hne table htable).1
  have hpde : σ.load dir (pdx va) &&& (pteP ||| pteU) = pteP ||| pteU := by
    rw [load_and _ _ _ (by decide), hsame.and_eq (by decide),
      hopen _ (pdx_lt va) hne table htable, tableEntry, BitVec.and_or_distrib_right,
      BitVec.and_or_distrib_right, BitVec.and_or_distrib_right,
      aligned_and_flags (pteAddr_page2pa table) (by decide)]
    decide
  have hpte : σ.load table (ptx va) &&& (pteP ||| pteU) = pteP ||| pteU := by
    rw [load_and _ _ _ (by decide), hkept, hword, hflags]
  rw [mmuPage, pgnum_load, hnumber, if_pos ⟨hpde, hpte⟩, pgnum_load, hkept, hword]

/-- The window at `UENVS`. -/
theorem Spaces.read_window (hspaces : Spaces m pool base Good dirs given σ free leak)
    (himage : KernelImage m pool base) (hdir : dirs i = some dir) (hwindows : Windows m base)
    (hfits : m.envsStart + 1024 ≤ 2 ^ 20) {k : ℕ} (hk : k < 1024) :
    mmuPage σ dir (pageBehind uenvs k) (pteP ||| pteU) = some (m.envsStart + k) := by
  have hindex := pdx_uenvs hk
  have hstart := toNat_page2pa (show m.envsStart < 2 ^ 20 by omega)
  have hpa := toNat_add_pages (page2pa m.envsStart) k (by omega)
  have hnumber : pgnum (pageBehind (page2pa m.envsStart) k ||| pteU ||| pteP) =
      m.envsStart + k := by
    rw [pgnum_or, pgnum_or, show pgnum pteU = 0 by decide, show pgnum pteP = 0 by decide,
      Nat.or_zero, Nat.or_zero, pgnum_eq, hpa, hstart]
    omega
  have hflags : (pageBehind (page2pa m.envsStart) k ||| pteU ||| pteP) &&& (pteP ||| pteU) =
      pteP ||| pteU := by
    rw [BitVec.and_or_distrib_right, BitVec.and_or_distrib_right,
      aligned_and_flags (aligned_add_pages (pteAddr_page2pa m.envsStart) k) (by decide)]
    decide
  rw [← hnumber]
  refine hspaces.read_entry himage hdir hwindows.opened ?_ ?_ (hwindows.envs k hk) hflags
  · rw [hindex, userPdes_eq]
  · rw [hindex, uvptIndex_eq]
    norm_num

end Reading

/-! ## Booting -/

section Booting

variable {m : Machine} {programs : List Program} {booted : Kernel}

theorem Windows.congr {σ base : Phys} {free : List ℕ}
    (hwindows : Windows m σ) (hhalf : KernelHalf m.pool m.kernPgdir m.Window σ free)
    (hmem : ∀ page, page ∉ free → base.mem page = σ.mem page) : Windows m base := by
  have hkern := hmem _ hhalf.kern_not_free
  have hentry {va entry : Word} (hne : pdx va ≠ uvptIndex)
      (hold : EntryIs m.kernPgdir σ va entry) : EntryIs m.kernPgdir base va entry := by
    obtain ⟨table, htable, hword⟩ := hold
    have hfree := (hhalf.table_pool _ (pdx_lt va) hne table htable).2.1
    exact ⟨table, by rw [hkern, htable], by rw [hmem table hfree, hword]⟩
  refine ⟨fun d hd hne table htable => ?_, fun k hk => ?_, fun k hk => ?_⟩
  · rw [hkern] at htable ⊢
    exact hwindows.opened d hd hne table htable
  · refine hentry ?_ (hwindows.pages k hk)
    rw [pdx_upages hk, uvptIndex_eq]
    norm_num
  · refine hentry ?_ (hwindows.envs k hk)
    rw [pdx_uenvs hk, uvptIndex_eq]
    norm_num

/-- Booting leaves sound memory with the windows, and gives the environments what they map. -/
theorem Boots.arena_windows (hsane : m.Sane) (huser : ∀ program ∈ programs, program.InUser)
    (hboots : Boots m programs booted) :
    ∃ arena : Arena m, Windows m arena.base ∧
      Sound arena (fun _ => True) ∅ (mappedPages booted) booted := by
  obtain ⟨σ, free, hhalf, hwindows, hcreate⟩ := hboots.windows hsane
  have hloads : LoadsGood fun _ => True := fun _ _ => trivial
  obtain ⟨hkern, pool, base, given, free', himage, hspaces, -, hbefore⟩ :=
    hhalf.houses hloads huser hcreate
  refine ⟨⟨pool, base, himage⟩, hwindows.congr hhalf hbefore, hkern, ?_⟩
  exact ⟨free', noLeak, hspaces.given_mapped, fun _ _ => rfl⟩

end Booting

/-! ## Runs -/

section Runs

variable {m : Machine} {programs : List Program} {booted s : Kernel} {given : Slot → Set ℕ}
variable {arena : Arena m} {e : Slot} {dir : ℕ}

/-- What the environment reads. -/
theorem Sound.reads (hsound : Sound arena (fun _ => True) ∅ given s) {page : ℕ}
    (hreads : LoadsFrom s e page) : OwnPage s given e page ∨ m.InWindow page := by
  obtain ⟨free, leak, hspaces, -⟩ := hsound.memory
  obtain ⟨dir', va, hdir', hreach⟩ := hreads
  rcases hspaces.read_cases arena.image hdir' hreach with hgiven | hrest
  · exact Or.inl (Or.inl hgiven)
  · refine hrest.imp_left fun htable => ?_
    obtain ⟨d, hd, hentry⟩ := htable
    exact Or.inr ⟨dir', d, hdir', hd, hentry⟩

end Runs

end OsLabs.Jos
