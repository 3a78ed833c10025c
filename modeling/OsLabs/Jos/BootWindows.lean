import OsLabs.Jos.MemInit
import OsLabs.Jos.RegionMap

/-!
# The windows of the kernel that users can read

`mem_init` maps four megabytes at `UPAGES` and four at `UENVS` for reading by
users, whatever the sizes of the arrays there.  The rest of booting leaves
these mappings alone.
-/

namespace OsLabs.Jos

open Function
open OsLabs.IntrusiveList

/-- `pgdir_walk` made every page table of the directory. -/
def Opened (kern : ℕ) (σ : Phys) : Prop :=
  ∀ d < 1024, d ≠ uvptIndex → ∀ table, entryPage (σ.mem kern d) = some table →
    σ.mem kern d = tableEntry table

/-- The entry for `va` in its page table. -/
def EntryIs (kern : ℕ) (σ : Phys) (va entry : Word) : Prop :=
  ∃ table, entryPage (σ.mem kern (pdx va)) = some table ∧ σ.mem table (ptx va) = entry

/-- The entries of the other pages stay. -/
def EntriesKept (kern : ℕ) (touched : Set Word) (σ σ' : Phys) : Prop :=
  ∀ w entry, pdx w ≠ uvptIndex → (∀ va ∈ touched, pgnum w ≠ pgnum va) →
    EntryIs kern σ w entry → EntryIs kern σ' w entry

/-! ## One page -/

section Page

variable {pool : Set ℕ} {kern : ℕ} {Allowed : ℕ → ℕ → Word → Prop} {σ σ' : Phys}
variable {free : List ℕ} {va entry : Word}

theorem EntriesKept.refl (touched : Set Word) : EntriesKept kern touched σ σ :=
  fun _ _ _ _ hentry => hentry

theorem EntriesKept.trans {touched touched' : Set Word} {τ : Phys}
    (hfirst : EntriesKept kern touched σ τ) (hsecond : EntriesKept kern touched' τ σ') :
    EntriesKept kern (touched ∪ touched') σ σ' := fun w entry hw hfar hentry =>
  hsecond w entry hw (fun va hva => hfar va (Or.inr hva))
    (hfirst w entry hw (fun va hva => hfar va (Or.inl hva)) hentry)

theorem ptx_ne_of_pdx {w : Word} (hpage : pgnum w ≠ pgnum va) (hpdx : pdx w = pdx va) :
    ptx w ≠ ptx va := fun hptx =>
  hpage (by rw [pgnum_eq_pdx_ptx w, pgnum_eq_pdx_ptx va, hpdx, hptx])

/-- A store into the page table of `va`. -/
theorem KernelHalf.store_entry (hhalf : KernelHalf pool kern Allowed σ free)
    (hopen : Opened kern σ) (hva : pdx va ≠ uvptIndex) (entry : Word) {table : ℕ}
    (htable : entryPage (σ.mem kern (pdx va)) = some table) :
    Opened kern (σ.store table (ptx va) entry) ∧
      EntryIs kern (σ.store table (ptx va) entry) va entry ∧
      EntriesKept kern {va} σ (σ.store table (ptx va) entry) := by
  have hkern : kern ≠ table := fun hsame =>
    hhalf.kern_not_pool (hsame ▸ (hhalf.table_pool _ (pdx_lt va) hva table htable).1)
  have hrow : (σ.store table (ptx va) entry).mem kern = σ.mem kern :=
    mem_store_of_ne _ _ _ _ hkern
  refine ⟨fun d hd hne other hother => ?_, ⟨table, ?_, ?_⟩, fun w old hw hfar hold => ?_⟩
  · rw [hrow] at hother ⊢
    exact hopen d hd hne other hother
  · rw [hrow, htable]
  · rw [mem_store_self, update_self]
  · obtain ⟨other, hother, hword⟩ := hold
    refine ⟨other, by rw [hrow, hother], ?_⟩
    by_cases hsame : other = table
    · subst hsame
      have hpdx := hhalf.table_inj _ (pdx_lt w) hw _ (pdx_lt va) hva other hother htable
      rw [mem_store_self, update_of_ne (ptx_ne_of_pdx (hfar va rfl) hpdx), hword]
    · rw [mem_store_of_ne _ _ _ _ hsame, hword]

/-- A new page table. -/
theorem KernelHalf.install_entries {pg : ℕ} (hhalf : KernelHalf pool kern Allowed σ (pg :: free))
    (hopen : Opened kern σ) (habsent : entryPage (σ.mem kern (pdx va)) = none) :
    Opened kern (installTable σ kern (pdx va) pg) ∧
      EntriesKept kern ∅ σ (installTable σ kern (pdx va) pg) := by
  have hlt := lt_of_lt_of_le (hhalf.pool_lt pg (hhalf.free_pool pg List.mem_cons_self))
    hhalf.npages_le
  refine ⟨fun d hd hne table htable => ?_, fun w old hw _ hold => ?_⟩
  · rw [hhalf.installTable_kern] at htable ⊢
    by_cases hsame : d = pdx va
    · rw [hsame, update_self] at htable ⊢
      rw [entryPage_tableEntry hlt] at htable
      rw [Option.some.inj htable]
    · rw [update_of_ne hsame] at htable ⊢
      exact hopen d hd hne table htable
  · obtain ⟨table, htable, hword⟩ := hold
    have hother : pdx w ≠ pdx va := fun hsame => by
      rw [hsame, habsent] at htable
      cases htable
    have hpg : table ≠ pg := fun hsame =>
      (hhalf.table_pool _ (pdx_lt w) hw table htable).2.1 (hsame ▸ List.mem_cons_self)
    have hkern : table ≠ kern := fun hsame =>
      hhalf.kern_not_pool (hsame ▸ (hhalf.table_pool _ (pdx_lt w) hw table htable).1)
    refine ⟨table, ?_, ?_⟩
    · rw [hhalf.installTable_kern, update_of_ne hother, htable]
    · rw [KernelHalf.installTable_other _ hkern hpg, hword]

theorem KernelHalf.mapPage_entries (hhalf : KernelHalf pool kern Allowed σ free)
    (hzero : ∀ d i, Allowed d i 0) (hopen : Opened kern σ) (hlow : userPdes ≤ pdx va)
    (hva : pdx va ≠ uvptIndex) (hrun : Jos.mapPage σ kern va entry = some σ') :
    Opened kern σ' ∧ EntryIs kern σ' va entry ∧ EntriesKept kern {va} σ σ' := by
  cases htable : entryPage (σ.mem kern (pdx va)) with
  | some table =>
    have hresult : Jos.mapPage σ kern va entry = some (σ.store table (ptx va) entry) := by
      simp [Jos.mapPage, hhalf.walk_present hva htable true]
    cases Option.some.inj (hresult.symm.trans hrun)
    exact hhalf.store_entry hopen hva entry htable
  | none =>
    cases free with
    | nil =>
      have hresult : Jos.mapPage σ kern va entry = none := by
        simp [Jos.mapPage, hhalf.walk_exhausted htable]
      cases hresult.symm.trans hrun
    | cons pg rest =>
      have hlt := lt_of_lt_of_le (hhalf.pool_lt pg (hhalf.free_pool pg List.mem_cons_self))
        hhalf.npages_le
      have hresult : Jos.mapPage σ kern va entry =
          some ((installTable σ kern (pdx va) pg).store pg (ptx va) entry) := by
        simp [Jos.mapPage, hhalf.walk_create htable]
      cases Option.some.inj (hresult.symm.trans hrun)
      have hnew : entryPage ((installTable σ kern (pdx va) pg).mem kern (pdx va)) = some pg := by
        rw [hhalf.installTable_kern, update_self, entryPage_tableEntry hlt]
      obtain ⟨hopen', hkept⟩ := hhalf.install_entries hopen htable
      obtain ⟨hopen'', hentry, hkept'⟩ :=
        (hhalf.created (hzero _) hlow (pdx_lt va) hva htable).store_entry hopen' hva entry hnew
      refine ⟨hopen'', hentry, fun w old hw hfar hold => ?_⟩
      exact (hkept.trans hkept') w old hw (fun v hv => hfar v (hv.resolve_left id)) hold

/-- The first `count` pages from `va`. -/
def pagesFrom (va : Word) (count : ℕ) : Set Word := {w | ∃ k < count, w = pageBehind va k}

theorem pgnum_pageBehind {k : ℕ} (hfits : va.toNat + k * 4096 < 2 ^ 32) :
    pgnum (pageBehind va k) = pgnum va + k := by
  rw [pgnum_eq, pgnum_eq, toNat_add_pages va k hfits]
  omega

/-- `boot_map_region` writes the entries of the region and no others. -/
theorem KernelHalf.region_entries (hhalf : KernelHalf pool kern Allowed σ free)
    (hzero : ∀ d i, Allowed d i 0) (hopen : Opened kern σ) {pa perm : Word} {count : ℕ}
    (hmap : Mappable Allowed va pa perm count) (hfits : va.toNat + count * 4096 ≤ 2 ^ 32)
    (hrun : bootMapPages σ kern va pa perm count = some σ') :
    (∃ free', KernelHalf pool kern Allowed σ' free') ∧ Opened kern σ' ∧
      (∀ k < count, EntryIs kern σ' (pageBehind va k) (pageBehind pa k ||| perm ||| pteP)) ∧
      EntriesKept kern (pagesFrom va count) σ σ' := by
  induction count generalizing σ' with
  | zero =>
    cases hrun
    exact ⟨⟨free, hhalf⟩, hopen, fun k hk => absurd hk (Nat.not_lt_zero k), EntriesKept.refl _⟩
  | succ i ih =>
    obtain ⟨mid, hmid, hlast⟩ := Option.bind_eq_some_iff.mp hrun
    have hshort : va.toNat + i * 4096 ≤ 2 ^ 32 :=
      (Nat.add_le_add_left (Nat.mul_le_mul_right _ (Nat.le_succ i)) _).trans hfits
    obtain ⟨⟨free', hhalf'⟩, hopen', hentries, hkept⟩ :=
      ih (fun k hk => hmap k (Nat.lt_succ_of_lt hk)) hshort hmid
    obtain ⟨hlow, hne, hallowed⟩ := hmap i (Nat.lt_succ_self i)
    obtain ⟨hopen'', hentry, hkept'⟩ := hhalf'.mapPage_entries hzero hopen' hlow hne hlast
    have hserved := (mapPage_served hhalf' hzero hlow hne hallowed).1
    refine ⟨(hserved.keeps σ' hlast).2, hopen'', fun k hk => ?_, fun w entry hw hfar hold => ?_⟩
    · by_cases hsame : k = i
      · subst hsame
        exact hentry
      · have hk' : k < i := by omega
        refine hkept' _ _ (hmap k hk).2.1 (fun v hv => ?_) (hentries k hk')
        rw [Set.mem_singleton_iff.mp hv, pgnum_pageBehind (by omega), pgnum_pageBehind (by omega)]
        omega
    · refine hkept' w entry hw (fun v hv => ?_) (hkept w entry hw (fun v hv => ?_) hold)
      · rw [Set.mem_singleton_iff.mp hv]
        exact hfar _ ⟨i, Nat.lt_succ_self i, rfl⟩
      · obtain ⟨k, hk, rfl⟩ := hv
        exact hfar _ ⟨k, Nat.lt_succ_of_lt hk, rfl⟩

end Page

/-! ## Booting -/

/-- What booting leaves of the kernel's directory after `σ`: its entries below `UVPT` stay. -/
structure LowKept (m : Machine) (σ σ' : Phys) : Prop where
  half : ∃ free, KernelHalf m.pool m.kernPgdir m.Window σ' free
  opened : Opened m.kernPgdir σ'
  entries : ∀ w entry, pdx w < uvptIndex → EntryIs m.kernPgdir σ w entry →
    EntryIs m.kernPgdir σ' w entry

section Booting

variable {m : Machine} {σ σ' σ'' : Phys} {free : List ℕ}

theorem LowKept.trans (hfirst : LowKept m σ σ') (hsecond : LowKept m σ' σ'') : LowKept m σ σ'' where
  half := hsecond.half
  opened := hsecond.opened
  entries := fun w entry hw hentry => hsecond.entries w entry hw (hfirst.entries w entry hw hentry)

/-- A mapping for the kernel, above `UVPT`. -/
theorem supervisor_keeps (hhalf : KernelHalf m.pool m.kernPgdir m.Window σ free)
    (hopen : Opened m.kernPgdir σ) {va size pa perm : Word}
    (hlow : 958 * 4194304 ≤ va.toNat) (hhigh : va.toNat + size.toNat ≤ 2 ^ 32)
    (hpa : pteAddr pa = pa) (hperm : perm &&& pteU = 0)
    (hrun : bootMapRegion σ m.kernPgdir va size pa perm = some σ') : LowKept m σ σ' := by
  have hcount : (size / pgSize).toNat = size.toNat / 4096 := by
    rw [BitVec.toNat_udiv, show pgSize.toNat = 4096 by decide]
  have hfits : va.toNat + (size / pgSize).toNat * 4096 ≤ 2 ^ 32 := by
    rw [hcount]
    omega
  have hmap : Mappable m.Window va pa perm (size / pgSize).toNat :=
    mappable_supervisor m hlow hfits hpa hperm
  obtain ⟨hhalf', hopen', -, hkept⟩ := hhalf.region_entries m.window_zero hopen hmap hfits hrun
  refine ⟨hhalf', hopen', fun w entry hw hentry => hkept w entry hw.ne (fun v hv => ?_) hentry⟩
  obtain ⟨k, hk, rfl⟩ := hv
  have hbelow : va.toNat + k * 4096 < 2 ^ 32 := by omega
  rw [pgnum_pageBehind hbelow]
  rw [uvptIndex_eq, pdx_eq] at hw
  rw [pgnum_eq, pgnum_eq]
  omega

/-- The self tests leave the kernel's page tables alone. -/
theorem SelfTested.keeps (htested : SelfTested σ σ')
    (hhalf : KernelHalf m.pool m.kernPgdir m.Window σ free) (hopen : Opened m.kernPgdir σ) :
    LowKept m σ σ' := by
  obtain ⟨free', hhalf', -⟩ := htested.kernelHalf hhalf
  obtain ⟨before, after, hbefore, -, -, -, hmem⟩ := htested.free
  cases hhalf.threads.unique hbefore
  have hkern : σ'.mem m.kernPgdir = σ.mem m.kernPgdir := hmem _ hhalf.kern_not_free
  refine ⟨⟨free', hhalf'⟩, fun d hd hne table htable => ?_, fun w entry hw hentry => ?_⟩
  · rw [hkern] at htable ⊢
    exact hopen d hd hne table htable
  · obtain ⟨table, htable, hword⟩ := hentry
    have hfree := (hhalf.table_pool _ (pdx_lt w) hw.ne table htable).2.1
    exact ⟨table, by rw [hkern, htable], by rw [hmem table hfree, hword]⟩

/-- Clearing an entry above `UVPT`. -/
theorem clearEntry_keeps (hhalf : KernelHalf m.pool m.kernPgdir m.Window σ free)
    (hopen : Opened m.kernPgdir σ) {va : Word} (hva : uvptIndex < pdx va)
    (hrun : clearEntry σ m.kernPgdir va = some σ') : LowKept m σ σ' := by
  cases htable : entryPage (σ.mem m.kernPgdir (pdx va)) with
  | none =>
    have hwalk : pgdirWalk σ m.kernPgdir va false = some (none, σ) := by
      rw [entryPage_eq_none] at htable
      simp [pgdirWalk, htable]
    rw [clearEntry, hwalk] at hrun
    cases hrun
  | some table =>
    have hresult : clearEntry σ m.kernPgdir va = some (σ.store table (ptx va) 0) := by
      simp [clearEntry, hhalf.walk_present hva.ne' htable false]
    cases Option.some.inj (hresult.symm.trans hrun)
    obtain ⟨hopen', -, hkept⟩ := hhalf.store_entry hopen hva.ne' 0 htable
    have hserved := hhalf.stored_served (pdx_lt va) hva.ne' htable (m.window_zero _ (ptx va))
    refine ⟨(hserved.keeps _ rfl).2, hopen', fun w old hw hold => hkept w old hw.ne ?_ hold⟩
    intro v hv hpage
    rw [Set.mem_singleton_iff.mp hv] at hpage
    have hindex : pdx w = pdx va := by
      rw [pgnum_eq, pgnum_eq] at hpage
      rw [pdx_eq, pdx_eq]
      omega
    exact absurd hindex (hw.trans hva).ne

theorem checkMmio_keeps (hhalf : KernelHalf m.pool m.kernPgdir m.Window σ free)
    (hopen : Opened m.kernPgdir σ) {mmio : Word}
    (hrun : checkMmio σ m.kernPgdir = some (mmio, σ')) : LowKept m σ σ' := by
  have hperm : (ptePcd ||| ptePwt ||| pteW) &&& pteU = 0 := by decide
  rw [checkMmio_eq] at hrun
  obtain ⟨τ, hchecked, hpair⟩ := Option.map_eq_some_iff.mp hrun
  obtain rfl : τ = σ' := congrArg Prod.snd hpair
  obtain ⟨σ₁, hrun₁, hchecked⟩ := Option.bind_eq_some_iff.mp hchecked
  obtain ⟨σ₂, hrun₂, hchecked⟩ := Option.bind_eq_some_iff.mp hchecked
  obtain ⟨σ₃, hrun₃, hchecked⟩ := Option.bind_eq_some_iff.mp hchecked
  obtain ⟨σ₄, hrun₄, hrun₅⟩ := Option.bind_eq_some_iff.mp hchecked
  have hkept₁ := supervisor_keeps hhalf hopen (by decide) (by decide) (by decide) hperm hrun₁
  obtain ⟨free₁, hhalf₁⟩ := hkept₁.half
  have hkept₂ := supervisor_keeps hhalf₁ hkept₁.opened (by decide) (by decide) (by decide) hperm
    hrun₂
  obtain ⟨free₂, hhalf₂⟩ := hkept₂.half
  have hkept₃ := clearEntry_keeps hhalf₂ hkept₂.opened (by decide) hrun₃
  obtain ⟨free₃, hhalf₃⟩ := hkept₃.half
  have hkept₄ := clearEntry_keeps hhalf₃ hkept₃.opened (by decide) hrun₄
  obtain ⟨free₄, hhalf₄⟩ := hkept₄.half
  have hkept₅ := clearEntry_keeps hhalf₄ hkept₄.opened (by decide) hrun₅
  exact (((hkept₁.trans hkept₂).trans hkept₃).trans hkept₄).trans hkept₅

theorem memInitMp_keeps (hsane : m.Sane)
    (hhalf : KernelHalf m.pool m.kernPgdir m.Window σ free) (hopen : Opened m.kernPgdir σ)
    {count : ℕ} (hcount : count ≤ ncpuMax) (hrun : memInitMp m σ count = some σ') :
    LowKept m σ σ' := by
  induction count generalizing σ' with
  | zero =>
    cases hrun
    exact ⟨⟨free, hhalf⟩, hopen, fun _ _ _ hentry => hentry⟩
  | succ i ih =>
    have hi : i < 8 := hcount
    obtain ⟨mid, hmid, hlast⟩ := Option.bind_eq_some_iff.mp hrun
    have hkept := ih (by omega) hmid
    obtain ⟨free', hhalf'⟩ := hkept.half
    have hva := toNat_stackBase hi
    have hsize : kstkSize.toNat = 0x8000 := by decide
    exact hkept.trans (supervisor_keeps hhalf' hkept.opened (by omega) (by omega)
      (hsane.stacks_aligned i) (by decide) hlast)

theorem lapicInit_keeps (hhalf : KernelHalf m.pool m.kernPgdir m.Window σ free)
    (hopen : Opened m.kernPgdir σ) {count : ℕ} (hcount : count ≤ ncpuMax) {mmio : Word}
    (hrun : lapicInit m (mmioBase + 0x3000) σ count = some (mmio, σ')) : LowKept m σ σ' := by
  induction count generalizing mmio σ' with
  | zero =>
    cases hrun
    exact ⟨⟨free, hhalf⟩, hopen, fun _ _ _ hentry => hentry⟩
  | succ k ih =>
    have hk : k < 8 := hcount
    obtain ⟨⟨before, mid⟩, hmid, hlast⟩ := Option.bind_eq_some_iff.mp hrun
    have hkept := ih (by omega) hmid
    obtain ⟨free', hhalf'⟩ := hkept.half
    have hbelow : k ≤ ncpuMax := by omega
    obtain ⟨mmio', result, hresult, hlow, hhigh, -⟩ := lapicInit_served hhalf hbelow
    obtain ⟨mid', -, hpair⟩ := Option.map_eq_some_iff.mp (hresult.symm.trans hmid)
    obtain rfl : mmio' = before := congrArg Prod.fst hpair
    dsimp only at hlast
    by_cases hlapic : m.lapicaddr = 0
    · rw [if_pos hlapic] at hlast
      cases hlast
      exact hkept
    · have hbase : mmioBase.toNat = 0xEF800000 := by decide
      have hlim : mmioLim.toNat = 0xEFC00000 := by decide
      have hsize := toNat_mmioSize m.lapicaddr
      have hnext : (mmio' + (roundUp (m.lapicaddr + 4096) - roundDown m.lapicaddr)).toNat =
          mmio'.toNat + (roundUp (m.lapicaddr + 4096) - roundDown m.lapicaddr).toNat := by
        rw [BitVec.toNat_add]
        omega
      have hfits : mmio' + (roundUp (m.lapicaddr + 4096) - roundDown m.lapicaddr) < mmioLim := by
        rw [BitVec.lt_def]
        omega
      rw [if_neg hlapic, mmioMapRegion_of_fits mid m.kernPgdir _ _ _ hfits] at hlast
      obtain ⟨final, hfinal, hpair'⟩ := Option.map_eq_some_iff.mp hlast
      obtain rfl : final = σ' := congrArg Prod.snd hpair'
      refine hkept.trans (supervisor_keeps hhalf' hkept.opened (by omega) (by omega) ?_ (by decide)
        hfinal)
      rw [pteAddr_eq_self_iff, toNat_roundDown]
      omega

/-- The kernel's page tables show `pages` at `UPAGES` and `envs` at `UENVS`, and the
four megabytes there. -/
structure Windows (m : Machine) (σ : Phys) : Prop where
  opened : Opened m.kernPgdir σ
  pages : ∀ k < 1024,
    EntryIs m.kernPgdir σ (pageBehind upages k) (pageBehind (page2pa m.pagesStart) k ||| pteU ||| pteP)
  envs : ∀ k < 1024,
    EntryIs m.kernPgdir σ (pageBehind uenvs k) (pageBehind (page2pa m.envsStart) k ||| pteU ||| pteP)

theorem pdx_window {va : Word} {d k : ℕ} (hva : va.toNat = d * 4194304) (hd : d < 1023)
    (hk : k < 1024) : pdx (pageBehind va k) = d := by
  rw [pdx_eq, toNat_add_pages va k (by omega), hva]
  omega

theorem pdx_upages {k : ℕ} (hk : k < 1024) : pdx (pageBehind upages k) = 956 :=
  pdx_window (by decide) (by decide) hk

theorem pdx_uenvs {k : ℕ} (hk : k < 1024) : pdx (pageBehind uenvs k) = 955 :=
  pdx_window (by decide) (by decide) hk

theorem LowKept.windows (hkept : LowKept m σ σ') (hwindows : Windows m σ) : Windows m σ' where
  opened := hkept.opened
  pages := fun k hk => hkept.entries _ _ (by rw [pdx_upages hk, uvptIndex_eq]; norm_num)
    (hwindows.pages k hk)
  envs := fun k hk => hkept.entries _ _ (by rw [pdx_uenvs hk, uvptIndex_eq]; norm_num)
    (hwindows.envs k hk)

/-- What `mem_init` maps. -/
theorem memInitMap_windows (hsane : m.Sane)
    (hhalf : KernelHalf m.pool m.kernPgdir m.Window σ free) (hopen : Opened m.kernPgdir σ)
    {mmio : Word} (hrun : memInitMap m σ = some (mmio, σ')) :
    (∃ free', KernelHalf m.pool m.kernPgdir m.Window σ' free') ∧ Windows m σ' := by
  have hcount : (ptSize / pgSize).toNat = 1024 := by decide
  obtain ⟨⟨mmio₁, σ₁⟩, hrun₁, hrun⟩ := Option.bind_eq_some_iff.mp hrun
  obtain ⟨σ₂, hrun₂, hrun⟩ := Option.bind_eq_some_iff.mp hrun
  obtain ⟨σ₃, hrun₃, hrun⟩ := Option.bind_eq_some_iff.mp hrun
  obtain ⟨σ₄, hrun₄, hrun⟩ := Option.bind_eq_some_iff.mp hrun
  obtain ⟨σ₅, hrun₅, hrun⟩ := Option.bind_eq_some_iff.mp hrun
  obtain ⟨σ₆, hrun₆, hdone⟩ := Option.bind_eq_some_iff.mp hrun
  cases hdone
  have hkept₁ := checkMmio_keeps hhalf hopen hrun₁
  obtain ⟨free₁, hhalf₁⟩ := hkept₁.half
  -- the two windows
  have hpages := hsane.mappable_pages
  have henvs := hsane.mappable_envs
  rw [bootMapRegion, hcount] at hrun₂ hrun₃
  rw [hcount] at hpages henvs
  obtain ⟨⟨free₂, hhalf₂⟩, hopen₂, hentries₂, -⟩ :=
    hhalf₁.region_entries m.window_zero hkept₁.opened hpages (by decide) hrun₂
  obtain ⟨⟨free₃, hhalf₃⟩, hopen₃, hentries₃, hothers₃⟩ :=
    hhalf₂.region_entries m.window_zero hopen₂ henvs (by decide) hrun₃
  have hwindows : Windows m σ₃ :=
    { opened := hopen₃
      pages := fun k hk => by
        refine hothers₃ _ _ (by rw [pdx_upages hk, uvptIndex_eq]; norm_num) (fun v hv => ?_)
          (hentries₂ k hk)
        obtain ⟨j, hj, rfl⟩ := hv
        have hdiff : pdx (pageBehind upages k) ≠ pdx (pageBehind uenvs j) := by
          rw [pdx_upages hk, pdx_uenvs hj]
          norm_num
        intro hpage
        refine hdiff ?_
        rw [pgnum_eq, pgnum_eq] at hpage
        rw [pdx_eq, pdx_eq]
        omega
      envs := hentries₃ }
  have hkept₄ := supervisor_keeps hhalf₃ hopen₃ (by decide) (by decide) hsane.stack_aligned
    (by decide) hrun₄
  obtain ⟨free₄, hhalf₄⟩ := hkept₄.half
  have hkept₅ := supervisor_keeps hhalf₄ hkept₄.opened (by decide) (by decide) (by decide)
    (by decide) hrun₅
  obtain ⟨free₅, hhalf₅⟩ := hkept₅.half
  have hkept₆ := memInitMp_keeps hsane hhalf₅ hkept₅.opened le_rfl hrun₆
  exact ⟨hkept₆.half, ((hkept₄.trans hkept₅).trans hkept₆).windows hwindows⟩

/-- The kernel half that booting leaves. -/
theorem Boots.windows (hsane : m.Sane) {programs : List Program} {s : Kernel}
    (hboots : Boots m programs s) :
    ∃ σ free, KernelHalf m.pool m.kernPgdir m.Window σ free ∧ Windows m σ ∧
      envCreates (initialKernel m σ) programs = some s := by
  obtain ⟨tested, mapped, installed, mmio, mmio', σ, htested, hmap, hinstalled, hlapic,
    hcreate⟩ := hboots
  have hstart := hsane.memInitPages
  have hopen : Opened m.kernPgdir (memInitPages m) := fun d _ hne table htable => by
    rw [memInitPages_kern, if_neg hne, entryPage_zero] at htable
    cases htable
  have hkept := htested.keeps hstart hopen
  obtain ⟨free₁, hhalf₁⟩ := hkept.half
  obtain ⟨⟨free₂, hhalf₂⟩, hwindows⟩ := memInitMap_windows hsane hhalf₁ hkept.opened hmap
  have hkept₃ := hinstalled.keeps hhalf₂ hwindows.opened
  obtain ⟨free₃, hhalf₃⟩ := hkept₃.half
  have hmmio : mmio = mmioBase + 0x3000 := by
    obtain ⟨result, hresult, -⟩ := memInitMap_served hsane hhalf₁
    obtain ⟨mapped', -, hpair⟩ := Option.map_eq_some_iff.mp (hresult.symm.trans hmap)
    exact (congrArg Prod.fst hpair).symm
  rw [hmmio] at hlapic
  have hkept₄ := lapicInit_keeps hhalf₃ hkept₃.opened hsane.ncpu_le hlapic
  obtain ⟨free₄, hhalf₄⟩ := hkept₄.half
  exact ⟨σ, free₄, hhalf₄, (hkept₃.trans hkept₄).windows hwindows, hcreate⟩

end Booting

end OsLabs.Jos
