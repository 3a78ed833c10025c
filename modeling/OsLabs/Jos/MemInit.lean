import OsLabs.Jos.BootLayout

/-!
# `mem_init` keeps the layout

Every mapping that `mem_init` and `lapic_init` make is one that the layout
allows, and memory suffices for all of them when the free list is long.
-/

namespace OsLabs.Jos

open Function
open OsLabs.IntrusiveList

variable {m : Machine}

/-! ## Self tests -/

section SelfTests

variable {pool : Set ℕ} {kern : ℕ} {Allowed : ℕ → ℕ → Word → Prop} {σ σ' : Phys}
variable {free : List ℕ}

theorem KernelHalf.kern_not_free (hhalf : KernelHalf pool kern Allowed σ free) : kern ∉ free :=
  fun hmem => hhalf.kern_not_pool (hhalf.free_pool kern hmem)

/-- The self tests leave everything in use as it was. -/
theorem SelfTested.kernelHalf (htested : SelfTested σ σ')
    (hhalf : KernelHalf pool kern Allowed σ free) :
    ∃ free', KernelHalf pool kern Allowed σ' free' ∧
      ∀ spare, Enough kern σ free spare → Enough kern σ' free' spare := by
  obtain ⟨before, free', hbefore, hafter, hperm, -, hmem⟩ := htested.free
  cases hhalf.threads.unique hbefore
  have hkern : σ'.mem kern = σ.mem kern := hmem kern hhalf.kern_not_free
  refine ⟨free',
    { threads := hafter
      free_pool := fun page hpage => hhalf.free_pool page (hperm.mem_iff.mpr hpage)
      free_ref := fun page hpage => by
        rw [htested.refs]
        exact hhalf.free_ref page (hperm.mem_iff.mpr hpage)
      pool_lt := by rw [htested.npages]; exact hhalf.pool_lt
      npages_le := by rw [htested.npages]; exact hhalf.npages_le
      kern_not_pool := hhalf.kern_not_pool
      table_pool := fun d hd hne table htable => ?_
      table_inj := by rw [hkern]; exact hhalf.table_inj
      not_lost := fun page hpage => ?_
      user_empty := by rw [hkern]; exact hhalf.user_empty
      uvpt_entry := by rw [hkern]; exact hhalf.uvpt_entry
      allowed := fun d hd hne table htable i hi => ?_ }, fun spare henough => ?_⟩
  · rw [hkern] at htable
    obtain ⟨hpool, hfree, href⟩ := hhalf.table_pool d hd hne table htable
    refine ⟨hpool, fun hmem => hfree (hperm.mem_iff.mpr hmem), ?_⟩
    rw [htested.refs, href]
  · rw [hkern]
    exact (hhalf.not_lost page hpage).imp_left fun hmem => hperm.mem_iff.mp hmem
  · rw [hkern] at htable
    have hfree := (hhalf.table_pool d hd hne table htable).2.1
    rw [hmem table hfree]
    exact hhalf.allowed d hd hne table htable i hi
  · unfold Enough absentTables at *
    rwa [hkern, ← hperm.length_eq]

/-- Self tests that put everything back. -/
theorem SelfTested.refl (hhalf : KernelHalf pool kern Allowed σ free) : SelfTested σ σ :=
  ⟨rfl, rfl, free, free, hhalf.threads, hhalf.threads, List.Perm.refl free,
    fun _ _ => rfl, fun _ _ => rfl⟩

end SelfTests

/-! ## Ranges -/

theorem toNat_add_pages (va : Word) (i : ℕ) (hfits : va.toNat + i * 4096 < 2 ^ 32) :
    (va + BitVec.ofNat 32 i * pgSize).toNat = va.toNat + i * 4096 := by
  rw [BitVec.toNat_add, BitVec.toNat_mul, BitVec.toNat_ofNat, show pgSize.toNat = 4096 by decide]
  omega

theorem aligned_add_pages {pa : Word} (hpa : pteAddr pa = pa) (i : ℕ) :
    pteAddr (pa + BitVec.ofNat 32 i * pgSize) = pa + BitVec.ofNat 32 i * pgSize := by
  rw [pteAddr_eq_self_iff] at hpa ⊢
  rw [BitVec.toNat_add, BitVec.toNat_mul, BitVec.toNat_ofNat, show pgSize.toNat = 4096 by decide]
  omega

theorem and_entry {a perm mask : Word} (ha : pteAddr a = a) (hmask : pteAddr mask = 0)
    (hperm : perm &&& mask = 0) (hpresent : pteP &&& mask = 0) :
    (a ||| perm ||| pteP) &&& mask = 0 := by
  rw [BitVec.and_or_distrib_right, BitVec.and_or_distrib_right, aligned_and_flags ha hmask,
    hperm, hpresent]
  decide

/-- A mapping for the kernel alone, from the MMIO region upwards. -/
theorem mappable_supervisor (m : Machine) {va pa perm : Word} {count : ℕ}
    (hlow : 958 * 4194304 ≤ va.toNat) (hhigh : va.toNat + count * 4096 ≤ 2 ^ 32)
    (hpa : pteAddr pa = pa) (hperm : perm &&& pteU = 0) :
    Mappable m.Window va pa perm count := by
  intro i hi
  have hva := toNat_add_pages va i (by omega)
  have hindex := pdx_eq (va + BitVec.ofNat 32 i * pgSize)
  rw [hva] at hindex
  refine ⟨by rw [userPdes_eq]; omega, by rw [uvptIndex_eq]; omega, Or.inr (Or.inl ?_)⟩
  exact and_entry (aligned_add_pages hpa i) (by decide) hperm (by decide)

/-- The windows at `UPAGES` and `UENVS` show consecutive pages. -/
theorem mappable_window {va : Word} {d start : ℕ} (hva : va.toNat = d * 4194304)
    (hd : d = 955 ∨ d = 956) (hfits : start + 1024 ≤ 2 ^ 20)
    (hwindow : d = pdx upages ∧ start = m.pagesStart ∨ d = pdx uenvs ∧ start = m.envsStart) :
    Mappable m.Window va (page2pa start) pteU 1024 := by
  intro i hi
  have haddr := toNat_add_pages va i (by omega)
  have hindex := pdx_eq (va + BitVec.ofNat 32 i * pgSize)
  have htable := ptx_eq (va + BitVec.ofNat 32 i * pgSize)
  rw [haddr, hva] at hindex htable
  have hpdx : pdx (va + BitVec.ofNat 32 i * pgSize) = d := by omega
  have hptx : ptx (va + BitVec.ofNat 32 i * pgSize) = i := by omega
  have hstart := toNat_page2pa (show start < 2 ^ 20 by omega)
  have hpa := toNat_add_pages (page2pa start) i (by omega)
  have hnumber : pgnum ((page2pa start + BitVec.ofNat 32 i * pgSize) ||| pteU ||| pteP) =
      start + i := by
    rw [pgnum_or, pgnum_or, show pgnum pteU = 0 by decide, show pgnum pteP = 0 by decide,
      Nat.or_zero, Nat.or_zero, pgnum_eq, hpa, hstart]
    omega
  rw [hpdx, hptx]
  refine ⟨by rw [userPdes_eq]; omega, by rw [uvptIndex_eq]; omega, Or.inr (Or.inr ⟨?_, ?_⟩)⟩
  · exact and_entry (aligned_add_pages (pteAddr_page2pa start) i) (by decide) (by decide)
      (by decide)
  · rw [hnumber]
    rcases hwindow with ⟨hpages, rfl⟩ | ⟨henvs, rfl⟩
    · exact Or.inl ⟨hpages, rfl⟩
    · exact Or.inr ⟨henvs, rfl⟩

theorem Machine.Sane.mappable_pages (hsane : m.Sane) :
    Mappable m.Window upages (page2pa m.pagesStart) pteU (ptSize / pgSize).toNat := by
  have hmed := m.med_eq
  have henvs := m.envsStart_eq
  have hle := hsane.med_le
  have hnpages := hsane.npages_le
  rw [show (ptSize / pgSize).toNat = 1024 by decide]
  exact mappable_window (by decide) (Or.inr rfl) (by omega) (Or.inl ⟨by decide, rfl⟩)

theorem Machine.Sane.mappable_envs (hsane : m.Sane) :
    Mappable m.Window uenvs (page2pa m.envsStart) pteU (ptSize / pgSize).toNat := by
  have hmed := m.med_eq
  have hle := hsane.med_le
  have hnpages := hsane.npages_le
  rw [show (ptSize / pgSize).toNat = 1024 by decide]
  exact mappable_window (by decide) (Or.inl rfl) (by omega) (Or.inr ⟨by decide, rfl⟩)

/-! ## The mappings in order -/

section Mappings

variable {σ : Phys} {free : List ℕ}

theorem supervisor_served
    (hhalf : KernelHalf m.pool m.kernPgdir m.Window σ free) {va size pa perm : Word}
    (hlow : 958 * 4194304 ≤ va.toNat) (hhigh : va.toNat + size.toNat ≤ 2 ^ 32)
    (hpa : pteAddr pa = pa) (hperm : perm &&& pteU = 0) :
    Served m.pool m.kernPgdir m.Window σ free (bootMapRegion σ m.kernPgdir va size pa perm) := by
  refine bootMapRegion_served hhalf m.window_zero (mappable_supervisor m hlow ?_ hpa hperm)
  rw [BitVec.toNat_udiv, show pgSize.toNat = 4096 by decide]
  omega

/-- The page table of the MMIO region exists once something is mapped there. -/
theorem mmio_present (hhalf : KernelHalf m.pool m.kernPgdir m.Window σ free) {σ' : Phys}
    {perm : Word} (hperm : perm &&& pteU = 0)
    (hresult : bootMapRegion σ m.kernPgdir mmioBase 0x2000 0 perm = some σ') :
    (entryPage (σ'.mem m.kernPgdir 958)).isSome := by
  have hmap : Mappable m.Window mmioBase 0 perm (1 + 1) :=
    mappable_supervisor m (by decide) (by decide) (by decide) hperm
  have hcount : ((0x2000 : Word) / pgSize).toNat = 1 + 1 := by decide
  rw [bootMapRegion, hcount] at hresult
  have hsome := bootMapPages_present hhalf m.window_zero hmap hresult
  rwa [show pdx (mmioBase + BitVec.ofNat 32 1 * pgSize) = 958 by decide] at hsome

/-- A request to `mmio_map_region` that fits. -/
theorem mmioMapRegion_of_fits (σ : Phys) (kern : ℕ) (base pa size : Word)
    (hfits : base + (roundUp (pa + size) - roundDown pa) < mmioLim) :
    mmioMapRegion σ kern base pa size =
      (bootMapRegion σ kern base (roundUp (pa + size) - roundDown pa) (roundDown pa)
        (ptePcd ||| ptePwt ||| pteW)).map
        fun σ' => (base + (roundUp (pa + size) - roundDown pa), σ') := by
  unfold mmioMapRegion
  rw [if_neg (by rw [BitVec.not_le]; exact hfits)]
  cases bootMapRegion σ kern base (roundUp (pa + size) - roundDown pa) (roundDown pa)
    (ptePcd ||| ptePwt ||| pteW) <;> rfl

/-- `checkMmio` without the bookkeeping of `mmio_map_region`. -/
theorem checkMmio_eq (σ : Phys) (kern : ℕ) : checkMmio σ kern =
    ((bootMapRegion σ kern mmioBase 0x2000 0 (ptePcd ||| ptePwt ||| pteW)).bind
      fun σ => (bootMapRegion σ kern (mmioBase + 0x2000) 0x1000 0
        (ptePcd ||| ptePwt ||| pteW)).bind
      fun σ => (clearEntry σ kern mmioBase).bind
      fun σ => (clearEntry σ kern (mmioBase + pgSize)).bind
      fun σ => clearEntry σ kern (mmioBase + 0x2000)).map
        fun σ' => (mmioBase + 0x3000, σ') := by
  have hfirst := mmioMapRegion_of_fits σ kern mmioBase 0 4097 (by decide)
  have hsecond := fun σ => mmioMapRegion_of_fits σ kern (mmioBase + 0x2000) 0 4096 (by decide)
  rw [show roundUp ((0 : Word) + 4097) - roundDown 0 = 0x2000 by decide,
    show roundDown (0 : Word) = 0 by decide] at hfirst
  rw [show roundUp ((0 : Word) + 4096) - roundDown 0 = 0x1000 by decide,
    show roundDown (0 : Word) = 0 by decide,
    show mmioBase + (0x2000 : Word) + 0x1000 = mmioBase + 0x3000 by decide] at hsecond
  unfold checkMmio
  simp only [hfirst, Option.bind_eq_bind, Option.map_eq_bind, Option.bind_assoc,
    Function.comp_def, Option.bind_some, hsecond]
  rfl

theorem checkMmio_served (hhalf : KernelHalf m.pool m.kernPgdir m.Window σ free) :
    ∃ result, checkMmio σ m.kernPgdir = result.map (fun σ' => (mmioBase + 0x3000, σ')) ∧
      Served m.pool m.kernPgdir m.Window σ free result := by
  refine ⟨_, checkMmio_eq σ m.kernPgdir, ?_⟩
  have hperm : (ptePcd ||| ptePwt ||| pteW) &&& pteU = 0 := by decide
  refine (supervisor_served hhalf (by decide) (by decide) (by decide) hperm).bind
    fun σ₁ free₁ hrun₁ hhalf₁ => ?_
  have hpresent₁ := mmio_present hhalf hperm hrun₁
  have hserved₂ := supervisor_served hhalf₁ (show 958 * 4194304 ≤ (mmioBase + 0x2000).toNat by decide)
    (show (mmioBase + 0x2000).toNat + (0x1000 : Word).toNat ≤ 2 ^ 32 by decide)
    (show pteAddr 0 = 0 by decide) hperm
  refine hserved₂.bind fun σ₂ free₂ hrun₂ hhalf₂ => ?_
  have hpresent₂ := (hserved₂.keeps σ₂ hrun₂).1 958 hpresent₁
  have hserved₃ := clearEntry_served hhalf₂ m.window_zero (show pdx mmioBase ≠ uvptIndex by decide)
    (by rwa [show pdx mmioBase = 958 by decide])
  refine hserved₃.bind fun σ₃ free₃ hrun₃ hhalf₃ => ?_
  have hpresent₃ := (hserved₃.keeps σ₃ hrun₃).1 958 hpresent₂
  have hserved₄ := clearEntry_served hhalf₃ m.window_zero
    (show pdx (mmioBase + pgSize) ≠ uvptIndex by decide)
    (by rwa [show pdx (mmioBase + pgSize) = 958 by decide])
  refine hserved₄.bind fun σ₄ free₄ hrun₄ hhalf₄ => ?_
  have hpresent₄ := (hserved₄.keeps σ₄ hrun₄).1 958 hpresent₃
  exact clearEntry_served hhalf₄ m.window_zero (by decide)
    (by rwa [show pdx (mmioBase + 0x2000) = 958 by decide])

/-- The lowest address of the stack of CPU `i`. -/
theorem toNat_stackBase {i : ℕ} (hi : i < 8) :
    (kstackTop - kstkSize - BitVec.ofNat 32 i * (kstkSize + kstkGap)).toNat =
      0xEFFF8000 - i * 0x10000 := by
  have hbase : kstackTop - kstkSize = 0xEFFF8000 := by decide
  have hstep : kstkSize + kstkGap = 0x10000 := by decide
  rw [hbase, hstep, BitVec.toNat_sub, BitVec.toNat_mul, BitVec.toNat_ofNat,
    show (0x10000 : Word).toNat = 0x10000 by decide,
    show (0xEFFF8000 : Word).toNat = 0xEFFF8000 by decide]
  omega

theorem memInitMp_served (hsane : m.Sane)
    (hhalf : KernelHalf m.pool m.kernPgdir m.Window σ free) {count : ℕ} (hcount : count ≤ ncpuMax) :
    Served m.pool m.kernPgdir m.Window σ free (memInitMp m σ count) := by
  induction count with
  | zero => exact Served.pure hhalf
  | succ i ih =>
      have hi : i < 8 := hcount
      refine (ih (by omega)).bind fun σ' free' _ hhalf' => ?_
      have hva := toNat_stackBase hi
      have hsize : kstkSize.toNat = 0x8000 := by decide
      exact supervisor_served hhalf' (by omega) (by omega) (hsane.stacks_aligned i) (by decide)

/-- `memInitMap` as a sequence of mappings. -/
theorem memInitMap_eq (m : Machine) (σ : Phys) {checked : Option Phys}
    (hcheck : checkMmio σ m.kernPgdir = checked.map fun σ' => (mmioBase + 0x3000, σ')) :
    memInitMap m σ =
      (checked.bind
        fun σ => (bootMapRegion σ m.kernPgdir upages ptSize (page2pa m.pagesStart) pteU).bind
        fun σ => (bootMapRegion σ m.kernPgdir uenvs ptSize (page2pa m.envsStart) pteU).bind
        fun σ => (bootMapRegion σ m.kernPgdir (kstackTop - kstkSize) kstkSize m.bootstack
          pteW).bind
        fun σ => (bootMapRegion σ m.kernPgdir kernBase (-kernBase) 0 pteW).bind
        fun σ => memInitMp m σ ncpuMax).map fun σ' => (mmioBase + 0x3000, σ') := by
  unfold memInitMap
  simp only [hcheck, Option.bind_eq_bind, Option.map_eq_bind, Option.bind_assoc,
    Function.comp_def, Option.bind_some]
  rfl

theorem memInitMap_served (hsane : m.Sane)
    (hhalf : KernelHalf m.pool m.kernPgdir m.Window σ free) :
    ∃ result, memInitMap m σ = result.map (fun σ' => (mmioBase + 0x3000, σ')) ∧
      Served m.pool m.kernPgdir m.Window σ free result := by
  obtain ⟨checked, hcheck, hserved⟩ := checkMmio_served hhalf
  refine ⟨_, memInitMap_eq m σ hcheck, ?_⟩
  refine hserved.bind fun σ₁ free₁ _ hhalf₁ => ?_
  refine (bootMapRegion_served hhalf₁ m.window_zero hsane.mappable_pages).bind
    fun σ₂ free₂ _ hhalf₂ => ?_
  refine (bootMapRegion_served hhalf₂ m.window_zero hsane.mappable_envs).bind
    fun σ₃ free₃ _ hhalf₃ => ?_
  refine (supervisor_served hhalf₃ (by decide) (by decide) hsane.stack_aligned
    (by decide)).bind fun σ₄ free₄ _ hhalf₄ => ?_
  refine (supervisor_served hhalf₄ (by decide) (by decide) (by decide) (by decide)).bind
    fun σ₅ free₅ _ hhalf₅ => ?_
  exact memInitMp_served hsane hhalf₅ (Nat.le_refl _)

/-- A request for one page that is not aligned takes two. -/
theorem toNat_mmioSize (pa : Word) : (roundUp (pa + 4096) - roundDown pa).toNat ≤ 0x2000 := by
  have hpa := pa.isLt
  have hone : (1 : Word).toNat = 1 := by decide
  have hsize : (4096 : Word).toNat = 4096 := by decide
  have hpage : pgSize.toNat = 4096 := by decide
  rw [BitVec.toNat_sub, roundUp, toNat_roundDown, toNat_roundDown, BitVec.toNat_sub,
    BitVec.toNat_add, BitVec.toNat_add, hone, hsize, hpage]
  omega

/-- `lapic_init` on eight CPUs stays within the MMIO region. -/
theorem lapicInit_served (hhalf : KernelHalf m.pool m.kernPgdir m.Window σ free) {count : ℕ}
    (hcount : count ≤ ncpuMax) :
    ∃ mmio result, lapicInit m (mmioBase + 0x3000) σ count =
        result.map (fun σ' => (mmio, σ')) ∧
      mmioBase.toNat ≤ mmio.toNat ∧ mmio.toNat ≤ mmioBase.toNat + 0x3000 + count * 0x2000 ∧
      Served m.pool m.kernPgdir m.Window σ free result := by
  have hbase : mmioBase.toNat = 0xEF800000 := by decide
  have hlim : mmioLim.toNat = 0xEFC00000 := by decide
  induction count with
  | zero =>
      have hstart : (mmioBase + 0x3000).toNat = 0xEF803000 := by decide
      exact ⟨mmioBase + 0x3000, some σ, rfl, by omega, by omega, Served.pure hhalf⟩
  | succ k ih =>
      have hk : k < 8 := hcount
      obtain ⟨mmio, result, hresult, hlow, hhigh, hserved⟩ := ih (by omega)
      have hkept : mmio.toNat ≤ mmioBase.toNat + 0x3000 + (k + 1) * 0x2000 :=
        hhigh.trans (Nat.add_le_add_left (Nat.mul_le_mul_right _ (Nat.le_succ k)) _)
      by_cases hlapic : m.lapicaddr = 0
      · refine ⟨mmio, result, ?_, hlow, hkept, hserved⟩
        rw [lapicInit, hresult]
        cases result <;> simp [hlapic]
      · have hsize := toNat_mmioSize m.lapicaddr
        have hnext : (mmio + (roundUp (m.lapicaddr + 4096) - roundDown m.lapicaddr)).toNat =
            mmio.toNat + (roundUp (m.lapicaddr + 4096) - roundDown m.lapicaddr).toNat := by
          rw [BitVec.toNat_add]
          omega
        refine ⟨mmio + (roundUp (m.lapicaddr + 4096) - roundDown m.lapicaddr),
          result.bind fun σ => bootMapRegion σ m.kernPgdir mmio
            (roundUp (m.lapicaddr + 4096) - roundDown m.lapicaddr) (roundDown m.lapicaddr)
            (ptePcd ||| ptePwt ||| pteW), ?_, by omega, by omega, ?_⟩
        · have hfits : mmio + (roundUp (m.lapicaddr + 4096) - roundDown m.lapicaddr) < mmioLim := by
            rw [BitVec.lt_def]
            omega
          rw [lapicInit, hresult]
          cases result with
          | none => rfl
          | some mid =>
              change (if m.lapicaddr = 0 then _ else _) = _
              rw [if_neg hlapic, mmioMapRegion_of_fits mid m.kernPgdir _ _ _ hfits]
              rfl
        · refine hserved.bind fun mid free' _ hhalf' =>
            supervisor_served hhalf' (by omega) (by omega) ?_ (by decide)
          rw [pteAddr_eq_self_iff, toNat_roundDown]
          omega

end Mappings

/-! ## The memory that the first environments find -/

/-- What `mem_init` and `lapic_init` leave. -/
theorem Boots.layout {programs : List Program} {s : Kernel} (hboots : Boots m programs s)
    (hsane : m.Sane) :
    ∃ σ free, KernelHalf m.pool m.kernPgdir m.Window σ free ∧
      envCreates (initialKernel m σ) programs = some s := by
  obtain ⟨tested, mapped, installed, mmio, mmio', σ, htested, hmap, hinstalled, hlapic,
    hcreate⟩ := hboots
  obtain ⟨free₁, hhalf₁, -⟩ := htested.kernelHalf hsane.memInitPages
  obtain ⟨result, hresult, hserved⟩ := memInitMap_served hsane hhalf₁
  rw [hresult] at hmap
  obtain ⟨mapped', hmapped, hpair⟩ := Option.map_eq_some_iff.mp hmap
  cases hpair
  obtain ⟨-, free₂, hhalf₂⟩ := hserved.keeps mapped hmapped
  obtain ⟨free₃, hhalf₃, -⟩ := hinstalled.kernelHalf hhalf₂
  obtain ⟨mmio'', result', hresult', -, -, hserved'⟩ := lapicInit_served hhalf₃ hsane.ncpu_le
  rw [hresult'] at hlapic
  obtain ⟨final, hfinal, hpair'⟩ := Option.map_eq_some_iff.mp hlapic
  cases hpair'
  obtain ⟨-, free₄, hhalf₄⟩ := hserved'.keeps σ hfinal
  exact ⟨σ, free₄, hhalf₄, hcreate⟩

theorem absentTables_le (σ : Phys) (kern : ℕ) : absentTables σ kern ≤ 1024 :=
  (Finset.card_filter_le _ _).trans (Finset.card_range 1024).le

/-- A machine with enough memory boots, and `spare` pages are left. -/
theorem Machine.Sane.boots (hsane : m.Sane) {spare : ℕ}
    (hspare : 1024 + spare ≤ m.initialFree.length) :
    ∃ σ free, KernelHalf m.pool m.kernPgdir m.Window σ free ∧ spare ≤ free.length ∧
      ∀ programs s, envCreates (initialKernel m σ) programs = some s → Boots m programs s := by
  have hstart := hsane.memInitPages
  have henough : Enough m.kernPgdir (Jos.memInitPages m) m.initialFree spare := by
    have habsent := absentTables_le (Jos.memInitPages m) m.kernPgdir
    unfold Enough
    omega
  obtain ⟨result, hresult, hserved⟩ := memInitMap_served hsane hstart
  obtain ⟨mapped, free, rfl, hhalf, hleft⟩ := hserved.succeeds spare henough
  obtain ⟨mmio, result', hresult', -, -, hserved'⟩ := lapicInit_served hhalf hsane.ncpu_le
  obtain ⟨σ, free', rfl, hhalf', hleft'⟩ := hserved'.succeeds spare hleft
  refine ⟨σ, free', hhalf', le_of_add_le_right hleft', fun programs s hcreate => ?_⟩
  exact .intro _ mapped mapped _ mmio σ (SelfTested.refl hstart) hresult
    (SelfTested.refl hhalf) hresult' hcreate

/-! ## A machine -/

/-- Two CPUs and 64 MB of memory, all of it zero. -/
def smallMachine : Machine where
  npages := 0x4000
  kernelEnd := 0x200
  bootstack := page2pa 0x110
  kstacks := fun i => page2pa (0x120 + 8 * i)
  lapicaddr := 0xFEE00000
  ncpu := 2
  pageRam := fun _ => ⟨none, 0⟩
  ram := fun _ _ => 0

theorem smallMachine_sane : smallMachine.Sane where
  image_high := by decide
  med_le := by decide
  npages_le := by decide
  stack_aligned := pteAddr_page2pa _
  stacks_aligned := fun _ => pteAddr_page2pa _
  ncpu_pos := by decide
  ncpu_le := by decide

theorem smallMachine_free : smallMachine.initialFree.length = 15813 := by
  rw [Machine.initialFree, List.length_append, length_downFrom, length_downFrom]
  decide

end OsLabs.Jos
