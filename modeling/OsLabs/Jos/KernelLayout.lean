import OsLabs.Jos.MemInit

/-!
# The kernel's address space after boot

`mem_init` composes a dozen calls of `boot_map_region`.  Each rewrites the
entries of its own pages and no others; the composition says where every
kernel address is mapped, and which ones are not.
-/

namespace OsLabs.Jos

open Function
open OsLabs.IntrusiveList

/-- The entry for `va` as written, zero where there is no page table. -/
def kernWord (σ : Phys) (kern : ℕ) (va : Word) : Word :=
  match entryPage (σ.mem kern (pdx va)) with
  | none => 0
  | some table => σ.mem table (ptx va)

/-- Page tables are present, writable and open to users in the directory, so
that the permissions are those of the tables. -/
def FullTables (σ : Phys) (kern : ℕ) : Prop :=
  ∀ d, d ≠ uvptIndex → ∀ table, entryPage (σ.mem kern d) = some table →
    σ.mem kern d = tableEntry table

/-- `σ'` has the entries of `new` where `new` gives one, and those of `σ`
elsewhere. -/
structure Rewrites (kern : ℕ) (new : Word → Option Word) (σ σ' : Phys) : Prop where
  word : ∀ va, pdx va ≠ uvptIndex → kernWord σ' kern va = (new va).getD (kernWord σ kern va)
  full : FullTables σ kern → FullTables σ' kern

theorem Rewrites.refl (kern : ℕ) (σ : Phys) : Rewrites kern (fun _ => none) σ σ :=
  ⟨fun _ _ => rfl, id⟩

theorem Rewrites.trans {kern : ℕ} {new new' : Word → Option Word} {σ σ' σ'' : Phys}
    (hfirst : Rewrites kern new σ σ') (hsecond : Rewrites kern new' σ' σ'') :
    Rewrites kern (fun va => (new' va).or (new va)) σ σ'' := by
  refine ⟨fun va hva => ?_, fun hfull => hsecond.full (hfirst.full hfull)⟩
  rw [hsecond.word va hva, hfirst.word va hva]
  cases new' va <;> rfl

/-- Two addresses with one page number have the same indices. -/
theorem indices_of_pgnum {left right : Word} :
    pgnum left = pgnum right ↔ pdx left = pdx right ∧ ptx left = ptx right := by
  have hleft := pgnum_eq_pdx_ptx left
  have hright := pgnum_eq_pdx_ptx right
  have htleft := ptx_lt left
  have htright := ptx_lt right
  rw [nptEntries] at htleft htright
  constructor
  · intro hsame
    omega
  · rintro ⟨hd, ht⟩
    rw [hleft, hright, hd, ht]

/-! ## One page -/

section OnePage

variable {pool : Set ℕ} {kern : ℕ} {Allowed : ℕ → ℕ → Word → Prop} {σ σ' : Phys}
variable {free : List ℕ} {va : Word}

/-- Storing into the page table for `va`. -/
theorem KernelHalf.store_rewrites (hhalf : KernelHalf pool kern Allowed σ free) {table : ℕ}
    (hva : pdx va ≠ uvptIndex) (htable : entryPage (σ.mem kern (pdx va)) = some table)
    (value : Word) :
    Rewrites kern (fun other => if pgnum other = pgnum va then some value else none) σ
      (σ.store table (ptx va) value) := by
  have hkern : kern ≠ table := fun hsame =>
    hhalf.kern_not_pool (hsame ▸ (hhalf.table_pool _ (pdx_lt va) hva table htable).1)
  have hdir : (σ.store table (ptx va) value).mem kern = σ.mem kern :=
    mem_store_of_ne _ _ _ _ hkern
  constructor
  · intro other hother
    rw [kernWord, kernWord, hdir]
    by_cases hsame : pgnum other = pgnum va
    · obtain ⟨hd, ht⟩ := indices_of_pgnum.mp hsame
      rw [if_pos hsame, hd, htable, ht]
      dsimp only
      rw [mem_store_self, update_self]
      rfl
    · rw [if_neg hsame]
      cases hentry : entryPage (σ.mem kern (pdx other)) with
      | none => rfl
      | some page =>
        by_cases hpage : page = table
        · subst hpage
          have hd := hhalf.table_inj _ (pdx_lt other) hother _ (pdx_lt va) hva _ hentry htable
          have ht : ptx other ≠ ptx va := fun ht => hsame (indices_of_pgnum.mpr ⟨hd, ht⟩)
          dsimp only
          rw [mem_store_self, update_of_ne ht]
          rfl
        · dsimp only
          rw [mem_store_of_ne _ _ _ _ hpage]
          rfl
  · intro hfull d hd page hentry
    rw [hdir] at hentry ⊢
    exact hfull d hd page hentry

/-- A new page table is empty. -/
theorem KernelHalf.install_rewrites {pg : ℕ}
    (hhalf : KernelHalf pool kern Allowed σ (pg :: free))
    (habsent : entryPage (σ.mem kern (pdx va)) = none) :
    Rewrites kern (fun _ => none) σ (installTable σ kern (pdx va) pg) := by
  have hpool := hhalf.free_pool pg List.mem_cons_self
  have hlt := lt_of_lt_of_le (hhalf.pool_lt pg hpool) hhalf.npages_le
  constructor
  · intro other hother
    rw [kernWord, kernWord, hhalf.installTable_kern]
    by_cases hd : pdx other = pdx va
    · rw [hd, update_self, entryPage_tableEntry hlt, habsent]
      dsimp only
      rw [hhalf.installTable_table]
      rfl
    · rw [update_of_ne hd]
      cases hentry : entryPage (σ.mem kern (pdx other)) with
      | none => rfl
      | some page =>
        obtain ⟨hmem, hfree, -⟩ := hhalf.table_pool _ (pdx_lt other) hother page hentry
        have hpage : page ≠ pg := fun hsame => hfree (hsame ▸ List.mem_cons_self)
        have hkern : page ≠ kern := fun hsame => hhalf.kern_not_pool (hsame ▸ hmem)
        dsimp only
        rw [installTable_other _ hkern hpage]
        rfl
  · intro hfull d hd page hentry
    rw [hhalf.installTable_kern] at hentry ⊢
    by_cases hsame : d = pdx va
    · subst hsame
      rw [update_self] at hentry ⊢
      rw [entryPage_tableEntry hlt] at hentry
      cases hentry
      rfl
    · rw [update_of_ne hsame] at hentry ⊢
      exact hfull d hd page hentry

theorem KernelHalf.mapPage_rewrites (hhalf : KernelHalf pool kern Allowed σ free)
    (hzero : ∀ d i, Allowed d i 0) {entry : Word} (hlow : userPdes ≤ pdx va)
    (hva : pdx va ≠ uvptIndex) (hmap : mapPage σ kern va entry = some σ') :
    Rewrites kern (fun other => if pgnum other = pgnum va then some entry else none) σ σ' := by
  cases htable : entryPage (σ.mem kern (pdx va)) with
  | some table =>
    simp only [mapPage, hhalf.walk_present hva htable true, Option.bind_eq_bind,
      Option.bind_some] at hmap
    cases hmap
    exact hhalf.store_rewrites hva htable entry
  | none =>
    cases free with
    | nil =>
      simp only [mapPage, hhalf.walk_exhausted htable, Option.bind_eq_bind,
        Option.bind_some] at hmap
      cases hmap
    | cons pg free =>
      simp only [mapPage, hhalf.walk_create htable, Option.bind_eq_bind,
        Option.bind_some] at hmap
      cases hmap
      have hlt := lt_of_lt_of_le (hhalf.pool_lt pg (hhalf.free_pool pg List.mem_cons_self))
        hhalf.npages_le
      have hnew : entryPage ((installTable σ kern (pdx va) pg).mem kern (pdx va)) = some pg := by
        rw [hhalf.installTable_kern, update_self, entryPage_tableEntry hlt]
      have hcreated := hhalf.created (hzero _) hlow (pdx_lt va) hva htable
      have hstored := (hhalf.install_rewrites htable).trans
        (hcreated.store_rewrites hva hnew entry)
      simpa using hstored

theorem KernelHalf.clearEntry_rewrites (hhalf : KernelHalf pool kern Allowed σ free)
    (hva : pdx va ≠ uvptIndex) (hclear : clearEntry σ kern va = some σ') :
    Rewrites kern (fun other => if pgnum other = pgnum va then some 0 else none) σ σ' := by
  cases htable : entryPage (σ.mem kern (pdx va)) with
  | some table =>
    simp only [clearEntry, hhalf.walk_present hva htable false, Option.bind_eq_bind,
      Option.bind_some] at hclear
    cases hclear
    exact hhalf.store_rewrites hva htable 0
  | none =>
    rw [entryPage_eq_none] at htable
    simp [clearEntry, pgdirWalk, htable] at hclear

end OnePage

/-! ## Regions -/

/-- The entries that `boot_map_region` writes for `count` pages from `va`. -/
def regionEntry (va pa perm : Word) (count : ℕ) (other : Word) : Option Word :=
  if pgnum va ≤ pgnum other ∧ pgnum other < pgnum va + count then
    some ((pa + BitVec.ofNat 32 (pgnum other - pgnum va) * pgSize) ||| perm ||| pteP)
  else none

section Regions

variable {pool : Set ℕ} {kern : ℕ} {Allowed : ℕ → ℕ → Word → Prop} {σ σ' : Phys}
variable {free : List ℕ} {va pa perm : Word} {count : ℕ}

theorem pgnum_add_pages (hfits : va.toNat + count * 4096 ≤ 2 ^ 32) {i : ℕ} (hi : i < count) :
    pgnum (va + BitVec.ofNat 32 i * pgSize) = pgnum va + i := by
  rw [pgnum_eq, pgnum_eq, toNat_add_pages va i (by omega)]
  omega

theorem KernelHalf.bootMapPages_rewrites (hhalf : KernelHalf pool kern Allowed σ free)
    (hzero : ∀ d i, Allowed d i 0) (hmap : Mappable Allowed va pa perm count)
    (hfits : va.toNat + count * 4096 ≤ 2 ^ 32)
    (hrun : bootMapPages σ kern va pa perm count = some σ') :
    Rewrites kern (regionEntry va pa perm count) σ σ' := by
  induction count generalizing σ' with
  | zero =>
    cases hrun
    have hnone : regionEntry va pa perm 0 = fun _ => none := by
      funext other
      rw [regionEntry, if_neg (by omega)]
    rw [hnone]
    exact Rewrites.refl kern σ
  | succ i ih =>
    obtain ⟨mid, hmid, hlast⟩ := Option.bind_eq_some_iff.mp hrun
    have hbefore : Mappable Allowed va pa perm i := fun j hj => hmap j (Nat.lt_succ_of_lt hj)
    have hshort : va.toNat + i * 4096 ≤ 2 ^ 32 :=
      (Nat.add_le_add_left (Nat.mul_le_mul_right _ (Nat.le_succ i)) _).trans hfits
    have hfirst := ih hbefore hshort hmid
    obtain ⟨-, free', hhalf'⟩ := (bootMapPages_served hhalf hzero hbefore).keeps mid hmid
    obtain ⟨hlow, hne, -⟩ := hmap i (Nat.lt_succ_self i)
    have hpage := hhalf'.mapPage_rewrites hzero hlow hne hlast
    rw [pgnum_add_pages hfits (Nat.lt_succ_self i)] at hpage
    have hboth := hfirst.trans hpage
    convert hboth using 1
    funext other
    rw [regionEntry, regionEntry]
    by_cases hsame : pgnum other = pgnum va + i
    · rw [if_pos (by omega), if_pos hsame, hsame, Nat.add_sub_cancel_left]
      rfl
    · rw [if_neg hsame, Option.none_or]
      exact if_congr (by omega) rfl rfl

theorem KernelHalf.bootMapRegion_rewrites (hhalf : KernelHalf pool kern Allowed σ free)
    (hzero : ∀ d i, Allowed d i 0) {size : Word} (hsize : (size / pgSize).toNat = count)
    (hmap : Mappable Allowed va pa perm count) (hfits : va.toNat + count * 4096 ≤ 2 ^ 32)
    (hrun : bootMapRegion σ kern va size pa perm = some σ') :
    Rewrites kern (regionEntry va pa perm count) σ σ' ∧
      ∃ free', KernelHalf pool kern Allowed σ' free' := by
  rw [bootMapRegion, hsize] at hrun
  exact ⟨hhalf.bootMapPages_rewrites hzero hmap hfits hrun,
    ((bootMapPages_served hhalf hzero hmap).keeps σ' hrun).2⟩

end Regions

/-! ## The mappings of `mem_init`, in order -/

section Composition

variable {m : Machine} {σ σ' : Phys} {free : List ℕ}

/-- Only entries below directory index 958, the MMIO region, are rewritten. -/
def MmioOnly (kern : ℕ) (σ σ' : Phys) : Prop :=
  ∃ new, (∀ va, pdx va ≠ 958 → new va = none) ∧ Rewrites kern new σ σ'

theorem MmioOnly.trans {kern : ℕ} {σ'' : Phys} (hfirst : MmioOnly kern σ σ')
    (hsecond : MmioOnly kern σ' σ'') : MmioOnly kern σ σ'' := by
  obtain ⟨new, hnew, hfirst⟩ := hfirst
  obtain ⟨new', hnew', hsecond⟩ := hsecond
  refine ⟨_, fun va hva => ?_, hfirst.trans hsecond⟩
  rw [hnew va hva, hnew' va hva]
  rfl

theorem mmioOnly_region {kern : ℕ} {va pa perm : Word} {count : ℕ}
    (hlow : 958 * 1024 ≤ pgnum va) (hhigh : pgnum va + count ≤ 959 * 1024)
    (hrewrites : Rewrites kern (regionEntry va pa perm count) σ σ') : MmioOnly kern σ σ' := by
  refine ⟨_, fun other hother => ?_, hrewrites⟩
  have hindex := pgnum_eq_pdx_ptx other
  have hlt := ptx_lt other
  rw [nptEntries] at hlt
  rw [regionEntry, if_neg (by omega)]

theorem mmioOnly_clear {va : Word} (hhalf : KernelHalf m.pool m.kernPgdir m.Window σ free)
    (hva : pdx va = 958) (hclear : clearEntry σ m.kernPgdir va = some σ') :
    MmioOnly m.kernPgdir σ σ' ∧ ∃ free', KernelHalf m.pool m.kernPgdir m.Window σ' free' := by
  have hne : pdx va ≠ uvptIndex := by
    rw [hva, uvptIndex_eq]
    decide
  constructor
  · refine ⟨_, fun other hother => ?_, hhalf.clearEntry_rewrites hne hclear⟩
    apply if_neg
    intro hsame
    exact hother ((indices_of_pgnum.mp hsame).1.trans hva)
  · cases htable : entryPage (σ.mem m.kernPgdir (pdx va)) with
    | some table =>
      have hserved := clearEntry_served hhalf m.window_zero hne (by rw [htable]; rfl)
      exact (hserved.keeps σ' hclear).2
    | none =>
      rw [entryPage_eq_none] at htable
      simp [clearEntry, pgdirWalk, htable] at hclear

theorem KernelHalf.checkMmio_rewrites
    (hhalf : KernelHalf m.pool m.kernPgdir m.Window σ free) {mmio : Word}
    (hcheck : checkMmio σ m.kernPgdir = some (mmio, σ')) :
    MmioOnly m.kernPgdir σ σ' ∧ ∃ free', KernelHalf m.pool m.kernPgdir m.Window σ' free' := by
  rw [checkMmio_eq] at hcheck
  obtain ⟨final, hrun, hpair⟩ := Option.map_eq_some_iff.mp hcheck
  cases hpair
  obtain ⟨σ₁, hrun₁, hrun⟩ := Option.bind_eq_some_iff.mp hrun
  obtain ⟨σ₂, hrun₂, hrun⟩ := Option.bind_eq_some_iff.mp hrun
  obtain ⟨σ₃, hrun₃, hrun⟩ := Option.bind_eq_some_iff.mp hrun
  obtain ⟨σ₄, hrun₄, hrun₅⟩ := Option.bind_eq_some_iff.mp hrun
  have hperm : (ptePcd ||| ptePwt ||| pteW) &&& pteU = 0 := by decide
  obtain ⟨hfirst, free₁, hhalf₁⟩ := hhalf.bootMapRegion_rewrites m.window_zero
    (show ((0x2000 : Word) / pgSize).toNat = 2 by decide)
    (mappable_supervisor m (by decide) (by decide) (by decide) hperm) (by decide) hrun₁
  obtain ⟨hsecond, free₂, hhalf₂⟩ := hhalf₁.bootMapRegion_rewrites m.window_zero
    (show ((0x1000 : Word) / pgSize).toNat = 1 by decide)
    (mappable_supervisor m (by decide) (by decide) (by decide) hperm) (by decide) hrun₂
  obtain ⟨hclear₁, free₃, hhalf₃⟩ := mmioOnly_clear hhalf₂ (by decide) hrun₃
  obtain ⟨hclear₂, free₄, hhalf₄⟩ := mmioOnly_clear hhalf₃ (by decide) hrun₄
  obtain ⟨hclear₃, hfinal⟩ := mmioOnly_clear hhalf₄ (by decide) hrun₅
  have hmapped := (mmioOnly_region (by decide) (by decide) hfirst).trans
    (mmioOnly_region (by decide) (by decide) hsecond)
  exact ⟨((hmapped.trans hclear₁).trans hclear₂).trans hclear₃, hfinal⟩

/-- The stack of CPU `i` starts here. -/
def stackBase (i : ℕ) : Word := kstackTop - kstkSize - BitVec.ofNat 32 i * (kstkSize + kstkGap)

/-- The entries for the stacks of the first `count` CPUs. -/
def stackEntries (m : Machine) : ℕ → Word → Option Word
  | 0, _ => none
  | i + 1, va =>
      (regionEntry (stackBase i) (m.kstacks i) pteW 8 va).or (stackEntries m i va)

theorem pgnum_stackBase {i : ℕ} (hi : i < 8) : pgnum (stackBase i) = 0xEFFF8 - 16 * i := by
  rw [pgnum_eq, stackBase, toNat_stackBase hi]
  omega

theorem KernelHalf.memInitMp_rewrites (hsane : m.Sane)
    (hhalf : KernelHalf m.pool m.kernPgdir m.Window σ free) {count : ℕ} (hcount : count ≤ ncpuMax)
    (hrun : memInitMp m σ count = some σ') :
    Rewrites m.kernPgdir (stackEntries m count) σ σ' := by
  induction count generalizing σ' with
  | zero =>
    cases hrun
    exact Rewrites.refl _ _
  | succ i ih =>
    have hi : i < 8 := hcount
    obtain ⟨mid, hmid, hlast⟩ := Option.bind_eq_some_iff.mp hrun
    have hfirst := ih (Nat.le_of_succ_le hcount) hmid
    obtain ⟨-, free', hhalf'⟩ :=
      (memInitMp_served hsane hhalf (Nat.le_of_succ_le hcount)).keeps mid hmid
    have hbase := toNat_stackBase hi
    have hmap : Mappable m.Window (stackBase i) (m.kstacks i) pteW 8 := by
      apply mappable_supervisor m _ _ (hsane.stacks_aligned i) (by decide)
      · rw [stackBase, hbase]
        omega
      · rw [stackBase, hbase]
        omega
    have hfits : (stackBase i).toNat + 8 * 4096 ≤ 2 ^ 32 := by
      rw [stackBase, hbase]
      omega
    have hsize : (kstkSize / pgSize).toNat = 8 := by decide
    exact hfirst.trans (hhalf'.bootMapRegion_rewrites m.window_zero hsize hmap hfits hlast).1

/-- All entries of `mem_init`, the later mappings first. -/
def kernelEntries (m : Machine) (va : Word) : Option Word :=
  (stackEntries m ncpuMax va).or <|
    (regionEntry kernBase 0 pteW 65536 va).or <|
      (regionEntry (kstackTop - kstkSize) m.bootstack pteW 8 va).or <|
        (regionEntry uenvs (page2pa m.envsStart) pteU 1024 va).or <|
          regionEntry upages (page2pa m.pagesStart) pteU 1024 va

theorem KernelHalf.memInitMap_rewrites (hsane : m.Sane)
    (hhalf : KernelHalf m.pool m.kernPgdir m.Window σ free) {mmio : Word}
    (hrun : memInitMap m σ = some (mmio, σ')) :
    (∀ va, pdx va ≠ uvptIndex → pdx va ≠ 958 →
      kernWord σ' m.kernPgdir va = (kernelEntries m va).getD (kernWord σ m.kernPgdir va)) ∧
      (FullTables σ m.kernPgdir → FullTables σ' m.kernPgdir) := by
  obtain ⟨checked, hcheck, -⟩ := checkMmio_served hhalf
  rw [memInitMap_eq m σ hcheck] at hrun
  obtain ⟨final, hrun, hpair⟩ := Option.map_eq_some_iff.mp hrun
  cases hpair
  obtain ⟨σ₁, hrun₁, hrun⟩ := Option.bind_eq_some_iff.mp hrun
  obtain ⟨σ₂, hrun₂, hrun⟩ := Option.bind_eq_some_iff.mp hrun
  obtain ⟨σ₃, hrun₃, hrun⟩ := Option.bind_eq_some_iff.mp hrun
  obtain ⟨σ₄, hrun₄, hrun⟩ := Option.bind_eq_some_iff.mp hrun
  obtain ⟨σ₅, hrun₅, hrun⟩ := Option.bind_eq_some_iff.mp hrun
  have hwindow : (ptSize / pgSize).toNat = 1024 := by decide
  have hpagesFit : upages.toNat + 1024 * 4096 ≤ 2 ^ 32 := by
    rw [show upages.toNat = 0xEF000000 by decide]
    norm_num
  have henvsFit : uenvs.toNat + 1024 * 4096 ≤ 2 ^ 32 := by
    rw [show uenvs.toNat = 0xEEC00000 by decide]
    norm_num
  rw [hrun₁, Option.map_some] at hcheck
  obtain ⟨⟨new, hnew, hmmio⟩, free₁, hhalf₁⟩ := hhalf.checkMmio_rewrites hcheck
  have hpagesMap : Mappable m.Window upages (page2pa m.pagesStart) pteU 1024 :=
    hwindow ▸ hsane.mappable_pages
  have henvsMap : Mappable m.Window uenvs (page2pa m.envsStart) pteU 1024 :=
    hwindow ▸ hsane.mappable_envs
  obtain ⟨hpages, free₂, hhalf₂⟩ :=
    hhalf₁.bootMapRegion_rewrites m.window_zero hwindow hpagesMap hpagesFit hrun₂
  obtain ⟨henvs, free₃, hhalf₃⟩ :=
    hhalf₂.bootMapRegion_rewrites m.window_zero hwindow henvsMap henvsFit hrun₃
  obtain ⟨hboot, free₄, hhalf₄⟩ := hhalf₃.bootMapRegion_rewrites m.window_zero
    (show (kstkSize / pgSize).toNat = 8 by decide)
    (mappable_supervisor m (by decide) (by decide) hsane.stack_aligned (by decide))
    (by decide) hrun₄
  have htop : kernBase.toNat + 65536 * 4096 ≤ 2 ^ 32 := by
    rw [show kernBase.toNat = 0xF0000000 by decide]
    norm_num
  obtain ⟨hhigh, free₅, hhalf₅⟩ := hhalf₄.bootMapRegion_rewrites m.window_zero
    (show (-kernBase / pgSize).toNat = 65536 by decide)
    (mappable_supervisor m (by decide) htop (by decide) (by decide)) htop hrun₅
  have hstacks := hhalf₅.memInitMp_rewrites hsane le_rfl hrun
  have hall := ((((hmmio.trans hpages).trans henvs).trans hboot).trans hhigh).trans hstacks
  refine ⟨fun va hva hnotMmio => ?_, hall.full⟩
  rw [hall.word va hva, hnew va hnotMmio, Option.or_none]
  rfl

end Composition

/-! ## Looking up an address -/

/-- `check_va2pa`. -/
def checkVa2pa (σ : Phys) (pgdir : ℕ) (va : Word) : Option Word := do
  if σ.load pgdir (pdx va) &&& pteP = 0 then return ~~~0
  else
    let p ← σ.pa2page (pteAddr (σ.load pgdir (pdx va)))
    if σ.load p (ptx va) &&& pteP = 0 then return ~~~0
    else return pteAddr (σ.load p (ptx va))

def permBits : Word := pteP ||| pteW ||| pteU

/-- The page table entry for `va`, zero where there is no page table. -/
def pteOf (σ : Phys) (pgdir : ℕ) (va : Word) : Word :=
  match entryPage (σ.mem pgdir (pdx va)) with
  | none => 0
  | some table => σ.load table (ptx va)

/-- `va` is mapped at `pa` with the permissions `perm`, and the directory does
not restrict them. -/
structure Maps (σ : Phys) (pgdir : ℕ) (va pa perm : Word) : Prop where
  address : checkVa2pa σ pgdir va = some pa
  perm : pteOf σ pgdir va &&& permBits = perm
  directory : σ.load pgdir (pdx va) &&& permBits = permBits

section Lookup

variable {m : Machine} {σ : Phys} {free : List ℕ} {va pa perm : Word}

theorem pteAddr_load (page index : ℕ) :
    pteAddr (σ.load page index) = pteAddr (σ.mem page index) := by
  rw [pteAddr, pteAddr, load_and σ page index (by decide)]

theorem pteAddr_or (left right : Word) :
    pteAddr (left ||| right) = pteAddr left ||| pteAddr right := by
  rw [pteAddr, BitVec.and_or_distrib_right, ← pteAddr, ← pteAddr]

/-- An entry in the table is what the lookup finds. -/
theorem KernelHalf.maps (hhalf : KernelHalf m.pool m.kernPgdir m.Window σ free)
    (hfull : FullTables σ m.kernPgdir) (hva : pdx va ≠ uvptIndex) (hpa : pteAddr pa = pa)
    (haddr : pteAddr perm = 0) (hperm : perm &&& permBits = perm)
    (hword : kernWord σ m.kernPgdir va = pa ||| perm ||| pteP) :
    Maps σ m.kernPgdir va pa (perm ||| pteP) := by
  have hpresent : (pa ||| perm ||| pteP) &&& pteP ≠ 0 := entry_present _
  cases htable : entryPage (σ.mem m.kernPgdir (pdx va)) with
  | none =>
    rw [kernWord, htable] at hword
    rw [← hword] at hpresent
    have hzero : (0 : Word) &&& pteP = 0 := by decide
    exact absurd hzero hpresent
  | some table =>
    rw [kernWord, htable] at hword
    dsimp only at hword
    have hlt := hhalf.pool_lt table (hhalf.table_pool _ (pdx_lt va) hva table htable).1
    have hdir : σ.mem m.kernPgdir (pdx va) &&& pteP ≠ 0 := (entryPage_eq_some.mp htable).1
    constructor
    · have hentry : pteAddr (σ.load table (ptx va)) = pa := by
        rw [pteAddr_load, hword, pteAddr_or, pteAddr_or, hpa, haddr, show pteAddr pteP = 0 by decide,
          BitVec.ofNat_eq_ofNat, BitVec.or_zero, BitVec.or_zero]
      have hload : σ.load table (ptx va) &&& pteP ≠ 0 := by
        rw [load_present, hword]
        exact hpresent
      have hloadDir : σ.load m.kernPgdir (pdx va) &&& pteP ≠ 0 := by
        rw [load_present]
        exact hdir
      simp only [checkVa2pa, if_neg hloadDir, pa2page_load htable hlt, Option.bind_eq_bind,
        Option.bind_some, if_neg hload, hentry]
      rfl
    · rw [pteOf, htable]
      dsimp only
      rw [load_and _ _ _ (by decide), hword, BitVec.and_or_distrib_right,
        BitVec.and_or_distrib_right, aligned_and_flags hpa (by decide), hperm,
        show pteP &&& permBits = pteP by decide, BitVec.ofNat_eq_ofNat, BitVec.zero_or]
    · rw [load_and _ _ _ (by decide), hfull _ hva table htable, tableEntry,
        BitVec.and_or_distrib_right, BitVec.and_or_distrib_right, BitVec.and_or_distrib_right,
        aligned_and_flags (pteAddr_page2pa table) (by decide)]
      decide

theorem checkVa2pa_unmapped (hhalf : KernelHalf m.pool m.kernPgdir m.Window σ free)
    (hva : pdx va ≠ uvptIndex) (hword : kernWord σ m.kernPgdir va = 0) :
    checkVa2pa σ m.kernPgdir va = some (~~~0) := by
  cases htable : entryPage (σ.mem m.kernPgdir (pdx va)) with
  | none =>
    rw [entryPage_eq_none] at htable
    simp [checkVa2pa, htable]
  | some table =>
    rw [kernWord, htable] at hword
    dsimp only at hword
    have hlt := hhalf.pool_lt table (hhalf.table_pool _ (pdx_lt va) hva table htable).1
    have hdir : σ.load m.kernPgdir (pdx va) &&& pteP ≠ 0 := by
      rw [load_present]
      exact (entryPage_eq_some.mp htable).1
    have hload : σ.load table (ptx va) &&& pteP = 0 := by
      rw [load_present, hword]
      decide
    simp only [checkVa2pa, if_neg hdir, pa2page_load htable hlt, Option.bind_eq_bind,
      Option.bind_some, if_pos hload]
    rfl

/-- A region and an offset into it. -/
theorem regionEntry_at {base : Word} {count : ℕ} (hbase : base.toNat % 4096 = 0)
    (hle : base ≤ va) (hlt : (va - base).toNat < count * 4096) :
    regionEntry base pa perm count va =
      some ((pa + pteAddr (va - base)) ||| perm ||| pteP) := by
  rw [BitVec.le_def] at hle
  rw [BitVec.toNat_sub_of_le (BitVec.le_def.mpr hle)] at hlt
  have hvalt := va.isLt
  have hoffset : BitVec.ofNat 32 (pgnum va - pgnum base) * pgSize = pteAddr (va - base) := by
    apply BitVec.eq_of_toNat_eq
    rw [pteAddr_eq_page2pa, pgnum_eq (va - base),
      BitVec.toNat_sub_of_le (BitVec.le_def.mpr hle), toNat_page2pa (by omega),
      BitVec.toNat_mul, BitVec.toNat_ofNat, pgnum_eq, pgnum_eq,
      show pgSize.toNat = 4096 by decide]
    omega
  have hrange : pgnum base ≤ pgnum va ∧ pgnum va < pgnum base + count := by
    rw [pgnum_eq, pgnum_eq]
    omega
  rw [regionEntry, if_pos hrange, hoffset]

/-- Adding a page offset to a page address. -/
theorem aligned_offset {base : Word} (hpa : pteAddr pa = pa) :
    pteAddr (pa + pteAddr (va - base)) = pa + pteAddr (va - base) := by
  have hoffset : (pteAddr (va - base)).toNat % 4096 = 0 := by
    rw [← pteAddr_eq_self_iff, pteAddr_eq_page2pa (va - base), pteAddr_page2pa]
  rw [pteAddr_eq_self_iff] at hpa ⊢
  rw [BitVec.toNat_add]
  omega

end Lookup

/-! ## The layout -/

/-- `va` lies in the stack of CPU `i`. -/
def OnStack (i : ℕ) (va : Word) : Prop := stackBase i ≤ va ∧ va - stackBase i < kstkSize

/-- Where the kernel directory maps the addresses of the kernel. -/
structure KernelLayout (m : Machine) (σ : Phys) : Prop where
  physical : ∀ va, kernBase ≤ va →
    Maps σ m.kernPgdir va (pteAddr (va - kernBase)) (pteW ||| pteP)
  kernel_stacks : ∀ i < ncpuMax, ∀ va, OnStack i va →
    Maps σ m.kernPgdir va (m.kstacks i + pteAddr (va - stackBase i)) (pteW ||| pteP)
  unmapped : ∀ va, kstackTop - ptSize ≤ va → va < kstackTop →
    (∀ i < ncpuMax, ¬ OnStack i va) → checkVa2pa σ m.kernPgdir va = some (~~~0)
  pages : ∀ va, upages ≤ va → va - upages < ptSize →
    Maps σ m.kernPgdir va (page2pa m.pagesStart + pteAddr (va - upages)) (pteU ||| pteP)
  envs : ∀ va, uenvs ≤ va → va - uenvs < ptSize →
    Maps σ m.kernPgdir va (page2pa m.envsStart + pteAddr (va - uenvs)) (pteU ||| pteP)
  supervisor : ∀ va, ulim ≤ va →
    pteOf σ m.kernPgdir va &&& pteP = 0 ∨ pteOf σ m.kernPgdir va &&& pteU = 0

section Layout

variable {m : Machine} {va : Word}

theorem onStack_pgnum {i : ℕ} (hi : i < 8) :
    OnStack i va ↔ 0xEFFF8 - 16 * i ≤ pgnum va ∧ pgnum va < 0xEFFF8 - 16 * i + 8 := by
  have hbase : (stackBase i).toNat = 0xEFFF8000 - i * 0x10000 := toNat_stackBase hi
  have hva := va.isLt
  rw [OnStack, pgnum_eq, BitVec.le_def, BitVec.lt_def, BitVec.toNat_sub, hbase,
    show kstkSize.toNat = 0x8000 by decide]
  omega

/-- The stacks do not overlap. -/
theorem stackEntries_on {i count : ℕ} (hi : i < count) (hcount : count ≤ 8) (hon : OnStack i va) :
    stackEntries m count va =
      some ((m.kstacks i + pteAddr (va - stackBase i)) ||| pteW ||| pteP) := by
  induction count with
  | zero => omega
  | succ k ih =>
    rw [stackEntries]
    by_cases hsame : i = k
    · subst hsame
      have hbase : (stackBase i).toNat = 0xEFFF8000 - i * 0x10000 := toNat_stackBase hcount
      have hsize : kstkSize.toNat = 8 * 4096 := by decide
      rw [regionEntry_at (by omega) hon.1 (by rw [← hsize]; exact BitVec.lt_def.mp hon.2)]
      rfl
    · have hrange := (onStack_pgnum (by omega)).mp hon
      rw [regionEntry, pgnum_stackBase (by omega), if_neg (by omega), Option.none_or]
      exact ih (by omega) (by omega)

theorem stackEntries_off {count : ℕ} (hcount : count ≤ 8) (hoff : ∀ i < count, ¬ OnStack i va) :
    stackEntries m count va = none := by
  induction count with
  | zero => rfl
  | succ k ih =>
    have hk := hoff k (Nat.lt_succ_self k)
    rw [onStack_pgnum (by omega)] at hk
    rw [stackEntries, regionEntry, pgnum_stackBase (by omega), if_neg hk, Option.none_or]
    exact ih (by omega) fun i hi => hoff i (Nat.lt_succ_of_lt hi)

theorem regionEntry_off {base pa perm : Word} {count : ℕ}
    (hoff : pgnum va < pgnum base ∨ pgnum base + count ≤ pgnum va) :
    regionEntry base pa perm count va = none :=
  if_neg (by omega)

/-- No stack lies outside the region below `KERNBASE`. -/
theorem stackEntries_outside (hva : va.toNat < 0xEFC00000 ∨ 0xF0000000 ≤ va.toNat) :
    stackEntries m ncpuMax va = none := by
  apply stackEntries_off le_rfl
  intro i hi hon
  have hi' : i < 8 := hi
  rw [onStack_pgnum hi', pgnum_eq] at hon
  omega

theorem kernelEntries_physical (hva : kernBase ≤ va) :
    kernelEntries m va = some (pteAddr (va - kernBase) ||| pteW ||| pteP) := by
  have hbase : kernBase.toNat = 0xF0000000 := by decide
  have hle := BitVec.le_def.mp hva
  have hbound := va.isLt
  have hoffset : (va - kernBase).toNat < 65536 * 4096 := by
    rw [BitVec.toNat_sub_of_le hva, hbase]
    omega
  rw [kernelEntries, stackEntries_outside (Or.inr (by omega)),
    regionEntry_at (by rw [hbase]) hva hoffset, BitVec.ofNat_eq_ofNat, BitVec.zero_add]
  rfl

theorem kernelEntries_stack {i : ℕ} (hi : i < ncpuMax) (hon : OnStack i va) :
    kernelEntries m va =
      some ((m.kstacks i + pteAddr (va - stackBase i)) ||| pteW ||| pteP) := by
  rw [kernelEntries, stackEntries_on hi le_rfl hon]
  rfl

/-- The boot stack is the stack of the first CPU, so what lies on no stack is
not mapped. -/
theorem kernelEntries_gap (hlow : 0xEFC00000 ≤ va.toNat) (hhigh : va.toNat < 0xF0000000)
    (hoff : ∀ i < ncpuMax, ¬ OnStack i va) : kernelEntries m va = none := by
  have hboot := hoff 0 (by decide)
  rw [onStack_pgnum (by decide)] at hboot
  have hstacks : stackEntries m ncpuMax va = none := stackEntries_off le_rfl hoff
  have hnumber := pgnum_eq va
  have hphysical : pgnum kernBase = 0xF0000 := by decide
  have hbootBase : pgnum (kstackTop - kstkSize) = 0xEFFF8 := by decide
  have henvs : pgnum uenvs = 0xEEC00 := by decide
  have hpages : pgnum upages = 0xEF000 := by decide
  rw [kernelEntries, hstacks, regionEntry_off (by omega), regionEntry_off (by omega),
    regionEntry_off (by omega), regionEntry_off (by omega)]
  rfl

theorem kernelEntries_pages (hle : upages ≤ va) (hlt : va - upages < ptSize) :
    kernelEntries m va =
      some ((page2pa m.pagesStart + pteAddr (va - upages)) ||| pteU ||| pteP) := by
  have hoffset : (va - upages).toNat < 1024 * 4096 := BitVec.lt_def.mp hlt
  have hva := hoffset
  rw [BitVec.toNat_sub_of_le hle, show upages.toNat = 0xEF000000 by decide] at hva
  have hnumber := pgnum_eq va
  have hphysical : pgnum kernBase = 0xF0000 := by decide
  have hbootBase : pgnum (kstackTop - kstkSize) = 0xEFFF8 := by decide
  have henvs : pgnum uenvs = 0xEEC00 := by decide
  have hlow := BitVec.le_def.mp hle
  rw [show upages.toNat = 0xEF000000 by decide] at hlow
  rw [kernelEntries, stackEntries_outside (Or.inl (by omega)), regionEntry_off (by omega),
    regionEntry_off (by omega), regionEntry_off (by omega),
    regionEntry_at (by decide) hle hoffset]
  rfl

theorem kernelEntries_envs (hle : uenvs ≤ va) (hlt : va - uenvs < ptSize) :
    kernelEntries m va =
      some ((page2pa m.envsStart + pteAddr (va - uenvs)) ||| pteU ||| pteP) := by
  have hoffset : (va - uenvs).toNat < 1024 * 4096 := BitVec.lt_def.mp hlt
  have hva := hoffset
  rw [BitVec.toNat_sub_of_le hle, show uenvs.toNat = 0xEEC00000 by decide] at hva
  have hnumber := pgnum_eq va
  have hphysical : pgnum kernBase = 0xF0000 := by decide
  have hbootBase : pgnum (kstackTop - kstkSize) = 0xEFFF8 := by decide
  have hlow := BitVec.le_def.mp hle
  rw [show uenvs.toNat = 0xEEC00000 by decide] at hlow
  rw [kernelEntries, stackEntries_outside (Or.inl (by omega)), regionEntry_off (by omega),
    regionEntry_off (by omega), regionEntry_at (by decide) hle hoffset]
  rfl

/-- Before `mem_init` maps anything, the kernel directory holds only the entry
at `UVPT`. -/
theorem SelfTested.kern_empty (hsane : m.Sane) {tested : Phys}
    (htested : SelfTested (memInitPages m) tested) {d : ℕ} (hd : d ≠ uvptIndex) :
    entryPage (tested.mem m.kernPgdir d) = none := by
  obtain ⟨before, after, hbefore, -, -, -, hmem⟩ := htested.free
  have hhalf := hsane.memInitPages
  have hsame : before = m.initialFree := hbefore.unique hhalf.threads
  have hkern : m.kernPgdir ∉ before := by
    rw [hsame]
    exact hhalf.kern_not_free
  rw [hmem _ hkern, memInitPages_kern, if_neg hd, entryPage_zero]

/-- What `mem_init` leaves in the kernel directory. -/
structure KernelMapped (m : Machine) (σ : Phys) (free : List ℕ) : Prop where
  half : KernelHalf m.pool m.kernPgdir m.Window σ free
  full : FullTables σ m.kernPgdir
  word : ∀ va, pdx va ≠ uvptIndex → pdx va ≠ 958 →
    kernWord σ m.kernPgdir va = (kernelEntries m va).getD 0

theorem memInitMap_mapped (hsane : m.Sane) {tested σ : Phys} {mmio : Word}
    (htested : SelfTested (memInitPages m) tested)
    (hmap : memInitMap m tested = some (mmio, σ)) : ∃ free, KernelMapped m σ free := by
  obtain ⟨free, hhalf, -⟩ := htested.kernelHalf hsane.memInitPages
  have hempty : ∀ d, d ≠ uvptIndex → entryPage (tested.mem m.kernPgdir d) = none :=
    fun d hd => htested.kern_empty hsane hd
  obtain ⟨hrewritten, hfull⟩ := hhalf.memInitMap_rewrites hsane hmap
  obtain ⟨result, hresult, hserved⟩ := memInitMap_served hsane hhalf
  rw [hresult] at hmap
  obtain ⟨mapped, hmapped, hpair⟩ := Option.map_eq_some_iff.mp hmap
  cases hpair
  obtain ⟨-, free', hhalf'⟩ := hserved.keeps σ hmapped
  refine ⟨free', hhalf', hfull ?_, ?_⟩
  · intro d hd table htable
    rw [hempty d hd] at htable
    cases htable
  · intro va hva hnotMmio
    rw [hrewritten va hva hnotMmio]
    congr 1
    rw [kernWord, hempty _ hva]

variable {σ : Phys} {free : List ℕ}

/-- An entry of `mem_init` is in effect. -/
theorem KernelMapped.maps (hmapped : KernelMapped m σ free) {pa perm : Word}
    (huvpt : pdx va ≠ 957) (hmmio : pdx va ≠ 958) (hpa : pteAddr pa = pa)
    (haddr : pteAddr perm = 0) (hperm : perm &&& permBits = perm)
    (hentry : kernelEntries m va = some (pa ||| perm ||| pteP)) :
    Maps σ m.kernPgdir va pa (perm ||| pteP) := by
  have hne : pdx va ≠ uvptIndex := by
    rw [uvptIndex_eq]
    exact huvpt
  apply hmapped.half.maps hmapped.full hne hpa haddr hperm
  rw [hmapped.word va hne hmmio, hentry]
  rfl

/-- No entry from `ULIM` upwards is open to users. -/
theorem KernelMapped.supervisor (hmapped : KernelMapped m σ free) (hva : ulim ≤ va) :
    pteOf σ m.kernPgdir va &&& pteP = 0 ∨ pteOf σ m.kernPgdir va &&& pteU = 0 := by
  rw [BitVec.le_def, show ulim.toNat = 0xEF800000 by decide] at hva
  have hindex := pdx_eq va
  have hne : pdx va ≠ uvptIndex := by
    rw [uvptIndex_eq]
    omega
  cases htable : entryPage (σ.mem m.kernPgdir (pdx va)) with
  | none =>
    left
    rw [pteOf, htable]
    change (0 : Word) &&& pteP = 0
    decide
  | some table =>
    rw [pteOf, htable]
    dsimp only
    rw [load_present, load_and _ _ _ (by decide)]
    rcases hmapped.half.allowed _ (pdx_lt va) hne table htable _ (ptx_lt va) with
      habsent | hsupervisor | ⟨-, ⟨hd, -⟩ | ⟨hd, -⟩⟩
    · exact Or.inl habsent
    · exact Or.inr hsupervisor
    · rw [show pdx upages = 956 by decide] at hd
      omega
    · rw [show pdx uenvs = 955 by decide] at hd
      omega

/-- After the mappings of `mem_init` and `mem_init_mp`, kernel addresses are
mapped as documented, and nothing else is. -/
theorem kernel_layout (hsane : m.Sane) {tested σ : Phys} {mmio : Word}
    (htested : SelfTested (memInitPages m) tested)
    (hmap : memInitMap m tested = some (mmio, σ)) : KernelLayout m σ := by
  obtain ⟨free, hmapped⟩ := memInitMap_mapped hsane htested hmap
  constructor
  case physical =>
    intro va hva
    have hle := BitVec.le_def.mp hva
    rw [show kernBase.toNat = 0xF0000000 by decide] at hle
    have hindex := pdx_eq va
    have haligned : pteAddr (pteAddr (va - kernBase)) = pteAddr (va - kernBase) := by
      rw [pteAddr_eq_page2pa (va - kernBase), pteAddr_page2pa]
    exact hmapped.maps (by omega) (by omega) haligned (by decide) (by decide)
      (kernelEntries_physical hva)
  case kernel_stacks =>
    intro i hi va hon
    have hrange := (onStack_pgnum hi).mp hon
    have hi' : i < 8 := hi
    rw [pgnum_eq] at hrange
    have hindex := pdx_eq va
    exact hmapped.maps (by omega) (by omega)
      (aligned_offset (hsane.stacks_aligned i)) (by decide) (by decide)
      (kernelEntries_stack hi hon)
  case unmapped =>
    intro va hlow hhigh hoff
    rw [BitVec.le_def, show (kstackTop - ptSize).toNat = 0xEFC00000 by decide] at hlow
    rw [BitVec.lt_def, show kstackTop.toNat = 0xF0000000 by decide] at hhigh
    have hindex := pdx_eq va
    have hne : pdx va ≠ uvptIndex := by
      rw [uvptIndex_eq]
      omega
    apply checkVa2pa_unmapped hmapped.half hne
    rw [hmapped.word va hne (by omega), kernelEntries_gap hlow hhigh hoff]
    rfl
  case pages =>
    intro va hle hlt
    have hlow := BitVec.le_def.mp hle
    rw [show upages.toNat = 0xEF000000 by decide] at hlow
    have hhigh : (va - upages).toNat < 1024 * 4096 := BitVec.lt_def.mp hlt
    rw [BitVec.toNat_sub_of_le hle, show upages.toNat = 0xEF000000 by decide] at hhigh
    have hindex := pdx_eq va
    exact hmapped.maps (by omega) (by omega) (aligned_offset (pteAddr_page2pa _))
      (by decide) (by decide) (kernelEntries_pages hle hlt)
  case envs =>
    intro va hle hlt
    have hlow := BitVec.le_def.mp hle
    rw [show uenvs.toNat = 0xEEC00000 by decide] at hlow
    have hhigh : (va - uenvs).toNat < 1024 * 4096 := BitVec.lt_def.mp hlt
    rw [BitVec.toNat_sub_of_le hle, show uenvs.toNat = 0xEEC00000 by decide] at hhigh
    have hindex := pdx_eq va
    exact hmapped.maps (by omega) (by omega) (aligned_offset (pteAddr_page2pa _))
      (by decide) (by decide) (kernelEntries_envs hle hlt)
  case supervisor => exact fun va hva => hmapped.supervisor hva

end Layout

/-- The layout of a machine with 64 MB of memory. -/
theorem smallMachine_layout : ∃ tested mmio σ, SelfTested (memInitPages smallMachine) tested ∧
    memInitMap smallMachine tested = some (mmio, σ) ∧ KernelLayout smallMachine σ := by
  have hstart := smallMachine_sane.memInitPages
  have henough : Enough smallMachine.kernPgdir (memInitPages smallMachine)
      smallMachine.initialFree 0 := by
    have habsent := absentTables_le (memInitPages smallMachine) smallMachine.kernPgdir
    have hfree := smallMachine_free
    unfold Enough
    omega
  obtain ⟨result, hresult, hserved⟩ := memInitMap_served smallMachine_sane hstart
  obtain ⟨σ, free, rfl, -, -⟩ := hserved.succeeds 0 henough
  have htested := SelfTested.refl hstart
  exact ⟨_, _, σ, htested, hresult, kernel_layout smallMachine_sane htested hresult⟩

end OsLabs.Jos
