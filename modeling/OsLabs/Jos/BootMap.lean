import OsLabs.Jos.Boot
import OsLabs.Jos.Primitives

/-!
# The kernel half of the address space

What `mem_init` builds above `UTOP`.  The invariant of the boot phase says
where every page of the free list of `page_init` is: still on the list, or in
use as a page table of the kernel, referenced by one directory entry.
-/

namespace OsLabs.Jos

open Function
open OsLabs.IntrusiveList

/-- The entry of the directory that refers to the directory itself. -/
def uvptIndex : ℕ := pdx uvpt

theorem uvptIndex_eq : uvptIndex = 957 := by decide

/-- The state of the page allocator and of the directory `kern` while the
kernel half is built.  `pool` is the free list of `page_init`, and `Allowed d i`
says which entries may stand at index `i` of the page table at index `d`. -/
structure KernelHalf (pool : Set ℕ) (kern : ℕ) (Allowed : ℕ → ℕ → Word → Prop) (σ : Phys)
    (free : List ℕ) : Prop where
  threads : Threads σ.link σ.pageFreeList free
  free_pool : ∀ page ∈ free, page ∈ pool
  free_ref : ∀ page ∈ free, σ.ref page = 0
  pool_lt : ∀ page ∈ pool, page < σ.npages
  npages_le : σ.npages ≤ 2 ^ 20
  kern_not_pool : kern ∉ pool
  table_pool : ∀ d < 1024, d ≠ uvptIndex → ∀ table, entryPage (σ.mem kern d) = some table →
    table ∈ pool ∧ table ∉ free ∧ σ.ref table = 1
  table_inj : ∀ d < 1024, d ≠ uvptIndex → ∀ e < 1024, e ≠ uvptIndex → ∀ table,
    entryPage (σ.mem kern d) = some table → entryPage (σ.mem kern e) = some table → d = e
  not_lost : ∀ page ∈ pool, page ∈ free ∨
    ∃ d < 1024, d ≠ uvptIndex ∧ entryPage (σ.mem kern d) = some page
  user_empty : ∀ d < userPdes, entryPage (σ.mem kern d) = none
  uvpt_entry : σ.mem kern uvptIndex = page2pa kern ||| pteU ||| pteP
  allowed : ∀ d < 1024, d ≠ uvptIndex → ∀ table, entryPage (σ.mem kern d) = some table →
    ∀ i < nptEntries, Allowed d i (σ.mem table i)

/-- The number of directory entries that are not present. -/
def absentTables (σ : Phys) (kern : ℕ) : ℕ :=
  ((Finset.range 1024).filter fun d => entryPage (σ.mem kern d) = none).card

/-- There is a free page for every absent page table, and `spare` more. -/
def Enough (kern : ℕ) (σ : Phys) (free : List ℕ) (spare : ℕ) : Prop :=
  absentTables σ kern + spare ≤ free.length

namespace KernelHalf

variable {pool : Set ℕ} {kern : ℕ} {Allowed : ℕ → ℕ → Word → Prop} {σ : Phys} {free : List ℕ}

/-- Where the kernel has a page table. -/
theorem walk_present (hhalf : KernelHalf pool kern Allowed σ free) {va : Word}
    (hva : pdx va ≠ uvptIndex) {table : ℕ}
    (htable : entryPage (σ.mem kern (pdx va)) = some table) (create : Bool) :
    pgdirWalk σ kern va create = some (some (table, ptx va), σ) := by
  have hpool := (hhalf.table_pool _ (pdx_lt va) hva table htable).1
  have hpresent : σ.mem kern (pdx va) &&& pteP ≠ 0#32 := (entryPage_eq_some.mp htable).1
  simp [pgdirWalk, hpresent, pa2page_load htable (hhalf.pool_lt table hpool)]

/-- Where it has none and no memory is left. -/
theorem walk_exhausted (hhalf : KernelHalf pool kern Allowed σ []) {va : Word}
    (habsent : entryPage (σ.mem kern (pdx va)) = none) :
    pgdirWalk σ kern va true = some (none, σ) := by
  have hhead : σ.pageFreeList = none := hhalf.threads.head_eq
  rw [entryPage_eq_none] at habsent
  simp [pgdirWalk, habsent, pageAlloc, hhead]

section Create

variable {pg : ℕ}

theorem installTable_kern (hhalf : KernelHalf pool kern Allowed σ (pg :: free)) (d e : ℕ) :
    (installTable σ kern d pg).mem kern e = update (σ.mem kern) d (tableEntry pg) e := by
  have hne : kern ≠ pg := fun hsame =>
    hhalf.kern_not_pool (hsame ▸ hhalf.free_pool pg List.mem_cons_self)
  rw [installTable, mem_store_self, mem_incRef, mem_takePage_of_ne _ _ hne]

theorem installTable_table (hhalf : KernelHalf pool kern Allowed σ (pg :: free)) (d t : ℕ) :
    (installTable σ kern d pg).mem pg t = 0 := by
  have hne : pg ≠ kern := fun hsame =>
    hhalf.kern_not_pool (hsame ▸ hhalf.free_pool pg List.mem_cons_self)
  rw [installTable, mem_store_of_ne _ _ _ _ hne, mem_incRef, mem_takePage_self]

theorem installTable_other (d : ℕ) {page : ℕ} (hkern : page ≠ kern) (hpg : page ≠ pg) :
    (installTable σ kern d pg).mem page = σ.mem page := by
  rw [installTable, mem_store_of_ne _ _ _ _ hkern, mem_incRef, mem_takePage_of_ne _ _ hpg]

theorem ref_installTable (d : ℕ) :
    (installTable σ kern d pg).ref = update σ.ref pg (σ.ref pg + 1) := by
  simp [installTable]

/-- Where it has none and there is a free page. -/
theorem walk_create (hhalf : KernelHalf pool kern Allowed σ (pg :: free)) {va : Word}
    (habsent : entryPage (σ.mem kern (pdx va)) = none) :
    pgdirWalk σ kern va true = some (some (pg, ptx va), installTable σ kern (pdx va) pg) := by
  have hhead : σ.pageFreeList = some pg := hhalf.threads.head_eq
  have hlt := hhalf.pool_lt pg (hhalf.free_pool pg List.mem_cons_self)
  have hentry : entryPage ((installTable σ kern (pdx va) pg).mem kern (pdx va)) = some pg := by
    rw [hhalf.installTable_kern, update_self,
      entryPage_tableEntry (lt_of_lt_of_le hlt hhalf.npages_le)]
  have hcheck : (installTable σ kern (pdx va) pg).pa2page
      (pteAddr ((installTable σ kern (pdx va) pg).load kern (pdx va))) = some pg :=
    pa2page_load hentry (by simpa [installTable] using hlt)
  have halloc : pageAlloc σ true = (some pg, takePage σ pg true) := by
    rw [pageAlloc, hhead]
    rfl
  rw [entryPage_eq_none] at habsent
  rw [installTable, tableEntry] at hcheck
  simp [pgdirWalk, habsent, halloc, hcheck, installTable, tableEntry]

theorem created (hhalf : KernelHalf pool kern Allowed σ (pg :: free)) {d : ℕ}
    (hzero : ∀ i, Allowed d i 0) (hlow : userPdes ≤ d) (hd : d < 1024) (hne : d ≠ uvptIndex)
    (habsent : entryPage (σ.mem kern d) = none) :
    KernelHalf pool kern Allowed (installTable σ kern d pg) free := by
  have hpool := hhalf.free_pool pg List.mem_cons_self
  have hlt := lt_of_lt_of_le (hhalf.pool_lt pg hpool) hhalf.npages_le
  have hnodup := (List.nodup_cons.mp hhalf.threads.nodup).1
  have hentry : ∀ e, entryPage ((installTable σ kern d pg).mem kern e) =
      if e = d then some pg else entryPage (σ.mem kern e) := by
    intro e
    rw [hhalf.installTable_kern]
    by_cases hsame : e = d
    · rw [hsame, update_self, if_pos rfl, entryPage_tableEntry hlt]
    · rw [update_of_ne hsame, if_neg hsame]
  have hold : ∀ e < 1024, e ≠ uvptIndex → entryPage (σ.mem kern e) ≠ some pg :=
    fun e he hv hpg => (hhalf.table_pool e he hv pg hpg).2.1 List.mem_cons_self
  refine
    { threads := ?_
      free_pool := fun page hpage => hhalf.free_pool page (List.mem_cons_of_mem _ hpage)
      free_ref := fun page hpage => ?_
      pool_lt := by simpa [installTable] using hhalf.pool_lt
      npages_le := by simpa [installTable] using hhalf.npages_le
      kern_not_pool := hhalf.kern_not_pool
      table_pool := fun e he hv table htable => ?_
      table_inj := fun e he hv f hf hw table htable hother => ?_
      not_lost := fun page hpage => ?_
      user_empty := fun e he => ?_
      uvpt_entry := ?_
      allowed := fun e he hv table htable i hi => ?_ }
  · have hthreads := hhalf.threads
    rw [hthreads.head_eq] at hthreads
    simpa [installTable] using hthreads.tail
  · have hother : page ≠ pg := fun hsame => hnodup (hsame ▸ hpage)
    rw [ref_installTable, update_of_ne hother]
    exact hhalf.free_ref page (List.mem_cons_of_mem _ hpage)
  · rw [hentry] at htable
    split at htable
    · cases htable
      refine ⟨hpool, hnodup, ?_⟩
      rw [ref_installTable, update_self, hhalf.free_ref _ List.mem_cons_self]
      rfl
    · obtain ⟨hmem, hnot, href⟩ := hhalf.table_pool e he hv table htable
      rw [List.mem_cons, not_or] at hnot
      refine ⟨hmem, hnot.2, ?_⟩
      rw [ref_installTable, update_of_ne hnot.1, href]
  · rw [hentry] at htable hother
    split at htable
    case isTrue hsame =>
        cases htable
        split at hother
        · omega
        · exact absurd hother (hold f hf hw)
    case isFalse =>
        split at hother
        · cases hother
          exact absurd htable (hold e he hv)
        · exact hhalf.table_inj e he hv f hf hw table htable hother
  · rcases hhalf.not_lost page hpage with hfree | ⟨e, he, hv, htable⟩
    · rcases List.mem_cons.mp hfree with rfl | hrest
      · exact Or.inr ⟨d, hd, hne, by rw [hentry, if_pos rfl]⟩
      · exact Or.inl hrest
    · refine Or.inr ⟨e, he, hv, ?_⟩
      have hother : e ≠ d := fun hsame => by rw [hsame, habsent] at htable; cases htable
      rw [hentry, if_neg hother, htable]
  · rw [hentry, if_neg (by omega)]
    exact hhalf.user_empty e he
  · rw [hhalf.installTable_kern, update_of_ne (Ne.symm hne), hhalf.uvpt_entry]
  · rw [hentry] at htable
    split at htable
    case isTrue hsame =>
        cases htable
        rw [hhalf.installTable_table, hsame]
        exact hzero i
    case isFalse =>
        have hmem := hhalf.table_pool e he hv table htable
        have hpg : table ≠ pg := fun hsame => hold e he hv (hsame ▸ htable)
        have hkern : table ≠ kern := fun hsame => hhalf.kern_not_pool (hsame ▸ hmem.1)
        rw [installTable_other d hkern hpg]
        exact hhalf.allowed e he hv table htable i hi

/-- A new table uses one page for one absent entry. -/
theorem created_enough (hhalf : KernelHalf pool kern Allowed σ (pg :: free)) {d spare : ℕ}
    (hd : d < 1024) (habsent : entryPage (σ.mem kern d) = none)
    (henough : Enough kern σ (pg :: free) spare) :
    Enough kern (installTable σ kern d pg) free spare := by
  have hlt := lt_of_lt_of_le (hhalf.pool_lt pg (hhalf.free_pool pg List.mem_cons_self))
    hhalf.npages_le
  have hset : ((Finset.range 1024).filter
      fun e => entryPage ((installTable σ kern d pg).mem kern e) = none) =
      ((Finset.range 1024).filter fun e => entryPage (σ.mem kern e) = none).erase d := by
    ext e
    rw [Finset.mem_erase, Finset.mem_filter, Finset.mem_filter, hhalf.installTable_kern]
    by_cases hsame : e = d
    · simp [hsame, entryPage_tableEntry hlt]
    · simp [hsame]
  have hmem : d ∈ (Finset.range 1024).filter fun e => entryPage (σ.mem kern e) = none :=
    Finset.mem_filter.mpr ⟨Finset.mem_range.mpr hd, habsent⟩
  have hpos := Finset.card_pos.mpr ⟨d, hmem⟩
  unfold Enough absentTables at *
  rw [hset, Finset.card_erase_of_mem hmem]
  rw [List.length_cons] at henough
  omega

end Create

/-- Writing an allowed entry into a kernel page table. -/
theorem stored (hhalf : KernelHalf pool kern Allowed σ free) {d table i : ℕ} (hd : d < 1024)
    (hne : d ≠ uvptIndex) (htable : entryPage (σ.mem kern d) = some table) {value : Word}
    (hvalue : Allowed d i value) : KernelHalf pool kern Allowed (σ.store table i value) free := by
  have hkern : kern ≠ table := fun hsame =>
    hhalf.kern_not_pool (hsame ▸ (hhalf.table_pool d hd hne table htable).1)
  have hsame : (σ.store table i value).mem kern = σ.mem kern :=
    mem_store_of_ne _ _ _ _ hkern
  refine
    { hhalf with
      threads := by simpa using hhalf.threads
      free_ref := by simpa using hhalf.free_ref
      pool_lt := by simpa using hhalf.pool_lt
      npages_le := by simpa using hhalf.npages_le
      table_pool := by rw [hsame, ref_store]; exact hhalf.table_pool
      table_inj := by rw [hsame]; exact hhalf.table_inj
      not_lost := by rw [hsame]; exact hhalf.not_lost
      user_empty := by rw [hsame]; exact hhalf.user_empty
      uvpt_entry := by rw [hsame]; exact hhalf.uvpt_entry
      allowed := fun e he hv other hother j hj => ?_ }
  rw [hsame] at hother
  by_cases hpage : other = table
  · subst hpage
    have hde := hhalf.table_inj d hd hne e he hv other htable hother
    subst hde
    rw [mem_store_self]
    by_cases hindex : j = i
    · rw [hindex, update_self]
      exact hvalue
    · rw [update_of_ne hindex]
      exact hhalf.allowed d he hv other hother j hj
  · rw [mem_store_of_ne _ _ _ _ hpage]
    exact hhalf.allowed e he hv other hother j hj

theorem stored_enough (hhalf : KernelHalf pool kern Allowed σ free) {d table i spare : ℕ}
    (hd : d < 1024) (hne : d ≠ uvptIndex) (htable : entryPage (σ.mem kern d) = some table)
    (value : Word) (henough : Enough kern σ free spare) :
    Enough kern (σ.store table i value) free spare := by
  have hkern : kern ≠ table := fun hsame =>
    hhalf.kern_not_pool (hsame ▸ (hhalf.table_pool d hd hne table htable).1)
  unfold Enough absentTables at *
  rwa [mem_store_of_ne _ _ _ _ hkern]

end KernelHalf

/-! ## The mappings of `mem_init` -/

/-- Page tables that exist stay. -/
def TablesKept (kern : ℕ) (σ σ' : Phys) : Prop :=
  ∀ d, (entryPage (σ.mem kern d)).isSome → (entryPage (σ'.mem kern d)).isSome

/-- A step of the boot phase keeps the invariant, and it succeeds while memory
lasts. -/
structure Served (pool : Set ℕ) (kern : ℕ) (Allowed : ℕ → ℕ → Word → Prop) (σ : Phys)
    (free : List ℕ) (result : Option Phys) : Prop where
  keeps : ∀ σ', result = some σ' → TablesKept kern σ σ' ∧
    ∃ free', KernelHalf pool kern Allowed σ' free'
  succeeds : ∀ spare, Enough kern σ free spare → ∃ σ' free', result = some σ' ∧
    KernelHalf pool kern Allowed σ' free' ∧ Enough kern σ' free' spare

section Served

variable {pool : Set ℕ} {kern : ℕ} {Allowed : ℕ → ℕ → Word → Prop} {σ : Phys} {free : List ℕ}

theorem Served.pure (hhalf : KernelHalf pool kern Allowed σ free) :
    Served pool kern Allowed σ free (some σ) := by
  refine ⟨fun σ' hσ => ?_, fun _ henough => ⟨σ, free, rfl, hhalf, henough⟩⟩
  cases hσ
  exact ⟨fun _ hsome => hsome, free, hhalf⟩

theorem Served.bind {result : Option Phys} {next : Phys → Option Phys}
    (hserved : Served pool kern Allowed σ free result)
    (hnext : ∀ σ' free', result = some σ' → KernelHalf pool kern Allowed σ' free' →
      Served pool kern Allowed σ' free' (next σ')) :
    Served pool kern Allowed σ free (result.bind next) := by
  refine ⟨fun σ' hσ => ?_, fun spare henough => ?_⟩
  · obtain ⟨mid, hmid, hrest⟩ := Option.bind_eq_some_iff.mp hσ
    obtain ⟨hfirst, free', hhalf⟩ := hserved.keeps mid hmid
    obtain ⟨hsecond, hfinal⟩ := (hnext mid free' hmid hhalf).keeps σ' hrest
    exact ⟨fun d hsome => hsecond d (hfirst d hsome), hfinal⟩
  · obtain ⟨mid, free', hmid, hhalf, hleft⟩ := hserved.succeeds spare henough
    obtain ⟨σ', free'', hrest, hfinal, hspare⟩ := (hnext mid free' hmid hhalf).succeeds spare hleft
    exact ⟨σ', free'', by rw [hmid]; exact hrest, hfinal, hspare⟩

/-- One page of `boot_map_region`. -/
def mapPage (σ : Phys) (pgdir : ℕ) (va entry : Word) : Option Phys := do
  match ← pgdirWalk σ pgdir va true with
  | (none, _) => none
  | (some (table, index), σ) => return σ.store table index entry

/-- Storing into an existing kernel page table. -/
theorem KernelHalf.stored_served (hhalf : KernelHalf pool kern Allowed σ free) {d table i : ℕ}
    (hd : d < 1024) (hne : d ≠ uvptIndex) (htable : entryPage (σ.mem kern d) = some table)
    {value : Word} (hvalue : Allowed d i value) :
    Served pool kern Allowed σ free (some (σ.store table i value)) := by
  have hstored := hhalf.stored hd hne htable hvalue
  have hkern : kern ≠ table := fun hsame =>
    hhalf.kern_not_pool (hsame ▸ (hhalf.table_pool d hd hne table htable).1)
  refine ⟨fun σ' hσ => ?_, fun spare henough =>
    ⟨_, free, rfl, hstored, hhalf.stored_enough hd hne htable value henough⟩⟩
  cases hσ
  exact ⟨fun e hsome => by rwa [mem_store_of_ne _ _ _ _ hkern], free, hstored⟩

theorem mapPage_served (hhalf : KernelHalf pool kern Allowed σ free) (hzero : ∀ d i, Allowed d i 0)
    {va entry : Word} (hlow : userPdes ≤ pdx va) (hne : pdx va ≠ uvptIndex)
    (hentry : Allowed (pdx va) (ptx va) entry) :
    Served pool kern Allowed σ free (mapPage σ kern va entry) ∧
      ∀ σ', mapPage σ kern va entry = some σ' → (entryPage (σ'.mem kern (pdx va))).isSome := by
  cases htable : entryPage (σ.mem kern (pdx va)) with
  | some table =>
      have hresult : mapPage σ kern va entry = some (σ.store table (ptx va) entry) := by
        simp [mapPage, hhalf.walk_present hne htable true]
      have hserved := hhalf.stored_served (pdx_lt va) hne htable hentry
      rw [hresult]
      exact ⟨hserved, fun σ' hσ => (hserved.keeps σ' hσ).1 _ (by rw [htable]; rfl)⟩
  | none =>
      cases free with
      | nil =>
          have hresult : mapPage σ kern va entry = none := by
            simp [mapPage, hhalf.walk_exhausted htable]
          rw [hresult]
          refine ⟨⟨fun σ' hσ => (by cases hσ), fun spare henough => ?_⟩,
            fun σ' hσ => (by cases hσ)⟩
          have hmem : pdx va ∈ (Finset.range 1024).filter
              fun d => entryPage (σ.mem kern d) = none :=
            Finset.mem_filter.mpr ⟨Finset.mem_range.mpr (pdx_lt va), htable⟩
          have hpos := Finset.card_pos.mpr ⟨_, hmem⟩
          unfold Enough absentTables at henough
          rw [List.length_nil] at henough
          omega
      | cons pg free =>
          have hlt := lt_of_lt_of_le (hhalf.pool_lt pg (hhalf.free_pool pg List.mem_cons_self))
            hhalf.npages_le
          have hcreated := hhalf.created (hzero _) hlow (pdx_lt va) hne htable
          have hnew : entryPage ((installTable σ kern (pdx va) pg).mem kern (pdx va)) =
              some pg := by
            rw [hhalf.installTable_kern, update_self, entryPage_tableEntry hlt]
          have hresult : mapPage σ kern va entry =
              some ((installTable σ kern (pdx va) pg).store pg (ptx va) entry) := by
            simp [mapPage, hhalf.walk_create htable]
          have hserved := hcreated.stored_served (pdx_lt va) hne hnew hentry
          have hkept : TablesKept kern σ (installTable σ kern (pdx va) pg) := fun d hsome => by
            rw [hhalf.installTable_kern]
            by_cases hsame : d = pdx va
            · rw [hsame, update_self, entryPage_tableEntry hlt]
              rfl
            · rwa [update_of_ne hsame]
          rw [hresult]
          refine ⟨⟨fun σ' hσ => ?_, fun spare henough => hserved.succeeds spare
            (hhalf.created_enough (pdx_lt va) htable henough)⟩,
            fun σ' hσ => (hserved.keeps σ' hσ).1 _ (by rw [hnew]; rfl)⟩
          obtain ⟨hstored, hfinal⟩ := hserved.keeps σ' hσ
          exact ⟨fun d hsome => hstored d (hkept d hsome), hfinal⟩

/-- What `boot_map_region` may be asked for. -/
def Mappable (Allowed : ℕ → ℕ → Word → Prop) (va pa perm : Word) (count : ℕ) : Prop :=
  ∀ i < count, userPdes ≤ pdx (va + BitVec.ofNat 32 i * pgSize) ∧
    pdx (va + BitVec.ofNat 32 i * pgSize) ≠ uvptIndex ∧
    Allowed (pdx (va + BitVec.ofNat 32 i * pgSize)) (ptx (va + BitVec.ofNat 32 i * pgSize))
      ((pa + BitVec.ofNat 32 i * pgSize) ||| perm ||| pteP)

theorem bootMapPages_served (hhalf : KernelHalf pool kern Allowed σ free)
    (hzero : ∀ d i, Allowed d i 0) {va pa perm : Word} {count : ℕ}
    (hmap : Mappable Allowed va pa perm count) :
    Served pool kern Allowed σ free (bootMapPages σ kern va pa perm count) := by
  induction count with
  | zero => exact Served.pure hhalf
  | succ i ih =>
      have hserved := ih fun j hj => hmap j (Nat.lt_succ_of_lt hj)
      obtain ⟨hlow, hne, hentry⟩ := hmap i (Nat.lt_succ_self i)
      exact hserved.bind fun σ' free' _ hhalf' => (mapPage_served hhalf' hzero hlow hne hentry).1

theorem bootMapRegion_served (hhalf : KernelHalf pool kern Allowed σ free)
    (hzero : ∀ d i, Allowed d i 0) {va size pa perm : Word}
    (hmap : Mappable Allowed va pa perm (size / pgSize).toNat) :
    Served pool kern Allowed σ free (bootMapRegion σ kern va size pa perm) :=
  bootMapPages_served hhalf hzero hmap

/-- The page table of the last page that `boot_map_region` maps exists. -/
theorem bootMapPages_present (hhalf : KernelHalf pool kern Allowed σ free)
    (hzero : ∀ d i, Allowed d i 0) {va pa perm : Word} {i : ℕ}
    (hmap : Mappable Allowed va pa perm (i + 1)) {σ' : Phys}
    (hresult : bootMapPages σ kern va pa perm (i + 1) = some σ') :
    (entryPage (σ'.mem kern (pdx (va + BitVec.ofNat 32 i * pgSize)))).isSome := by
  obtain ⟨mid, hmid, hlast⟩ := Option.bind_eq_some_iff.mp hresult
  have hserved := bootMapPages_served hhalf hzero fun j hj => hmap j (Nat.lt_succ_of_lt hj)
  obtain ⟨-, free', hhalf'⟩ := hserved.keeps mid hmid
  obtain ⟨hlow, hne, hentry⟩ := hmap i (Nat.lt_succ_self i)
  exact (mapPage_served hhalf' hzero hlow hne hentry).2 σ' hlast

/-- Clearing an entry under an existing page table. -/
theorem clearEntry_served (hhalf : KernelHalf pool kern Allowed σ free)
    (hzero : ∀ d i, Allowed d i 0) {va : Word} (hne : pdx va ≠ uvptIndex)
    (hsome : (entryPage (σ.mem kern (pdx va))).isSome) :
    Served pool kern Allowed σ free (clearEntry σ kern va) := by
  obtain ⟨table, htable⟩ := Option.isSome_iff_exists.mp hsome
  have hresult : clearEntry σ kern va = some (σ.store table (ptx va) 0) := by
    simp [clearEntry, hhalf.walk_present hne htable false]
  rw [hresult]
  exact hhalf.stored_served (pdx_lt va) hne htable (hzero _ _)

end Served

end OsLabs.Jos
