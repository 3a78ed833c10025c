import OsLabs.Jos.Fresh
import OsLabs.Jos.Requests

/-!
# Loading the first environments

`env_create` keeps the invariant of the address spaces.  `region_alloc` does
not look at the result of `page_insert`; a page that is lost that way leaves
the pool.
-/

namespace OsLabs.Jos

open Function
open OsLabs.IntrusiveList
open OsLabs.RefLedger

variable {ι : Type*} [Fintype ι] [DecidableEq ι]

/-- A count without leaks. -/
def noLeak : ℕ → ℕ := fun _ => 0

/-- The entries of user pages that the kernel maps itself. -/
def loadEntry (pg : ℕ) : Word := page2pa pg ||| (pteW ||| pteU) ||| pteP

/-- The memory of a kernel whose counters are exact. -/
def Housed (m : Machine) (Good : Word → Prop) (dirs : ι → Option ℕ) (σ : Phys) : Prop :=
  ∃ pool base given free, KernelImage m pool base ∧
    Spaces m pool base Good dirs given σ free noLeak

/-- The same, with the pages `first` and the memory `before` at the start: pages
may have left the pool, and memory outside the first pool is as it was. -/
def HousedFrom (first : Set ℕ) (before : Phys) (m : Machine) (Good : Word → Prop)
    (dirs : ι → Option ℕ) (σ : Phys) : Prop :=
  ∃ pool base given free, KernelImage m pool base ∧
    Spaces m pool base Good dirs given σ free noLeak ∧
    (∀ page ∈ pool, page ∈ first) ∧ ∀ page, page ∉ first → base.mem page = before.mem page

theorem HousedFrom.housed {first : Set ℕ} {before : Phys} {m : Machine} {Good : Word → Prop}
    {dirs : ι → Option ℕ} {σ : Phys} (hhoused : HousedFrom first before m Good dirs σ) :
    Housed m Good dirs σ := by
  obtain ⟨pool, base, given, free, himage, hspaces, -, -⟩ := hhoused
  exact ⟨pool, base, given, free, himage, hspaces⟩

/-- A frame of the free pages, then a frame. -/
theorem Frame.then {pool : Set ℕ} {dirs : ι → Option ℕ} {σ τ σ' : Phys} {free rest : List ℕ}
    (hfirst : Frame pool dirs σ free τ) (hsecond : Frame pool dirs τ rest σ')
    (hsub : ∀ page ∈ rest, page ∈ free)
    (hslots : ∀ key ∈ userKeys ι, tableSlot τ dirs key = tableSlot σ dirs key) :
    Frame pool dirs σ free σ' where
  npages := hsecond.npages.trans hfirst.npages
  mem_other := fun page hfree hnot => by
    have hnot' : NotTable τ dirs page := ⟨hnot.1, fun j d hd => by
      rw [hslots _ (pde_mem_userKeys.mpr hd)]
      exact hnot.2 j d hd⟩
    rw [hsecond.mem_other page (fun hmem => hfree (hsub page hmem)) hnot',
      hfirst.mem_other page hfree hnot]
  dir_high := fun j dir hdir d hd => by
    rw [hsecond.dir_high j dir hdir d hd, hfirst.dir_high j dir hdir d hd]
  ref_other := fun page hpage => by
    rw [hsecond.ref_other page hpage, hfirst.ref_other page hpage]

namespace Spaces

variable {m : Machine} {pool : Set ℕ} {base : Phys} {Good : Word → Prop}
variable {dirs : ι → Option ℕ} {given : ι → Set ℕ} {σ : Phys} {free : List ℕ}
variable {leak : ℕ → ℕ} {i : ι} {dir pg : ℕ} {va : Word}

omit [DecidableEq ι] in
theorem noDirs_refs (page : ℕ) : refs Finset.univ (fun _ : ι => (none : Option ℕ)) page = 0 :=
  refs_eq_zero_iff.mpr fun _ _ => by simp

/-- The memory that the first environments find. -/
theorem start {σ : Phys} {free : List ℕ}
    (hhalf : KernelHalf m.pool m.kernPgdir m.Window σ free) (Good : Word → Prop) :
    KernelImage m {page | page ∈ free} σ ∧
      Spaces m {page | page ∈ free} σ Good (fun _ : ι => none) (fun _ => ∅) σ free noLeak := by
  have hkern : ∀ page ∈ free, page ∈ m.pool := hhalf.free_pool
  have hempty : ∀ key : TableKey ι, tableSlot σ (fun _ => none) key = none := fun key =>
    tableSlot_of_no_dir σ rfl
  have hrefs : ∀ page, refs (userKeys ι) (tableSlot σ fun _ => none) page = 0 := fun page =>
    refs_eq_zero_iff.mpr fun key _ => by simp [hempty key]
  have howned : ∀ page, owned (fun _ : ι => none) noLeak page = 0 := fun page => by
    rw [owned, noDirs_refs, noLeak]
  refine ⟨⟨hkern, fun hmem => hhalf.kern_not_pool (hkern _ hmem), hhalf.user_empty,
    fun d _ hd hne table htable => ⟨(hhalf.table_pool d hd hne table htable).2.1,
      hhalf.allowed d hd hne table htable⟩⟩, ?_⟩
  exact
    { paged :=
        { threads := hhalf.threads
          balanced :=
            { free_nodup := hhalf.threads.nodup
              free_mem := fun _ h => h
              slot_mem := fun key _ page hslot => by
                rw [hempty key] at hslot
                cases hslot
              count_eq := fun page hpage => by
                rw [hrefs, howned, hhalf.free_ref page hpage]
                rfl
              free_unref := fun page _ => hrefs page
              not_lost := fun page hpage hfree => absurd hpage hfree
              held_mem := fun _ hheld => by cases hheld }
          exclusive :=
            { dir_inj := fun j k dir hdir => by cases hdir
              dir_unref := fun j dir hdir => by cases hdir
              table_unique := fun j d table _ hslot => by
                rw [hempty] at hslot
                cases hslot }
          dir_busy := fun j dir hdir => by cases hdir
          pool_lt := fun page hpage => hhalf.pool_lt page (hkern page hpage)
          npages_le := hhalf.npages_le }
      fits := fun page _ => by
        rw [counted, hrefs, howned]
        decide
      dir_pool := fun e dir hdir => by cases hdir
      npages := rfl
      mem_kept := fun _ _ => rfl
      ref_kept := fun _ _ => rfl
      kernel_part := fun e dir hdir => by cases hdir
      user_ptes := fun e d t page _ _ hslot => by
        rw [hempty] at hslot
        cases hslot }

/-- A free page is counted by nothing. -/
theorem free_ref (hspaces : Spaces m pool base Good dirs given σ free noLeak) {page : ℕ}
    (hfree : page ∈ free) : σ.ref page = 0 := by
  have hdirs : refs Finset.univ dirs page = 0 := refs_eq_zero_iff.mpr fun e _ hdir =>
    (hspaces.paged.dir_busy e page hdir).1 hfree
  rw [hspaces.paged.balanced.count_eq page (hspaces.paged.balanced.free_mem page hfree),
    hspaces.paged.balanced.free_unref page hfree, owned, hdirs, noLeak]
  rfl

theorem free_room (hspaces : Spaces m pool base Good dirs given σ free noLeak) {page : ℕ}
    (hfree : page ∈ free) : σ.ref page ≠ 0xFFFF := by
  rw [hspaces.free_ref hfree]
  decide

/-- `region_alloc` for one page, up to the result of `page_insert`. -/
theorem loadPage (hspaces : Spaces m pool base Good dirs given σ (pg :: free) noLeak)
    (hdir : dirs i = some dir) (hva : va < utop) (hgood : Good (loadEntry pg)) :
    (tableSlot σ dirs (.pde i (pdx va)) = none ∧ free = [] ∧
      pageInsert (takePage σ pg false) dir pg va (pteW ||| pteU) =
        some (-eNoMem, takePage σ pg false)) ∨
    ∃ σ' free', pageInsert (takePage σ pg false) dir pg va (pteW ||| pteU) = some (0, σ') ∧
      Inserted pool dirs (takePage σ pg false) free (owned dirs noLeak) i va (loadEntry pg) σ'
        free' ∧
      Spaces m pool base Good dirs (regive given i pg) σ' free' noLeak := by
  have hpool := hspaces.paged.balanced.free_mem pg List.mem_cons_self
  have hrest := (List.nodup_cons.mp hspaces.paged.balanced.free_nodup).1
  have hview := hspaces.paged.wordAt_takePage false
  have hslots := hspaces.paged.tableSlot_takePage false
  have hlt := lt_of_lt_of_le (hspaces.paged.pool_lt pg hpool) hspaces.paged.npages_le
  have hentry : entryPage (loadEntry pg) = some pg :=
    entryPage_entry hlt (pteAddr_page2pa_or (by decide))
  have hunref : ∀ key ∈ userKeys ι, tableSlot σ dirs key ≠ some pg := fun key hkey =>
    refs_eq_zero_iff.mp (hspaces.paged.balanced.free_unref pg List.mem_cons_self) key hkey
  have hnot : NotTable (takePage σ pg false) dirs pg :=
    ⟨(hspaces.paged.free_notTable List.mem_cons_self).1, fun j d hd => by
      rw [hslots _ (pde_mem_userKeys.mpr hd)]
      exact hunref _ (pde_mem_userKeys.mpr hd)⟩
  have hpde : TableKey.pde i (pdx va) ∈ userKeys ι := pde_mem_userKeys.mpr (pdx_lt_userPdes hva)
  rcases pageInsert_spec (hspaces.paged.taken false) hdir hva hpool hrest hnot hentry
    (fun old hslot => by
      rw [refs_congr hslots]
      rw [hslots _ (pteKey_mem hva i)] at hslot
      exact hspaces.fits old (hspaces.paged.balanced.slot_mem _ (pteKey_mem hva i) old hslot))
    (fun other hother => by
      cases hother
      rw [hslots _ (pteKey_mem hva i)]
      exact ⟨rfl, hunref _ (pteKey_mem hva i)⟩) with
    ⟨habsent, hnone, hfailed⟩ | ⟨σ', free', hresult, hinserted⟩
  · rw [hslots _ hpde] at habsent
    exact Or.inl ⟨habsent, hnone, hfailed⟩
  · have hframe : Frame pool dirs σ (pg :: free) σ' :=
      (hspaces.paged.frame_takePage false).then hinserted.frame
        (fun page hpage => List.mem_cons_of_mem _ hpage) hslots
    refine Or.inr ⟨σ', free', hresult, hinserted, hspaces.of_inserted hview
      (fun page hpage => List.mem_cons_of_mem _ hpage) hframe hinserted hpool hrest hentry hgood
      (hspaces.free_room List.mem_cons_self) (fun _ next hnext => hspaces.free_room
        (List.mem_cons_of_mem _ (List.mem_of_mem_head? hnext))) (by simp [regive])
      (fun e d t page hd ht hslot hgiven => ?_) hva⟩
    have hne : page ≠ pg := fun hsame => hunref _ (pte_mem_userKeys.mpr ⟨hd, ht⟩) (hsame ▸ hslot)
    unfold regive
    split
    · exact Set.mem_insert_of_mem _ hgiven
    · exact ⟨hgiven, hne⟩

/-- A page that is in use nowhere and not free leaves the pool. -/
theorem lose (hspaces : Spaces m pool base Good dirs given σ (pg :: free) noLeak)
    (himage : KernelImage m pool base) :
    KernelImage m (pool \ {pg}) (takePage σ pg false) ∧
      Spaces m (pool \ {pg}) (takePage σ pg false) Good dirs given (takePage σ pg false) free
        noLeak := by
  have htaken := hspaces.paged.taken false
  have hslots := hspaces.paged.tableSlot_takePage false
  have hview := hspaces.paged.wordAt_takePage false
  have hrest := (List.nodup_cons.mp hspaces.paged.balanced.free_nodup).1
  have hpool := hspaces.paged.balanced.free_mem pg List.mem_cons_self
  have hunref : ∀ key ∈ userKeys ι, tableSlot σ dirs key ≠ some pg := fun key hkey =>
    refs_eq_zero_iff.mp (hspaces.paged.balanced.free_unref pg List.mem_cons_self) key hkey
  have hmem : ∀ page, page ∉ pool → (takePage σ pg false).mem page = base.mem page :=
    fun page hpage => by
      have hne : page ≠ pg := fun hsame => hpage (hsame ▸ hpool)
      rw [mem_takePage_of_ne pg false hne, hspaces.mem_kept page hpage]
  refine ⟨⟨fun page hpage => himage.pool_sub page hpage.1, fun h => himage.kern_not_pool h.1,
    fun d hd => ?_, fun d hlow hd hne table htable => ?_⟩, ?_⟩
  · rw [hmem _ himage.kern_not_pool]
    exact himage.user_empty d hd
  · rw [hmem _ himage.kern_not_pool] at htable
    obtain ⟨htable, hwindow⟩ := himage.tables d hlow hd hne table htable
    rw [hmem _ htable]
    exact ⟨fun h => htable h.1, hwindow⟩
  · exact
      { paged :=
          { threads := htaken.threads
            balanced :=
              { free_nodup := htaken.balanced.free_nodup
                free_mem := fun page hpage => ⟨htaken.balanced.free_mem page hpage,
                  fun hsame => hrest (hsame ▸ hpage)⟩
                slot_mem := fun key hkey page hslot => by
                  refine ⟨htaken.balanced.slot_mem key hkey page hslot, fun hsame => ?_⟩
                  rw [hslots key hkey, hsame] at hslot
                  exact hunref key hkey hslot
                count_eq := fun page hpage => htaken.balanced.count_eq page hpage.1
                free_unref := htaken.balanced.free_unref
                not_lost := fun page hpage hfree =>
                  Or.inr ((htaken.balanced.not_lost page hpage.1 hfree).resolve_left
                    fun hheld => hpage.2 (Option.some.inj hheld).symm)
                held_mem := fun _ hheld => by cases hheld }
            exclusive := htaken.exclusive
            dir_busy := fun e dir hdir => ⟨(htaken.dir_busy e dir hdir).1, by simp⟩
            pool_lt := fun page hpage => htaken.pool_lt page hpage.1
            npages_le := htaken.npages_le }
        fits := fun page hpage => by
          unfold counted
          rw [refs_congr hslots]
          exact hspaces.fits page hpage.1
        dir_pool := fun e dir hdir => ⟨hspaces.dir_pool e dir hdir, fun hsame =>
          (hspaces.paged.dir_busy e dir hdir).1 (hsame ▸ List.mem_cons_self)⟩
        npages := rfl
        mem_kept := fun _ _ => rfl
        ref_kept := fun _ _ => rfl
        kernel_part := fun e dir hdir => by
          obtain ⟨huvpt, hcopied⟩ := hspaces.kernel_part e dir hdir
          have hne : dir ≠ pg := fun hsame =>
            (hspaces.paged.dir_busy e dir hdir).1 (hsame ▸ List.mem_cons_self)
          rw [← mem_takePage_of_ne pg false hne] at huvpt
          refine ⟨huvpt, fun d hlow hd hneIndex => ?_⟩
          rw [mem_takePage_of_ne pg false hne, hmem _ himage.kern_not_pool]
          exact hcopied d hlow hd hneIndex
        user_ptes := fun e d t page hd ht hslot => by
          have hkey : TableKey.pte e d t ∈ userKeys ι := pte_mem_userKeys.mpr ⟨hd, ht⟩
          rw [hslots _ hkey] at hslot
          rw [hview _ hkey]
          exact hspaces.user_ptes e d t page hd ht hslot }

end Spaces

/-! ## `region_alloc` and `load_icode` -/

/-- `Good` admits the entries that the kernel writes itself. -/
def LoadsGood (Good : Word → Prop) : Prop := ∀ pg < 2 ^ 20, Good (loadEntry pg)

namespace HousedFrom

variable {first : Set ℕ} {before : Phys} {m : Machine} {Good : Word → Prop}
variable {dirs : ι → Option ℕ} {σ σ' : Phys} {i : ι} {dir : ℕ}

theorem regionPages (hhoused : HousedFrom first before m Good dirs σ) (hloads : LoadsGood Good)
    (hdir : dirs i = some dir) {count : ℕ} {va : Word}
    (hrange : va.toNat + count * 4096 ≤ utop.toNat)
    (hrun : Jos.regionPages σ dir count va = some σ') : HousedFrom first before m Good dirs σ' := by
  induction count generalizing σ va with
  | zero =>
    cases hrun
    exact hhoused
  | succ count ih =>
    have htop : utop.toNat = 4005560320 := by decide
    have hva : va < utop := by
      rw [BitVec.lt_def]
      omega
    have hnext : (va + pgSize).toNat = va.toNat + 4096 := by
      rw [BitVec.toNat_add, show pgSize.toNat = 4096 by decide]
      omega
    obtain ⟨pool, base, given, free, himage, hspaces, hsub, hbefore⟩ := hhoused
    rw [Jos.regionPages] at hrun
    cases free with
    | nil =>
      rw [pageAlloc_nil hspaces.paged false] at hrun
      cases hrun
    | cons pg free =>
      rw [pageAlloc_cons hspaces.paged false] at hrun
      have hlt := lt_of_lt_of_le (hspaces.paged.pool_lt pg
        (hspaces.paged.balanced.free_mem pg List.mem_cons_self)) hspaces.paged.npages_le
      rcases hspaces.loadPage hdir hva (hloads pg hlt) with
        ⟨-, -, hfailed⟩ | ⟨loaded, free', hresult, -, hloaded⟩
      · simp only [hfailed, Option.bind_eq_bind, Option.bind_some] at hrun
        obtain ⟨himage', hspaces'⟩ := hspaces.lose himage
        refine ih ⟨_, _, _, _, himage', hspaces', fun page hpage => hsub page hpage.1,
          fun page hpage => ?_⟩ (by rw [hnext]; omega) hrun
        have hpool : page ∉ pool := fun hmem => hpage (hsub page hmem)
        have hne : page ≠ pg := fun hsame =>
          hpool (hsame ▸ hspaces.paged.balanced.free_mem pg List.mem_cons_self)
        rw [mem_takePage_of_ne pg false hne, hspaces.mem_kept page hpool, hbefore page hpage]
      · simp only [hresult, Option.bind_eq_bind, Option.bind_some] at hrun
        exact ih ⟨_, _, _, _, himage, hloaded, hsub, hbefore⟩ (by rw [hnext]; omega) hrun

theorem regionAlloc (hhoused : HousedFrom first before m Good dirs σ) (hloads : LoadsGood Good)
    (hdir : dirs i = some dir) {va len : Word} (hrange : va.toNat + len.toNat ≤ utop.toNat)
    (hrun : Jos.regionAlloc σ dir va len = some σ') : HousedFrom first before m Good dirs σ' := by
  refine hhoused.regionPages hloads hdir ?_ hrun
  have htop : utop.toNat = 4005560320 := by decide
  have hfirst := toNat_roundDown va
  have hlast : (roundUp (va + len)).toNat = (va.toNat + len.toNat + 4095) / 4096 * 4096 := by
    have hsum : va + len + pgSize - 1 = va + len + 4095 := by
      rw [pgSize]
      bv_omega
    rw [roundUp, hsum, toNat_roundDown, BitVec.toNat_add, BitVec.toNat_add,
      show (4095 : Word).toNat = 4095 by decide]
    omega
  split
  case isTrue hlt =>
    rw [BitVec.lt_def] at hlt
    rw [BitVec.toNat_udiv, BitVec.toNat_sub_of_le (BitVec.le_def.mpr hlt.le), show pgSize.toNat = 4096 by decide]
    omega
  case isFalse => omega

theorem kernelStores (hhoused : HousedFrom first before m Good dirs σ) (hdir : dirs i = some dir) {va : Word}
    {bytes : List (BitVec 8)} (hrange : va.toNat + bytes.length ≤ utop.toNat)
    (hrun : Jos.kernelStores σ dir va bytes = some σ') : HousedFrom first before m Good dirs σ' := by
  obtain ⟨pool, base, given, free, himage, hspaces, horigin⟩ := hhoused
  exact ⟨pool, base, given, free, himage, hspaces.kernelStores hdir hrange hrun, horigin⟩

theorem loadSegment (hhoused : HousedFrom first before m Good dirs σ) (hloads : LoadsGood Good)
    (hdir : dirs i = some dir) {seg : Segment}
    (hseg : seg.va.toNat + seg.memsz.toNat ≤ utop.toNat ∧ seg.bytes.length ≤ seg.memsz.toNat)
    (hrun : Jos.loadSegment σ dir seg = some σ') : HousedFrom first before m Good dirs σ' := by
  simp only [Jos.loadSegment, Option.bind_eq_bind, Option.bind_eq_some_iff] at hrun
  obtain ⟨mapped, hmapped, cleared, hcleared, hfilled⟩ := hrun
  have hallocated := hhoused.regionAlloc hloads hdir hseg.1 hmapped
  have hzero := hallocated.kernelStores hdir (by rw [List.length_replicate]; exact hseg.1) hcleared
  exact hzero.kernelStores hdir ((Nat.add_le_add_left hseg.2 _).trans hseg.1) hfilled

theorem loadIcode (hhoused : HousedFrom first before m Good dirs σ) (hloads : LoadsGood Good)
    (hdir : dirs i = some dir) {program : Program} (huser : program.InUser)
    (hrun : Jos.loadIcode σ dir program = some σ') : HousedFrom first before m Good dirs σ' := by
  have hsegments : ∀ (segments : List Segment) (τ τ' : Phys), (∀ seg ∈ segments,
      seg.va.toNat + seg.memsz.toNat ≤ utop.toNat ∧ seg.bytes.length ≤ seg.memsz.toNat) →
      HousedFrom first before m Good dirs τ → segments.foldlM (fun τ seg => Jos.loadSegment τ dir seg) τ = some τ' →
      HousedFrom first before m Good dirs τ' := by
    intro segments
    induction segments with
    | nil =>
      intro τ τ' _ hτ hfold
      cases hfold
      exact hτ
    | cons seg segments ih =>
      intro τ τ' hin hτ hfold
      rw [List.foldlM_cons] at hfold
      obtain ⟨next, hnext, hrest⟩ := Option.bind_eq_some_iff.mp hfold
      exact ih next τ' (fun other h => hin other (List.mem_cons_of_mem _ h))
        (hτ.loadSegment hloads hdir (hin seg List.mem_cons_self) hnext) hrest
  simp only [Jos.loadIcode, Option.bind_eq_bind, Option.bind_eq_some_iff] at hrun
  obtain ⟨loaded, hloaded, hstack⟩ := hrun
  exact (hsegments _ _ _ huser hhoused hloaded).regionAlloc hloads hdir (by decide) hstack

end HousedFrom

/-! ## `env_create` -/

/-- The memory of a kernel between two calls of `env_create`. -/
structure HousedKernel (m : Machine) (Good : Word → Prop) (s : Kernel) : Prop where
  kern : s.kernPgdir = m.kernPgdir
  housed : Housed m Good (dirsOf s) s.phys

section Creating

variable {first : Set ℕ} {before : Phys} {m : Machine} {Good : Word → Prop} {s s' : Kernel}

/-- The page directories after an `env_create`. -/
theorem dirsOf_create (s : Kernel) (e : Slot) (p : ℕ) (program : Program) (σ : Phys) :
    dirsOf
      { phys := σ
        kernPgdir := s.kernPgdir
        envs := update s.envs e { newEnv (s.envs e) e 0 p with
          tf := { newTrapframe with eip := program.entry } }
        envFreeList := (s.envs e).link
        cpus := s.cpus } = update (dirsOf s) e (some p) := by
  funext k
  by_cases hk : k = e
  · subst hk
    simp [dirsOf, newEnv]
  · simp [dirsOf, update_of_ne hk]

theorem HousedFrom.envCreate (hkern : s.kernPgdir = m.kernPgdir)
    (hhoused : HousedFrom first before m Good (dirsOf s) s.phys) (hfresh : Fresh s)
    (hloads : LoadsGood Good) {program : Program} (huser : program.InUser)
    (hcreate : Jos.envCreate s program = some s') :
    s'.kernPgdir = m.kernPgdir ∧ HousedFrom first before m Good (dirsOf s') s'.phys := by
  obtain ⟨pool, base, given, free, himage, hspaces, horigin⟩ := hhoused
  obtain ⟨e, p, σ, hlist, hpages, hload, rfl⟩ := envCreate_ok hcreate
  have hnone : dirsOf s e = none := hfresh.table.head_pgdir hlist
  refine ⟨hkern, ?_⟩
  rw [dirsOf_create]
  cases free with
  | nil =>
    rw [hspaces.paged.threads.head_eq] at hpages
    cases hpages
  | cons pg free =>
    have hsame : pg = p := Option.some.inj (hspaces.paged.threads.head_eq.symm.trans hpages)
    subst hsame
    rw [hkern] at hload
    have hsetup := hspaces.setupDir himage hnone (hspaces.free_room List.mem_cons_self)
    exact HousedFrom.loadIcode ⟨_, _, _, _, himage, hsetup, horigin⟩ hloads
      (update_self e (some pg) (dirsOf s)) huser hload

theorem HousedFrom.envCreates (hkern : s.kernPgdir = m.kernPgdir)
    (hhoused : HousedFrom first before m Good (dirsOf s) s.phys) (hfresh : Fresh s)
    (hloads : LoadsGood Good) {programs : List Program}
    (huser : ∀ program ∈ programs, program.InUser)
    (hcreate : Jos.envCreates s programs = some s') :
    s'.kernPgdir = m.kernPgdir ∧ HousedFrom first before m Good (dirsOf s') s'.phys := by
  induction programs generalizing s with
  | nil =>
    cases hcreate
    exact ⟨hkern, hhoused⟩
  | cons program programs ih =>
    obtain ⟨next, hfirst, hrest⟩ := Option.bind_eq_some_iff.mp hcreate
    obtain ⟨hkern', hnext⟩ :=
      hhoused.envCreate hkern hfresh hloads (huser program List.mem_cons_self) hfirst
    exact ih hkern' hnext (hfresh.envCreate hfirst)
      (fun other h => huser other (List.mem_cons_of_mem _ h)) hrest

theorem dirsOf_initialKernel (m : Machine) (σ : Phys) :
    dirsOf (initialKernel m σ) = fun _ => none := by
  funext e
  obtain ⟨link, henv⟩ := initialKernel_env m σ e
  rw [dirsOf, henv]
  rfl

/-- What loading the first environments leaves in memory. -/
theorem KernelHalf.houses {σ : Phys} {free : List ℕ}
    (hhalf : KernelHalf m.pool m.kernPgdir m.Window σ free) (hloads : LoadsGood Good)
    {programs : List Program} (huser : ∀ program ∈ programs, program.InUser)
    (hcreate : Jos.envCreates (initialKernel m σ) programs = some s) :
    s.kernPgdir = m.kernPgdir ∧
      HousedFrom {page | page ∈ free} σ m Good (dirsOf s) s.phys := by
  obtain ⟨himage, hspaces⟩ := Spaces.start (ι := Slot) hhalf Good
  refine HousedFrom.envCreates rfl ?_ (initialKernel_fresh m σ) hloads huser hcreate
  rw [dirsOf_initialKernel]
  exact ⟨_, _, _, _, himage, hspaces, fun _ hpage => hpage, fun _ _ => rfl⟩

/-- What booting leaves in memory. -/
theorem Boots.housed (hsane : m.Sane) (hloads : LoadsGood Good) {programs : List Program}
    (huser : ∀ program ∈ programs, program.InUser) (hboots : Boots m programs s) :
    HousedKernel m Good s := by
  obtain ⟨σ, free, hhalf, hcreate⟩ := hboots.layout hsane
  obtain ⟨hkern, hhoused⟩ := hhalf.houses hloads huser hcreate
  exact ⟨hkern, hhoused.housed⟩

end Creating

end OsLabs.Jos
