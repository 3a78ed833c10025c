import OsLabs.Jos.Offspring
import OsLabs.Jos.SoundMemory

/-!
# Running out of memory

An environment that allocates pages at one address again and again drains the
free list: `sys_page_alloc` counts each page twice, so that replacing it does
not free it.  With one page left, the next call fails half way.
-/

namespace OsLabs.Jos

open Function
open OsLabs.IntrusiveList
open OsLabs.RefLedger
open OsLabs.Transition

/-! ## One allocation -/

section Allocation

variable {ι : Type*} [Fintype ι] [DecidableEq ι]
variable {m : Machine} {pool : Set ℕ} {base : Phys} {Good : Word → Prop}
variable {dirs : ι → Option ℕ} {given : ι → Set ℕ} {σ : Phys} {free : List ℕ} {leak : ℕ → ℕ}
variable {i : ι} {dir pg : ℕ} {va perm : Word}

/-- What the counters count too much once `sys_page_alloc` has counted the page. -/
def leakOne (leak : ℕ → ℕ) (pg : ℕ) : ℕ → ℕ := fun page => leak page + if page = pg then 1 else 0

/-- The memory in which `sys_page_alloc` calls `page_insert`. -/
def handOut (σ : Phys) (pg : ℕ) : Phys := (takePage σ pg true).incRef pg

namespace Spaces

/-- A free page without a leak is counted by nothing. -/
theorem ref_of_free (hspaces : Spaces m pool base Good dirs given σ free leak) {page : ℕ}
    (hfree : page ∈ free) (hleak : leak page = 0) : σ.ref page = 0 := by
  have hdirs : refs Finset.univ dirs page = 0 := refs_eq_zero_iff.mpr fun e _ hdir =>
    (hspaces.paged.dir_busy e page hdir).1 hfree
  rw [hspaces.paged.balanced.count_eq page (hspaces.paged.balanced.free_mem page hfree),
    hspaces.paged.balanced.free_unref page hfree, owned, hdirs, hleak]
  rfl

/-- Taking a page changes no entry. -/
theorem tableSlot_handOut (hspaces : Spaces m pool base Good dirs given σ (pg :: free) leak)
    {key : TableKey ι} (hkey : key ∈ userKeys ι) :
    tableSlot (handOut σ pg) dirs key = tableSlot σ dirs key := by
  rw [handOut, tableSlot_congr_mem (mem_incRef _ _), hspaces.paged.tableSlot_takePage true key hkey]

theorem table_handOut (hspaces : Spaces m pool base Good dirs given σ (pg :: free) leak) (i : ι)
    (hva : va < utop) : tableSlot (handOut σ pg) dirs (.pde i (pdx va)) =
      tableSlot σ dirs (.pde i (pdx va)) :=
  hspaces.tableSlot_handOut (pde_mem_userKeys.mpr (pdx_lt_userPdes hva))

theorem page_handOut (hspaces : Spaces m pool base Good dirs given σ (pg :: free) leak) (i : ι)
    (hva : va < utop) :
    tableSlot (handOut σ pg) dirs (pteKey i va) = tableSlot σ dirs (pteKey i va) :=
  hspaces.tableSlot_handOut (pteKey_mem hva i)

theorem room_of_free (hspaces : Spaces m pool base Good dirs given σ (pg :: free) leak)
    (hleak : ∀ page ∈ pg :: free, leak page = 0) (dir : ℕ) (va : Word) :
    InsertRoom (handOut σ pg) dir pg va := by
  have hfirst := hspaces.ref_of_free List.mem_cons_self (hleak pg List.mem_cons_self)
  have hne : σ.ref pg ≠ 0xFFFF := by
    rw [hfirst]
    decide
  refine ⟨?_, fun _ next hnext => ?_⟩
  · rw [handOut, ref_incRef, update_self, ref_takePage, hfirst]
    decide
  · have hhead : next ∈ free :=
      List.mem_of_mem_head? (((hspaces.take hne).paged.threads.head_eq).symm.trans hnext)
    have hne : next ≠ pg := fun hsame =>
      (List.nodup_cons.mp hspaces.paged.balanced.free_nodup).1 (hsame ▸ hhead)
    rw [handOut, ref_incRef, update_of_ne hne, ref_takePage,
      hspaces.ref_of_free (List.mem_cons_of_mem _ hhead) (hleak next (List.mem_cons_of_mem _ hhead))]
    decide

/-- An allocation with a page table at hand succeeds. -/
theorem allocPresent (hspaces : Spaces m pool base Good dirs given σ (pg :: free) leak)
    (hdir : dirs i = some dir) (hva : va < utop)
    (htable : tableSlot σ dirs (.pde i (pdx va)) ≠ none)
    (hfit : pteAddr (page2pa pg ||| perm) = page2pa pg)
    (hgood : Good (page2pa pg ||| perm ||| pteP)) (hfirst : σ.ref pg ≠ 0xFFFF)
    (hroom : InsertRoom (handOut σ pg) dir pg va) :
    ∃ σ' free', pageInsert (handOut σ pg) dir pg va perm = some (0, σ') ∧
      Inserted pool dirs (handOut σ pg) free (owned dirs (leakOne leak pg)) i va
        (page2pa pg ||| perm ||| pteP) σ' free' ∧
      Spaces m pool base Good dirs (regive given i pg) σ' free' (leakOne leak pg) := by
  refine (hspaces.allocInsert hdir hva hfit hgood hfirst hroom).resolve_left fun hfailed => ?_
  have htaken : Spaces m pool base Good dirs given (handOut σ pg) free (leakOne leak pg) :=
    hspaces.take hfirst
  obtain ⟨table, htable⟩ := Option.ne_none_iff_exists'.mp htable
  have hwalk := pgdirWalk_present htaken.paged hdir hva
    ((hspaces.table_handOut i hva).trans htable) true
  obtain ⟨σ', -, hpair⟩ :=
    Option.map_eq_some_iff.mp ((pageInsert_of_walk hwalk).symm.trans hfailed.1)
  cases congrArg Prod.fst hpair

/-- Replacing a page that is counted too often takes a page from the free list for good. -/
theorem allocAgain (hspaces : Spaces m pool base Good dirs given σ (pg :: free) leak)
    (hdir : dirs i = some dir) (hva : va < utop) {old : ℕ}
    (hslot : tableSlot σ dirs (pteKey i va) = some old) (hleak : leak old ≠ 0)
    (hfit : pteAddr (page2pa pg ||| perm) = page2pa pg)
    (hgood : Good (page2pa pg ||| perm ||| pteP)) (hfirst : σ.ref pg ≠ 0xFFFF)
    (hroom : InsertRoom (handOut σ pg) dir pg va) :
    ∃ σ', pageInsert (handOut σ pg) dir pg va perm = some (0, σ') ∧
      Inserted pool dirs (handOut σ pg) free (owned dirs (leakOne leak pg)) i va
        (page2pa pg ||| perm ||| pteP) σ' free ∧
      Spaces m pool base Good dirs (regive given i pg) σ' free (leakOne leak pg) := by
  have htaken : Spaces m pool base Good dirs given (handOut σ pg) free (leakOne leak pg) :=
    hspaces.take hfirst
  have hpool := hspaces.paged.balanced.free_mem pg List.mem_cons_self
  have hfree := (List.nodup_cons.mp hspaces.paged.balanced.free_nodup).1
  have hslots : ∀ key ∈ userKeys ι, tableSlot (handOut σ pg) dirs key = tableSlot σ dirs key :=
    fun key hkey => hspaces.tableSlot_handOut hkey
  have hunref : ∀ key ∈ userKeys ι, tableSlot (handOut σ pg) dirs key ≠ some pg :=
    fun key hkey => by
      rw [hslots key hkey]
      exact refs_eq_zero_iff.mp (hspaces.paged.balanced.free_unref pg List.mem_cons_self) key hkey
  have hnot : NotTable (handOut σ pg) dirs pg :=
    ⟨(hspaces.paged.free_notTable List.mem_cons_self).1,
      fun j d hd => hunref _ (pde_mem_userKeys.mpr hd)⟩
  have hslot' := (hspaces.page_handOut i hva).trans hslot
  obtain ⟨table, htable⟩ : ∃ table, tableSlot (handOut σ pg) dirs (.pde i (pdx va)) = some table := by
    cases htable : tableSlot (handOut σ pg) dirs (.pde i (pdx va)) with
    | none =>
      rw [pteKey, tableSlot, wordAt_pte_none htable, entryPage_zero] at hslot'
      cases hslot'
    | some table => exact ⟨table, rfl⟩
  have hoccupied := hspaces.paged.balanced.slot_mem _ (pteKey_mem hva i) old hslot
  have hremap := htaken.paged.insert_replace hva htable hslot' hpool hfree hnot
    (entryPage_entry (lt_of_lt_of_le (hspaces.paged.pool_lt pg hpool) hspaces.paged.npages_le) hfit)
    (htaken.fits old hoccupied) (by simp)
  -- the page that is replaced is counted by its entry and once more
  have hold : ((handOut σ pg).incRef pg).ref old - 1 ≠ 0 := by
    have hne : old ≠ pg := fun hsame => hunref _ (pteKey_mem hva i) (hsame ▸ hslot')
    have hfits := hspaces.fits old hoccupied
    have hpos := refs_pos (pteKey_mem hva i) hslot
    rw [ref_incRef, update_of_ne hne, handOut, ref_incRef, update_of_ne hne, ref_takePage,
      hspaces.paged.balanced.count_eq old hoccupied]
    rw [counted] at hfits
    have htwo : 2 ≤ refs (userKeys ι) (tableSlot σ dirs) old + owned dirs leak old := by
      rw [owned]
      omega
    intro hzero
    have htoNat := congrArg BitVec.toNat hzero
    rw [BitVec.toNat_sub, BitVec.toNat_ofNat, Nat.mod_eq_of_lt hfits] at htoNat
    simp at htoNat
    omega
  rw [freeAfterDec, if_neg hold] at hremap
  have hpresent : ¬ (handOut σ pg).mem table (ptx va) &&& pteP = 0 := by
    rw [pteKey, tableSlot, wordAt_pte htable, entryPage_eq_some] at hslot'
    exact hslot'.1
  have hview := tableSlot_congr_mem (mem_incRef (handOut σ pg) pg) dirs
  have hremove : pageRemove ((handOut σ pg).incRef pg) dir va =
      some ((pageDecref ((handOut σ pg).incRef pg) old).store table (ptx va) 0) :=
    pageRemove_some (htaken.paged.counted pg) hdir hva (by rw [hview, htable])
      (by rw [hview, hslot'])
  have hresult : pageInsert (handOut σ pg) dir pg va perm = some (0,
      replaceAt (handOut σ pg) pg old (page2pa pg ||| perm ||| pteP) table (ptx va)) := by
    rw [pageInsert_of_walk (pgdirWalk_present htaken.paged hdir hva htable true), insertAt,
      load_present, mem_incRef, if_neg hpresent, hremove]
    rfl
  rcases hspaces.allocInsert hdir hva hfit hgood hfirst hroom with
    ⟨hfailed, -⟩ | ⟨σ', free', hdone, hinserted, hspaces'⟩
  · cases congrArg Prod.fst (Option.some.inj (hfailed.symm.trans hresult))
  · cases Option.some.inj (hdone.symm.trans hresult)
    obtain rfl : free' = free := hspaces'.paged.threads.unique hremap.paged.threads
    exact ⟨_, hresult, hinserted, hspaces'⟩

/-- An allocation with a page table at hand takes nothing else from the free list. -/
theorem allocInsert_keeps (hspaces : Spaces m pool base Good dirs given σ (pg :: free) leak)
    (hleak : ∀ page ∈ free, leak page = 0) (htable : tableSlot σ dirs (.pde i (pdx va)) ≠ none)
    (hfit : pteAddr (page2pa pg ||| perm) = page2pa pg) {σ' : Phys} {free' : List ℕ}
    {given' : ι → Set ℕ} (hinserted : Inserted pool dirs (handOut σ pg) free
      (owned dirs (leakOne leak pg)) i va (page2pa pg ||| perm ||| pteP) σ' free')
    (hspaces' : Spaces m pool base Good dirs given' σ' free' (leakOne leak pg)) :
    ∀ page ∈ free, page ∈ free' := by
  intro page hpage
  have hbal := hspaces.paged.balanced
  have hfree : page ∈ pg :: free := List.mem_cons_of_mem _ hpage
  have hpool := hbal.free_mem page hfree
  have hne : page ≠ pg := fun hsame => (List.nodup_cons.mp hbal.free_nodup).1 (hsame ▸ hpage)
  have hslots : ∀ key ∈ userKeys ι, tableSlot (handOut σ pg) dirs key = tableSlot σ dirs key :=
    fun key hkey => hspaces.tableSlot_handOut hkey
  have hunref := refs_eq_zero_iff.mp (hbal.free_unref page hfree)
  have hlt := lt_of_lt_of_le (hspaces.paged.pool_lt pg (hbal.free_mem pg List.mem_cons_self))
    hspaces.paged.npages_le
  by_contra hnot
  have hdirs : refs Finset.univ dirs page = 0 := refs_eq_zero_iff.mpr fun e _ hdir =>
    (hspaces.paged.dir_busy e page hdir).1 hfree
  have hused := (hspaces'.paged.balanced.not_lost page hpool hnot).resolve_left (by simp)
  rw [owned, hdirs, leakOne, hleak page hpage, if_neg hne, Nat.add_zero] at hused
  refine hused.ne' (refs_eq_zero_iff.mpr fun key hkey hslot => ?_)
  cases key with
  | pte j d t =>
    obtain ⟨hd, ht⟩ := pte_mem_userKeys.mp hkey
    rw [tableSlot, hinserted.ptes j d t hd ht] at hslot
    by_cases hsame : TableKey.pte j d t = pteKey i va
    · rw [hsame, update_self, entryPage_entry hlt hfit] at hslot
      exact hne (Option.some.inj hslot).symm
    · rw [update_of_ne hsame, ← tableSlot, hslots _ hkey] at hslot
      exact hunref _ hkey hslot
  | pde j d =>
    rcases hinserted.pdes j d (pde_mem_userKeys.mp hkey) with hsame | ⟨⟨rfl, rfl⟩, habsent, -⟩
    · rw [tableSlot, hsame, ← tableSlot, hslots _ hkey] at hslot
      exact hunref _ hkey hslot
    · exact htable ((hslots _ hkey).symm.trans habsent)

/-- Where no page table is and the page was the last one, the page keeps a count. -/
theorem allocLast (hspaces : Spaces m pool base Good dirs given σ [pg] leak) (perm : Word)
    (hdir : dirs i = some dir) (hfirst : σ.ref pg ≠ 0xFFFF) (hva : va < utop)
    (habsent : tableSlot σ dirs (.pde i (pdx va)) = none) :
    pageInsert (handOut σ pg) dir pg va perm = some (-eNoMem, handOut σ pg) := by
  have htaken : Spaces m pool base Good dirs given (handOut σ pg) [] (leakOne leak pg) :=
    hspaces.take hfirst
  have habsent' : tableSlot (handOut σ pg) dirs (.pde i (pdx va)) = none :=
    (hspaces.table_handOut i hva).trans habsent
  rw [pageInsert, pgdirWalk_exhausted htaken.paged hdir habsent']
  rfl

end Spaces

end Allocation

/-! ## Draining the free list -/

/-- The permissions of a user page. -/
def userPerm : Word := pteP ||| pteU ||| pteW

/-- `sys_page_alloc` for the caller itself. -/
def allocCall (va : Word) : Call := ⟨.pageAlloc, 0, va, userPerm, 0, 0⟩

/-- The address behind the stack of an idle program. -/
def spareVa : Word := stackVa - pgSize

/-- An address without a page table. -/
def farVa : Word := 0x400000

/-- The first environment has allocated a page at `spareVa`, and `n` pages are left. -/
structure Draining (m : Machine) (t : Kernel) (n : ℕ) : Prop where
  running : (t.envs firstSlot).status = .running
  dir : (t.envs firstSlot).pgdir.isSome
  memory : ∃ pool base given free leak old,
    Spaces m pool base (fun _ => True) (dirsOf t) given t.phys free leak ∧ free.length = n ∧
      (∀ page ∈ free, leak page = 0) ∧
      tableSlot t.phys (dirsOf t) (pteKey firstSlot spareVa) = some old ∧ leak old ≠ 0 ∧
      tableSlot t.phys (dirsOf t) (.pde firstSlot (pdx farVa)) = none

section Drain

variable {m : Machine} {s t : Kernel} {n : ℕ}

theorem plainCall_alloc {cur : Slot} {dir pg : ℕ} {va code : Word} {σ : Phys}
    (hdir : (t.envs cur).pgdir = some dir) (hva : va < utop)
    (hhead : t.phys.pageFreeList = some pg)
    (hinsert : pageInsert (handOut t.phys pg) dir pg va userPerm = some (code, σ)) :
    plainCall t cur 0 (allocCall va) =
      some (if code = 0 then (0, t.setPhys σ) else (code, t.setPhys (pageFree σ pg))) := by
  have hperm : ¬ userPerm &&& (pteU ||| pteP) ≠ pteU ||| pteP := by decide
  have halloc : pageAlloc t.phys true = (some pg, takePage t.phys pg true) := by
    rw [pageAlloc, hhead]
    rfl
  have hself : envid2env t cur 0 true = some cur := if_pos rfl
  change sysPageAlloc t cur 0 va userPerm = _
  rw [handOut] at hinsert
  rw [sysPageAlloc, hself]
  dsimp only
  rw [if_neg (BitVec.not_le.mpr hva), if_neg hperm, halloc]
  dsimp only
  rw [hdir]
  simp only [Option.bind_eq_bind, Option.bind_some, hinsert]
  by_cases hcode : code = 0
  · rw [if_neg (not_not.mpr hcode), if_pos hcode]
    rfl
  · rw [if_pos hcode, if_neg hcode]
    rfl

/-- The address of the page leaves room for the permissions. -/
theorem fit_userPerm (pg : ℕ) : pteAddr (page2pa pg ||| userPerm) = page2pa pg :=
  pteAddr_page2pa_or (by decide)

theorem spareVa_lt : spareVa < utop := by decide

theorem farVa_lt : farVa < utop := by decide

theorem farVa_far : pdx farVa ≠ pdx spareVa := by decide

/-- One page less. -/
theorem Draining.step (hdraining : Draining m t (n + 1)) : ∃ t',
    plainCall t firstSlot 0 (allocCall spareVa) = some (0, t') ∧ Draining m t' n := by
  obtain ⟨dir, hdir⟩ := Option.isSome_iff_exists.mp hdraining.dir
  obtain ⟨pool, base, given, free, leak, old, hspaces, hlength, hleaks, hslot, hleak, hfar⟩ :=
    hdraining.memory
  cases free with
  | nil => cases hlength
  | cons pg rest =>
    have hfirst : t.phys.ref pg ≠ 0xFFFF := by
      rw [hspaces.ref_of_free List.mem_cons_self (hleaks pg List.mem_cons_self)]
      decide
    obtain ⟨σ, hinsert, hinserted, hdone⟩ := hspaces.allocAgain (i := firstSlot) hdir spareVa_lt
      hslot hleak (fit_userPerm pg) trivial hfirst (hspaces.room_of_free hleaks dir spareVa)
    have hcall := plainCall_alloc hdir spareVa_lt hspaces.paged.threads.head_eq hinsert
    rw [if_pos rfl] at hcall
    have hnot : pg ∉ rest := (List.nodup_cons.mp hspaces.paged.balanced.free_nodup).1
    have hlt := lt_of_lt_of_le (hspaces.paged.pool_lt pg
      (hspaces.paged.balanced.free_mem pg List.mem_cons_self)) hspaces.paged.npages_le
    refine ⟨t.setPhys σ, hcall, hdraining.running, hdraining.dir,
      pool, base, _, rest, _, pg, hdone, Nat.succ.inj hlength, fun page hpage => ?_, ?_, ?_, ?_⟩
    · have hne : page ≠ pg := fun hsame => hnot (hsame ▸ hpage)
      rw [leakOne, hleaks page (List.mem_cons_of_mem _ hpage), if_neg hne]
    · change tableSlot σ (dirsOf t) (pteKey firstSlot spareVa) = some pg
      rw [tableSlot, pteKey, hinserted.ptes _ _ _ (pdx_lt_userPdes spareVa_lt) (ptx_lt spareVa),
        ← pteKey, update_self]
      exact entryPage_entry hlt (fit_userPerm pg)
    · rw [leakOne, if_pos rfl]
      exact Nat.succ_ne_zero _
    · change tableSlot σ (dirsOf t) (.pde firstSlot (pdx farVa)) = none
      rcases hinserted.pdes firstSlot (pdx farVa) (pdx_lt_userPdes farVa_lt) with
        hsame | ⟨⟨-, hindex⟩, -⟩
      · rw [tableSlot, hsame, ← tableSlot, hspaces.table_handOut firstSlot farVa_lt, hfar]
      · exact absurd hindex farVa_far

/-- The environment goes on until one page is left. -/
theorem Draining.drain (hdraining : Draining m t (n + 1)) (hacting : Acting s firstSlot t) :
    ∃ s' t', Runs Jos.step (fun _ _ => True) s s' ∧ Acting s' firstSlot t' ∧ Draining m t' 1 := by
  induction n generalizing s t with
  | zero => exact ⟨s, t, Runs.refl, hacting, hdraining⟩
  | succ n ih =>
    obtain ⟨t', hcall, hnext⟩ := hdraining.step
    obtain ⟨s', hstep, hacting'⟩ := hacting.call hcall hnext.running
    obtain ⟨s'', t'', hrun, hrest⟩ := ih hnext hacting'
    exact ⟨s'', t'', (Runs.refl.tail trivial hstep).trans hrun, hrest⟩

/-- The kernel after the first allocation of page `pg` at `spareVa`. -/
structure FirstAlloc (m : Machine) (t : Kernel) (pg : ℕ) (rest : List ℕ) (σ : Phys) : Prop where
  called : plainCall t firstSlot 0 (allocCall spareVa) = some (0, t.setPhys σ)
  memory : ∃ pool base given given' free',
    Spaces m pool base (fun _ => True) (dirsOf t) given t.phys (pg :: rest) noLeak ∧
    Spaces m pool base (fun _ => True) (dirsOf t) given' σ free' (leakOne noLeak pg) ∧
    Inserted pool (dirsOf t) (handOut t.phys pg) rest (owned (dirsOf t) (leakOne noLeak pg))
      firstSlot spareVa (page2pa pg ||| userPerm ||| pteP) σ free' ∧
    ∀ page ∈ rest, page ∈ free'
  empty : tableSlot t.phys (dirsOf t) (pteKey firstSlot spareVa) = none
  far : tableSlot t.phys (dirsOf t) (.pde firstSlot (pdx farVa)) = none

/-- The first allocation after the start. -/
theorem Idle.allocates {spare : ℕ} {booted : Kernel} (hidle : Idle m 1 (spare + 2) booted)
    (ht : t = booted.setStatus firstSlot .running) :
    ∃ pg rest σ, rest ≠ [] ∧ FirstAlloc m t pg rest σ := by
  obtain ⟨dir, hfirst⟩ := hidle.env firstSlot (by decide)
  obtain ⟨pool, base, given, free, -, hspare, hspaces⟩ := hidle.memory
  have hdir : dirsOf booted firstSlot = some dir := by
    rw [dirsOf, hfirst]
    rfl
  have hdirs : dirsOf t = dirsOf booted := ht ▸ dirsOf_setEnv rfl
  have hphys : t.phys = booted.phys := ht ▸ rfl
  rw [← hdirs, ← hphys] at hspaces
  rw [← hdirs] at hdir
  cases free with
  | nil => exact absurd hspare (Nat.not_succ_le_zero _)
  | cons pg rest =>
    have htable : tableSlot t.phys (dirsOf t) (.pde firstSlot (pdx spareVa)) ≠ none := by
      obtain ⟨page, -, hstack⟩ := hidle.stack firstSlot (by decide)
      rw [hdirs, hphys]
      intro habsent
      have hsame : pdx spareVa = pdx stackVa := by decide
      rw [hsame] at habsent
      rw [pteKey, tableSlot, wordAt_pte_none habsent, entryPage_zero] at hstack
      cases hstack
    have hempty : tableSlot t.phys (dirsOf t) (pteKey firstSlot spareVa) = none := by
      have hne : pteKey firstSlot spareVa ≠ pteKey firstSlot stackVa := by decide
      rw [hdirs, hphys]
      exact hidle.alone _ _ _ (pdx_lt_userPdes spareVa_lt) (ptx_lt _) hne
    have hfar : tableSlot t.phys (dirsOf t) (.pde firstSlot (pdx farVa)) = none := by
      rw [hdirs, hphys]
      exact hidle.tables _ _ (pdx_lt_userPdes farVa_lt) (by decide)
    have hroom := hspaces.room_of_free (fun _ _ => rfl) dir spareVa
    have hunused := hspaces.ref_of_free List.mem_cons_self rfl
    obtain ⟨σ, free', hinsert, hinserted, hdone⟩ := hspaces.allocPresent hdir spareVa_lt htable
      (fit_userPerm pg) trivial (by rw [hunused]; decide) hroom
    have hcall := plainCall_alloc hdir spareVa_lt hspaces.paged.threads.head_eq hinsert
    rw [if_pos rfl] at hcall
    have hkeep := hspaces.allocInsert_keeps (fun _ _ => rfl) htable (fit_userPerm pg) hinserted hdone
    have hrest : rest ≠ [] := by
      intro hnil
      rw [hnil, List.length_singleton] at hspare
      omega
    exact ⟨pg, rest, σ, hrest,
      { called := hcall
        memory := ⟨pool, base, given, _, free', hspaces, hdone, hinserted, hkeep⟩
        empty := hempty
        far := hfar }⟩

theorem FirstAlloc.draining {pg : ℕ} {rest : List ℕ} {σ : Phys}
    (hfirst : FirstAlloc m t pg rest σ) (hrest : rest ≠ [])
    (hrunning : (t.envs firstSlot).status = .running)
    (hdir : (t.envs firstSlot).pgdir.isSome) : ∃ n, Draining m (t.setPhys σ) (n + 1) := by
  obtain ⟨pool, base, given, given', free', hspaces, hdone, hinserted, hkeep⟩ := hfirst.memory
  have hnot : pg ∉ rest := (List.nodup_cons.mp hspaces.paged.balanced.free_nodup).1
  have hlt := lt_of_lt_of_le (hspaces.paged.pool_lt pg
    (hspaces.paged.balanced.free_mem pg List.mem_cons_self)) hspaces.paged.npages_le
  obtain ⟨next, hnext⟩ := List.exists_mem_of_ne_nil rest hrest
  cases free' with
  | nil => cases hkeep next hnext
  | cons first rest' =>
    refine ⟨rest'.length, hrunning, hdir, pool, base, _, first :: rest', _, pg, hdone, rfl,
      fun page hpage => ?_, ?_, ?_, ?_⟩
    · rcases hinserted.free_new page hpage with hfree | hslot
      · have hne : page ≠ pg := fun hsame => hnot (hsame ▸ hfree)
        rw [leakOne, if_neg hne]
        rfl
      · rw [hspaces.page_handOut firstSlot spareVa_lt, hfirst.empty] at hslot
        cases hslot
    · change tableSlot σ (dirsOf t) (pteKey firstSlot spareVa) = some pg
      rw [tableSlot, pteKey, hinserted.ptes _ _ _ (pdx_lt_userPdes spareVa_lt) (ptx_lt spareVa),
        ← pteKey, update_self]
      exact entryPage_entry hlt (fit_userPerm pg)
    · rw [leakOne, if_pos rfl]
      exact Nat.succ_ne_zero _
    · change tableSlot σ (dirsOf t) (.pde firstSlot (pdx farVa)) = none
      rcases hinserted.pdes firstSlot (pdx farVa) (pdx_lt_userPdes farVa_lt) with
        hsame | ⟨⟨-, hindex⟩, -⟩
      · rw [tableSlot, hsame, ← tableSlot, hspaces.table_handOut firstSlot farVa_lt, hfirst.far]
      · exact absurd hindex farVa_far

/-- With one page left and no page table for the address, the call fails and the
page keeps a count. -/
theorem Draining.last (hdraining : Draining m t 1) : ∃ pg t',
    plainCall t firstSlot 0 (allocCall farVa) = some (-eNoMem, t') ∧
      t'.phys.ref pg = t.phys.ref pg + 1 := by
  obtain ⟨dir, hdir⟩ := Option.isSome_iff_exists.mp hdraining.dir
  obtain ⟨pool, base, given, free, leak, old, hspaces, hlength, hleaks, -, -, hfar⟩ :=
    hdraining.memory
  obtain ⟨pg, rfl⟩ := List.length_eq_one_iff.mp hlength
  have hfirst : t.phys.ref pg ≠ 0xFFFF := by
    rw [hspaces.ref_of_free List.mem_cons_self (hleaks pg List.mem_cons_self)]
    decide
  have hfail : (-eNoMem : Word) ≠ 0 := by decide
  have hcall := plainCall_alloc hdir farVa_lt hspaces.paged.threads.head_eq
    (hspaces.allocLast userPerm hdir hfirst farVa_lt hfar)
  rw [if_neg hfail] at hcall
  refine ⟨pg, _, hcall, ?_⟩
  rw [Kernel.setPhys, ref_pageFree, handOut, ref_incRef, update_self, ref_takePage]

/-- A reachable state in which a failing `sys_page_alloc` leaves a count behind. -/
theorem exhausted : ∃ s s' pg, Reachable s ∧
    syscall s 0 firstSlot 0 Sys.pageAlloc.number 0 farVa userPerm 0 0 =
      some (.ret (-eNoMem) s') ∧
    s.curenv 0 = some firstSlot ∧ s'.phys.ref pg = s.phys.ref pg + 1 := by
  have hfree : uniprocessor.initialFree.length = 15813 := smallMachine_free
  obtain ⟨booted, hboots, hidle⟩ : ∃ booted, Boots uniprocessor (List.replicate 1 idleProgram)
      booted ∧ Idle uniprocessor 1 2 booted :=
    uniprocessor_sane.boots_idle (by decide) (by omega)
  obtain ⟨s₁, p, hboot, hacting, hlone⟩ := hidle.begins (by decide)
  obtain ⟨pg, rest, σ, hrest, hfirst⟩ := hidle.allocates rfl
  obtain ⟨n, hdraining⟩ := hfirst.draining hrest hacting.running hlone.firstDir
  obtain ⟨s₂, hstep, hacting⟩ := hacting.call hfirst.called hdraining.running
  obtain ⟨s₃, t₃, hrun, hacting, hdraining⟩ := hdraining.drain hacting
  obtain ⟨pg, t₄, hlast, hcount⟩ := hdraining.last
  obtain ⟨s₄, hlast', hrest⟩ := plainCall_congr hacting.rest hlast
  have hbefore := phys_of_rest hacting.rest
  have hafter := phys_of_rest hrest
  refine ⟨s₃, s₄, pg, ⟨uniprocessor, _, booted, uniprocessor_sane, lone_inUser, hboots,
    ((Runs.refl.tail trivial hboot).tail trivial hstep).trans hrun⟩,
    syscall_plain hlast', hacting.onCpu, ?_⟩
  rw [hafter, hbefore, hcount]

/-- A failed call can leave a trace. -/
theorem failed_call_traced : ¬ ∀ s, Reachable s → ∀ c cur, s.curenv c = some cur →
    ∀ key syscallno a1 a2 a3 a4 a5 ret s',
      syscall s c cur key syscallno a1 a2 a3 a4 a5 = some (.ret ret s') → IsError ret →
        Untouched s s' := by
  intro hall
  obtain ⟨s, s', pg, hreach, hcall, hcur, hcount⟩ := exhausted
  have hrefs := (hall s hreach 0 firstSlot hcur _ _ _ _ _ _ _ _ _ hcall (by decide)).refs
  rw [hrefs] at hcount
  have hne : ∀ ref : BitVec 16, ref ≠ ref + 1 := fun ref h => by
    bv_omega
  exact hne _ hcount

/-- The call that takes the last page. -/
theorem exhausted_untouched_iff : ∃ s s', Reachable s ∧
    syscall s 0 firstSlot 0 Sys.pageAlloc.number 0 farVa userPerm 0 0 =
      some (.ret (-eNoMem) s') ∧ IsError (-eNoMem) ∧
    (Untouched s s' ↔ ¬ StrandsCount s firstSlot Sys.pageAlloc.number 0 farVa userPerm) := by
  obtain ⟨s, s', pg, hreach, hcall, -⟩ := exhausted
  have herror : IsError (-eNoMem) := by decide
  exact ⟨s, s', hreach, hcall, herror, syscall_error_untouched_iff hcall herror⟩

end Drain

end OsLabs.Jos
