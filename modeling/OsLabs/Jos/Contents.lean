import OsLabs.Core.CopyOnWrite
import OsLabs.Jos.SoundMemory

/-!
# What is in the mapped pages

The operations of the kernel leave the contents of mapped pages alone: they
write to page tables, to directories, and to pages that nobody maps yet.
-/

namespace OsLabs.Jos

open Function
open OsLabs.IntrusiveList

section Contents

variable {ι : Type*} [Fintype ι] [DecidableEq ι]
variable {m : Machine} {arena : Arena m} {pool : Set ℕ} {base : Phys} {Good : Word → Prop}
variable {quiet : Set ℕ} {dirs : ι → Option ℕ} {given : ι → Set ℕ} {σ τ σ' : Phys}
variable {free : List ℕ} {leak : ℕ → ℕ} {i : ι} {dir pg pp : ℕ} {va perm ret : Word}

/-- The pages that the spaces map keep their contents. -/
def ContentsKept (dirs : ι → Option ℕ) (σ σ' : Phys) : Prop :=
  ∀ i, ∀ va < utop, ∀ page, mappedAt σ dirs i va = some page → σ'.mem page = σ.mem page

omit [Fintype ι] [DecidableEq ι] in
theorem ContentsKept.of_mem (hmem : σ'.mem = σ.mem) : ContentsKept dirs σ σ' :=
  fun _ _ _ page _ => congrFun hmem page

theorem Spaces.contentsKept (hspaces : Spaces m pool base Good dirs given σ free leak)
    (hframe : Frame pool dirs σ free σ') : ContentsKept dirs σ σ' :=
  fun _ _ hva page hmapped =>
    hframe.mem_other page (hspaces.mapped hva hmapped).2.1 (hspaces.mapped hva hmapped).2.2

namespace MemoryOk

/-- The first page of the free list is mapped nowhere. -/
theorem head_unmapped (hmem : MemoryOk arena Good quiet given dirs σ)
    (hhead : σ.pageFreeList = some pg) (hva : va < utop) : mappedAt σ dirs i va ≠ some pg := by
  intro hmapped
  refine hmem.mapped_busy hva hmapped ?_
  obtain ⟨free, leak, hspaces, -⟩ := hmem
  have hthreads := hspaces.paged.threads
  refine ⟨free, hthreads, ?_⟩
  cases free with
  | nil =>
    rw [hthreads.head_eq] at hhead
    cases hhead
  | cons first rest =>
    have hfirst : first = pg := Option.some.inj (hthreads.head_eq.symm.trans hhead)
    rw [hfirst]
    exact List.mem_cons_self

theorem head_lt (hmem : MemoryOk arena Good quiet given dirs σ) (hhead : σ.pageFreeList = some pg) :
    pg < 2 ^ 20 := by
  obtain ⟨free, leak, hspaces, -⟩ := hmem
  have hthreads := hspaces.paged.threads
  cases free with
  | nil =>
    rw [hthreads.head_eq] at hhead
    cases hhead
  | cons first rest =>
    obtain rfl : first = pg := Option.some.inj (hthreads.head_eq.symm.trans hhead)
    have hpool := hspaces.paged.balanced.free_mem first List.mem_cons_self
    exact lt_of_lt_of_le (hspaces.paged.pool_lt first hpool) hspaces.paged.npages_le

/-- `page_remove`. -/
theorem remove_contents (hmem : MemoryOk arena Good quiet given dirs σ) (hdir : dirs i = some dir)
    (hva : va < utop) (hrun : pageRemove σ dir va = some σ') :
    ContentsKept dirs σ σ' ∧ mappedAt σ' dirs i va = none := by
  obtain ⟨free, leak, hspaces, -⟩ := hmem
  obtain ⟨τ, free', hremove, -, hgone⟩ := hspaces.paged.remove hspaces.fits hdir hva
  obtain rfl : τ = σ' := Option.some.inj (hremove.symm.trans hrun)
  exact ⟨fun j w hw page hmapped => hgone.mem_other page (hspaces.mapped hw hmapped).2.2,
    hgone.slots _ (pteKey_mem hva i) rfl⟩

/-- `page_insert` of a page that is mapped already. -/
theorem insert_contents (hmem : MemoryOk arena Good quiet given dirs σ) {j : ι} {w : Word}
    (hdir : dirs i = some dir) (hva : va < utop) (hw : w < utop)
    (hmapped : mappedAt σ dirs j w = some pp)
    (hfit : pteAddr (page2pa pp ||| perm) = page2pa pp)
    (hgood : Good (page2pa pp ||| perm ||| pteP)) (hroom : InsertRoom σ dir pp va)
    (hrun : pageInsert σ dir pp va perm = some (ret, σ')) :
    ContentsKept dirs σ σ' ∧
      (ret = 0 → entryAt σ' dirs i va = page2pa pp ||| perm ||| pteP) := by
  obtain ⟨free, leak, hspaces, -⟩ := hmem
  obtain ⟨hpool, hfree, hnot⟩ := hspaces.mapped hw hmapped
  rcases hspaces.insert hdir hva hpool hfree hnot hfit hgood hroom (mem_give given i pp)
    (fun _ _ _ _ _ _ _ h => give_sub given i pp h) with
    ⟨-, -, hfailed⟩ | ⟨τ, free', hresult, hinserted, -⟩
  · cases Option.some.inj (hfailed.symm.trans hrun)
    exact ⟨ContentsKept.of_mem rfl, fun hret => absurd hret (by decide)⟩
  · cases Option.some.inj (hresult.symm.trans hrun)
    refine ⟨hspaces.contentsKept hinserted.frame, fun _ => ?_⟩
    rw [entryAt, pteKey, hinserted.ptes i _ _ (pdx_lt_userPdes hva) (ptx_lt va), ← pteKey,
      update_self]

/-- The memory part of `sys_page_alloc`. -/
theorem alloc_contents (hmem : MemoryOk arena Good quiet given dirs σ)
    (hhead : σ.pageFreeList = some pg) (hdir : dirs i = some dir) (hva : va < utop)
    (hfit : pteAddr (page2pa pg ||| perm) = page2pa pg)
    (hgood : Good (page2pa pg ||| perm ||| pteP)) (hfirst : σ.ref pg ≠ 0xFFFF)
    (hroom : InsertRoom ((takePage σ pg true).incRef pg) dir pg va)
    (hrun : pageInsert ((takePage σ pg true).incRef pg) dir pg va perm = some (ret, σ')) :
    ContentsKept dirs σ σ' ∧ (ret = 0 →
      entryAt σ' dirs i va = page2pa pg ||| perm ||| pteP ∧ ∀ t, σ'.mem pg t = 0) := by
  have hunmapped : ∀ (j : ι) (w : Word), w < utop → mappedAt σ dirs j w ≠ some pg :=
    fun j w hw => hmem.head_unmapped hhead hw
  obtain ⟨free, leak, hspaces, -⟩ := hmem
  cases free with
  | nil =>
    rw [hspaces.paged.threads.head_eq] at hhead
    cases hhead
  | cons first rest =>
    obtain rfl : first = pg :=
      Option.some.inj (hspaces.paged.threads.head_eq.symm.trans hhead)
    have htaken := hspaces.take hfirst
    have hview (key : TableKey ι) (hkey : key ∈ userKeys ι) :
        tableSlot ((takePage σ first true).incRef first) dirs key = tableSlot σ dirs key := by
      rw [tableSlot_congr_mem (mem_incRef _ _), hspaces.paged.tableSlot_takePage true key hkey]
    have hnot := hspaces.paged.free_notTable (show first ∈ first :: rest from List.mem_cons_self)
    -- the new page is not touched again
    have hfree := (List.nodup_cons.mp hspaces.paged.balanced.free_nodup).1
    have hnot' : NotTable ((takePage σ first true).incRef first) dirs first :=
      ⟨hnot.1, fun j d hd => by
        rw [hview _ (pde_mem_userKeys.mpr hd)]
        exact hnot.2 j d hd⟩
    have hold : ContentsKept dirs σ ((takePage σ first true).incRef first) :=
      fun j w hw page hmapped => by
        have hne : page ≠ first := fun hsame => hunmapped j w hw (hsame ▸ hmapped)
        rw [mem_incRef, mem_takePage_of_ne _ _ hne]
    rcases hspaces.allocInsert hdir hva hfit hgood hfirst hroom with
      ⟨hfailed, -⟩ | ⟨τ, free', hresult, hinserted, -⟩
    · cases Option.some.inj (hfailed.symm.trans hrun)
      exact ⟨hold, fun hret => absurd hret (by decide)⟩
    · cases Option.some.inj (hresult.symm.trans hrun)
      refine ⟨fun j w hw page hmapped => ?_, fun _ => ⟨?_, fun t => ?_⟩⟩
      · have hmapped' : mappedAt ((takePage σ first true).incRef first) dirs j w = some page := by
          rw [mappedAt, hview _ (pteKey_mem hw j)]
          exact hmapped
        rw [htaken.contentsKept hinserted.frame j w hw page hmapped', hold j w hw page hmapped]
      · rw [entryAt, pteKey, hinserted.ptes i _ _ (pdx_lt_userPdes hva) (ptx_lt va), ← pteKey,
          update_self]
      · rw [hinserted.frame.mem_other first hfree hnot', mem_incRef, mem_takePage_self]

/-- `env_setup_vm`. -/
theorem fork_contents (hmem : MemoryOk arena Good quiet given dirs σ)
    (hhead : σ.pageFreeList = some pg) : ContentsKept dirs σ (setupDir σ m.kernPgdir pg) := by
  have hunmapped : ∀ (j : ι) (w : Word), w < utop → mappedAt σ dirs j w ≠ some pg :=
    fun j w hw => hmem.head_unmapped hhead hw
  obtain ⟨free, leak, hspaces, -⟩ := hmem
  cases free with
  | nil =>
    rw [hspaces.paged.threads.head_eq] at hhead
    cases hhead
  | cons first rest =>
    obtain rfl : first = pg :=
      Option.some.inj (hspaces.paged.threads.head_eq.symm.trans hhead)
    exact fun j w hw page hmapped =>
      hspaces.mem_setupDir_of_ne m.kernPgdir fun hsame => hunmapped j w hw (hsame ▸ hmapped)

/-- `env_free`. -/
theorem destroy_contents (hmem : MemoryOk arena Good quiet given dirs σ) (hdir : dirs i = some dir)
    (hrun : freeTables σ dir userPdes = some σ') : ContentsKept dirs σ (pageDecref σ' dir) := by
  obtain ⟨free, leak, hspaces, -⟩ := hmem
  obtain ⟨ρ, -, hfree, -, hgone⟩ :=
    hspaces.paged.freeTables hspaces.fits hdir (Nat.le_refl userPdes)
  obtain rfl : ρ = σ' := Option.some.inj (hfree.symm.trans hrun)
  exact fun j w hw page hmapped => by
    rw [mem_pageDecref, hgone.mem_other page (hspaces.mapped hw hmapped).2.2]

/-- What `page_lookup` finds is the entry of the space, up to the flags of the MMU. -/
theorem lookup_entry (hmem : MemoryOk arena Good quiet given dirs σ) (hdir : dirs i = some dir)
    (hva : va < utop) {page table index : ℕ}
    (hfound : pageLookup σ dir va = some (some (page, (table, index)))) :
    mappedAt σ dirs i va = some page ∧ SameEntry (σ.load table index) (entryAt σ dirs i va) := by
  obtain ⟨free, leak, hspaces, -⟩ := hmem
  have hslot := (hspaces.lookup hdir hva hfound).1
  refine ⟨hslot, ?_⟩
  obtain ⟨pt, htable⟩ := table_of_pte hslot
  rw [pageLookup_some hspaces.paged hdir hva htable hslot] at hfound
  cases hfound
  rw [entryAt, pteKey, wordAt_pte htable]
  exact sameEntry_load σ table (ptx va)

/-- A mapped page has a page number. -/
theorem mapped_lt (hmem : MemoryOk arena Good quiet given dirs σ) (hva : va < utop)
    {page : ℕ} (hmapped : mappedAt σ dirs i va = some page) : page < 2 ^ 20 := by
  obtain ⟨free, leak, hspaces, -⟩ := hmem
  exact lt_of_lt_of_le (hspaces.paged.pool_lt _ (hspaces.mapped hva hmapped).1)
    hspaces.paged.npages_le

end MemoryOk

end Contents

/-! ## Calls -/

/-- No mapping changes. -/
structure SameView (s s' : Kernel) : Prop where
  entries : ∀ e, ∀ va < utop,
    entryAt s'.phys (dirsOf s') e va = entryAt s.phys (dirsOf s) e va
  contents : ContentsKept (dirsOf s) s.phys s'.phys

/-- At most the mapping of `e` at `va` changes. -/
structure Edited (s s' : Kernel) (e : Slot) (va : Word) : Prop where
  entries : ∀ k, ∀ w < utop, k ≠ e ∨ pgnum w ≠ pgnum va →
    entryAt s'.phys (dirsOf s') k w = entryAt s.phys (dirsOf s) k w
  contents : ContentsKept (dirsOf s) s.phys s'.phys

/-- The entry that `page_insert` writes. -/
def newEntry (page : ℕ) (perm : Word) : Word := page2pa page ||| perm ||| pteP

/-- Flags of an entry are the permissions asked for. -/
theorem newEntry_and (page : ℕ) (perm : Word) {mask : Word} (hmask : pteAddr mask = 0)
    (hpresent : pteP &&& mask = 0) : newEntry page perm &&& mask = perm &&& mask := by
  rw [newEntry, BitVec.and_or_distrib_right, BitVec.and_or_distrib_right, hpresent,
    aligned_and_flags (pteAddr_page2pa page) hmask]
  simp

/-- What a call that returns does to the mappings of the environments. -/
inductive ViewEffect (s : Kernel) (cur : Slot) (call : Call) (ret : Word) (s' : Kernel) : Prop
  | same : (ret = 0 → call.sys ≠ .pageAlloc ∧ call.sys ≠ .pageMap ∧ call.sys ≠ .pageUnmap) →
      (call.sys = .exofork → IsError ret) → dirsOf s' = dirsOf s → SameView s s' →
      ViewEffect s cur call ret s'
  | alloc (e : Slot) (page : ℕ) : call.sys = .pageAlloc → ret = 0 →
      envid2env s cur call.a1 true = some e → call.a2 < utop → dirsOf s' = dirsOf s →
      (∀ k, ∀ w < utop, mappedAt s.phys (dirsOf s) k w ≠ some page) →
      entryPage (newEntry page call.a3) = some page →
      entryAt s'.phys (dirsOf s') e call.a2 = newEntry page call.a3 →
      (∀ t, s'.phys.mem page t = 0) → Edited s s' e call.a2 → ViewEffect s cur call ret s'
  | map (src e : Slot) (page : ℕ) : call.sys = .pageMap → ret = 0 →
      envid2env s cur call.a1 true = some src → envid2env s cur call.a3 true = some e →
      call.a2 < utop → call.a4 < utop → dirsOf s' = dirsOf s →
      mappedAt s.phys (dirsOf s) src call.a2 = some page →
      (call.a5 &&& pteW ≠ 0 → entryAt s.phys (dirsOf s) src call.a2 &&& pteW ≠ 0) →
      entryPage (newEntry page call.a5) = some page →
      entryAt s'.phys (dirsOf s') e call.a4 = newEntry page call.a5 → Edited s s' e call.a4 →
      ViewEffect s cur call ret s'
  | send (e : Slot) (page : ℕ) : call.sys = .ipcTrySend → call.a3 < utop →
      envid2env s cur call.a1 false = some e → (s.envs e).ipcRecving = true →
      (s.envs e).ipcDstva < utop → dirsOf s' = dirsOf s →
      mappedAt s.phys (dirsOf s) cur call.a3 = some page →
      (call.a4 &&& pteW ≠ 0 → entryAt s.phys (dirsOf s) cur call.a3 &&& pteW ≠ 0) →
      entryPage (newEntry page call.a4) = some page →
      entryAt s'.phys (dirsOf s') e (s.envs e).ipcDstva = newEntry page call.a4 →
      Edited s s' e (s.envs e).ipcDstva → ViewEffect s cur call ret s'
  | unmap (e : Slot) : call.sys = .pageUnmap → ret = 0 →
      envid2env s cur call.a1 true = some e → call.a2 < utop → dirsOf s' = dirsOf s →
      mappedAt s'.phys (dirsOf s') e call.a2 = none → Edited s s' e call.a2 →
      ViewEffect s cur call ret s'
  | fork (e : Slot) (dir : ℕ) : call.sys = .exofork → ¬ IsError ret → s.envFreeList = some e →
      dirsOf s' = update (dirsOf s) e (some dir) → SameView s s' → ViewEffect s cur call ret s'

section Calls

variable {m : Machine} {arena : Arena m} {Good : Word → Prop} {quiet : Set ℕ}
variable {given : Slot → Set ℕ} {s s' : Kernel} {cur : Slot} {key ret : Word} {call : Call}

/-- `sys_page_alloc` succeeds through `page_insert` only. -/
theorem sysPageAlloc_request (hsys : call.sys = .pageAlloc)
    (hrun : sysPageAlloc s cur call.a1 call.a2 call.a3 = some (0, s')) :
    ∃ req, mapRequest s cur call = some req := by
  unfold sysPageAlloc at hrun
  cases hfound : envid2env s cur call.a1 true with
  | none =>
    simp only [hfound] at hrun
    cases hrun
  | some e =>
    simp only [hfound] at hrun
    split at hrun
    case isTrue => cases hrun
    case isFalse hva =>
      split at hrun
      case isTrue => cases hrun
      case isFalse hperm =>
        cases hhead : s.phys.pageFreeList with
        | none =>
          simp only [pageAlloc, hhead] at hrun
          cases hrun
        | some pg =>
          have halloc : pageAlloc s.phys true = (some pg, takePage s.phys pg true) := by
            rw [pageAlloc, hhead]
            rfl
          simp only [halloc, Option.bind_eq_bind, Option.bind_eq_some_iff] at hrun
          obtain ⟨dir, hdir, -⟩ := hrun
          rw [not_not] at hperm
          exact ⟨_, by simp [mapRequest, hsys, hfound, hhead, hdir, hva, permOk, hperm]; rfl⟩

/-- `sys_page_map` succeeds through `page_insert` only, and gives no right to write that its source
lacks. -/
theorem sysPageMap_request (hsys : call.sys = .pageMap)
    (hrun : sysPageMap s cur call.a1 call.a2 call.a3 call.a4 call.a5 = some (0, s')) :
    ∃ se req dir table index, mapRequest s cur call = some req ∧
      envid2env s cur call.a1 true = some se ∧ dirsOf s se = some dir ∧ call.a2 < utop ∧
      pageLookup s.phys dir call.a2 = some (some (req.page, (table, index))) ∧
      (call.a5 &&& pteW ≠ 0 → s.phys.load table index &&& pteW ≠ 0) := by
  unfold sysPageMap at hrun
  cases hsrc : envid2env s cur call.a1 true with
  | none =>
    simp only [hsrc] at hrun
    cases hrun
  | some se =>
    cases hdst : envid2env s cur call.a3 true with
    | none =>
      simp only [hsrc, hdst] at hrun
      cases hrun
    | some de =>
      simp only [hsrc, hdst] at hrun
      split at hrun
      case isTrue => cases hrun
      case isFalse hva =>
        simp only [Option.bind_eq_bind, Option.bind_eq_some_iff] at hrun
        obtain ⟨dir, hdir, found, hlookup, hrun⟩ := hrun
        cases found with
        | none => cases hrun
        | some place =>
          obtain ⟨pg, table, index⟩ := place
          dsimp only at hrun
          split at hrun
          case isTrue => cases hrun
          case isFalse hperm =>
            rw [not_not] at hperm
            split at hrun
            case isTrue => cases hrun
            case isFalse hwrite =>
              simp only [Option.bind_eq_some_iff] at hrun
              obtain ⟨dstdir, hdstdir, -⟩ := hrun
              have hcheck : ¬ (¬ permOk call.a5 ∨
                  s.phys.load table index &&& pteW = 0 ∧ call.a5 &&& pteW ≠ 0) := by
                rw [not_or, not_not]
                exact ⟨hperm, hwrite⟩
              refine ⟨se, ⟨s.phys, de, dstdir, pg, call.a4, call.a5⟩, dir, table, index, ?_, rfl,
                hdir, ?_, hlookup, fun hw hr => hwrite ⟨hr, hw⟩⟩
              · simp only [mapRequest, hsys, hsrc, hdst, Option.bind_eq_bind, Option.bind_some,
                  if_neg hva, hdir, hlookup, Option.join_some, if_neg hcheck, hdstdir]
                rfl
              · rw [not_or, BitVec.not_le] at hva
                exact hva.1

theorem sysPageUnmap_cases (hrun : sysPageUnmap s cur call.a1 call.a2 = some (ret, s')) :
    (ret ≠ 0 ∧ s' = s) ∨ ∃ e dir σ, ret = 0 ∧ envid2env s cur call.a1 true = some e ∧
      dirsOf s e = some dir ∧ call.a2 < utop ∧ pageRemove s.phys dir call.a2 = some σ ∧
      s' = s.setPhys σ := by
  unfold sysPageUnmap at hrun
  split at hrun
  case isTrue =>
    cases hrun
    exact Or.inl ⟨by decide, rfl⟩
  case isFalse hva =>
    rw [not_or, BitVec.not_le] at hva
    split at hrun
    case h_1 =>
      cases hrun
      exact Or.inl ⟨by decide, rfl⟩
    case h_2 e hfound =>
      simp only [Option.bind_eq_bind, Option.bind_eq_some_iff] at hrun
      obtain ⟨dir, hdir, σ, hremove, hrun⟩ := hrun
      cases hrun
      exact Or.inr ⟨e, dir, σ, rfl, hfound, hdir, hva.1, hremove, rfl⟩

theorem Edited.of_remaps {e : Slot} {va : Word} (hdirs : dirsOf s' = dirsOf s)
    (hremaps : Remaps (dirsOf s) s.phys s'.phys e va)
    (hcontents : ContentsKept (dirsOf s) s.phys s'.phys) : Edited s s' e va where
  entries := fun k w hw hne => by
    rw [hdirs]
    refine ((hremaps k).entries w hw).resolve_right fun hedit => ?_
    obtain ⟨va', hplace, hpage⟩ := hedit
    cases hplace
    exact hne.elim (fun h => h rfl) fun h => h hpage
  contents := hcontents

theorem SameView.of_same (hdirs : dirsOf s' = dirsOf s)
    (hsame : SameMappings (dirsOf s) (dirsOf s) s.phys s'.phys)
    (hcontents : ContentsKept (dirsOf s) s.phys s'.phys) : SameView s s' where
  entries := fun k w hw => by
    rw [hdirs]
    refine ((hsame k).entries w hw).resolve_right fun hedit => ?_
    obtain ⟨va, hnone, -⟩ := hedit
    cases hnone
  contents := hcontents

theorem SameView.refl (hphys : s'.phys = s.phys) (hdirs : dirsOf s' = dirsOf s) : SameView s s' where
  entries := fun _ _ _ => by rw [hphys, hdirs]
  contents := ContentsKept.of_mem (by rw [hphys])

/-- The `page_insert` of a call that succeeds. -/
theorem Sound.request_view (hsound : Sound arena Good quiet given s)
    (hclean : CleanCall Good quiet s cur call) {req : MapRequest} {code : Word} {σ : Phys}
    (hreq : mapRequest s cur call = some req)
    (hrun : pageInsert req.memory req.dir req.page req.va req.perm = some (code, σ)) :
    ContentsKept (dirsOf s) s.phys σ ∧ (code = 0 →
      entryAt σ (dirsOf s) req.target req.va = newEntry req.page req.perm ∧
        entryPage (newEntry req.page req.perm) = some req.page ∧
        (call.sys = .pageAlloc → ∀ t, σ.mem req.page t = 0)) := by
  have hgood := hclean.good req hreq
  have hroom := (hclean.roomy.1 req hreq).1
  have hshare {se : Slot} {va entry : Word} (hshared : SharedFrom s se va req entry)
      (hother : call.sys ≠ .pageAlloc)
      (hfit : pgnum entry = req.page → pteAddr (page2pa req.page ||| req.perm) = page2pa req.page) :
      ContentsKept (dirsOf s) s.phys σ ∧ (code = 0 →
        entryAt σ (dirsOf s) req.target req.va = newEntry req.page req.perm ∧
          entryPage (newEntry req.page req.perm) = some req.page ∧
          (call.sys = .pageAlloc → ∀ t, σ.mem req.page t = 0)) := by
    obtain ⟨hva, hmapped, hentry, hlt⟩ := mapRequest_shared hsound.memory hshared
    rw [hshared.memory] at hrun hroom
    obtain ⟨hcontents, hdone⟩ := hsound.memory.insert_contents hshared.dir hshared.va_lt hva
      hmapped (hfit hentry) hgood hroom hrun
    exact ⟨hcontents, fun hcode => ⟨hdone hcode, entryPage_entry hlt (hfit hentry),
      fun hsys => absurd hsys hother⟩⟩
  rcases mapRequest_sys hreq with hsys | hsys | hsys
  · obtain ⟨hhead, -, hdir, hva, hmemory, -, -⟩ := mapRequest_alloc hsys hreq
    have hfit := hclean.unforged req hreq (by rw [hsys]; decide)
    rw [hmemory] at hrun hroom
    obtain ⟨hcontents, hdone⟩ := hsound.memory.alloc_contents hhead hdir hva hfit hgood
      ((hclean.roomy.1 req hreq).2 hsys) hroom hrun
    refine ⟨hcontents, fun hcode => ⟨(hdone hcode).1, ?_, fun _ => (hdone hcode).2⟩⟩
    exact entryPage_entry (hsound.memory.head_lt hhead) hfit
  · obtain ⟨se, entry, -, -, hshared, -, -⟩ := mapRequest_map hsys hreq
    exact hshare hshared (by rw [hsys]; decide) fun _ =>
      hclean.unforged req hreq (by rw [hsys]; decide)
  · obtain ⟨entry, -, hshared, -, -, -, hsub⟩ := mapRequest_send hsys hreq
    refine hshare hshared (by rw [hsys]; decide) fun hentry => ?_
    rw [← hentry]
    exact pteAddr_of_sent hsub

/-- A permission that a call may pass on. -/
theorem write_of_sent {entry word perm : Word} (hsame : SameEntry entry word)
    (hsub : entry &&& perm = perm) (hperm : perm &&& pteW ≠ 0) : word &&& pteW ≠ 0 := by
  rw [← hsame.and_eq (by decide)]
  intro hzero
  have hnone : perm &&& pteW = 0 := by
    rw [← hsub, BitVec.and_assoc, BitVec.and_comm perm, ← BitVec.and_assoc, hzero]
    exact BitVec.zero_and
  exact hperm hnone

/-- What a call that returns does to the mappings and to what is mapped. -/
theorem Sound.callView (hsound : Sound arena Good quiet given s) (htable : TableOk s)
    (hclean : CleanCall Good quiet s cur call)
    (hrun : plainCall s cur key call = some (ret, s')) : ViewEffect s cur call ret s' := by
  by_cases hunmap : call.sys = .pageUnmap
  · rw [plainCall, hunmap] at hrun
    have hother : call.sys = .exofork → IsError ret := fun hsys => by
      rw [hunmap] at hsys
      cases hsys
    rcases sysPageUnmap_cases hrun with ⟨hret, rfl⟩ | ⟨e, dir, σ, hret, hfound, hdir, hva, hremove, rfl⟩
    · exact .same (fun hzero => absurd hzero hret) hother rfl (SameView.refl rfl rfl)
    · obtain ⟨hcontents, hnone⟩ := hsound.memory.remove_contents hdir hva hremove
      obtain ⟨-, hremaps⟩ := hsound.memory.remove hdir hva hremove
      exact .unmap e hunmap hret hfound hva rfl hnone (.of_remaps rfl hremaps hcontents)
  cases plainCall_memory hrun with
  | same hnone hfork hphys hdirs =>
    refine .same (fun hret => ⟨fun hsys => ?_, fun hsys => ?_, hunmap⟩) hfork hdirs
      (SameView.refl hphys hdirs)
    · rw [plainCall, hsys, hret] at hrun
      obtain ⟨req, hreq⟩ := sysPageAlloc_request hsys hrun
      rw [hreq] at hnone
      cases hnone
    · rw [plainCall, hsys, hret] at hrun
      obtain ⟨se, req, -, -, -, hreq, -⟩ := sysPageMap_request hsys hrun
      rw [hreq] at hnone
      cases hnone
  | refused req σ hreq hret hinsert hphys hdirs =>
    have hcontents : ContentsKept (dirsOf s) s.phys s'.phys := by
      have hkept := (hsound.request_view hclean hreq hinsert).1
      rw [hphys]
      split
      · exact fun e va hva page hmapped => by rw [mem_pageFree, hkept e va hva page hmapped]
      · exact hkept
    have hsame := ((hsound.memory.request hclean hreq hinsert).2 hret).2
    rw [← hphys] at hsame
    refine .same (fun hzero => absurd hzero hret) (fun hsys => ?_) hdirs
      (.of_same hdirs hsame hcontents)
    rcases mapRequest_sys hreq with h | h | h <;> rw [h] at hsys <;> cases hsys
  | mapped req hreq hret hinsert hdirs =>
    obtain ⟨hcontents, hdone⟩ := hsound.request_view hclean hreq hinsert
    obtain ⟨hentry, hpage, hzero⟩ := hdone rfl
    have hremaps := ((hsound.memory.request hclean hreq hinsert).1 rfl).2
    have hedited : Edited s s' req.target req.va := .of_remaps hdirs hremaps hcontents
    have hentry' : entryAt s'.phys (dirsOf s') req.target req.va = newEntry req.page req.perm := by
      rw [hdirs]
      exact hentry
    rcases mapRequest_sys hreq with hsys | hsys | hsys
    · obtain ⟨hhead, hfound, -, hva, -, hreqva, hperm⟩ := mapRequest_alloc hsys hreq
      rw [hreqva] at hedited hentry' hva
      rw [hperm] at hentry' hpage
      exact .alloc req.target req.page hsys hret hfound hva hdirs
        (fun k w hw => hsound.memory.head_unmapped hhead hw) hpage hentry' (hzero hsys) hedited
    · obtain ⟨_, _, -, hdst, hshared, hreqva, hperm⟩ := mapRequest_map hsys hreq
      rw [plainCall, hsys, hret] at hrun
      obtain ⟨se, req', dir, table, index, hreq', hsrc, hdir, hva, hlookup, hwrite⟩ :=
        sysPageMap_request hsys hrun
      obtain rfl : req = req' := Option.some.inj (hreq.symm.trans hreq')
      obtain ⟨hmapped, hsame⟩ := hsound.memory.lookup_entry hdir hva hlookup
      have hva' := hshared.va_lt
      rw [hreqva] at hedited hentry' hva'
      rw [hperm] at hentry' hpage
      exact .map se req.target req.page hsys hret hsrc hdst hva hva' hdirs hmapped
        (fun hw => by rw [← hsame.and_eq (by decide)]; exact hwrite hw) hpage hentry' hedited
    · obtain ⟨entry, hfound, hshared, hrecving, hreqva, hperm, hsub⟩ := mapRequest_send hsys hreq
      have hva' := hshared.va_lt
      obtain ⟨dir, table, index, hdir, hva, hlookup, rfl⟩ := hshared.source
      obtain ⟨hmapped, hsame⟩ := hsound.memory.lookup_entry hdir hva hlookup
      rw [hreqva] at hedited hentry' hva'
      rw [hperm] at hentry' hpage hsub
      exact .send req.target req.page hsys hva hfound hrecving hva' hdirs hmapped
        (write_of_sent hsame hsub) hpage hentry' hedited
  | unmapped _ _ hsys => exact absurd hsys hunmap
  | forked e p hsys hret hhead hpage hphys hdirs =>
    obtain ⟨-, hsame⟩ := hsound.memory.fork hpage (htable.head_pgdir hhead)
      (hclean.roomy.2 hsys p hpage)
    have hcontents := hsound.memory.fork_contents hpage
    rw [hsound.kern] at hphys
    rw [← hphys] at hsame hcontents
    refine .fork e p hsys hret hhead hdirs ⟨fun k w hw => ?_, hcontents⟩
    rw [hdirs]
    refine ((hsame k).entries w hw).resolve_right fun hedit => ?_
    obtain ⟨va, hnone, -⟩ := hedit
    cases hnone

end Calls

end OsLabs.Jos
