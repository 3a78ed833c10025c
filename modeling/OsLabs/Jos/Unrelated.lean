import OsLabs.Jos.Requests
import OsLabs.Jos.WordFrames

/-!
# System calls and unrelated environments

A system call reaches the caller, its children and the pages on the free list.
Another environment keeps its `struct Env` and its page tables, unless the
call delivers a message to it or ends in a context switch.
-/

namespace OsLabs.Jos

open Function

/-! ## Address spaces that belong to one environment -/

/-- A slot that holds an environment. -/
def Live (s : Kernel) (e : Slot) : Prop := (s.envs e).status ≠ .free

instance (s : Kernel) (e : Slot) : Decidable (Live s e) :=
  inferInstanceAs (Decidable (_ ≠ _))

/-- The page directory of a live environment. -/
def DirOf (s : Kernel) (e : Slot) (page : ℕ) : Prop :=
  Live s e ∧ (s.envs e).pgdir = some page

/-- The page table at index `d` of the directory of a live environment. -/
def TableOf (s : Kernel) (e : Slot) (d page : ℕ) : Prop :=
  ∃ dir, DirOf s e dir ∧ d < userPdes ∧ entryPage (s.phys.mem dir d) = some page

/-- Page directories and user page tables belong to one live environment each,
and what is on the free list belongs to none. -/
structure Separate (s : Kernel) : Prop where
  dir_owner : ∀ a b page, DirOf s a page → DirOf s b page → a = b
  dir_not_table : ∀ a b d page, DirOf s a page → ¬ TableOf s b d page
  table_owner : ∀ a b d d' page, TableOf s a d page → TableOf s b d' page → a = b ∧ d = d'
  free_not_dir : ∀ page e, OnFreeList s.phys page → ¬ DirOf s e page
  free_not_table : ∀ page e d, OnFreeList s.phys page → ¬ TableOf s e d page
  free_lt : ∀ page, OnFreeList s.phys page → page < 2 ^ 20

/-! ## The page tables of an environment -/

/-- The directory entry at index `d` of environment `e`. -/
def userPde (s : Kernel) (e : Slot) (d : ℕ) : Word :=
  match (s.envs e).pgdir with
  | none => 0
  | some dir => s.phys.load dir d

/-- The page table entry at index `t` below directory index `d`, zero where
there is no page table. -/
def userPte (s : Kernel) (e : Slot) (d t : ℕ) : Word :=
  match entryPage (userPde s e d) with
  | none => 0
  | some table => s.phys.load table t

/-- The words of the address space `dir` are the same in both states. -/
def SpaceKept (dir : ℕ) (σ σ' : Phys) : Prop :=
  Kept (fun page index => ¬ OfSpace σ dir page index) σ σ'

theorem entryPage_load (σ : Phys) (page index : ℕ) :
    entryPage (σ.load page index) = entryPage (σ.mem page index) := by
  rw [entryPage, entryPage, load_present, pgnum_load]

section Spaces

variable {s s' : Kernel} {a b e : Slot} {dir : ℕ}

theorem userPde_eq (hdir : (s.envs e).pgdir = some dir) (d : ℕ) :
    userPde s e d = s.phys.load dir d := by
  rw [userPde, hdir]

theorem userPte_table {d table : ℕ} (htable : entryPage (userPde s e d) = some table) (t : ℕ) :
    userPte s e d t = s.phys.load table t := by
  rw [userPte, htable]

theorem userPte_absent {d : ℕ} (habsent : entryPage (userPde s e d) = none) (t : ℕ) :
    userPte s e d t = 0 := by
  rw [userPte, habsent]

/-- An environment whose words are kept keeps its entries. -/
theorem SpaceKept.ptes (hdir : (s.envs e).pgdir = some dir)
    (hdir' : (s'.envs e).pgdir = some dir) (hkept : SpaceKept dir s.phys s'.phys) {d : ℕ}
    (hd : d < userPdes) (t : ℕ) : userPte s' e d t = userPte s e d t := by
  have hpde : userPde s' e d = userPde s e d := by
    rw [userPde_eq hdir, userPde_eq hdir']
    exact hkept.load (not_not.mpr (Or.inl ⟨rfl, hd⟩))
  cases hentry : entryPage (userPde s e d) with
  | none => rw [userPte_absent hentry, userPte_absent (hpde ▸ hentry)]
  | some table =>
    rw [userPte_table hentry, userPte_table (hpde ▸ hentry)]
    rw [userPde_eq hdir, entryPage_load] at hentry
    exact hkept.load (not_not.mpr (Or.inr ⟨d, hd, hentry⟩))

theorem ofSpace_table (he : DirOf s e dir) {page index : ℕ}
    (hspace : OfSpace s.phys dir page index) : page = dir ∨ ∃ d, TableOf s e d page := by
  rcases hspace with ⟨rfl, -⟩ | ⟨d, hd, htable⟩
  · exact Or.inl rfl
  · exact Or.inr ⟨d, dir, he, hd, htable⟩

variable (hseparate : Separate s)

include hseparate

/-- The spaces of two environments have no word in common. -/
theorem Separate.spaces_disjoint {dir' : ℕ} (ha : DirOf s a dir) (hb : DirOf s b dir')
    (hne : a ≠ b) {page index index' : ℕ} (hspace : OfSpace s.phys dir page index) :
    ¬ OfSpace s.phys dir' page index' := by
  intro hspace'
  rcases ofSpace_table ha hspace with rfl | ⟨d, htable⟩
  · rcases ofSpace_table hb hspace' with rfl | ⟨d', htable'⟩
    · exact hne (hseparate.dir_owner _ _ _ ha hb)
    · exact hseparate.dir_not_table _ _ _ _ ha htable'
  · rcases ofSpace_table hb hspace' with rfl | ⟨d', htable'⟩
    · exact hseparate.dir_not_table _ _ _ _ hb htable
    · exact hne (hseparate.table_owner _ _ _ _ _ htable htable').1

theorem Separate.free_not_space (hb : DirOf s b dir) {page index : ℕ}
    (hfree : OnFreeList s.phys page) : ¬ OfSpace s.phys dir page index := by
  intro hspace
  rcases ofSpace_table hb hspace with rfl | ⟨d, htable⟩
  · exact hseparate.free_not_dir _ _ hfree hb
  · exact hseparate.free_not_table _ _ _ hfree htable

/-- Writing to the space of another environment. -/
theorem Separate.kept_of_space {dir' : ℕ} {σ : Phys} (ha : DirOf s a dir) (hb : DirOf s b dir')
    (hne : a ≠ b) (hkept : Kept (OfSpace s.phys dir) s.phys σ) : SpaceKept dir' s.phys σ :=
  hkept.mono fun _ _ => hseparate.spaces_disjoint ha hb hne

/-- Writing to free pages. -/
theorem Separate.kept_of_free {σ : Phys} (hb : DirOf s b dir)
    (hkept : Kept (fun page _ => OnFreeList s.phys page) s.phys σ) : SpaceKept dir s.phys σ :=
  hkept.mono fun _ _ => hseparate.free_not_space hb

end Spaces

/-! ## Targets of a call -/

/-- An environment that the caller may change. -/
def Related (s : Kernel) (a e : Slot) : Prop :=
  e = a ∨ (s.envs e).parentId = (s.envs a).id

section Targets

variable {s : Kernel} {a e : Slot} {envid : Word} {checkperm : Bool}

theorem envid2env_live (ha : Live s a) (hfound : envid2env s a envid checkperm = some e) :
    Live s e := by
  unfold envid2env at hfound
  split at hfound
  · cases hfound
    exact ha
  · dsimp only at hfound
    split at hfound
    · cases hfound
    case isFalse hgood =>
      split at hfound
      · cases hfound
      · cases hfound
        exact fun hfree => hgood (Or.inl hfree)

theorem envid2env_related (hfound : envid2env s a envid true = some e) : Related s a e := by
  unfold envid2env at hfound
  split at hfound
  · cases hfound
    exact Or.inl rfl
  · dsimp only at hfound
    split at hfound
    · cases hfound
    · split at hfound
      · cases hfound
      case isFalse hallowed =>
        cases hfound
        by_contra hunrelated
        rw [Related, not_or] at hunrelated
        exact hallowed ⟨rfl, hunrelated.1, hunrelated.2⟩

end Targets

/-! ## Memory operations of a call -/

section Memory

variable {s s' : Kernel} {a b e : Slot} {dir dir' : ℕ}

/-- The memory in which `page_insert` starts: some free pages may have been
taken and cleared. -/
structure Prepared (s : Kernel) (dir : ℕ) (σ : Phys) : Prop where
  kept : Kept (fun page _ => OnFreeList s.phys page) s.phys σ
  same : σ.mem dir = s.phys.mem dir
  head : ∀ pg, σ.pageFreeList = some pg → OnFreeList s.phys pg

theorem Prepared.refl (s : Kernel) (dir : ℕ) : Prepared s dir s.phys :=
  ⟨Kept.refl _ _, rfl, fun _ => OnFreeList.head⟩

variable (hseparate : Separate s)

include hseparate

theorem Separate.prepared_take (he : DirOf s e dir) {pg : ℕ}
    (hhead : s.phys.pageFreeList = some pg) :
    Prepared s dir ((takePage s.phys pg true).incRef pg) := by
  have hfree : OnFreeList s.phys pg := OnFreeList.head hhead
  have hne : dir ≠ pg := by
    rintro rfl
    exact hseparate.free_not_dir _ _ hfree he
  constructor
  · apply Kept.trans _ (Kept.incRef _ pg)
    apply (Kept.takePage s.phys pg true).mono
    rintro page index rfl
    exact hfree
  · rw [mem_incRef, mem_takePage_of_ne _ _ hne]
  · intro next hnext
    rw [freeList_incRef, freeList_takePage] at hnext
    exact hfree.next hnext

/-- `page_insert` into the space of `e` writes there and to free pages. -/
theorem Separate.kept_insert (he : DirOf s e dir) (hb : DirOf s b dir') (hne : e ≠ b)
    {σ σ' : Phys} (hprepared : Prepared s dir σ) {pp : ℕ} {va perm ret : Word} (hva : va < utop)
    (hinsert : pageInsert σ dir pp va perm = some (ret, σ')) : SpaceKept dir' s.phys σ' := by
  have hsmall : ∀ pg, σ.pageFreeList = some pg → pg < 2 ^ 20 :=
    fun pg hpg => hseparate.free_lt pg (hprepared.head pg hpg)
  have hd := pdx_lt_userPdes hva
  apply (hseparate.kept_of_free hb hprepared.kept).trans
  apply (pageInsert_kept hsmall hinsert).mono
  rintro page index (⟨htable, -⟩ | ⟨-, ⟨rfl, rfl⟩ | hhead⟩)
  · rw [hprepared.same] at htable
    have hspace : OfSpace s.phys dir page index := Or.inr ⟨pdx va, hd, htable⟩
    exact hseparate.spaces_disjoint he hb hne hspace
  · exact hseparate.spaces_disjoint he hb hne (Or.inl ⟨rfl, hd⟩)
  · exact hseparate.free_not_space hb (hprepared.head page hhead)

theorem Separate.kept_remove (he : DirOf s e dir) (hb : DirOf s b dir') (hne : e ≠ b)
    {σ' : Phys} {va : Word} (hva : va < utop) (hremove : pageRemove s.phys dir va = some σ') :
    SpaceKept dir' s.phys σ' := by
  apply hseparate.kept_of_space he hb hne
  apply (pageRemove_kept hremove).1.mono
  rintro page index ⟨htable, -⟩
  exact Or.inr ⟨pdx va, pdx_lt_userPdes hva, htable⟩

theorem Separate.kept_setup (hb : DirOf s b dir) {p : ℕ} (hhead : s.phys.pageFreeList = some p) :
    SpaceKept dir s.phys (setupDir s.phys s.kernPgdir p) := by
  apply hseparate.kept_of_free hb
  have hfree : OnFreeList s.phys p := OnFreeList.head hhead
  have halloc : pageAlloc s.phys true = (some p, takePage s.phys p true) := by
    rw [pageAlloc, hhead]
    rfl
  intro page index hnot
  have hne : page ≠ p := by
    rintro rfl
    exact hnot hfree
  have htake := Kept.takePage s.phys p true page index hne
  rw [setupDir, halloc]
  simpa [Phys.store, Phys.copyPage, Phys.incRef, Phys.setRef, hne] using htake

theorem Separate.kept_free (he : DirOf s e dir) (hb : DirOf s b dir') (hne : e ≠ b) {σ : Phys}
    (htables : freeTables s.phys dir userPdes = some σ) (pt : ℕ) :
    SpaceKept dir' s.phys (pageDecref σ pt) := by
  apply hseparate.kept_of_space he hb hne
  exact (freeTables_cleared le_rfl htables).kept.trans (Kept.pageDecref σ pt)

end Memory

/-! ## Calls that return -/

/-- The saved state of `b` and its page table entries. -/
structure Undisturbed (s s' : Kernel) (b : Slot) : Prop where
  env : s'.envs b = s.envs b
  ptes : ∀ d < userPdes, ∀ t < nptEntries, userPte s' b d t = userPte s b d t

/-- The message `value` of `a` has been put into `b`, which maps at most one
page more. -/
structure Delivered (s s' : Kernel) (a b : Slot) (value : Word) : Prop where
  env : ∃ perm, s'.envs b = { s.envs b with
    ipcRecving := false
    ipcFrom := (s.envs a).id
    ipcValue := value
    ipcPerm := perm
    status := .runnable
    tf := (s.envs b).tf.setEax 0 }
  ptes : ∀ d < userPdes, ∀ t < nptEntries,
    ¬ (d = pdx (s.envs b).ipcDstva ∧ t = ptx (s.envs b).ipcDstva) →
      userPte s' b d t = userPte s b d t

/-- A successful `sys_ipc_try_send` from `a` to `b`, which was blocked. -/
def SentTo (s : Kernel) (a b : Slot) (call : Call) (ret : Word) : Prop :=
  call.sys = .ipcTrySend ∧ ret = 0 ∧ envid2env s a call.a1 false = some b ∧
    (s.envs b).ipcRecving = true

section Plain

variable {s s' : Kernel} {a b : Slot} {key ret : Word} {call : Call} {dir : ℕ}

/-- Where the page is mapped, and in which memory. -/
theorem mapRequest_target {req : MapRequest} (hreq : mapRequest s a call = some req) :
    (s.envs req.target).pgdir = some req.dir ∧ req.va < utop ∧
      (req.memory = s.phys ∨ s.phys.pageFreeList = some req.page ∧
        req.memory = (takePage s.phys req.page true).incRef req.page) ∧
      ((∃ envid, envid2env s a envid true = some req.target) ∨
        call.sys = .ipcTrySend ∧ envid2env s a call.a1 false = some req.target ∧
          (s.envs req.target).ipcRecving = true ∧ req.memory = s.phys ∧
            req.va = (s.envs req.target).ipcDstva) := by
  rcases mapRequest_sys hreq with hsys | hsys | hsys
  · obtain ⟨hhead, hfound, hdir, hva, hmemory, -⟩ := mapRequest_alloc hsys hreq
    exact ⟨hdir, hva, Or.inr ⟨hhead, hmemory⟩, Or.inl ⟨_, hfound⟩⟩
  · obtain ⟨se, entry, -, hfound, hshared, -⟩ := mapRequest_map hsys hreq
    exact ⟨hshared.dir, hshared.va_lt, Or.inl hshared.memory, Or.inl ⟨_, hfound⟩⟩
  · obtain ⟨entry, hfound, hshared, hrecving, hva, -⟩ := mapRequest_send hsys hreq
    exact ⟨hshared.dir, hshared.va_lt, Or.inl hshared.memory,
      Or.inr ⟨hsys, hfound, hrecving, hshared.memory, hva⟩⟩

/-- The environments after a call. -/
theorem plainCall_env (hlisted : s.envFreeList ≠ some b) (hunrelated : ¬ Related s a b)
    (hrun : plainCall s a key call = some (ret, s')) :
    ¬ SentTo s a b call ret ∧ s'.envs b = s.envs b ∨
      SentTo s a b call ret ∧ ∃ perm, s'.envs b = { s.envs b with
        ipcRecving := false, ipcFrom := (s.envs a).id, ipcValue := call.a2, ipcPerm := perm,
        status := .runnable, tf := (s.envs b).tf.setEax 0 } := by
  have hcaller : b ≠ a := fun hsame => hunrelated (Or.inl hsame)
  have htarget : ∀ {e envid}, envid2env s a envid true = some e → b ≠ e := by
    rintro e envid hfound rfl
    exact hunrelated (envid2env_related hfound)
  have hother : ∀ {sys : Sys}, call.sys = sys → sys ≠ .ipcTrySend → ¬ SentTo s a b call ret := by
    rintro sys hsys hne ⟨hsend, -⟩
    exact hne (hsys.symm.trans hsend)
  rcases plainCall_effect hrun with ⟨σ, hsend, -, -⟩ | ⟨e, p, hsys, -, hlist, -⟩ |
    ⟨e, status, hsys, -, hfound⟩ | ⟨e, func, hsys, hfound⟩ | ⟨pr, hsys⟩ | ⟨hsys, -⟩ |
    ⟨e, σ, perm, hsys, hret, hfound, hrecving⟩
  · left
    refine ⟨?_, rfl⟩
    rintro ⟨hsys, hret, -⟩
    exact (hsend hsys).1 hret
  · have hne : b ≠ e := by
      rintro rfl
      exact hlisted hlist
    exact Or.inl ⟨hother hsys (by decide), update_of_ne hne _ _⟩
  · exact Or.inl ⟨hother hsys (by decide), update_of_ne (htarget hfound) _ _⟩
  · exact Or.inl ⟨hother hsys (by decide), update_of_ne (htarget hfound) _ _⟩
  · exact Or.inl ⟨hother hsys (by decide), update_of_ne hcaller _ _⟩
  · exact Or.inl ⟨hother hsys (by decide), update_of_ne hcaller _ _⟩
  · by_cases hsame : b = e
    · subst hsame
      refine Or.inr ⟨⟨hsys, hret, hfound, hrecving⟩, perm, ?_⟩
      simp [ipcDeliver, Kernel.setEnv, update_of_ne hcaller.symm]
    · left
      constructor
      · rintro ⟨-, -, hsent, -⟩
        rw [hfound] at hsent
        exact hsame (Option.some.inj hsent).symm
      · simp [ipcDeliver, Kernel.setEnv, update_of_ne hsame]

/-- The words of an unrelated address space after a call. -/
theorem Separate.plain_words (hseparate : Separate s) (ha : Live s a) (hb : DirOf s b dir)
    (hunrelated : ¬ Related s a b) (hrun : plainCall s a key call = some (ret, s')) :
    SpaceKept dir s.phys s'.phys ∨
      SentTo s a b call ret ∧ (s.envs b).ipcDstva < utop ∧ ∃ pp perm,
        pageInsert s.phys dir pp (s.envs b).ipcDstva perm = some (0, s'.phys) := by
  have htarget : ∀ {e envid}, envid2env s a envid true = some e → e ≠ b := by
    rintro e envid hfound rfl
    exact hunrelated (envid2env_related hfound)
  have hprepared : ∀ {req : MapRequest}, mapRequest s a call = some req → Live s req.target →
      Prepared s req.dir req.memory := by
    intro req hreq hlive
    obtain ⟨hdir, -, hmemory, -⟩ := mapRequest_target hreq
    rcases hmemory with hsame | ⟨hhead, hsame⟩
    · rw [hsame]
      exact Prepared.refl s _
    · rw [hsame]
      exact hseparate.prepared_take ⟨hlive, hdir⟩ hhead
  have hlive : ∀ {req : MapRequest}, mapRequest s a call = some req → Live s req.target := by
    intro req hreq
    obtain ⟨-, -, -, ⟨envid, hfound⟩ | ⟨-, hfound, -⟩⟩ := mapRequest_target hreq
    · exact envid2env_live ha hfound
    · exact envid2env_live ha hfound
  rcases plainCall_memory hrun with ⟨-, -, hphys, -⟩ | ⟨req, σ, hreq, hret, hinsert, hphys, -⟩ |
    ⟨req, hreq, hret, hinsert, -⟩ | ⟨e, edir, -, hfound, hdir, hva, hremove, -⟩ |
    ⟨e, p, -, -, -, hhead, hphys, -⟩
  · rw [hphys]
    exact Or.inl (Kept.refl _ _)
  · left
    rcases pageInsert_result hinsert with ⟨-, rfl, -⟩ | ⟨rfl, -⟩
    · have hkept := hseparate.kept_of_free hb (hprepared hreq (hlive hreq)).kept
      rw [hphys]
      split
      · exact hkept.trans (Kept.pageFree _ _)
      · exact hkept
    · exact absurd rfl hret
  · have hready := hprepared hreq (hlive hreq)
    obtain ⟨hdir, hva, -, hfound⟩ := mapRequest_target hreq
    by_cases hsame : req.target = b
    · rcases hfound with ⟨envid, hfound⟩ | ⟨hsys, hfound, hrecving, hmemory, hdstva⟩
      · exact absurd hsame (htarget hfound)
      · rw [hsame] at hdir hfound hrecving hdstva
        rw [hb.2] at hdir
        cases hdir
        rw [hmemory, hdstva] at hinsert
        rw [hdstva] at hva
        exact Or.inr ⟨⟨hsys, hret, hfound, hrecving⟩, hva, req.page, req.perm, hinsert⟩
    · exact Or.inl (hseparate.kept_insert ⟨hlive hreq, hdir⟩ hb hsame hready hva hinsert)
  · have he : DirOf s e edir := ⟨envid2env_live ha hfound, hdir⟩
    exact Or.inl (hseparate.kept_remove he hb (htarget hfound) hva hremove)
  · rw [hphys]
    exact Or.inl (hseparate.kept_setup hb hhead)

/-- `page_insert` into the space of `b` itself changes the entry at `va` only. -/
theorem Separate.insert_ptes (hseparate : Separate s) (hb : DirOf s b dir)
    (hdir' : (s'.envs b).pgdir = some dir) {pp : ℕ} {va perm : Word} (hva : va < utop)
    (hinsert : pageInsert s.phys dir pp va perm = some (0, s'.phys)) {d t : ℕ} (hd : d < userPdes)
    (hother : ¬ (d = pdx va ∧ t = ptx va)) : userPte s' b d t = userPte s b d t := by
  have hsmall : ∀ pg, s.phys.pageFreeList = some pg → pg < 2 ^ 20 :=
    fun pg hpg => hseparate.free_lt pg (OnFreeList.head hpg)
  have hkept := pageInsert_kept hsmall hinsert
  have hpdva := pdx_lt_userPdes hva
  -- an entry of the directory changes only where a table is made
  have hpde : ¬ (d = pdx va ∧ s.phys.mem dir d &&& pteP = 0) →
      userPde s' b d = userPde s b d := by
    intro hnot
    rw [userPde_eq hb.2, userPde_eq hdir']
    apply hkept.load
    rintro (⟨htable, -⟩ | ⟨habsent, ⟨-, rfl⟩ | hhead⟩)
    · exact hseparate.dir_not_table _ _ _ _ hb ⟨dir, hb, hpdva, htable⟩
    · exact hnot ⟨rfl, habsent⟩
    · exact hseparate.free_not_dir _ _ (OnFreeList.head hhead) hb
  by_cases hmade : d = pdx va ∧ s.phys.mem dir d &&& pteP = 0
  · obtain ⟨rfl, habsent⟩ := hmade
    have hnone : entryPage (userPde s b (pdx va)) = none := by
      rw [userPde_eq hb.2, entryPage_load]
      exact entryPage_eq_none.mpr habsent
    have hnotFree : s.phys.pageFreeList ≠ some dir :=
      fun hhead => hseparate.free_not_dir _ _ (OnFreeList.head hhead) hb
    obtain ⟨table, htable, hempty⟩ := pageInsert_made hsmall hnotFree habsent hinsert
    have htable' : entryPage (userPde s' b (pdx va)) = some table := by
      rw [userPde_eq hdir', entryPage_load]
      exact htable
    have hzero := hempty t fun ht => hother ⟨rfl, ht⟩
    rw [userPte_absent hnone, userPte_table htable', Phys.load, hzero]
    rfl
  · have hsame := hpde hmade
    cases hentry : entryPage (userPde s b d) with
    | none => rw [userPte_absent hentry, userPte_absent (hsame ▸ hentry)]
    | some table =>
      rw [userPte_table hentry, userPte_table (hsame ▸ hentry)]
      rw [userPde_eq hb.2, entryPage_load] at hentry
      have htable : TableOf s b d table := ⟨dir, hb, hd, hentry⟩
      apply hkept.load
      rintro (⟨htable', rfl⟩ | ⟨-, ⟨rfl, -⟩ | hhead⟩)
      · have hplace := hseparate.table_owner _ _ _ _ _ htable ⟨dir, hb, hpdva, htable'⟩
        exact hother ⟨hplace.2, rfl⟩
      · exact hseparate.dir_not_table _ _ _ _ hb htable
      · exact hseparate.free_not_table _ _ _ (OnFreeList.head hhead) htable

/-- An environment without a page directory has no entries. -/
theorem userPte_none {e : Slot} (hdir : (s.envs e).pgdir = none) (d t : ℕ) :
    userPte s e d t = 0 := by
  apply userPte_absent
  rw [userPde, hdir]
  exact entryPage_zero

/-- Entries stay when the words and the page directory do. -/
theorem ptes_of_kept (hdir : (s'.envs b).pgdir = (s.envs b).pgdir)
    (hkept : ∀ dir, (s.envs b).pgdir = some dir → SpaceKept dir s.phys s'.phys) {d : ℕ}
    (hd : d < userPdes) (t : ℕ) : userPte s' b d t = userPte s b d t := by
  cases hb : (s.envs b).pgdir with
  | none => rw [userPte_none hb, userPte_none (hdir.trans hb)]
  | some dir => exact (hkept dir hb).ptes hb (hdir.trans hb) hd t

/-- A returning call of `a` and an environment that is neither `a` nor its
child. -/
theorem Separate.plain (hseparate : Separate s) (ha : Live s a) (hb : Live s b)
    (hlisted : s.envFreeList ≠ some b) (hunrelated : ¬ Related s a b)
    (hrun : plainCall s a key call = some (ret, s')) :
    Undisturbed s s' b ∨ SentTo s a b call ret ∧ Delivered s s' a b call.a2 := by
  have henv := plainCall_env hlisted hunrelated hrun
  have hdir : (s'.envs b).pgdir = (s.envs b).pgdir := by
    rcases henv with ⟨-, hsame⟩ | ⟨-, perm, hsent⟩
    · rw [hsame]
    · rw [hsent]
  have hptes : (∀ d < userPdes, ∀ t < nptEntries, userPte s' b d t = userPte s b d t) ∨
      SentTo s a b call ret ∧ ∀ d < userPdes, ∀ t < nptEntries,
        ¬ (d = pdx (s.envs b).ipcDstva ∧ t = ptx (s.envs b).ipcDstva) →
          userPte s' b d t = userPte s b d t := by
    cases hbdir : (s.envs b).pgdir with
    | none =>
      left
      intro d _ t _
      rw [userPte_none hbdir, userPte_none (hdir.trans hbdir)]
    | some dir =>
      rcases hseparate.plain_words ha ⟨hb, hbdir⟩ hunrelated hrun with
        hkept | ⟨hsent, hva, pp, perm, hinsert⟩
      · exact Or.inl fun d hd t _ => hkept.ptes hbdir (hdir.trans hbdir) hd t
      · exact Or.inr ⟨hsent, fun d hd t _ hother =>
          hseparate.insert_ptes ⟨hb, hbdir⟩ (hdir.trans hbdir) hva hinsert hd hother⟩
  rcases henv with ⟨hnot, henv⟩ | ⟨hsent, henv⟩
  · rcases hptes with hptes | ⟨hsent, -⟩
    · exact Or.inl ⟨henv, hptes⟩
    · exact absurd hsent hnot
  · rcases hptes with hptes | ⟨-, hptes⟩
    · exact Or.inr ⟨hsent, henv, fun d hd t ht _ => hptes d hd t ht⟩
    · exact Or.inr ⟨hsent, henv, hptes⟩

end Plain

/-! ## Calls that destroy or reschedule -/

/-- Only the scheduling fields of `b` have changed. -/
structure Rescheduled (s s' : Kernel) (b : Slot) : Prop where
  env : ∃ status runs cpunum, s'.envs b =
    { s.envs b with status := status, runs := runs, cpunum := cpunum }
  ptes : ∀ d < userPdes, ∀ t < nptEntries, userPte s' b d t = userPte s b d t

section Leaving

variable {s s' : Kernel} {a b e : Slot} {c : ℕ}

/-- A context switch. -/
theorem Yielded.rescheduled (hyielded : Yielded s c s') (b : Slot) : Rescheduled s s' b := by
  have hsame : ∀ {k : Slot} {cpunum : ℕ},
      Rescheduled s (s.setEnv k { s.envs k with cpunum := cpunum }) b := by
    intro k cpunum
    constructor
    · by_cases hk : b = k
      · subst hk
        exact ⟨_, _, cpunum, update_self _ _ _⟩
      · exact ⟨_, _, _, update_of_ne hk _ _⟩
    · intro d hd t _
      exact ptes_of_kept (field_setEnv Env.pgdir (by rfl) b) (fun _ _ => Kept.refl _ _) hd t
  cases hyielded with
  | keep k _ _ => exact hsame
  | again k _ _ => exact hsame
  | switch k dir hne _ _ =>
    obtain ⟨runs, cpunum, henv⟩ := switched_envs s hne dir b
    have hdir : ((switched s c k dir).envs b).pgdir = (s.envs b).pgdir := by
      rw [henv]
    constructor
    · exact ⟨_, runs, cpunum, henv⟩
    · intro d hd t _
      exact ptes_of_kept hdir (fun _ _ => Kept.refl _ _) hd t
  | halt _ => exact ⟨⟨_, _, _, rfl⟩, fun _ _ _ _ => rfl⟩

theorem Undisturbed.then_rescheduled {s'' : Kernel} (hfirst : Undisturbed s s' b)
    (hsecond : Rescheduled s' s'' b) : Rescheduled s s'' b := by
  obtain ⟨status, runs, cpunum, henv⟩ := hsecond.env
  constructor
  · refine ⟨status, runs, cpunum, ?_⟩
    rw [henv, hfirst.env]
  · intro d hd t ht
    rw [hsecond.ptes d hd t ht, hfirst.ptes d hd t ht]

/-- `env_free` of another environment. -/
theorem Separate.envFree (hseparate : Separate s) (he : Live s e) (hb : Live s b) (hne : e ≠ b)
    (hfree : envFree s c e = some s') : Undisturbed s s' b := by
  obtain ⟨dir, σ, pt, hdir, htables, -, rfl⟩ := envFree_cases hfree
  constructor
  · exact update_of_ne hne.symm _ _
  · intro d hd t _
    apply ptes_of_kept _ _ hd t
    · exact congrArg Env.pgdir (update_of_ne hne.symm _ _)
    · intro bdir hbdir
      exact hseparate.kept_free ⟨he, hdir⟩ ⟨hb, hbdir⟩ hne htables pt

/-- How a call of `a` may end for an unrelated environment, when it destroys
another one or gives up the CPU. -/
def Spared (s : Kernel) (b : Slot) {α : Type} : Exit α → Prop
  | .ret _ s' => Undisturbed s s' b
  | .left s' => Rescheduled s s' b

theorem Separate.envDestroy (hseparate : Separate s) (he : Live s e) (hb : Live s b)
    (hne : e ≠ b) {exit : Exit Unit} (hdestroy : envDestroy s c e = some exit) :
    Spared s b exit := by
  unfold Jos.envDestroy at hdestroy
  split at hdestroy
  · cases hdestroy
    constructor
    · exact update_of_ne hne.symm _ _
    · intro d hd t _
      exact ptes_of_kept (field_setEnv Env.pgdir (by rfl) b) (fun _ _ => Kept.refl _ _) hd t
  · simp only [Option.bind_eq_bind, Option.bind_eq_some_iff] at hdestroy
    obtain ⟨freed, hfree, hdestroy⟩ := hdestroy
    have hfreed := hseparate.envFree he hb hne hfree
    split at hdestroy
    · obtain ⟨next, hyield, hdestroy⟩ := Option.bind_eq_some_iff.mp hdestroy
      cases hdestroy
      have hcleared : Undisturbed s (freed.setCurenv c none) b := ⟨hfreed.env, hfreed.ptes⟩
      exact hcleared.then_rescheduled ((schedYield_cases hyield).rescheduled b)
    · cases hdestroy
      exact hfreed

theorem Undisturbed.refl (s : Kernel) (b : Slot) : Undisturbed s s b :=
  ⟨rfl, fun _ _ _ _ => rfl⟩

end Leaving

/-! ## Every system call -/

/-- What a call of `a` may do to an unrelated environment `b`: it may deliver a
message if it returns, and run another environment if it does not.  An unknown
system call number is no call. -/
def Confined (s : Kernel) (a b : Slot) (call : Option Call) : Exit Word → Prop
  | .ret ret s' =>
      Undisturbed s s' b ∨ ∃ sent ∈ call, SentTo s a b sent ret ∧ Delivered s s' a b sent.a2
  | .left s' => Rescheduled s s' b

/-- Two environments that the kernel created: the one in slot 0 runs, the one
in slot 1 waits for a message. -/
def strangersKernel : Kernel where
  phys :=
    { npages := 0x400, pages := fun _ => ⟨none, 0⟩, pageFreeList := none, mem := fun _ _ => 0,
      mmuBits := fun _ _ => 0 }
  kernPgdir := 0x200
  envs := fun e =>
    if e = envx 0x1000 then
      { Env.zero with id := 0x1000, status := .running, pgdir := some 0x300 }
    else if e = envx 0x1001 then
      { Env.zero with
        id := 0x1001, status := .notRunnable, pgdir := some 0x301, ipcRecving := true }
    else Env.zero
  envFreeList := some (envx 0x1002)
  cpus := fun _ => ⟨.started, some (envx 0x1000), 0x300⟩

theorem strangers_dir {e : Slot} {page : ℕ} (hdir : DirOf strangersKernel e page) :
    e = envx 0x1000 ∧ page = 0x300 ∨ e = envx 0x1001 ∧ page = 0x301 := by
  obtain ⟨-, hdir⟩ := hdir
  simp only [strangersKernel] at hdir
  split at hdir
  case isTrue hfirst =>
    cases hdir
    exact Or.inl ⟨hfirst, rfl⟩
  · split at hdir
    case isTrue hsecond =>
      cases hdir
      exact Or.inr ⟨hsecond, rfl⟩
    · cases hdir

theorem strangers_table {e : Slot} {d page : ℕ} : ¬ TableOf strangersKernel e d page := by
  rintro ⟨dir, -, -, htable⟩
  rw [show strangersKernel.phys.mem dir d = 0 from rfl, entryPage_zero] at htable
  cases htable

theorem strangers_free {page : ℕ} : ¬ OnFreeList strangersKernel.phys page := by
  intro hfree
  induction hfree with
  | head hhead => cases hhead
  | next _ _ ih => exact ih

theorem strangers_separate : Separate strangersKernel where
  dir_owner := by
    intro a b page ha hb
    rcases strangers_dir ha with ⟨rfl, rfl⟩ | ⟨rfl, rfl⟩
    · rcases strangers_dir hb with ⟨rfl, -⟩ | ⟨-, hpage⟩
      · rfl
      · cases hpage
    · rcases strangers_dir hb with ⟨-, hpage⟩ | ⟨rfl, -⟩
      · cases hpage
      · rfl
  dir_not_table := fun _ _ _ _ _ => strangers_table
  table_owner := fun _ _ _ _ _ htable _ => absurd htable strangers_table
  free_not_dir := fun _ _ hfree _ => strangers_free hfree
  free_not_table := fun _ _ _ _ => strangers_table
  free_lt := fun _ hfree => absurd hfree strangers_free

end OsLabs.Jos
