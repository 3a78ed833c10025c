import OsLabs.Jos.Loading

/-!
# Environments that have not run

A machine with enough memory loads any number of programs without segments.
Each gets a slot of its own in the order of the table, an address space with a
stack page and nothing else, and is runnable.
-/

namespace OsLabs.Jos

open Function
open OsLabs.RefLedger

/-- A program that uses its stack only. -/
def idleProgram : Program := ⟨[], 0x800020⟩

/-- The address of the stack page that `load_icode` maps. -/
def stackVa : Word := ustackTop - pgSize

def firstSlot : Slot := ⟨0, by decide⟩

def secondSlot : Slot := ⟨1, by decide⟩

/-- Slot `n` as a link. -/
def slotLink (n : ℕ) : Option Slot := if h : n < nenv then some ⟨n, h⟩ else none

theorem slotLink_of_lt {n : ℕ} (hn : n < nenv) : slotLink n = some ⟨n, hn⟩ := dif_pos hn

/-- An environment that `env_create` has made of an unused slot. -/
def idleEnv (e : Slot) (dir : ℕ) (link : Option Slot) : Env :=
  { newEnv { Env.zero with link := link } e 0 dir with
    tf := { newTrapframe with eip := idleProgram.entry } }

/-- The first `count` slots hold idle environments, and `spare` pages are free. -/
structure Idle (m : Machine) (count spare : ℕ) (s : Kernel) : Prop where
  kern : s.kernPgdir = m.kernPgdir
  cpus : ∀ c, s.cpus c = ⟨if c < m.ncpu then .started else .unused, none, m.kernPgdir⟩
  memory : ∃ pool base given free, KernelImage m pool base ∧ spare ≤ free.length ∧
    Spaces m pool base (fun _ => True) (dirsOf s) given s.phys free noLeak
  env : ∀ e : Slot, (e : ℕ) < count → ∃ dir, s.envs e = idleEnv e dir (slotLink (e + 1))
  unused : ∀ e : Slot, count ≤ e → s.envs e = { Env.zero with link := slotLink (e + 1) }
  head : s.envFreeList = slotLink count
  stack : ∀ e : Slot, (e : ℕ) < count → ∃ pg, wordAt s.phys (dirsOf s) (pteKey e stackVa) =
    loadEntry pg ∧ tableSlot s.phys (dirsOf s) (pteKey e stackVa) = some pg
  alone : ∀ e d t, d < userPdes → t < nptEntries → TableKey.pte e d t ≠ pteKey e stackVa →
    tableSlot s.phys (dirsOf s) (.pte e d t) = none
  tables : ∀ e d, d < userPdes → d ≠ pdx stackVa →
    tableSlot s.phys (dirsOf s) (.pde e d) = none

/-! ## Before the first one -/

/-- The free list of `env_init` is the table in order. -/
theorem envInit_order {count : ℕ} (hcount : count ≤ nenv) :
    (envInit count).2 = slotLink (nenv - count) ∧ ∀ e : Slot, nenv - count ≤ e →
      (envInit count).1 e = { Env.zero with link := slotLink (e + 1) } := by
  induction count with
  | zero =>
    have hnone : slotLink (nenv - 0) = none := dif_neg (Nat.lt_irrefl nenv)
    refine ⟨hnone.symm, fun e he => ?_⟩
    have hslot := e.isLt
    omega
  | succ k ih =>
    obtain ⟨hhead, henvs⟩ := ih (by omega)
    have hvalue : (slotDown k : ℕ) = nenv - (k + 1) := by
      change nenv - 1 - k = _
      omega
    rw [envInit_succ]
    dsimp only
    refine ⟨?_, fun e he => ?_⟩
    · rw [← hvalue, slotLink_of_lt (slotDown k).isLt]
    · by_cases hsame : e = slotDown k
      · subst hsame
        obtain ⟨link, henv⟩ := envInit_env k (slotDown k)
        rw [update_self, henv, hhead, hvalue, show nenv - (k + 1) + 1 = nenv - k by omega]
        rfl
      · rw [update_of_ne hsame]
        refine henvs e ?_
        have hne : (e : ℕ) ≠ slotDown k := Fin.val_ne_of_ne hsame
        omega

variable {m : Machine}

theorem Idle.start {σ : Phys} {free : List ℕ}
    (hhalf : KernelHalf m.pool m.kernPgdir m.Window σ free) {spare : ℕ}
    (hspare : spare ≤ free.length) : Idle m 0 spare (initialKernel m σ) := by
  obtain ⟨hhead, henvs⟩ := envInit_order (Nat.le_refl nenv)
  obtain ⟨himage, hspaces⟩ := Spaces.start (ι := Slot) hhalf fun _ => True
  have hempty : ∀ key, tableSlot (initialKernel m σ).phys (dirsOf (initialKernel m σ)) key = none :=
    fun key => tableSlot_of_no_dir _ (by rw [dirsOf_initialKernel])
  exact
    { kern := rfl
      cpus := fun c => rfl
      memory := by
        rw [dirsOf_initialKernel]
        exact ⟨_, _, _, free, himage, hspare, hspaces⟩
      env := fun e he => absurd he (Nat.not_lt_zero _)
      unused := fun e _ => by
        simp only [initialKernel]
        exact henvs e (by omega)
      head := by
        simp only [initialKernel]
        rw [hhead, Nat.sub_self]
      stack := fun e he => absurd he (Nat.not_lt_zero _)
      alone := fun e d t _ _ _ => hempty _
      tables := fun e d _ _ => hempty _ }

/-! ## One more -/

section Create

variable {ι : Type*} [Fintype ι] [DecidableEq ι]
variable {pool : Set ℕ} {base : Phys} {Good : Word → Prop}
variable {dirs : ι → Option ℕ} {given given' : ι → Set ℕ} {σ σ' : Phys} {free free' : List ℕ}

/-- A page that is not free any more is referenced. -/
theorem Spaces.referenced (hspaces : Spaces m pool base Good dirs given σ free noLeak)
    (hspaces' : Spaces m pool base Good dirs given' σ' free' noLeak) {page : ℕ}
    (hfree : page ∈ free) (hnot : page ∉ free') :
    ∃ key ∈ userKeys ι, tableSlot σ' dirs key = some page := by
  have hpool := hspaces.paged.balanced.free_mem page hfree
  have hdirs : refs Finset.univ dirs page = 0 := refs_eq_zero_iff.mpr fun e _ hdir =>
    (hspaces.paged.dir_busy e page hdir).1 hfree
  have hused := (hspaces'.paged.balanced.not_lost page hpool hnot).resolve_left (by simp)
  rw [owned, hdirs, noLeak] at hused
  by_contra hnone
  rw [refs_eq_zero_iff.mpr fun key hkey hslot => hnone ⟨key, hkey, hslot⟩] at hused
  exact absurd hused (by decide)

/-- Besides the page itself, loading a page takes at most one page from the free
list, for a page table that was missing. -/
theorem Spaces.loadPage_taken {i : ι} {pg page : ℕ} {va : Word}
    (hspaces : Spaces m pool base Good dirs given σ (pg :: free) noLeak)
    (hspaces' : Spaces m pool base Good dirs given' σ' free' noLeak)
    (hinserted : Inserted pool dirs (takePage σ pg false) free (owned dirs noLeak) i va
      (loadEntry pg) σ' free') (hpage : page ∈ free) (hnot : page ∉ free') :
    free.head? = some page ∧ tableSlot σ dirs (.pde i (pdx va)) = none := by
  have hbal := hspaces.paged.balanced
  have hlt := lt_of_lt_of_le (hspaces.paged.pool_lt pg (hbal.free_mem pg List.mem_cons_self))
    hspaces.paged.npages_le
  have hslots := hspaces.paged.tableSlot_takePage false
  have hfree : page ∈ pg :: free := List.mem_cons_of_mem _ hpage
  obtain ⟨key, hkey, hslot⟩ := hspaces.referenced hspaces' hfree hnot
  have hunref : tableSlot σ dirs key ≠ some page :=
    refs_eq_zero_iff.mp (hbal.free_unref page hfree) key hkey
  cases key with
  | pte j d t =>
    obtain ⟨hd, ht⟩ := pte_mem_userKeys.mp hkey
    rw [tableSlot, hinserted.ptes j d t hd ht] at hslot
    by_cases hsame : TableKey.pte j d t = pteKey i va
    · rw [hsame, update_self, loadEntry,
        entryPage_entry hlt (pteAddr_page2pa_or (by decide))] at hslot
      cases hslot
      exact absurd hpage (List.nodup_cons.mp hbal.free_nodup).1
    · rw [update_of_ne hsame] at hslot
      exact absurd ((hslots _ hkey).symm.trans hslot) hunref
  | pde j d =>
    rcases hinserted.pdes j d (pde_mem_userKeys.mp hkey) with
      hsame | ⟨⟨rfl, rfl⟩, habsent, head, hhead, hword⟩
    · rw [tableSlot, hsame] at hslot
      exact absurd ((hslots _ hkey).symm.trans hslot) hunref
    · have hheadLt := lt_of_lt_of_le (hspaces.paged.pool_lt head
        (hbal.free_mem head (List.mem_cons_of_mem _ (List.mem_of_mem_head? hhead))))
        hspaces.paged.npages_le
      rw [tableSlot, hword, entryPage_tableEntry hheadLt] at hslot
      cases hslot
      exact ⟨hhead, (hslots _ hkey).symm.trans habsent⟩

theorem Spaces.loadPage_free {i : ι} {pg : ℕ} {va : Word}
    (hspaces : Spaces m pool base Good dirs given σ (pg :: free) noLeak)
    (hspaces' : Spaces m pool base Good dirs given' σ' free' noLeak)
    (hinserted : Inserted pool dirs (takePage σ pg false) free (owned dirs noLeak) i va
      (loadEntry pg) σ' free') : free.length ≤ free'.length + 1 := by
  have hnodup := hspaces.paged.balanced.free_nodup.of_cons
  have htail : ∀ page ∈ free.tail, page ∈ free' := by
    intro page hpage
    by_contra hnot
    have hhead := (hspaces.loadPage_taken hspaces' hinserted (List.mem_of_mem_tail hpage) hnot).1
    cases free with
    | nil => cases hhead
    | cons first rest =>
      cases hhead
      exact (List.nodup_cons.mp hnodup).1 hpage
  have hlength := (List.subperm_of_subset hnodup.tail htail).length_le
  rw [List.length_tail] at hlength
  omega

/-- Where the page table is there, no other page is taken. -/
theorem Spaces.loadPage_free_of_table {i : ι} {pg : ℕ} {va : Word}
    (hspaces : Spaces m pool base Good dirs given σ (pg :: free) noLeak)
    (hspaces' : Spaces m pool base Good dirs given' σ' free' noLeak)
    (hinserted : Inserted pool dirs (takePage σ pg false) free (owned dirs noLeak) i va
      (loadEntry pg) σ' free') (htable : tableSlot σ dirs (.pde i (pdx va)) ≠ none) :
    free.length ≤ free'.length := by
  have hsub : ∀ page ∈ free, page ∈ free' := fun page hpage => by
    by_contra hnot
    exact htable (hspaces.loadPage_taken hspaces' hinserted hpage hnot).2
  exact (List.subperm_of_subset hspaces.paged.balanced.free_nodup.of_cons hsub).length_le

/-- The memory after loading an idle program into space `i`. -/
structure LoadedIdle (dirs : ι → Option ℕ) (σ : Phys) (i : ι) (p pg : ℕ) (σ' : Phys) : Prop where
  word : wordAt σ' (update dirs i (some p)) (pteKey i stackVa) = loadEntry pg
  slot : tableSlot σ' (update dirs i (some p)) (pteKey i stackVa) = some pg
  others : ∀ k d t, d < userPdes → t < nptEntries → k ≠ i →
    wordAt σ' (update dirs i (some p)) (.pte k d t) = wordAt σ dirs (.pte k d t)
  alone : ∀ d t, d < userPdes → t < nptEntries → TableKey.pte i d t ≠ pteKey i stackVa →
    tableSlot σ' (update dirs i (some p)) (.pte i d t) = none
  tables : ∀ k d, d < userPdes → k ≠ i ∨ d ≠ pdx stackVa →
    tableSlot σ' (update dirs i (some p)) (.pde k d) = tableSlot σ dirs (.pde k d)

/-- `env_setup_vm` and `load_icode` for an idle program need three pages: a page
directory, a page table and a stack page. -/
theorem Spaces.loadIdle {p pg first : ℕ} {rest : List ℕ} {i : ι}
    (hspaces : Spaces m pool base Good dirs given σ (p :: pg :: first :: rest) noLeak)
    (himage : KernelImage m pool base) (hloads : LoadsGood Good) (hnone : dirs i = none) :
    ∃ σ' given' free', Jos.loadIcode (Jos.setupDir σ m.kernPgdir p) p idleProgram = some σ' ∧
      Spaces m pool base Good (update dirs i (some p)) given' σ' free' noLeak ∧
      rest.length ≤ free'.length ∧ LoadedIdle dirs σ i p pg σ' := by
  have hsetup := hspaces.setupDir himage hnone (hspaces.free_room List.mem_cons_self)
  have hdir : update dirs i (some p) i = some p := update_self _ _ _
  have hstackVa : stackVa < utop := by decide
  have hlt : pg < 2 ^ 20 := lt_of_lt_of_le (hspaces.paged.pool_lt pg
    (hspaces.paged.balanced.free_mem pg (List.mem_cons_of_mem _ List.mem_cons_self)))
    hspaces.paged.npages_le
  obtain ⟨σ', free', hinsert, hinserted, hloaded⟩ :=
    (hsetup.loadPage hdir hstackVa (hloads pg hlt)).resolve_left fun hfailed => by
      cases hfailed.2.1
  have hlength := hsetup.loadPage_free hloaded hinserted
  have hview : ∀ key ∈ userKeys ι,
      tableSlot (takePage (Jos.setupDir σ m.kernPgdir p) pg false) (update dirs i (some p)) key =
        tableSlot σ dirs key := fun key hkey => by
    rw [hsetup.paged.tableSlot_takePage false key hkey,
      hspaces.tableSlot_setupDir himage hnone hkey]
  have hword : wordAt σ' (update dirs i (some p)) (pteKey i stackVa) = loadEntry pg := by
    rw [pteKey, hinserted.ptes i _ _ (pdx_lt_userPdes hstackVa) (ptx_lt stackVa), ← pteKey,
      update_self]
  refine ⟨σ', _, free', ?_, hloaded, ?_,
    { word := hword
      slot := by
        rw [tableSlot, hword]
        exact entryPage_entry hlt (pteAddr_page2pa_or (by decide))
      others := fun k d t hd ht hk => ?_
      alone := fun d t hd ht hne => ?_
      tables := fun k d hd hother => ?_ }⟩
  · have hcount : (if roundDown stackVa < roundUp (stackVa + pgSize) then
        ((roundUp (stackVa + pgSize) - roundDown stackVa) / pgSize).toNat else 0) = 1 := by decide
    have hround : roundDown stackVa = stackVa := by decide
    change Jos.regionAlloc (Jos.setupDir σ m.kernPgdir p) p stackVa pgSize = some σ'
    rw [Jos.regionAlloc, hcount, hround, Jos.regionPages, pageAlloc_cons hsetup.paged false]
    simp [hinsert, Jos.regionPages]
  · rw [List.length_cons] at hlength
    omega
  · have hkey : TableKey.pte k d t ∈ userKeys ι := pte_mem_userKeys.mpr ⟨hd, ht⟩
    have hne : TableKey.pte k d t ≠ pteKey i stackVa := fun hsame =>
      hk (TableKey.pte.inj hsame).1
    rw [hinserted.ptes k d t hd ht, update_of_ne hne,
      hsetup.paged.wordAt_takePage false _ hkey, hspaces.wordAt_setupDir m.kernPgdir hkey hk]
  · rw [tableSlot, hinserted.ptes i d t hd ht, update_of_ne hne, ← tableSlot,
      hview _ (pte_mem_userKeys.mpr ⟨hd, ht⟩)]
    exact tableSlot_of_no_dir σ hnone
  · rcases hinserted.pdes k d hd with hsame | ⟨⟨hk, hindex⟩, -⟩
    · rw [tableSlot, hsame, ← tableSlot, hview _ (pde_mem_userKeys.mpr hd)]
    · rcases hother with hne | hne
      · exact absurd hk hne
      · exact absurd hindex hne

end Create

/-- `env_alloc`, forwards. -/
theorem envAlloc_eq {s : Kernel} {e : Slot} {p : ℕ} (hlist : s.envFreeList = some e)
    (hpages : s.phys.pageFreeList = some p) (parentId : Word) :
    envAlloc s parentId = .ok (e,
      { phys := setupDir s.phys s.kernPgdir p
        kernPgdir := s.kernPgdir
        envs := update s.envs e (newEnv (s.envs e) e parentId p)
        envFreeList := (s.envs e).link
        cpus := s.cpus }) := by
  simp [envAlloc, hlist, envSetupVm, pageAlloc, hpages, Kernel.setEnv, Kernel.setPhys, newEnv,
    setupDir]

/-- `env_create`, forwards. -/
theorem envCreate_eq {s : Kernel} {e : Slot} {p : ℕ} (hlist : s.envFreeList = some e)
    (hpages : s.phys.pageFreeList = some p) (program : Program) :
    envCreate s program = (loadIcode (setupDir s.phys s.kernPgdir p) p program).map fun σ =>
      { phys := σ
        kernPgdir := s.kernPgdir
        envs := update s.envs e { newEnv (s.envs e) e 0 p with
          tf := { newTrapframe with eip := program.entry } }
        envFreeList := (s.envs e).link
        cpus := s.cpus } := by
  have hdir : (newEnv (s.envs e) e 0 p).pgdir = some p := rfl
  simp only [envCreate, envAlloc_eq hlist hpages, update_self, hdir, Option.bind_eq_bind,
    Option.bind_some]
  cases loadIcode (setupDir s.phys s.kernPgdir p) p program with
  | none => rfl
  | some σ => simp [Kernel.setPhys, Kernel.setTf, Kernel.setEnv, newEnv]

theorem Idle.create {count spare : ℕ} {s : Kernel} (hidle : Idle m count (spare + 3) s)
    (hcount : count < nenv) :
    ∃ s', envCreate s idleProgram = some s' ∧ Idle m (count + 1) spare s' := by
  obtain ⟨pool, base, given, free, himage, hspare, hspaces⟩ := hidle.memory
  obtain ⟨p, pg, first, rest, rfl⟩ : ∃ p pg first rest, free = p :: pg :: first :: rest := by
    match free, hspare with
    | p :: pg :: first :: rest, _ => exact ⟨p, pg, first, rest, rfl⟩
  obtain ⟨e, rfl⟩ : ∃ e : Slot, (e : ℕ) = count := ⟨⟨count, hcount⟩, rfl⟩
  have hlist : s.envFreeList = some e := hidle.head.trans (slotLink_of_lt hcount)
  have hold : s.envs e = { Env.zero with link := slotLink (e + 1) } :=
    hidle.unused e (Nat.le_refl e)
  have hnone : dirsOf s e = none := by
    rw [dirsOf, hold]
    rfl
  obtain ⟨σ, given', free', hload, hloaded, hrest, hidleSpace⟩ :=
    hspaces.loadIdle himage (fun _ _ => trivial) hnone
  have hpages : s.phys.pageFreeList = some p := hspaces.paged.threads.head_eq
  have hcreate := envCreate_eq hlist hpages idleProgram
  rw [← hidle.kern] at hload
  rw [hload] at hcreate
  refine ⟨_, hcreate,
    { kern := hidle.kern
      cpus := hidle.cpus
      memory := ?_
      env := fun k hk => ?_
      unused := fun k hk => ?_
      head := ?_
      stack := fun k hk => ?_
      alone := fun k d t hd ht hne => ?_
      tables := fun k d hd hne => ?_ }⟩
  · rw [dirsOf_create]
    refine ⟨pool, base, given', free', himage, ?_, hloaded⟩
    simp only [List.length_cons] at hspare
    omega
  · dsimp only
    by_cases hsame : k = e
    · subst hsame
      rw [update_self, hold]
      exact ⟨p, rfl⟩
    · rw [update_of_ne hsame]
      have hne : (k : ℕ) ≠ e := Fin.val_ne_of_ne hsame
      exact hidle.env k (by omega)
  · have hne : k ≠ e := fun hsame => by
      rw [hsame] at hk
      exact Nat.not_succ_le_self e hk
    dsimp only
    rw [update_of_ne hne]
    exact hidle.unused k (by omega)
  · dsimp only
    rw [hold]
  · rw [dirsOf_create]
    by_cases hsame : k = e
    · rw [hsame]
      exact ⟨pg, hidleSpace.word, hidleSpace.slot⟩
    · have hne : (k : ℕ) ≠ e := Fin.val_ne_of_ne hsame
      obtain ⟨page, hword, hslot⟩ := hidle.stack k (by omega)
      have hkept : wordAt σ (update (dirsOf s) e (some p)) (pteKey k stackVa) =
          wordAt s.phys (dirsOf s) (pteKey k stackVa) :=
        hidleSpace.others k _ _ (by decide) (ptx_lt stackVa) hsame
      refine ⟨page, hkept.trans hword, ?_⟩
      rw [tableSlot, hkept, ← tableSlot, hslot]
  · rw [dirsOf_create]
    by_cases hsame : k = e
    · subst hsame
      exact hidleSpace.alone d t hd ht hne
    · rw [tableSlot, hidleSpace.others k d t hd ht hsame, ← tableSlot]
      exact hidle.alone k d t hd ht hne
  · rw [dirsOf_create, hidleSpace.tables k d hd (Or.inr hne)]
    exact hidle.tables k d hd hne

/-- Loading several. -/
theorem Idle.creates {count spare n : ℕ} {s : Kernel} (hidle : Idle m count (spare + 3 * n) s)
    (hcount : count + n ≤ nenv) :
    ∃ s', envCreates s (List.replicate n idleProgram) = some s' ∧ Idle m (count + n) spare s' := by
  induction n generalizing s count with
  | zero => exact ⟨s, rfl, hidle⟩
  | succ n ih =>
    rw [Nat.mul_succ, ← Nat.add_assoc] at hidle
    obtain ⟨next, hcreate, hnext⟩ := hidle.create (by omega)
    obtain ⟨s', hrest, hdone⟩ := ih hnext (by omega)
    refine ⟨s', ?_, by rwa [Nat.add_right_comm, Nat.add_assoc] at hdone⟩
    rw [List.replicate_succ, envCreates, hcreate]
    exact hrest

/-- A machine with enough memory boots with idle environments. -/
theorem Machine.Sane.boots_idle (hsane : m.Sane) {count spare : ℕ} (hcount : count ≤ nenv)
    (hmemory : 1024 + (spare + 3 * count) ≤ m.initialFree.length) :
    ∃ s, Boots m (List.replicate count idleProgram) s ∧ Idle m count spare s := by
  obtain ⟨σ, free, hhalf, hspare, hboots⟩ := hsane.boots hmemory
  obtain ⟨s, hcreate, hidle⟩ := (Idle.start hhalf hspare).creates (by omega)
  refine ⟨s, hboots _ s hcreate, ?_⟩
  rwa [Nat.zero_add] at hidle

end OsLabs.Jos
