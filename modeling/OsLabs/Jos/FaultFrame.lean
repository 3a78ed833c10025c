import OsLabs.Jos.Delivery
import OsLabs.Jos.IdleEnvs
import OsLabs.Jos.UserCheck
import OsLabs.Jos.WordFrames

/-!
# What `page_fault_handler` writes

The frame of a page fault goes to an address that the environment chooses.  In
an address space whose page tables only the kernel can write, the handler
writes the bytes of the frame and nothing else, or it destroys the environment.
-/

namespace OsLabs.Jos

open Function

/-- What a user needs to write a page. -/
def writeFlags : Word := pteP ||| pteU ||| pteW

/-- The user half of an address space: `pgdir_walk` makes entries for page
tables that grant everything, and maps no page table for the user. -/
structure UserTables (σ : Phys) (dir : ℕ) : Prop where
  tables : TablesIn σ dir
  granted : ∀ d < userPdes, σ.load dir d &&& pteP ≠ 0 → σ.load dir d &&& writeFlags = writeFlags
  apart : ∀ va page, va < utop → mmuPage σ dir va writeFlags = some page →
    page ≠ dir ∧ ∀ d < userPdes, entryPage (σ.mem dir d) ≠ some page

section Translation

variable {σ σ' : Phys} {dir page : ℕ} {va need : Word}

/-- Fewer flags are easier to have. -/
theorem mmuPage_weaken {less : Word} (hless : need &&& less = less)
    (hreach : mmuPage σ dir va need = some page) : mmuPage σ dir va less = some page := by
  have hflags : ∀ word : Word, word &&& need = need → word &&& less = less := fun word hword => by
    rw [← hless, ← BitVec.and_assoc, hword]
  rw [mmuPage] at hreach ⊢
  split at hreach
  case isTrue hall =>
    rw [if_pos ⟨hflags _ hall.1, hflags _ hall.2⟩]
    exact hreach
  case isFalse => cases hreach

/-- Stores to other pages leave the tables alone. -/
theorem mmuPage_storeByte (hdir : page ≠ dir) (htable : pgnum (σ.load dir (pdx va)) ≠ page)
    (offset : ℕ) (byte : BitVec 8) (need : Word) :
    mmuPage (σ.storeByte page offset byte) dir va need = mmuPage σ dir va need := by
  rw [mmuPage, mmuPage, load_storeByte_of_ne σ hdir.symm, load_storeByte_of_ne σ htable]

/-- The entries that `user_mem_check` accepts are the ones that the MMU needs. -/
theorem UserTables.reaches (hspace : UserTables σ dir) (hva : va < utop)
    (hpte : HasPte σ dir (pteW ||| pteU) va) : ∃ page, mmuPage σ dir va writeFlags = some page := by
  obtain ⟨hpresent, hentry, hperm⟩ := hpte
  have hpde := hspace.granted _ (pdx_lt_userPdes hva) hpresent
  have hbit : ∀ word : Word, word &&& pteP ≠ 0 → word &&& pteP = pteP := fun word hword => by
    have hone : pteP = 1#32 := rfl
    rw [hone] at hword ⊢
    ext k hk
    by_cases hzero : k = 0
    · subst hzero
      by_contra hbit
      refine hword ?_
      ext j hj
      by_cases hj0 : j = 0
      · subst hj0
        simpa using hbit
      · simp [BitVec.getElem_one, hj0]
    · simp [BitVec.getElem_one, hzero]
  have hflags : σ.load (pgnum (σ.load dir (pdx va))) (ptx va) &&& writeFlags = writeFlags := by
    have hsplit : writeFlags = pteP ||| (pteW ||| pteU) := by decide
    rw [hsplit, BitVec.and_or_distrib_left, hbit _ hentry, hperm]
  exact ⟨_, by rw [mmuPage]; exact if_pos ⟨hpde, hflags⟩⟩

/-- The address spaces of a kernel whose page tables are not shared. -/
theorem Exclusive.userTables {ι : Type*} [Fintype ι] [DecidableEq ι] {dirs : ι → Option ℕ} {i : ι}
    (hexcl : Exclusive σ dirs) (hdir : dirs i = some dir) (htables : TablesIn σ dir)
    (hgranted : ∀ d < userPdes, σ.load dir d &&& pteP ≠ 0 →
      σ.load dir d &&& writeFlags = writeFlags) : UserTables σ dir where
  tables := htables
  granted := hgranted
  apart := fun va page hva hreach => by
    have hkey : pteKey i va ∈ userKeys ι := pteKey_mem hva i
    have hslot : tableSlot σ dirs (pteKey i va) = some page :=
      Spaces.mmuPage_slot hdir (by decide) hreach
    refine ⟨fun hsame => hexcl.dir_unref i dir hdir _ hkey (hsame ▸ hslot), fun d hd hentry => ?_⟩
    have htable : tableSlot σ dirs (.pde i d) = some page := by
      rw [tableSlot, wordAt_pde hdir, hentry]
    have hsame := hexcl.table_unique i d page hd htable _ hkey hslot
    cases hsame

end Translation

/-! ## Bytes in a row -/

/-- The bytes from `va` on, as the directory maps them, are `bytes`, and
everything else is as before. -/
structure Stored (σ : Phys) (dir : ℕ) (va : Word) (bytes : List (BitVec 8)) (σ' : Phys) : Prop where
  written : ∀ i (hi : i < bytes.length) page,
    mmuPage σ dir (va + BitVec.ofNat 32 i) writeFlags = some page →
      σ'.loadByte page (pgoff (va + BitVec.ofNat 32 i)) = bytes[i]
  outside : ∀ page offset,
    (∀ i < bytes.length, mmuPage σ dir (va + BitVec.ofNat 32 i) writeFlags = some page →
      offset ≠ pgoff (va + BitVec.ofNat 32 i)) → σ'.loadByte page offset = σ.loadByte page offset
  pages : σ'.pages = σ.pages
  freeList : σ'.pageFreeList = σ.pageFreeList
  npages : σ'.npages = σ.npages

/-- Each byte of the range is in a page that no translation of the range goes
through. -/
def Clear (σ : Phys) (dir : ℕ) (va : Word) (count : ℕ) : Prop :=
  ∀ i < count, ∃ page, mmuPage σ dir (va + BitVec.ofNat 32 i) writeFlags = some page ∧
    page ≠ dir ∧ ∀ j < count, pgnum (σ.load dir (pdx (va + BitVec.ofNat 32 j))) ≠ page

section Bytes

variable {σ : Phys} {dir : ℕ} {va : Word} {bytes : List (BitVec 8)}

theorem add_succ_word (va : Word) (i : ℕ) :
    va + 1 + BitVec.ofNat 32 i = va + BitVec.ofNat 32 (i + 1) := by
  rw [BitVec.add_assoc, Nat.add_comm i 1, BitVec.ofNat_add]
  rfl

theorem pgoff_add_ne (va : Word) {i : ℕ} (hpos : 0 < i) (hi : i < 4096) :
    pgoff (va + BitVec.ofNat 32 i) ≠ pgoff va := by
  rw [pgoff_eq, pgoff_eq, BitVec.toNat_add, BitVec.toNat_ofNat]
  omega

theorem Clear.head {count : ℕ} (hclear : Clear σ dir va (count + 1)) :
    ∃ page, mmuPage σ dir va writeFlags = some page ∧ page ≠ dir ∧
      ∀ j < count + 1, pgnum (σ.load dir (pdx (va + BitVec.ofNat 32 j))) ≠ page := by
  obtain ⟨page, hreach, hapart⟩ := hclear 0 (Nat.succ_pos count)
  rw [show va + BitVec.ofNat 32 0 = va by simp] at hreach
  exact ⟨page, hreach, hapart⟩

/-- A byte stored in the range leaves the translations of the range alone. -/
theorem mmuPage_rest {count page i : ℕ} (hdir : page ≠ dir)
    (htables : ∀ j < count + 1, pgnum (σ.load dir (pdx (va + BitVec.ofNat 32 j))) ≠ page)
    (hi : i < count) (offset : ℕ) (byte : BitVec 8) :
    mmuPage (σ.storeByte page offset byte) dir (va + 1 + BitVec.ofNat 32 i) writeFlags =
      mmuPage σ dir (va + BitVec.ofNat 32 (i + 1)) writeFlags := by
  rw [add_succ_word, mmuPage_storeByte hdir (htables (i + 1) (by omega))]

theorem Clear.tail {count page : ℕ} (hclear : Clear σ dir va (count + 1)) (hdir : page ≠ dir)
    (htables : ∀ j < count + 1, pgnum (σ.load dir (pdx (va + BitVec.ofNat 32 j))) ≠ page)
    (offset : ℕ) (byte : BitVec 8) :
    Clear (σ.storeByte page offset byte) dir (va + 1) count := by
  intro i hi
  obtain ⟨target, hreach, hne, hapart⟩ := hclear (i + 1) (by omega)
  refine ⟨target, (mmuPage_rest hdir htables hi offset byte).trans hreach, hne, fun j hj => ?_⟩
  rw [add_succ_word, load_storeByte_of_ne σ hdir.symm]
  exact hapart (j + 1) (by omega)

/-- The kernel stores the bytes of a clear range. -/
theorem Clear.stored (hclear : Clear σ dir va bytes.length) (hlen : bytes.length ≤ 4096) :
    ∃ σ', kernelStores σ dir va bytes = some σ' ∧ Stored σ dir va bytes σ' := by
  induction bytes generalizing σ va with
  | nil =>
    exact ⟨σ, rfl,
      { written := fun i hi => absurd hi (Nat.not_lt_zero i)
        outside := fun _ _ _ => rfl
        pages := rfl
        freeList := rfl
        npages := rfl }⟩
  | cons byte bytes ih =>
    rw [List.length_cons] at hclear hlen
    obtain ⟨page, hreach, hdir, htables⟩ := hclear.head
    have hrest := fun i hi => mmuPage_rest hdir htables (i := i) hi (pgoff va) byte
    obtain ⟨σ', hrun, hstored⟩ := ih (hclear.tail hdir htables (pgoff va) byte) (by omega)
    have hzero : va + BitVec.ofNat 32 0 = va := by simp
    have hstep : kernelStore σ dir va byte = some (σ.storeByte page (pgoff va) byte) := by
      rw [kernelStore, mmuPage_weaken (by decide) hreach]
      rfl
    refine ⟨σ', ?_,
      { written := fun i hi target htarget => ?_
        outside := fun target offset hother => ?_
        pages := hstored.pages
        freeList := hstored.freeList
        npages := hstored.npages }⟩
    · rw [kernelStores, hstep]
      exact hrun
    · cases i with
      | zero =>
        rw [hzero] at htarget ⊢
        obtain rfl := Option.some.inj (hreach.symm.trans htarget)
        rw [hstored.outside page (pgoff va) fun i hi _ => ?_, loadByte_storeByte, update_self]
        · rfl
        · rw [add_succ_word]
          exact (pgoff_add_ne va (Nat.succ_pos i) (by omega)).symm
      | succ i =>
        rw [List.length_cons] at hi
        have hi' : i < bytes.length := by omega
        have hwritten := hstored.written i hi' target ((hrest i hi').trans htarget)
        rw [add_succ_word] at hwritten
        exact hwritten
    · rw [hstored.outside target offset fun i hi hi' => ?_]
      · by_cases hsame : target = page
        · subst hsame
          have hne := hother 0 (Nat.succ_pos _) (by rw [hzero]; exact hreach)
          rw [hzero] at hne
          rw [loadByte_storeByte, update_of_ne hne]
        · exact loadByte_storeByte_of_ne σ hsame _ _ _
      · rw [add_succ_word]
        exact hother (i + 1) (by rw [List.length_cons]; omega) ((hrest i hi).symm.trans hi')

end Bytes

/-! ## The handler -/

/-- The bytes of `struct UTrapframe`. -/
def frameBytes (tf : Trapframe) (faultVa : Word) : List (BitVec 8) :=
  (utrapframe tf faultVa).flatMap wordBytes

theorem length_frameBytes (tf : Trapframe) (faultVa : Word) :
    (frameBytes tf faultVa).length = utrapframeSize.toNat := by
  rw [frameBytes, length_flatMap_wordBytes]
  rfl

/-- The frame is written and environment `cur` goes on in its upcall. -/
structure FrameDelivered (s : Kernel) (c dir : ℕ) (cur : Slot) (faultVa : Word) (s' : Kernel) :
    Prop where
  below : (utfAddr (s.envs cur).tf.esp).toNat + utrapframeSize.toNat ≤ utop.toNat
  mapped : ∀ i < utrapframeSize.toNat, ∃ page,
    mmuPage s.phys dir (utfAddr (s.envs cur).tf.esp + BitVec.ofNat 32 i) writeFlags = some page
  stored : Stored s.phys dir (utfAddr (s.envs cur).tf.esp) (frameBytes (s.envs cur).tf faultVa)
    s'.phys
  env : s'.envs cur = { s.envs cur with
    tf := { (s.envs cur).tf with
      eip := (s.envs cur).pgfaultUpcall
      esp := utfAddr (s.envs cur).tf.esp }
    cpunum := c }
  others : ∀ k, k ≠ cur → s'.envs k = s.envs k
  cpus : s'.cpus = s.cpus

/-- Environment `cur` is destroyed, and of the memory only its directory and
its page tables change. -/
structure Destroyed (s : Kernel) (dir : ℕ) (cur : Slot) (s' : Kernel) : Prop where
  status : (s'.envs cur).status = .free
  pgdir : (s'.envs cur).pgdir = none
  memory : ∀ page, page ≠ dir → (∀ d < userPdes, entryPage (s.phys.mem dir d) ≠ some page) →
    s'.phys.mem page = s.phys.mem page

section Handler

variable {s s' : Kernel} {c dir : ℕ} {cur : Slot} {faultVa : Word}

/-- `env_destroy` of the current environment does not return. -/
theorem envDestroy_left {exit : Exit Unit} (hcur : s.curenv c = some cur)
    (hrun : envDestroy s c cur = some exit) :
    ∃ freed s', exit = .left s' ∧ envFree s c cur = some freed ∧
      schedYield (freed.setCurenv c none) c = some s' := by
  rw [envDestroy, if_neg fun h => h.2 hcur] at hrun
  obtain ⟨freed, hfree, hrest⟩ := Option.bind_eq_some_iff.mp hrun
  rw [if_pos ((envFree_curenv hfree c).trans hcur)] at hrest
  obtain ⟨next, hyield, hexit⟩ := Option.bind_eq_some_iff.mp hrest
  cases hexit
  exact ⟨freed, next, rfl, hfree, hyield⟩

/-- Scheduling without a current environment changes the environment that is picked. -/
theorem schedYield_other {e : Slot} (hnone : s.curenv c = none) (hfree : (s.envs e).status = .free)
    (hyield : schedYield s c = some s') : s'.phys = s.phys ∧ s'.envs e = s.envs e := by
  cases schedYield_cases hyield with
  | keep k hcur => simp [hnone] at hcur
  | again k hcur => simp [hnone] at hcur
  | switch k dir _ hpick _ =>
    have hne : e ≠ k := by
      rintro rfl
      have hrunnable := schedPick_runnable hpick
      rw [hfree] at hrunnable
      cases hrunnable
    refine ⟨rfl, ?_⟩
    simp [switched, suspendCurenv, hnone, update_of_ne hne]
  | halt => exact ⟨rfl, rfl⟩

theorem envDestroy_destroyed {exit : Exit Unit} (hcur : s.curenv c = some cur)
    (hdir : (s.envs cur).pgdir = some dir) (hrun : envDestroy s c cur = some exit) :
    ∃ s', exit = .left s' ∧ Destroyed s dir cur s' := by
  obtain ⟨freed, s', rfl, hfree, hyield⟩ := envDestroy_left hcur hrun
  obtain ⟨pgdir, σ, pt, hpgdir, htables, -, rfl⟩ := envFree_cases hfree
  obtain rfl := Option.some.inj (hdir.symm.trans hpgdir)
  obtain ⟨hphys, henv⟩ := schedYield_other (e := cur) (by
    rw [Kernel.curenv, Kernel.cpus_setCurenv, update_self]) (by simp) hyield
  refine ⟨s', rfl, { status := ?_, pgdir := ?_, memory := fun page hne htable => ?_ }⟩
  · rw [henv]
    simp
  · rw [henv]
    simp
  · rw [hphys]
    change (pageDecref σ pt).mem page = _
    rw [mem_pageDecref]
    funext index
    have hcleared := (freeTables_cleared le_rfl htables).kept page index
    refine (hcleared ?_).1
    rintro (⟨hpage, -⟩ | ⟨d, hd, hentry⟩)
    · exact hne hpage
    · exact htable d hd hentry

/-- The kernel reaches every byte of a frame that `user_mem_check` accepts. -/
theorem UserTables.clear {σ : Phys} {va len : Word} (hspace : UserTables σ dir)
    (hbelow : va.toNat + len.toNat ≤ utop.toNat)
    (hok : ∀ a, InRange va len a → AddrOk σ dir (pteW ||| pteU) a) :
    Clear σ dir va len.toNat := by
  have htop : utop.toNat = 4005560320 := by decide
  have hbyte : ∀ i < len.toNat, va + BitVec.ofNat 32 i < utop := fun i hi => by
    rw [BitVec.lt_def, BitVec.toNat_add, BitVec.toNat_ofNat]
    omega
  intro i hi
  have haddr : BitVec.ofNat 32 (va.toNat + i) = va + BitVec.ofNat 32 i := by
    rw [BitVec.ofNat_add, BitVec.ofNat_toNat, BitVec.setWidth_eq]
  obtain ⟨-, hpte⟩ := hok (va.toNat + i) ⟨by omega, by omega⟩
  rw [haddr] at hpte
  obtain ⟨page, hreach⟩ := hspace.reaches (hbyte i hi) hpte
  obtain ⟨hdir, htables⟩ := hspace.apart _ page (hbyte i hi) hreach
  refine ⟨page, hreach, hdir, fun j hj hsame => ?_⟩
  obtain ⟨-, hpresent, -⟩ := hok (va.toNat + j) ⟨by omega, by omega⟩
  rw [BitVec.ofNat_add, BitVec.ofNat_toNat, BitVec.setWidth_eq, load_present] at hpresent
  refine htables _ (pdx_lt_userPdes (hbyte j hj)) (entryPage_eq_some.mpr ⟨hpresent, ?_⟩)
  rw [← hsame, pgnum_load]

end Handler

/-! ## Three address spaces -/

/-- The page of the exception stack. -/
def xstackVa : Word := uxstackTop - pgSize

/-- Directory 1 has the page table in page 2, whose last entries are for the exception stack in
page 3 and for the page below it. -/
def faultSpace (pdeFlags below : Word) : Phys where
  npages := 16
  pages := fun _ => ⟨none, 0⟩
  pageFreeList := none
  mem := fun page index =>
    if page = 1 ∧ index = pdx xstackVa then page2pa 2 ||| pdeFlags
    else if page = 2 ∧ index = 1023 then page2pa 3 ||| writeFlags
    else if page = 2 ∧ index = 1022 then below
    else 0
  mmuBits := fun _ _ => 0

/-- An environment with an upcall that faults with stack pointer `esp`. -/
def faulting (σ : Phys) (esp : Word) : Kernel where
  phys := σ
  kernPgdir := 0
  envs := fun _ => { Env.zero with
    pgdir := some 1, status := .running, pgfaultUpcall := 0x800000
    tf := { Trapframe.zero with esp := esp } }
  envFreeList := none
  cpus := fun _ => ⟨.started, some firstSlot, 1⟩

theorem faultSpace_tables : UserTables (faultSpace writeFlags 0) 1 := by
  have hload : ∀ d, d ≠ pdx xstackVa → (faultSpace writeFlags 0).load 1 d = 0 := fun d hd => by
    simp [Phys.load, faultSpace, hd]
  have hpde : (faultSpace writeFlags 0).load 1 (pdx xstackVa) = page2pa 2 ||| writeFlags := by
    decide
  exact
    { tables := fun d hpresent => by
        by_cases hd : d = pdx xstackVa
        · rw [hd]
          decide
        · rw [hload d hd] at hpresent
          exact absurd (by decide) hpresent
      granted := fun d _ hpresent => by
        by_cases hd : d = pdx xstackVa
        · rw [hd]
          decide
        · rw [hload d hd] at hpresent
          exact absurd (by decide) hpresent
      apart := fun va page hva hreach => by
        have htarget := mmuPage_eq hreach
        rw [mmuPage] at hreach
        by_cases hd : pdx va = pdx xstackVa
        · by_cases ht : ptx va = 1023
          · have hpage : page = 3 := by
              rw [← htarget, entryTarget, hd, ht]
              decide
            refine ⟨by omega, fun d hd hentry => ?_⟩
            by_cases hd : d = pdx xstackVa
            · rw [hd, hpage] at hentry
              exact absurd hentry (by decide)
            · simp [faultSpace, hd] at hentry
          · have hzero : (faultSpace writeFlags 0).load 2 (ptx va) = 0 := by
              simp [Phys.load, faultSpace, ht]
            have htwo : pgnum ((faultSpace writeFlags 0).load 1 (pdx xstackVa)) = 2 := by decide
            rw [hd, htwo, hzero, if_neg fun h => absurd h.2 (by decide)] at hreach
            cases hreach
        · rw [hload _ hd, if_neg fun h => absurd h.1 (by decide)] at hreach
          cases hreach }

end OsLabs.Jos
