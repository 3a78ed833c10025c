import OsLabs.Jos.Primitives
import OsLabs.Jos.Syscall

/-!
# Failed system calls

Which failing calls leave a trace.  Every handler checks before it changes
anything and gives back what it took, with one exception: `sys_page_alloc`
counts the page it allocated, and does not take that back when `page_insert`
finds no memory for a page table.
-/

namespace OsLabs.Jos

open Function

/-- A result below zero is an error code. -/
def IsError (ret : Word) : Prop := ret.slt 0

instance (ret : Word) : Decidable (IsError ret) :=
  inferInstanceAs (Decidable (ret.slt 0 = true))

/-- The state a failed call must leave alone: the free list with its links and
the reference counts, the contents of pages, and the environments. -/
structure Untouched (s s' : Kernel) : Prop where
  free_list : s'.phys.pageFreeList = s.phys.pageFreeList
  links : s'.phys.link = s.phys.link
  refs : s'.phys.ref = s.phys.ref
  memory : s'.phys.mem = s.phys.mem
  envs : s'.envs = s.envs
  env_free_list : s'.envFreeList = s.envFreeList

theorem Untouched.refl (s : Kernel) : Untouched s s := ⟨rfl, rfl, rfl, rfl, rfl, rfl⟩

/-- `sys_page_alloc` passes its checks and takes the last free page, while the
target has no page table for `va`.  (A free page is never a directory in a
reachable state; here it would be cleared before it is walked.) -/
def TakesLastPage (s : Kernel) (cur : Slot) (envid va perm : Word) : Prop :=
  ∃ e pg pgdir, envid2env s cur envid true = some e ∧ va < utop ∧
    perm &&& (pteU ||| pteP) = pteU ||| pteP ∧
    s.phys.pageFreeList = some pg ∧ s.phys.link pg = none ∧ (s.envs e).pgdir = some pgdir ∧
    (pgdir = pg ∨ s.phys.mem pgdir (pdx va) &&& pteP = 0)

/-! ## The handlers -/

section Handlers

variable {s s' : Kernel} {c : ℕ} {cur : Slot} {ret : Word}

theorem not_isError_zero : ¬ IsError 0 := by
  unfold IsError
  decide

/-- An environment id is not negative. -/
theorem not_isError_nextEnvId (old : Word) (e : Slot) : ¬ IsError (nextEnvId old e) := by
  have hslot : (BitVec.ofNat 32 e).msb = false := by
    rw [BitVec.msb_eq_false_iff_two_mul_lt, BitVec.toNat_ofNat]
    have he : (e : ℕ) < 1024 := e.isLt
    omega
  have hgeneration : ∀ w : Word, (if w.sle 0#32 then 0x1000#32 else w).msb = false := by
    intro w
    split
    case isTrue => decide
    case isFalse hpos =>
        rw [BitVec.sle_eq_slt_or_eq, BitVec.slt_zero_eq_msb] at hpos
        simp only [Bool.or_eq_true, not_or, Bool.not_eq_true] at hpos
        exact hpos.1
  have hid : (nextEnvId old e).msb = false := by
    unfold nextEnvId
    rw [BitVec.msb_or, hslot, Bool.or_false]
    exact hgeneration _
  rw [IsError, BitVec.ofNat_eq_ofNat, BitVec.slt_zero_eq_msb, hid]
  decide

/-- A failed `sys_exofork` stops before anything is changed. -/
theorem sysExofork_error (hcall : sysExofork s cur = (ret, s')) (herror : IsError ret) :
    s' = s := by
  cases hfree : s.envFreeList with
  | none =>
      simp only [sysExofork, envAlloc, hfree] at hcall
      exact (congrArg Prod.snd hcall).symm
  | some e =>
      cases hsetup : envSetupVm s e with
      | none =>
          simp only [sysExofork, envAlloc, hfree, hsetup] at hcall
          exact (congrArg Prod.snd hcall).symm
      | some created =>
          simp only [sysExofork, envAlloc, hfree, hsetup] at hcall
          have hret := congrArg Prod.fst hcall
          simp only [Kernel.setEnv, update_self] at hret
          rw [← hret] at herror
          exact absurd herror (not_isError_nextEnvId _ e)

theorem sysEnvSetStatus_error {envid status : Word}
    (hcall : sysEnvSetStatus s cur envid status = (ret, s')) (herror : IsError ret) :
    s' = s := by
  unfold sysEnvSetStatus at hcall
  split at hcall
  · exact (congrArg Prod.snd hcall).symm
  · split at hcall
    · exact (congrArg Prod.snd hcall).symm
    · cases hcall
      exact absurd herror not_isError_zero

theorem sysEnvSetPgfaultUpcall_error {envid func : Word}
    (hcall : sysEnvSetPgfaultUpcall s cur envid func = (ret, s')) (herror : IsError ret) :
    s' = s := by
  unfold sysEnvSetPgfaultUpcall at hcall
  split at hcall
  · exact (congrArg Prod.snd hcall).symm
  · cases hcall
    exact absurd herror not_isError_zero

theorem sysIpcRecv_error {dstva : Word} (hcall : sysIpcRecv s cur dstva = (ret, s'))
    (herror : IsError ret) : s' = s := by
  unfold sysIpcRecv at hcall
  split at hcall
  · exact (congrArg Prod.snd hcall).symm
  · cases hcall
    exact absurd herror not_isError_zero

theorem setPhys_self (s : Kernel) : s.setPhys s.phys = s := rfl

/-- A mapping that fails leaves the kernel as it was. -/
theorem insert_error {pgdir pp : ℕ} {va perm : Word} {σ' : Phys}
    (hinsert : pageInsert s.phys pgdir pp va perm = some (ret, σ')) (herror : IsError ret) :
    s.setPhys σ' = s := by
  rcases pageInsert_result hinsert with ⟨-, rfl, -, -⟩ | ⟨rfl, -⟩
  · rfl
  · exact absurd herror not_isError_zero

theorem sysPageMap_error {srcenvid srcva dstenvid dstva perm : Word}
    (hcall : sysPageMap s cur srcenvid srcva dstenvid dstva perm = some (ret, s'))
    (herror : IsError ret) : s' = s := by
  unfold sysPageMap at hcall
  split at hcall
  · cases hcall; rfl
  · cases hcall; rfl
  · split at hcall
    · cases hcall; rfl
    · simp only [Option.bind_eq_bind, Option.bind_eq_some_iff] at hcall
      obtain ⟨srcdir, -, found, -, hcall⟩ := hcall
      split at hcall
      · cases hcall; rfl
      · split at hcall
        · cases hcall; rfl
        · split at hcall
          · cases hcall; rfl
          · simp only [Option.bind_eq_some_iff] at hcall
            obtain ⟨dstdir, -, ⟨code, σ'⟩, hinsert, hcall⟩ := hcall
            cases hcall
            exact insert_error hinsert herror

theorem sysPageUnmap_error {envid va : Word}
    (hcall : sysPageUnmap s cur envid va = some (ret, s')) (herror : IsError ret) :
    s' = s := by
  unfold sysPageUnmap at hcall
  split at hcall
  · cases hcall; rfl
  · split at hcall
    · cases hcall; rfl
    · simp only [Option.bind_eq_bind, Option.bind_eq_some_iff] at hcall
      obtain ⟨pgdir, -, σ', -, hcall⟩ := hcall
      cases hcall
      exact absurd herror not_isError_zero

theorem sysIpcTrySend_error {envid value srcva perm : Word}
    (hcall : sysIpcTrySend s cur envid value srcva perm = some (ret, s'))
    (herror : IsError ret) : s' = s := by
  unfold sysIpcTrySend at hcall
  split at hcall
  · cases hcall; rfl
  · split at hcall
    · cases hcall; rfl
    · split at hcall
      · simp only [Option.bind_eq_bind, Option.bind_eq_some_iff] at hcall
        obtain ⟨srcdir, -, found, -, hcall⟩ := hcall
        split at hcall
        · cases hcall; rfl
        · split at hcall
          · cases hcall; rfl
          · split at hcall
            · cases hcall; rfl
            · split at hcall
              · cases hcall; rfl
              · split at hcall
                · simp only [Option.bind_eq_some_iff] at hcall
                  obtain ⟨dstdir, -, ⟨code, σ'⟩, hinsert, hcall⟩ := hcall
                  split at hcall
                  · cases hcall
                    exact insert_error hinsert herror
                  · cases hcall
                    exact absurd herror not_isError_zero
                · cases hcall
                  exact absurd herror not_isError_zero
      · cases hcall
        exact absurd herror not_isError_zero

/-- A failed `sys_page_alloc` either changes nothing or has counted the last
free page. -/
theorem sysPageAlloc_error {envid va perm : Word}
    (hcall : sysPageAlloc s cur envid va perm = some (ret, s')) (herror : IsError ret) :
    (s' = s ∧ ¬ TakesLastPage s cur envid va perm) ∨
      (TakesLastPage s cur envid va perm ∧ ∃ pg, s'.phys.ref pg = s.phys.ref pg + 1) := by
  unfold sysPageAlloc at hcall
  split at hcall
  case h_1 hbad =>
      cases hcall
      refine Or.inl ⟨rfl, fun htakes => ?_⟩
      obtain ⟨e, pg, pgdir, hgood, _⟩ := htakes
      rw [hbad] at hgood
      cases hgood
  case h_2 e hgood =>
      split at hcall
      case isTrue hkernel =>
          cases hcall
          refine Or.inl ⟨rfl, fun htakes => ?_⟩
          obtain ⟨_, _, _, _, hva, _⟩ := htakes
          exact absurd hva (BitVec.not_lt.mpr hkernel)
      case isFalse huser =>
          split at hcall
          case isTrue hflags =>
              cases hcall
              refine Or.inl ⟨rfl, fun htakes => ?_⟩
              obtain ⟨_, _, _, _, _, hperm, _⟩ := htakes
              exact hflags hperm
          case isFalse hflags =>
              rw [not_not] at hflags
              cases hhead : s.phys.pageFreeList with
              | none =>
                  simp only [pageAlloc, hhead] at hcall
                  cases hcall
                  refine Or.inl ⟨rfl, fun htakes => ?_⟩
                  obtain ⟨_, _, _, _, _, _, hsome, _⟩ := htakes
                  rw [hhead] at hsome
                  cases hsome
              | some pg =>
                  have htake : pageAlloc s.phys true = (some pg, takePage s.phys pg true) := by
                    rw [pageAlloc, hhead]
                    rfl
                  simp only [htake, Option.bind_eq_bind, Option.bind_eq_some_iff] at hcall
                  obtain ⟨pgdir, hdir, ⟨code, σ'⟩, hinsert, hcall⟩ := hcall
                  rcases pageInsert_result hinsert with ⟨rfl, rfl, hempty, hentry⟩ | ⟨rfl, -⟩
                  · have hcode : (-eNoMem : Word) ≠ 0 := by decide
                    rw [if_pos hcode] at hcall
                    cases hcall
                    refine Or.inr ⟨⟨e, pg, pgdir, hgood, BitVec.not_le.mp huser, hflags, hhead,
                      by simpa using hempty, hdir, ?_⟩, pg, by simp [Kernel.setPhys]⟩
                    by_cases hsame : pgdir = pg
                    · exact Or.inl hsame
                    · rw [mem_incRef, mem_takePage_of_ne _ _ hsame] at hentry
                      exact Or.inr hentry
                  · cases hcall
                    exact absurd herror not_isError_zero

end Handlers

/-! ## Dispatch -/

/-- The call is a `sys_page_alloc` that takes the last free page. -/
def StrandsCount (s : Kernel) (cur : Slot) (syscallno a1 a2 a3 : Word) : Prop :=
  Sys.decode syscallno = some .pageAlloc ∧ TakesLastPage s cur a1 a2 a3

theorem returns_some {result : Word × Kernel} {ret : Word} {s' : Kernel}
    (hcall : returns result = some (.ret ret s')) : result = (ret, s') := by
  unfold returns at hcall
  cases hcall
  rfl

theorem bind_returns {result : Option (Word × Kernel)} {ret : Word} {s' : Kernel}
    (hcall : result.bind returns = some (.ret ret s')) : result = some (ret, s') := by
  obtain ⟨pair, rfl, hpair⟩ := Option.bind_eq_some_iff.mp hcall
  rw [returns_some hpair]

/-- A system call that returns an error code leaves the state untouched,
except a `sys_page_alloc` that takes the last free page. -/
theorem syscall_error_untouched_iff {s s' : Kernel} {c : ℕ} {cur : Slot}
    {key syscallno a1 a2 a3 a4 a5 ret : Word}
    (hcall : syscall s c cur key syscallno a1 a2 a3 a4 a5 = some (.ret ret s'))
    (herror : IsError ret) :
    Untouched s s' ↔ ¬ StrandsCount s cur syscallno a1 a2 a3 := by
  have hsame : Sys.decode syscallno ≠ some .pageAlloc → s' = s →
      (Untouched s s' ↔ ¬ StrandsCount s cur syscallno a1 a2 a3) := by
    rintro hother rfl
    exact ⟨fun _ hstrands => hother hstrands.1, fun _ => Untouched.refl _⟩
  unfold syscall at hcall
  cases hdecode : Sys.decode syscallno with
  | none =>
      rw [hdecode] at hcall
      cases returns_some hcall
      exact hsame (by simp [hdecode]) rfl
  | some call =>
      rw [hdecode] at hcall hsame
      cases call with
      | pageAlloc =>
          rcases sysPageAlloc_error (bind_returns hcall) herror with
            ⟨rfl, hnot⟩ | ⟨htakes, pg, hcount⟩
          · exact ⟨fun _ hstrands => hnot hstrands.2, fun _ => Untouched.refl _⟩
          · refine ⟨fun huntouched => ?_, fun hnot => absurd ⟨hdecode, htakes⟩ hnot⟩
            rw [huntouched.refs] at hcount
            have hne : ∀ ref : BitVec 16, ref ≠ ref + 1 := by
              intro ref
              bv_omega
            exact absurd hcount (hne _)
      | cputs =>
          simp only [Option.bind_eq_bind, Option.bind_eq_some_iff] at hcall
          obtain ⟨exit, -, hcall⟩ := hcall
          cases exit with
          | ret _ s => cases hcall; exact absurd herror not_isError_zero
          | left s => cases hcall
      | envDestroy =>
          simp only [Option.bind_eq_bind, Option.bind_eq_some_iff] at hcall
          obtain ⟨exit, -, hcall⟩ := hcall
          cases exit with
          | ret _ s => cases hcall; exact absurd herror not_isError_zero
          | left s => cases hcall
      | yield =>
          simp only [Option.bind_eq_bind, Option.bind_eq_some_iff] at hcall
          obtain ⟨next, -, hcall⟩ := hcall
          cases hcall
      | cgetc => cases returns_some hcall; exact hsame (by simp) rfl
      | getenvid => cases returns_some hcall; exact hsame (by simp) rfl
      | exofork => exact hsame (by simp) (sysExofork_error (returns_some hcall) herror)
      | pageMap => exact hsame (by simp) (sysPageMap_error (bind_returns hcall) herror)
      | pageUnmap => exact hsame (by simp) (sysPageUnmap_error (bind_returns hcall) herror)
      | envSetStatus => exact hsame (by simp) (sysEnvSetStatus_error (returns_some hcall) herror)
      | envSetPgfaultUpcall =>
          exact hsame (by simp) (sysEnvSetPgfaultUpcall_error (returns_some hcall) herror)
      | ipcTrySend => exact hsame (by simp) (sysIpcTrySend_error (bind_returns hcall) herror)
      | ipcRecv => exact hsame (by simp) (sysIpcRecv_error (returns_some hcall) herror)
      | changePr =>
          cases returns_some hcall
          exact absurd herror not_isError_zero

end OsLabs.Jos
