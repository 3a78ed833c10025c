import OsLabs.Jos.Boot
import OsLabs.Jos.Requests

/-!
# What system calls promise about their arguments

The comment above each handler lists its errors.  `documented` is that list,
and `Contract` compares it with the value that a call leaves in `eax`.
-/

namespace OsLabs.Jos

open Function

/-! ## The documented errors -/

/-- The permissions that the comment above `sys_page_alloc` allows. -/
def PermAllowed (perm : Word) : Prop := permOk perm ∧ perm &&& ~~~pteSyscall = 0

/-- At or above `UTOP`, or not page-aligned. -/
def Misplaced (va : Word) : Prop := utop ≤ va ∨ roundDown va ≠ va

/-- A page table for `va` is missing, and there is no memory for it. -/
def NoTable (σ : Phys) (dir : ℕ) (va : Word) : Prop :=
  σ.pageFreeList = none ∧ σ.mem dir (pdx va) &&& pteP = 0

section Documented

variable (s : Kernel) (e : Slot) (va perm : Word)

def Unmapped : Prop :=
  ∃ dir, (s.envs e).pgdir = some dir ∧ pageLookup s.phys dir va = some none

/-- `va` of environment `e` is mapped with the entry `pte`. -/
def MappedBy (pte : Word) : Prop :=
  ∃ dir pg table index, (s.envs e).pgdir = some dir ∧
    pageLookup s.phys dir va = some (some (pg, (table, index))) ∧ s.phys.load table index = pte

/-- Write access is asked for, and the source is read-only. -/
def Amplifies : Prop :=
  ∃ pte, MappedBy s e va pte ∧ perm &&& pteW ≠ 0 ∧ pte &&& pteW = 0

/-- `page_insert` at `va` of environment `e` finds no memory. -/
def NoTableFor : Prop := ∃ dir, (s.envs e).pgdir = some dir ∧ NoTable s.phys dir va

/-- There is no memory for a new page at `va` of environment `e`, or none for
its page table after the page has been taken. -/
def NoPageFor : Prop :=
  s.phys.pageFreeList = none ∨
    ∃ dir, (s.envs e).pgdir = some dir ∧ NoTable (pageAlloc s.phys true).2 dir va

end Documented

/-- The error codes of a call, each with its condition.  A send without a page
(`srcva` at or above `UTOP`) has no source page. -/
def documented (s : Kernel) (cur : Slot) (call : Call) : List (Word × Prop) :=
  match call.sys with
  | .envDestroy => [(-eBadEnv, envid2env s cur call.a1 true = none)]
  | .pageAlloc =>
      [(-eBadEnv, envid2env s cur call.a1 true = none),
        (-eInval, Misplaced call.a2),
        (-eInval, ¬ PermAllowed call.a3),
        (-eNoMem, ∃ e, envid2env s cur call.a1 true = some e ∧ NoPageFor s e call.a2)]
  | .pageMap =>
      [(-eBadEnv, envid2env s cur call.a1 true = none ∨ envid2env s cur call.a3 true = none),
        (-eInval, Misplaced call.a2 ∨ Misplaced call.a4),
        (-eInval, ∃ e, envid2env s cur call.a1 true = some e ∧ Unmapped s e call.a2),
        (-eInval, ¬ PermAllowed call.a5),
        (-eInval, ∃ e, envid2env s cur call.a1 true = some e ∧ Amplifies s e call.a2 call.a5),
        (-eNoMem, ∃ e, envid2env s cur call.a3 true = some e ∧ NoTableFor s e call.a4)]
  | .pageUnmap =>
      [(-eBadEnv, envid2env s cur call.a1 true = none), (-eInval, Misplaced call.a2)]
  | .ipcTrySend =>
      [(-eBadEnv, envid2env s cur call.a1 false = none),
        (-eIpcNotRecv, ∃ e, envid2env s cur call.a1 false = some e ∧
          (s.envs e).ipcRecving = false),
        (-eInval, call.a3 < utop ∧ roundDown call.a3 ≠ call.a3),
        (-eInval, call.a3 < utop ∧ ¬ PermAllowed call.a4),
        (-eInval, call.a3 < utop ∧ Unmapped s cur call.a3),
        (-eInval, call.a3 < utop ∧ Amplifies s cur call.a3 call.a4),
        (-eNoMem, ∃ e, envid2env s cur call.a1 false = some e ∧ call.a3 < utop ∧
          (s.envs e).ipcDstva < utop ∧ NoTableFor s e (s.envs e).ipcDstva)]
  | _ => []

/-- The result is negative exactly when a documented condition holds, and is
then the code of one that holds. -/
structure Contract (s : Kernel) (cur : Slot) (call : Call) (ret : Word) : Prop where
  negative_iff : IsError ret ↔ ∃ entry ∈ documented s cur call, entry.2
  code : IsError ret → ∃ entry ∈ documented s cur call, entry.1 = ret ∧ entry.2

/-- The calls whose contract is considered. -/
def Sys.contracted : Sys → Prop
  | envDestroy | pageAlloc | pageMap | pageUnmap | ipcTrySend => True
  | _ => False

/-! ## Where the checks agree with the comments -/

/-- `sys_page_alloc` finds nothing to complain about. -/
def AllocPasses (s : Kernel) (cur : Slot) (call : Call) : Prop :=
  ∃ e, envid2env s cur call.a1 true = some e ∧ call.a2 < utop ∧ permOk call.a3 ∧
    ¬ NoPageFor s e call.a2

/-- `sys_page_map` finds nothing to complain about. -/
def MapPasses (s : Kernel) (cur : Slot) (call : Call) : Prop :=
  ∃ se de, envid2env s cur call.a1 true = some se ∧ envid2env s cur call.a3 true = some de ∧
    ¬ Misplaced call.a2 ∧ ¬ Misplaced call.a4 ∧ ¬ Unmapped s se call.a2 ∧ permOk call.a5 ∧
    ¬ Amplifies s se call.a2 call.a5 ∧ ¬ NoTableFor s de call.a4

/-- `sys_ipc_try_send` gets as far as the permissions, and they grant no more
than the sender has. -/
def SendReaches (s : Kernel) (cur e : Slot) (call : Call) (pte : Word) : Prop :=
  envid2env s cur call.a1 false = some e ∧ (s.envs e).ipcRecving = true ∧ call.a3 < utop ∧
    roundDown call.a3 = call.a3 ∧ MappedBy s cur call.a3 pte ∧
    ¬ Amplifies s cur call.a3 call.a4

/-- The condition under which a call keeps its contract. -/
def ChecksSuffice (s : Kernel) (cur : Slot) (call : Call) : Prop :=
  match call.sys with
  | .envDestroy => envid2env s cur call.a1 true ≠ none
  | .pageAlloc =>
      AllocPasses s cur call → roundDown call.a2 = call.a2 ∧ call.a3 &&& ~~~pteSyscall = 0
  | .pageMap => MapPasses s cur call → call.a5 &&& ~~~pteSyscall = 0
  | .ipcTrySend =>
      ∀ e pte, SendReaches s cur e call pte →
        (pte &&& call.a4 ≠ call.a4 → ¬ PermAllowed call.a4) ∧
          (pte &&& call.a4 = call.a4 → PermAllowed call.a4 ∨
            (s.envs e).ipcDstva < utop ∧ NoTableFor s e (s.envs e).ipcDstva)
  | _ => True

/-! ## The two cases of a contract -/

section Cases

variable {s s' : Kernel} {cur : Slot} {call : Call} {ret : Word}

/-- An error whose condition is the `i`-th of the list. -/
theorem contract_of_error (herror : IsError ret) (i : ℕ) {cond : Prop}
    (hentry : (documented s cur call)[i]? = some (ret, cond)) (hcond : cond) :
    Contract s cur call ret := by
  have hmem := List.mem_of_getElem? hentry
  exact ⟨⟨fun _ => ⟨_, hmem, hcond⟩, fun _ => herror⟩, fun _ => ⟨_, hmem, rfl, hcond⟩⟩

theorem contract_zero_iff :
    Contract s cur call 0 ↔ ∀ entry ∈ documented s cur call, ¬ entry.2 := by
  constructor
  · intro hcontract entry hentry hcond
    exact not_isError_zero (hcontract.negative_iff.mpr ⟨entry, hentry, hcond⟩)
  · intro hnone
    refine ⟨⟨fun h => absurd h not_isError_zero, ?_⟩, fun h => absurd h not_isError_zero⟩
    rintro ⟨entry, hentry, hcond⟩
    exact absurd hcond (hnone entry hentry)

theorem isError_badEnv : IsError (-eBadEnv) := by decide
theorem isError_inval : IsError (-eInval) := by decide
theorem isError_noMem : IsError (-eNoMem) := by decide
theorem isError_ipcNotRecv : IsError (-eIpcNotRecv) := by decide

/-- `page_insert` fails exactly when it needs a page table and finds no memory. -/
theorem pageInsert_code {σ σ' : Phys} {dir pp : ℕ} {va perm code : Word}
    (hinsert : pageInsert σ dir pp va perm = some (code, σ')) :
    code = -eNoMem ∧ NoTable σ dir va ∨ code = 0 ∧ ¬ NoTable σ dir va := by
  rcases pageInsert_result hinsert with ⟨rfl, -, hnone, hentry⟩ | ⟨rfl, hroom⟩
  · exact Or.inl ⟨rfl, hnone, hentry⟩
  · exact Or.inr ⟨rfl, hroom⟩

theorem noTableFor_iff {e : Slot} {dir : ℕ} {va : Word} (hdir : (s.envs e).pgdir = some dir) :
    NoTableFor s e va ↔ NoTable s.phys dir va := by
  constructor
  · rintro ⟨other, hother, htable⟩
    rw [hdir] at hother
    cases hother
    exact htable
  · intro htable
    exact ⟨dir, hdir, htable⟩

theorem unmapped_iff {e : Slot} {dir : ℕ} {va : Word} {found : Option (ℕ × (ℕ × ℕ))}
    (hdir : (s.envs e).pgdir = some dir) (hlookup : pageLookup s.phys dir va = some found) :
    Unmapped s e va ↔ found = none := by
  constructor
  · rintro ⟨other, hother, hnone⟩
    rw [hdir] at hother
    cases hother
    rw [hlookup] at hnone
    exact Option.some.inj hnone
  · rintro rfl
    exact ⟨dir, hdir, hlookup⟩

/-- A mapped page has one entry. -/
theorem mappedBy_iff {e : Slot} {dir pg table index : ℕ} {va pte : Word}
    (hdir : (s.envs e).pgdir = some dir)
    (hlookup : pageLookup s.phys dir va = some (some (pg, (table, index)))) :
    MappedBy s e va pte ↔ s.phys.load table index = pte := by
  constructor
  · rintro ⟨other, pg', table', index', hother, hfound, hload⟩
    rw [hdir] at hother
    cases hother
    rw [hlookup] at hfound
    cases hfound
    exact hload
  · intro hload
    exact ⟨dir, pg, table, index, hdir, hlookup, hload⟩

theorem amplifies_iff {e : Slot} {dir pg table index : ℕ} {va perm : Word}
    (hdir : (s.envs e).pgdir = some dir)
    (hlookup : pageLookup s.phys dir va = some (some (pg, (table, index)))) :
    Amplifies s e va perm ↔ perm &&& pteW ≠ 0 ∧ s.phys.load table index &&& pteW = 0 := by
  constructor
  · rintro ⟨pte, hmapped, hboth⟩
    rw [mappedBy_iff hdir hlookup] at hmapped
    rw [hmapped]
    exact hboth
  · intro hboth
    exact ⟨_, (mappedBy_iff hdir hlookup).mpr rfl, hboth⟩

end Cases

/-! ## The handlers -/

section Handlers

variable {s s' : Kernel} {cur : Slot} {call : Call} {ret : Word}

theorem sysPageAlloc_contract (hsys : call.sys = .pageAlloc)
    (hrun : sysPageAlloc s cur call.a1 call.a2 call.a3 = some (ret, s')) :
    Contract s cur call ret ↔ ChecksSuffice s cur call := by
  have hlist : documented s cur call =
      [(-eBadEnv, envid2env s cur call.a1 true = none),
        (-eInval, Misplaced call.a2),
        (-eInval, ¬ PermAllowed call.a3),
        (-eNoMem, ∃ e, envid2env s cur call.a1 true = some e ∧ NoPageFor s e call.a2)] := by
    rw [documented, hsys]
  have hsuffice : ChecksSuffice s cur call =
      (AllocPasses s cur call → roundDown call.a2 = call.a2 ∧
        call.a3 &&& ~~~pteSyscall = 0) := by
    rw [ChecksSuffice, hsys]
  rw [hsuffice]
  unfold sysPageAlloc at hrun
  cases hfound : envid2env s cur call.a1 true with
  | none =>
    simp only [hfound] at hrun
    cases hrun
    apply iff_of_true
    · exact contract_of_error isError_badEnv 0 (by rw [hlist]; rfl) hfound
    · rintro ⟨e, hsome, -⟩
      rw [hfound] at hsome
      cases hsome
  | some e =>
    simp only [hfound] at hrun
    split at hrun
    case isTrue hva =>
      cases hrun
      apply iff_of_true
      · exact contract_of_error isError_inval 1 (by rw [hlist]; rfl) (Or.inl hva)
      · rintro ⟨-, -, hlow, -⟩
        exact absurd hlow (BitVec.not_lt.mpr hva)
    case isFalse hva =>
      split at hrun
      case isTrue hperm =>
        cases hrun
        apply iff_of_true
        · refine contract_of_error isError_inval 2 (by rw [hlist]; rfl) ?_
          exact fun hallowed => hperm hallowed.1
        · rintro ⟨-, -, -, hok, -⟩
          exact absurd hok hperm
      case isFalse hperm =>
        rw [not_not] at hperm
        cases hhead : s.phys.pageFreeList with
        | none =>
          have hnoPage : NoPageFor s e call.a2 := Or.inl hhead
          simp only [pageAlloc, hhead] at hrun
          cases hrun
          apply iff_of_true
          · refine contract_of_error isError_noMem 3 (by rw [hlist]; rfl) ?_
            exact ⟨e, hfound, hnoPage⟩
          · rintro ⟨k, hk, -, -, hroom⟩
            rw [hfound] at hk
            cases hk
            exact absurd hnoPage hroom
        | some pg =>
          have halloc : pageAlloc s.phys true = (some pg, takePage s.phys pg true) := by
            rw [pageAlloc, hhead]
            rfl
          simp only [halloc, Option.bind_eq_bind, Option.bind_eq_some_iff] at hrun
          obtain ⟨dir, hdir, ⟨code, σ⟩, hinsert, hrun⟩ := hrun
          have hnoPage : NoPageFor s e call.a2 ↔
              NoTable ((takePage s.phys pg true).incRef pg) dir call.a2 := by
            rw [NoPageFor, hhead, halloc]
            constructor
            · rintro (hnone | ⟨other, hother, htable⟩)
              · cases hnone
              · rw [hdir] at hother
                cases hother
                exact htable
            · intro htable
              exact Or.inr ⟨dir, hdir, htable⟩
          rcases pageInsert_code hinsert with ⟨rfl, htable⟩ | ⟨rfl, htable⟩
          · rw [if_pos (show (-eNoMem : Word) ≠ 0 by decide)] at hrun
            cases hrun
            apply iff_of_true
            · refine contract_of_error isError_noMem 3 (by rw [hlist]; rfl) ?_
              exact ⟨e, hfound, hnoPage.mpr htable⟩
            · rintro ⟨k, hk, -, -, hroom⟩
              rw [hfound] at hk
              cases hk
              exact absurd (hnoPage.mpr htable) hroom
          · rw [if_neg (not_not.mpr rfl)] at hrun
            cases hrun
            have hpasses : AllocPasses s cur call :=
              ⟨e, hfound, BitVec.not_le.mp hva, hperm, fun h => htable (hnoPage.mp h)⟩
            have hroom : ¬ ∃ k, envid2env s cur call.a1 true = some k ∧
                NoPageFor s k call.a2 := by
              rintro ⟨k, hk, hno⟩
              rw [hfound] at hk
              cases hk
              exact htable (hnoPage.mp hno)
            rw [contract_zero_iff, hlist]
            simp only [List.forall_mem_cons, List.not_mem_nil, false_imp_iff, implies_true,
              and_true, hfound, reduceCtorEq, not_false_eq_true, true_and, not_not]
            rw [forall_prop_of_true hpasses]
            simp only [Misplaced, hva, false_or, not_not, PermAllowed, permOk, hperm, true_and]
            rw [← hfound]
            exact ⟨fun h => ⟨h.1, h.2.1⟩, fun h => ⟨h.1, h.2, hroom⟩⟩

theorem sysPageUnmap_contract (hsys : call.sys = .pageUnmap)
    (hrun : sysPageUnmap s cur call.a1 call.a2 = some (ret, s')) :
    Contract s cur call ret := by
  have hlist : documented s cur call =
      [(-eBadEnv, envid2env s cur call.a1 true = none), (-eInval, Misplaced call.a2)] := by
    rw [documented, hsys]
  unfold sysPageUnmap at hrun
  split at hrun
  case isTrue hva =>
    cases hrun
    exact contract_of_error isError_inval 1 (by rw [hlist]; rfl) hva
  case isFalse hva =>
    split at hrun
    case h_1 hfound =>
      cases hrun
      exact contract_of_error isError_badEnv 0 (by rw [hlist]; rfl) hfound
    case h_2 e hfound =>
      simp only [Option.bind_eq_bind, Option.bind_eq_some_iff] at hrun
      obtain ⟨dir, -, σ, -, hrun⟩ := hrun
      cases hrun
      rw [contract_zero_iff, hlist]
      simp only [List.forall_mem_cons, List.not_mem_nil, false_imp_iff, implies_true, and_true,
        hfound, reduceCtorEq, not_false_eq_true, true_and]
      exact hva

theorem sysPageMap_contract (hsys : call.sys = .pageMap)
    (hrun : sysPageMap s cur call.a1 call.a2 call.a3 call.a4 call.a5 = some (ret, s')) :
    Contract s cur call ret ↔ ChecksSuffice s cur call := by
  have hlist : documented s cur call =
      [(-eBadEnv, envid2env s cur call.a1 true = none ∨ envid2env s cur call.a3 true = none),
        (-eInval, Misplaced call.a2 ∨ Misplaced call.a4),
        (-eInval, ∃ e, envid2env s cur call.a1 true = some e ∧ Unmapped s e call.a2),
        (-eInval, ¬ PermAllowed call.a5),
        (-eInval, ∃ e, envid2env s cur call.a1 true = some e ∧ Amplifies s e call.a2 call.a5),
        (-eNoMem, ∃ e, envid2env s cur call.a3 true = some e ∧ NoTableFor s e call.a4)] := by
    rw [documented, hsys]
  have hsuffice : ChecksSuffice s cur call =
      (MapPasses s cur call → call.a5 &&& ~~~pteSyscall = 0) := by
    rw [ChecksSuffice, hsys]
  rw [hsuffice]
  unfold sysPageMap at hrun
  cases hsrc : envid2env s cur call.a1 true with
  | none =>
    simp only [hsrc] at hrun
    cases hrun
    apply iff_of_true
    · exact contract_of_error isError_badEnv 0 (by rw [hlist]; rfl) (Or.inl hsrc)
    · rintro ⟨se, -, hsome, -⟩
      rw [hsrc] at hsome
      cases hsome
  | some se =>
    cases hdst : envid2env s cur call.a3 true with
    | none =>
      simp only [hsrc, hdst] at hrun
      cases hrun
      apply iff_of_true
      · exact contract_of_error isError_badEnv 0 (by rw [hlist]; rfl) (Or.inr hdst)
      · rintro ⟨-, de, -, hsome, -⟩
        rw [hdst] at hsome
        cases hsome
    | some de =>
      simp only [hsrc, hdst] at hrun
      -- what the tests amount to for these two environments
      have hpasses : MapPasses s cur call ↔ ¬ Misplaced call.a2 ∧ ¬ Misplaced call.a4 ∧
          ¬ Unmapped s se call.a2 ∧ permOk call.a5 ∧ ¬ Amplifies s se call.a2 call.a5 ∧
            ¬ NoTableFor s de call.a4 := by
        constructor
        · rintro ⟨se', de', hse, hde, hrest⟩
          rw [hsrc] at hse
          rw [hdst] at hde
          cases hse
          cases hde
          exact hrest
        · intro hrest
          exact ⟨se, de, hsrc, hdst, hrest⟩
      rw [hpasses]
      split at hrun
      case isTrue hva =>
        cases hrun
        have hmisplaced : Misplaced call.a2 ∨ Misplaced call.a4 := by
          rcases hva with h | h | h | h
          · exact Or.inl (Or.inl h)
          · exact Or.inr (Or.inl h)
          · exact Or.inl (Or.inr h)
          · exact Or.inr (Or.inr h)
        apply iff_of_true
        · exact contract_of_error isError_inval 1 (by rw [hlist]; rfl) hmisplaced
        · rintro ⟨hfirst, hsecond, -⟩
          exact absurd hmisplaced (not_or.mpr ⟨hfirst, hsecond⟩)
      case isFalse hva =>
        simp only [not_or] at hva
        have hplaced : ¬ Misplaced call.a2 ∧ ¬ Misplaced call.a4 :=
          ⟨not_or.mpr ⟨hva.1, hva.2.2.1⟩, not_or.mpr ⟨hva.2.1, hva.2.2.2⟩⟩
        simp only [Option.bind_eq_bind, Option.bind_eq_some_iff] at hrun
        obtain ⟨srcdir, hsrcdir, found, hlookup, hrun⟩ := hrun
        have hunmapped := unmapped_iff hsrcdir hlookup
        cases found with
        | none =>
          cases hrun
          apply iff_of_true
          · refine contract_of_error isError_inval 2 (by rw [hlist]; rfl) ?_
            exact ⟨se, hsrc, hunmapped.mpr rfl⟩
          · rintro ⟨-, -, hmapped, -⟩
            exact absurd (hunmapped.mpr rfl) hmapped
        | some place =>
          obtain ⟨pg, table, index⟩ := place
          have hamplifies : Amplifies s se call.a2 call.a5 ↔ _ := amplifies_iff hsrcdir hlookup
          dsimp only at hrun
          split at hrun
          case isTrue hperm =>
            cases hrun
            apply iff_of_true
            · refine contract_of_error isError_inval 3 (by rw [hlist]; rfl) ?_
              exact fun hallowed => hperm hallowed.1
            · rintro ⟨-, -, -, hok, -⟩
              exact absurd hok hperm
          case isFalse hperm =>
            rw [not_not] at hperm
            split at hrun
            case isTrue hwrite =>
              cases hrun
              apply iff_of_true
              · refine contract_of_error isError_inval 4 (by rw [hlist]; rfl) ?_
                exact ⟨se, hsrc, hamplifies.mpr hwrite.symm⟩
              · rintro ⟨-, -, -, -, hweak, -⟩
                exact absurd (hamplifies.mpr hwrite.symm) hweak
            case isFalse hwrite =>
              simp only [Option.bind_eq_some_iff] at hrun
              obtain ⟨dstdir, hdstdir, ⟨code, σ⟩, hinsert, hrun⟩ := hrun
              have hnoTable : NoTableFor s de call.a4 ↔ _ := noTableFor_iff hdstdir
              cases hrun
              rcases pageInsert_code hinsert with ⟨rfl, htable⟩ | ⟨rfl, htable⟩
              · apply iff_of_true
                · refine contract_of_error isError_noMem 5 (by rw [hlist]; rfl) ?_
                  exact ⟨de, hdst, hnoTable.mpr htable⟩
                · rintro ⟨-, -, -, -, -, hroom⟩
                  exact absurd (hnoTable.mpr htable) hroom
              · have hweak : ¬ Amplifies s se call.a2 call.a5 :=
                  fun h => hwrite (hamplifies.mp h).symm
                have hmapped : ¬ Unmapped s se call.a2 := fun h => by cases hunmapped.mp h
                have hroom : ¬ NoTableFor s de call.a4 := fun h => htable (hnoTable.mp h)
                rw [contract_zero_iff, hlist]
                simp [hsrc, hdst, hplaced, hmapped, hweak, hroom, PermAllowed, permOk, hperm]

theorem sysIpcTrySend_contract (hsys : call.sys = .ipcTrySend)
    (hrun : sysIpcTrySend s cur call.a1 call.a2 call.a3 call.a4 = some (ret, s')) :
    Contract s cur call ret ↔ ChecksSuffice s cur call := by
  have hlist : documented s cur call =
      [(-eBadEnv, envid2env s cur call.a1 false = none),
        (-eIpcNotRecv, ∃ e, envid2env s cur call.a1 false = some e ∧
          (s.envs e).ipcRecving = false),
        (-eInval, call.a3 < utop ∧ roundDown call.a3 ≠ call.a3),
        (-eInval, call.a3 < utop ∧ ¬ PermAllowed call.a4),
        (-eInval, call.a3 < utop ∧ Unmapped s cur call.a3),
        (-eInval, call.a3 < utop ∧ Amplifies s cur call.a3 call.a4),
        (-eNoMem, ∃ e, envid2env s cur call.a1 false = some e ∧ call.a3 < utop ∧
          (s.envs e).ipcDstva < utop ∧ NoTableFor s e (s.envs e).ipcDstva)] := by
    rw [documented, hsys]
  have hsuffice : ChecksSuffice s cur call =
      ∀ e pte, SendReaches s cur e call pte →
        (pte &&& call.a4 ≠ call.a4 → ¬ PermAllowed call.a4) ∧
          (pte &&& call.a4 = call.a4 → PermAllowed call.a4 ∨
            (s.envs e).ipcDstva < utop ∧ NoTableFor s e (s.envs e).ipcDstva) := by
    rw [ChecksSuffice, hsys]
  rw [hsuffice]
  unfold sysIpcTrySend at hrun
  cases hfound : envid2env s cur call.a1 false with
  | none =>
    simp only [hfound] at hrun
    cases hrun
    apply iff_of_true
    · exact contract_of_error isError_badEnv 0 (by rw [hlist]; rfl) hfound
    · rintro e pte ⟨hsome, -⟩
      rw [hfound] at hsome
      cases hsome
  | some e =>
    simp only [hfound] at hrun
    -- the condition is about this receiver
    have hreaches : ∀ k pte, SendReaches s cur k call pte → k = e ∧
        (s.envs e).ipcRecving = true ∧ call.a3 < utop ∧ roundDown call.a3 = call.a3 ∧
          MappedBy s cur call.a3 pte ∧ ¬ Amplifies s cur call.a3 call.a4 := by
      rintro k pte ⟨hsome, hrest⟩
      rw [hfound] at hsome
      cases hsome
      exact ⟨rfl, hrest⟩
    split at hrun
    case isTrue hrecv =>
      cases hrun
      apply iff_of_true
      · refine contract_of_error isError_ipcNotRecv 1 (by rw [hlist]; rfl) ?_
        exact ⟨e, hfound, hrecv⟩
      · intro k pte hsend
        have hrecving := (hreaches k pte hsend).2.1
        rw [hrecv] at hrecving
        cases hrecving
    case isFalse hrecv =>
      split at hrun
      case isFalse hva =>
        cases hrun
        apply iff_of_true
        · rw [contract_zero_iff, hlist]
          simp [hfound, hrecv, hva]
        · intro k pte hsend
          exact absurd (hreaches k pte hsend).2.2.1 hva
      case isTrue hva =>
        simp only [Option.bind_eq_bind, Option.bind_eq_some_iff] at hrun
        obtain ⟨srcdir, hsrcdir, found, hlookup, hrun⟩ := hrun
        have hunmapped := unmapped_iff hsrcdir hlookup
        cases found with
        | none =>
          cases hrun
          apply iff_of_true
          · refine contract_of_error isError_inval 4 (by rw [hlist]; rfl) ?_
            exact ⟨hva, hunmapped.mpr rfl⟩
          · intro k pte hsend
            obtain ⟨dir, pg, table, index, hdir, hsome, -⟩ := (hreaches k pte hsend).2.2.2.2.1
            rw [hsrcdir] at hdir
            cases hdir
            rw [hlookup] at hsome
            cases hsome
        | some place =>
          obtain ⟨pg, table, index⟩ := place
          have hamplifies : Amplifies s cur call.a3 call.a4 ↔ _ := amplifies_iff hsrcdir hlookup
          have hmappedBy : ∀ pte, MappedBy s cur call.a3 pte ↔ s.phys.load table index = pte :=
            fun _ => mappedBy_iff hsrcdir hlookup
          dsimp only at hrun
          split at hrun
          case isTrue hpart =>
            cases hrun
            constructor
            · intro hcontract k pte hsend
              obtain ⟨rfl, -, -, haligned, hmapped, hweak⟩ := hreaches k pte hsend
              rw [hmappedBy] at hmapped
              rw [← hmapped]
              refine ⟨fun _ hallowed => ?_, fun hall => absurd hall hpart⟩
              -- with these permissions allowed, nothing documents the error
              obtain ⟨entry, hentry, hcode, hcond⟩ := hcontract.code isError_inval
              rw [hlist] at hentry
              simp only [List.mem_cons, List.not_mem_nil, or_false] at hentry
              rcases hentry with rfl | rfl | rfl | rfl | rfl | rfl | rfl
              · cases (show -eBadEnv ≠ -eInval by decide) hcode
              · cases (show -eIpcNotRecv ≠ -eInval by decide) hcode
              · exact hcond.2 haligned
              · exact hcond.2 hallowed
              · cases hunmapped.mp hcond.2
              · exact hweak hcond.2
              · cases (show -eNoMem ≠ -eInval by decide) hcode
            · intro hsuffices
              by_cases haligned : roundDown call.a3 = call.a3
              · by_cases hweak : Amplifies s cur call.a3 call.a4
                · refine contract_of_error isError_inval 5 (by rw [hlist]; rfl) ?_
                  exact ⟨hva, hweak⟩
                · have hrecving : (s.envs e).ipcRecving = true := by simpa using hrecv
                  have hsend : SendReaches s cur e call (s.phys.load table index) :=
                    ⟨hfound, hrecving, hva, haligned, (hmappedBy _).mpr rfl, hweak⟩
                  have hperm := (hsuffices e _ hsend).1 hpart
                  refine contract_of_error isError_inval 3 (by rw [hlist]; rfl) ?_
                  exact ⟨hva, hperm⟩
              · refine contract_of_error isError_inval 2 (by rw [hlist]; rfl) ?_
                exact ⟨hva, haligned⟩
          case isFalse hpart =>
            rw [not_not] at hpart
            split at hrun
            case isTrue hwrite =>
              cases hrun
              have hweak := hamplifies.mpr hwrite
              apply iff_of_true
              · refine contract_of_error isError_inval 5 (by rw [hlist]; rfl) ?_
                exact ⟨hva, hweak⟩
              · intro k pte hsend
                exact absurd hweak (hreaches k pte hsend).2.2.2.2.2
            case isFalse hwrite =>
              split at hrun
              case isTrue haligned =>
                cases hrun
                apply iff_of_true
                · refine contract_of_error isError_inval 2 (by rw [hlist]; rfl) ?_
                  exact ⟨hva, haligned.symm⟩
                · intro k pte hsend
                  exact absurd (hreaches k pte hsend).2.2.2.1.symm haligned
              case isFalse haligned =>
                rw [not_not] at haligned
                have hrecving : (s.envs e).ipcRecving = true := by simpa using hrecv
                have hweak : ¬ Amplifies s cur call.a3 call.a4 :=
                  fun h => hwrite (hamplifies.mp h)
                have hsend : SendReaches s cur e call (s.phys.load table index) :=
                  ⟨hfound, hrecving, hva, haligned.symm, (hmappedBy _).mpr rfl, hweak⟩
                have hmapped : ¬ Unmapped s cur call.a3 := fun h => by cases hunmapped.mp h
                -- on success the permissions alone decide
                have hsuccess : ¬ ((s.envs e).ipcDstva < utop ∧
                      NoTableFor s e (s.envs e).ipcDstva) →
                    (Contract s cur call 0 ↔
                      ∀ k pte, SendReaches s cur k call pte →
                        (pte &&& call.a4 ≠ call.a4 → ¬ PermAllowed call.a4) ∧
                          (pte &&& call.a4 = call.a4 → PermAllowed call.a4 ∨
                            (s.envs k).ipcDstva < utop ∧
                              NoTableFor s k (s.envs k).ipcDstva)) := by
                  intro hroom
                  rw [contract_zero_iff, hlist]
                  constructor
                  · intro hnone k pte hreach
                    obtain ⟨rfl, -, -, -, hpte, -⟩ := hreaches k pte hreach
                    rw [hmappedBy] at hpte
                    rw [← hpte]
                    refine ⟨fun hne => absurd hpart hne, fun _ => Or.inl ?_⟩
                    by_contra hperm
                    exact hnone (-eInval, call.a3 < utop ∧ ¬ PermAllowed call.a4) (by simp)
                      ⟨hva, hperm⟩
                  · intro hsuffices
                    have hperm : PermAllowed call.a4 :=
                      ((hsuffices e _ hsend).2 hpart).resolve_right hroom
                    simp [hfound, hrecving, haligned.symm, hperm, hmapped, hweak, hva, hroom]
                split at hrun
                case isTrue hdstva =>
                  simp only [Option.bind_eq_some_iff] at hrun
                  obtain ⟨dstdir, hdstdir, ⟨code, σ⟩, hinsert, hrun⟩ := hrun
                  have hnoTable : NoTableFor s e (s.envs e).ipcDstva ↔ _ :=
                    noTableFor_iff hdstdir
                  rcases pageInsert_code hinsert with ⟨rfl, htable⟩ | ⟨rfl, htable⟩
                  · rw [if_pos (show (-eNoMem : Word) ≠ 0 by decide)] at hrun
                    cases hrun
                    have hroom := hnoTable.mpr htable
                    apply iff_of_true
                    · refine contract_of_error isError_noMem 6 (by rw [hlist]; rfl) ?_
                      exact ⟨e, hfound, hva, hdstva, hroom⟩
                    · intro k pte hreach
                      obtain ⟨rfl, -, -, -, hpte, -⟩ := hreaches k pte hreach
                      rw [hmappedBy] at hpte
                      rw [← hpte]
                      exact ⟨fun hne => absurd hpart hne, fun _ => Or.inr ⟨hdstva, hroom⟩⟩
                  · rw [if_neg (not_not.mpr rfl)] at hrun
                    cases hrun
                    exact hsuccess fun h => htable (hnoTable.mp h.2)
                case isFalse hdstva =>
                  cases hrun
                  exact hsuccess fun h => hdstva h.1

/-- `sys_env_destroy` fails without saying so. -/
theorem envDestroy_contract (hsys : call.sys = .envDestroy) :
    Contract s cur call 0 ↔ ChecksSuffice s cur call := by
  have hlist : documented s cur call = [(-eBadEnv, envid2env s cur call.a1 true = none)] := by
    rw [documented, hsys]
  have hsuffice : ChecksSuffice s cur call = (envid2env s cur call.a1 true ≠ none) := by
    rw [ChecksSuffice, hsys]
  rw [contract_zero_iff, hlist, hsuffice]
  simp

end Handlers

/-- A call keeps its contract exactly when its checks amount to what its comment
says. -/
theorem syscall_contract_iff {s s' : Kernel} {c : ℕ} {cur : Slot}
    {key syscallno a1 a2 a3 a4 a5 ret : Word} {sys : Sys}
    (hdecode : Sys.decode syscallno = some sys) (hcontracted : sys.contracted)
    (hcall : syscall s c cur key syscallno a1 a2 a3 a4 a5 = some (.ret ret s')) :
    Contract s cur ⟨sys, a1, a2, a3, a4, a5⟩ ret ↔
      ChecksSuffice s cur ⟨sys, a1, a2, a3, a4, a5⟩ := by
  unfold syscall at hcall
  rw [hdecode] at hcall
  cases sys with
  | envDestroy =>
    simp only [Option.bind_eq_bind, Option.bind_eq_some_iff] at hcall
    obtain ⟨exit, -, hcall⟩ := hcall
    cases exit with
    | ret result final =>
      cases hcall
      exact envDestroy_contract rfl
    | left final => cases hcall
  | pageAlloc => exact sysPageAlloc_contract rfl (bind_returns hcall)
  | pageMap => exact sysPageMap_contract rfl (bind_returns hcall)
  | pageUnmap =>
    apply iff_of_true
    · exact sysPageUnmap_contract rfl (bind_returns hcall)
    · exact trivial
  | ipcTrySend => exact sysIpcTrySend_contract rfl (bind_returns hcall)
  | _ => exact absurd hcontracted id

/-! ## A call that fails silently -/

/-- One environment, in slot 0, runs on CPU 0; nothing else exists. -/
def loneKernel : Kernel where
  phys :=
    { npages := 0x400, pages := fun _ => ⟨none, 0⟩, pageFreeList := none, mem := fun _ _ => 0,
      mmuBits := fun _ _ => 0 }
  kernPgdir := 0x200
  envs := fun e =>
    if e = envx 0x1000 then { Env.zero with id := 0x1000, status := .running } else Env.zero
  envFreeList := some (envx 0x1001)
  cpus := fun _ => ⟨.started, some (envx 0x1000), 0x200⟩

/-- `sys_env_destroy` of an environment that does not exist. -/
theorem loneKernel_destroy :
    syscall loneKernel 0 (envx 0x1000) 0 3 0x1001 0 0 0 0 = some (.ret 0 loneKernel) := rfl

theorem loneKernel_badEnv : envid2env loneKernel (envx 0x1000) 0x1001 true = none := rfl

theorem destroy_contract_lone :
    Contract loneKernel (envx 0x1000) ⟨.envDestroy, 0x1001, 0, 0, 0, 0⟩ 0 ↔
      ChecksSuffice loneKernel (envx 0x1000) ⟨.envDestroy, 0x1001, 0, 0, 0, 0⟩ :=
  syscall_contract_iff rfl trivial loneKernel_destroy

theorem destroy_breaks_contract :
    ∃ ret s', syscall loneKernel 0 (envx 0x1000) 0 3 0x1001 0 0 0 0 = some (.ret ret s') ∧
      ¬ Contract loneKernel (envx 0x1000) ⟨.envDestroy, 0x1001, 0, 0, 0, 0⟩ ret := by
  refine ⟨0, loneKernel, loneKernel_destroy, fun hcontract => ?_⟩
  have hnone := contract_zero_iff.mp hcontract
  exact hnone (-eBadEnv, envid2env loneKernel (envx 0x1000) 0x1001 true = none)
    (List.mem_singleton.mpr rfl) loneKernel_badEnv

end OsLabs.Jos
