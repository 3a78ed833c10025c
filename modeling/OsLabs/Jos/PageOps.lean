import OsLabs.Jos.Primitives

/-!
# Sequences of page table operations

Any sequence of insertions and removals over a family of page directories
whose user halves start empty.  The free list, the reference counters and the
two-level tables stay consistent, and a lookup finds what was inserted last.
-/

namespace OsLabs.Jos

open Function
open OsLabs.IntrusiveList
open OsLabs.RefLedger

variable {ι : Type}

/-- The operations, at a directory and an address; the flags are the low 12
bits of an entry. -/
inductive PageOp (ι : Type)
  /-- `page_alloc`, then `page_insert`, with `page_free` if that fails -/
  | allocInsert (i : ι) (va : Word) (allocZero : Bool) (perm : BitVec 12)
  /-- `page_insert` of the page that is mapped at another place -/
  | insertMapped (i : ι) (va : Word) (source : ι) (sourceVa : Word) (perm : BitVec 12)
  | remove (i : ι) (va : Word)

/-- The addresses of an operation lie below `UTOP`. -/
def PageOp.InUser : PageOp ι → Prop
  | .allocInsert _ va _ _ => va < utop
  | .insertMapped _ va _ sourceVa _ => va < utop ∧ sourceVa < utop
  | .remove _ va => va < utop

/-- A mapping that was made (`page` is the page inserted) or removed. -/
structure MapEvent (ι : Type) where
  space : ι
  va : Word
  page : Option ℕ

/-- One operation; a failed one is no event. -/
def runOp (dir : ι → ℕ) (σ : Phys) : PageOp ι → Option (Option (MapEvent ι) × Phys)
  | .allocInsert i va allocZero perm =>
      match pageAlloc σ allocZero with
      | (none, σ) => some (none, σ)
      | (some pp, σ) => do
          let (ret, σ) ← pageInsert σ (dir i) pp va (perm.setWidth 32)
          if ret ≠ 0 then return (none, pageFree σ pp)
          else return (some ⟨i, va, some pp⟩, σ)
  | .insertMapped i va source sourceVa perm => do
      match ← pageLookup σ (dir source) sourceVa with
      | none => return (none, σ)
      | some (pp, _) =>
          let (ret, σ) ← pageInsert σ (dir i) pp va (perm.setWidth 32)
          return (if ret ≠ 0 then none else some ⟨i, va, some pp⟩, σ)
  | .remove i va => do
      let σ ← pageRemove σ (dir i) va
      return (some ⟨i, va, none⟩, σ)

/-- A sequence of operations, the latest first, and its events, the latest
first. -/
def runOps (dir : ι → ℕ) (σ : Phys) : List (PageOp ι) → Option (List (MapEvent ι) × Phys)
  | [] => some ([], σ)
  | op :: earlier => do
      let (history, σ) ← runOps dir σ earlier
      let (event, σ) ← runOp dir σ op
      return (event.toList ++ history, σ)

variable [Fintype ι] [DecidableEq ι]

/-- The page of the last insertion on the page of `va` that no removal
followed. -/
def lastMapping : List (MapEvent ι) → ι → Word → Option ℕ
  | [], _, _ => none
  | event :: older, i, va =>
      if event.space = i ∧ pgnum event.va = pgnum va then event.page
      else lastMapping older i va

/-- All the directories. -/
abbrev allDirs (dir : ι → ℕ) : ι → Option ℕ := fun i => some (dir i)

/-- The number of directory and table entries that point to a page. -/
def references (dir : ι → ℕ) (σ : Phys) (pp : ℕ) : ℕ :=
  refs (userKeys ι) (tableSlot σ (allDirs dir)) pp

/-- The starting point: directories with empty user halves, and unreferenced
pages on the free list. -/
structure EmptySpaces (dir : ι → ℕ) (σ : Phys) (free : List ℕ) : Prop where
  threads : Threads σ.link σ.pageFreeList free
  free_lt : ∀ pp ∈ free, pp < σ.npages
  npages_le : σ.npages ≤ 2 ^ 20
  ref_zero : ∀ pp ∈ free, σ.ref pp = 0
  dir_inj : Injective dir
  dir_not_free : ∀ i, dir i ∉ free
  user_empty : ∀ i, ∀ d < userPdes, σ.mem (dir i) d &&& pteP = 0

/-- The representation is consistent, for the pages of `pool`. -/
structure Consistent (dir : ι → ℕ) (pool : List ℕ) (σ : Phys) (free : List ℕ) : Prop where
  threads : Threads σ.link σ.pageFreeList free
  free_nodup : free.Nodup
  free_unmapped : ∀ pp ∈ free, ∀ key ∈ userKeys ι, tableSlot σ (allDirs dir) key ≠ some pp
  count_exact : ∀ pp ∈ pool, (σ.ref pp).toNat = references dir σ pp
  not_lost : ∀ pp ∈ pool, pp ∈ free ∨ 0 < references dir σ pp

/-- What a sequence of operations keeps. -/
structure OpsInvariant (dir : ι → ℕ) (pool : List ℕ) (σ : Phys) (free : List ℕ)
    (last : ι → Word → Option ℕ) : Prop where
  paged : Paged {pp | pp ∈ pool} (allDirs dir) σ free none 0
  mapped : ∀ i va, va < utop → tableSlot σ (allDirs dir) (pteKey i va) = last i va

/-- Nothing is mapped in empty spaces. -/
theorem EmptySpaces.tableSlot_none {dir : ι → ℕ} {σ : Phys} {free : List ℕ}
    (hinit : EmptySpaces dir σ free) :
    ∀ key ∈ userKeys ι, tableSlot σ (allDirs dir) key = none := by
  have hpde : ∀ i d, d < userPdes → tableSlot σ (allDirs dir) (.pde i d) = none := by
    intro i d hd
    have hdir : allDirs dir i = some (dir i) := rfl
    rw [tableSlot, wordAt_pde hdir, entryPage_eq_none]
    exact hinit.user_empty i d hd
  intro key hkey
  cases key with
  | pde i d => exact hpde i d (pde_mem_userKeys.mp hkey)
  | pte i d t =>
      rw [tableSlot, wordAt_pte_none (hpde i d (pte_mem_userKeys.mp hkey).1), entryPage_zero]

theorem EmptySpaces.invariant {dir : ι → ℕ} {σ : Phys} {free : List ℕ}
    (hinit : EmptySpaces dir σ free) :
    OpsInvariant dir free σ free (lastMapping []) := by
  have hnone := hinit.tableSlot_none
  have hrefs : ∀ pp, refs (userKeys ι) (tableSlot σ (allDirs dir)) pp = 0 := fun pp =>
    refs_eq_zero_iff.mpr fun key hkey => by rw [hnone key hkey]; simp
  refine ⟨?_, fun i va hva => by rw [hnone _ (pteKey_mem hva i)]; rfl⟩
  exact
    { threads := hinit.threads
      balanced :=
        { free_nodup := hinit.threads.nodup
          free_mem := fun pp hpp => hpp
          slot_mem := fun key hkey pp hslot => by rw [hnone key hkey] at hslot; cases hslot
          count_eq := fun pp hpp => by rw [hinit.ref_zero pp hpp, hrefs]; rfl
          free_unref := fun pp _ => hrefs pp
          not_lost := fun pp hpp hfree => absurd hpp hfree
          held_mem := by simp }
      exclusive :=
        { dir_inj := fun i j pp hi hj =>
            hinit.dir_inj ((Option.some.inj hi).trans (Option.some.inj hj).symm)
          dir_unref := fun i pp _ key hkey => by rw [hnone key hkey]; simp
          table_unique := fun i d table hd htable => by
            rw [hnone _ (pde_mem_userKeys.mpr hd)] at htable
            cases htable }
      dir_busy := fun i pp hpp => ⟨Option.some.inj hpp ▸ hinit.dir_not_free i, by simp⟩
      pool_lt := hinit.free_lt
      npages_le := hinit.npages_le }

/-- The bound under which the counters do not wrap. -/
def CountersFit (dir : ι → ℕ) (σ : Phys) : Prop := ∀ pp, references dir σ pp < 2 ^ 16

namespace OpsInvariant

variable {dir : ι → ℕ} {pool : List ℕ} {σ : Phys} {free : List ℕ}
variable {last : ι → Word → Option ℕ}

/-- The mappings after an event. -/
def remember (event : MapEvent ι) (last : ι → Word → Option ℕ) (i : ι) (va : Word) : Option ℕ :=
  if event.space = i ∧ pgnum event.va = pgnum va then event.page else last i va

omit [Fintype ι] in
/-- A changed entry is a changed mapping. -/
theorem mapped_update {σ' : Phys} {i : ι} {va entry : Word}
    (hmapped : ∀ i va, va < utop → tableSlot σ (allDirs dir) (pteKey i va) = last i va)
    (hwords : ∀ j d t, d < userPdes → t < nptEntries →
      wordAt σ' (allDirs dir) (.pte j d t) =
        update (wordAt σ (allDirs dir)) (pteKey i va) entry (.pte j d t)) :
    ∀ j vb, vb < utop → tableSlot σ' (allDirs dir) (pteKey j vb) =
      remember ⟨i, va, entryPage entry⟩ last j vb := by
  intro j vb hvb
  have hslot : tableSlot σ' (allDirs dir) (pteKey j vb) =
      update (tableSlot σ (allDirs dir)) (pteKey i va) (entryPage entry) (pteKey j vb) :=
    tableSlot_update (hwords j _ _ (pdx_lt_userPdes hvb) (ptx_lt vb))
  rw [hslot]
  by_cases hsame : pteKey j vb = pteKey i va
  · obtain ⟨hspace, hpage⟩ := pteKey_eq_iff.mp hsame
    rw [hsame, update_self, remember, if_pos ⟨hspace.symm, hpage.symm⟩]
  · have hother : ¬ (i = j ∧ pgnum va = pgnum vb) := fun h =>
      hsame (pteKey_eq_iff.mpr ⟨h.1.symm, h.2.symm⟩)
    rw [update_of_ne hsame, remember, if_neg hother, hmapped j vb hvb]

/-- `page_insert`, of a page in hand or of a page that is mapped. -/
theorem insert_step {held : Option ℕ} (hpaged : Paged {pp | pp ∈ pool} (allDirs dir) σ free held 0)
    (hmapped : ∀ i va, va < utop → tableSlot σ (allDirs dir) (pteKey i va) = last i va)
    (hfit : CountersFit dir σ) {i : ι} {va : Word} (hva : va < utop) {pp : ℕ}
    (perm : BitVec 12) (hpool : pp ∈ pool) (hfree : pp ∉ free)
    (hnot : NotTable σ (allDirs dir) pp)
    (hheld : ∀ other, held = some other →
      other = pp ∧ tableSlot σ (allDirs dir) (pteKey i va) ≠ some other) :
    (free = [] ∧ pageInsert σ (dir i) pp va (perm.setWidth 32) = some (-eNoMem, σ)) ∨
    ∃ σ' free', pageInsert σ (dir i) pp va (perm.setWidth 32) = some (0, σ') ∧
      OpsInvariant dir pool σ' free' (remember ⟨i, va, some pp⟩ last) ∧
      ∀ page, references dir σ' page ≤ references dir σ page + 2 := by
  have hlt := lt_of_lt_of_le (hpaged.pool_lt pp hpool) hpaged.npages_le
  have hentry : entryPage (page2pa pp ||| perm.setWidth 32 ||| pteP) = some pp :=
    entryPage_entry hlt (pteAddr_page2pa_or (pteAddr_setWidth perm))
  have hdir : allDirs dir i = some (dir i) := rfl
  rcases pageInsert_spec hpaged hdir hva hpool hfree hnot hentry (fun old _ => hfit old) hheld
    with ⟨-, hempty, hresult⟩ | ⟨σ', free', hresult, hinserted⟩
  · exact Or.inl ⟨hempty, hresult⟩
  · have hview := mapped_update hmapped hinserted.ptes
    rw [hentry] at hview
    exact Or.inr ⟨σ', free', hresult, ⟨hinserted.paged, hview⟩, hinserted.refs_le⟩

/-- `page_remove`. -/
theorem remove_step (hinv : OpsInvariant dir pool σ free last) (hfit : CountersFit dir σ)
    {i : ι} {va : Word} (hva : va < utop) :
    ∃ σ' free', pageRemove σ (dir i) va = some σ' ∧
      OpsInvariant dir pool σ' free' (remember ⟨i, va, none⟩ last) ∧
      ∀ page, references dir σ' page ≤ references dir σ page + 2 := by
  have hdir : allDirs dir i = some (dir i) := rfl
  cases hslot : tableSlot σ (allDirs dir) (pteKey i va) with
  | none =>
      refine ⟨σ, free, pageRemove_none hinv.paged hdir hva hslot, ⟨hinv.paged,
        fun j vb hvb => ?_⟩, fun page => Nat.le_add_right _ _⟩
      by_cases hsame : i = j ∧ pgnum va = pgnum vb
      · rw [remember, if_pos hsame, ← pteKey_eq_iff.mpr hsame, hslot]
      · rw [remember, if_neg hsame, hinv.mapped j vb hvb]
  | some old =>
      obtain ⟨table, htable⟩ := table_of_pte hslot
      have hwords := hinv.paged.wordAt_removed hva htable old 0
      have hview := mapped_update hinv.mapped fun j d t hd ht =>
        hwords _ (pte_mem_userKeys.mpr ⟨hd, ht⟩)
      rw [entryPage_zero] at hview
      refine ⟨_, _, pageRemove_some hinv.paged hdir hva htable hslot,
        ⟨hinv.paged.removed hva htable hslot (by simp) (hfit old).le, hview⟩, fun page => ?_⟩
      refine (refs_le_add_card {pteKey i va} page fun key hkey hother => ?_).trans
        (Nat.add_le_add_left (Nat.le_succ_of_le (Finset.card_singleton (pteKey i va)).le) _)
      rw [Finset.mem_singleton] at hother
      rw [tableSlot_update (hwords key hkey), update_of_ne hother]

/-- `page_alloc` and `page_insert`: when the insertion fails the page goes
back and nothing has changed for the mappings. -/
theorem allocInsert_step (hinv : OpsInvariant dir pool σ free last) (hfit : CountersFit dir σ)
    {i : ι} {va : Word} (hva : va < utop) (allocZero : Bool) (perm : BitVec 12) :
    ∃ event σ' free', runOp dir σ (.allocInsert i va allocZero perm) = some (event, σ') ∧
      OpsInvariant dir pool σ' free' (event.elim last (remember · last)) ∧
      ∀ page, references dir σ' page ≤ references dir σ page + 2 := by
  cases free with
  | nil =>
      exact ⟨none, σ, [], by simp [runOp, pageAlloc_nil hinv.paged], hinv,
        fun page => Nat.le_add_right _ _⟩
  | cons pg free =>
      have htaken := hinv.paged.taken allocZero
      have hslots := hinv.paged.tableSlot_takePage allocZero
      have hpool := hinv.paged.balanced.free_mem pg List.mem_cons_self
      have hfree := (List.nodup_cons.mp hinv.paged.balanced.free_nodup).1
      have hunref := refs_eq_zero_iff.mp
        (hinv.paged.balanced.free_unref pg List.mem_cons_self)
      have hdirs := (hinv.paged.free_notTable (show pg ∈ pg :: free from List.mem_cons_self)).1
      have hunref' : ∀ key ∈ userKeys ι,
          tableSlot (takePage σ pg allocZero) (allDirs dir) key ≠ some pg := fun key hkey => by
        rw [hslots key hkey]
        exact hunref key hkey
      have hrefs : references dir (takePage σ pg allocZero) = references dir σ :=
        funext fun page => refs_congr hslots
      have hmapped : ∀ j vb, vb < utop →
          tableSlot (takePage σ pg allocZero) (allDirs dir) (pteKey j vb) = last j vb :=
        fun j vb hvb => by rw [hslots _ (pteKey_mem hvb j), hinv.mapped j vb hvb]
      rcases insert_step htaken hmapped (fun page => by rw [hrefs]; exact hfit page) hva perm
        hpool hfree ⟨hdirs, fun j d hd => hunref' _ (pde_mem_userKeys.mpr hd)⟩
        (fun other hother => by
          cases hother
          exact ⟨rfl, hunref' _ (pteKey_mem hva i)⟩)
        with ⟨rfl, hresult⟩ | ⟨σ', free', hresult, hnext, hgrow⟩
      · have hrun : runOp dir σ (.allocInsert i va allocZero perm) =
            some (none, pageFree (takePage σ pg allocZero) pg) := by
          simp only [runOp, pageAlloc_cons hinv.paged, hresult, Option.bind_eq_bind,
            Option.bind_some]
          rfl
        have hsame := tableSlot_congr_mem (mem_pageFree (takePage σ pg allocZero) pg) (allDirs dir)
        refine ⟨none, _, [pg], hrun, ⟨htaken.freed hpool hfree
          (fun other hother => (Option.some.inj hother).symm) hdirs hunref',
          fun j vb hvb => ?_⟩, fun page => ?_⟩
        · rw [hsame]
          exact hmapped j vb hvb
        · rw [references, hsame, ← references, hrefs]
          exact Nat.le_add_right _ _
      · have hrun : runOp dir σ (.allocInsert i va allocZero perm) =
            some (some ⟨i, va, some pg⟩, σ') := by
          simp only [runOp, pageAlloc_cons hinv.paged, hresult, Option.bind_eq_bind,
            Option.bind_some]
          rfl
        exact ⟨_, σ', free', hrun, hnext, fun page => by rw [← hrefs]; exact hgrow page⟩

/-- `page_insert` of a page found by `page_lookup`. -/
theorem insertMapped_step (hinv : OpsInvariant dir pool σ free last)
    (hfit : CountersFit dir σ) {i source : ι} {va sourceVa : Word} (hva : va < utop)
    (hsource : sourceVa < utop) (perm : BitVec 12) :
    ∃ event σ' free', runOp dir σ (.insertMapped i va source sourceVa perm) =
        some (event, σ') ∧
      OpsInvariant dir pool σ' free' (event.elim last (remember · last)) ∧
      ∀ page, references dir σ' page ≤ references dir σ page + 2 := by
  have hdir : allDirs dir source = some (dir source) := rfl
  cases hslot : tableSlot σ (allDirs dir) (pteKey source sourceVa) with
  | none =>
      have hrun : runOp dir σ (.insertMapped i va source sourceVa perm) = some (none, σ) := by
        simp [runOp, pageLookup_none hinv.paged hdir hsource hslot]
      exact ⟨none, σ, free, hrun, hinv, fun page => Nat.le_add_right _ _⟩
  | some pp =>
      obtain ⟨table, htable⟩ := table_of_pte hslot
      have hkey := pteKey_mem hsource source
      have hlookup := pageLookup_some hinv.paged hdir hsource htable hslot
      rcases insert_step hinv.paged hinv.mapped hfit hva perm (i := i)
        (hinv.paged.balanced.slot_mem _ hkey pp hslot)
        (hinv.paged.balanced.slot_not_free hkey hslot)
        (hinv.paged.mapped_notTable (pdx_lt_userPdes hsource) (ptx_lt sourceVa) hslot) (by simp)
        with ⟨-, hresult⟩ | ⟨σ', free', hresult, hnext, hgrow⟩
      · have hrun : runOp dir σ (.insertMapped i va source sourceVa perm) = some (none, σ) := by
          simp only [runOp, hlookup, hresult, Option.bind_eq_bind, Option.bind_some]
          rfl
        exact ⟨none, σ, free, hrun, hinv, fun page => Nat.le_add_right _ _⟩
      · have hrun : runOp dir σ (.insertMapped i va source sourceVa perm) =
            some (some ⟨i, va, some pp⟩, σ') := by
          simp only [runOp, hlookup, hresult, Option.bind_eq_bind, Option.bind_some]
          rfl
        exact ⟨_, σ', free', hrun, hnext, hgrow⟩

/-- Every operation succeeds or fails without panic, and keeps the invariant. -/
theorem step (hinv : OpsInvariant dir pool σ free last) (hfit : CountersFit dir σ)
    {op : PageOp ι} (hop : op.InUser) :
    ∃ event σ' free', runOp dir σ op = some (event, σ') ∧
      OpsInvariant dir pool σ' free' (event.elim last (remember · last)) ∧
      ∀ page, references dir σ' page ≤ references dir σ page + 2 := by
  cases op with
  | allocInsert i va allocZero perm => exact hinv.allocInsert_step hfit hop allocZero perm
  | insertMapped i va source sourceVa perm => exact hinv.insertMapped_step hfit hop.1 hop.2 perm
  | remove i va =>
      obtain ⟨σ', free', hresult, hnext, hgrow⟩ := hinv.remove_step hfit hop
      refine ⟨some ⟨i, va, none⟩, σ', free', ?_, hnext, hgrow⟩
      simp only [runOp, hresult, Option.bind_eq_bind, Option.bind_some]
      rfl

/-- The invariant says that the representation is consistent. -/
theorem consistent (hinv : OpsInvariant dir pool σ free last) (hfit : CountersFit dir σ) :
    Consistent dir pool σ free where
  threads := hinv.paged.threads
  free_nodup := hinv.paged.threads.nodup
  free_unmapped := fun pp hpp => refs_eq_zero_iff.mp (hinv.paged.balanced.free_unref pp hpp)
  count_exact := fun pp hpp => (hinv.paged.balanced.exact hpp rfl (hfit pp)).1
  not_lost := fun pp hpp => by
    by_cases hfree : pp ∈ free
    · exact Or.inl hfree
    · exact Or.inr (Nat.pos_of_ne_zero
        (mt (hinv.paged.balanced.exact hpp rfl (hfit pp)).2.mpr hfree))

/-- The invariant after a whole sequence. -/
theorem run {dir : ι → ℕ} {σ : Phys} {pool : List ℕ} (hinit : EmptySpaces dir σ pool)
    {ops : List (PageOp ι)} (hops : ∀ op ∈ ops, op.InUser)
    (hfit : ∀ earlier, earlier <:+ ops → ∀ history σ',
      runOps dir σ earlier = some (history, σ') → CountersFit dir σ') :
    ∃ history σ' free', runOps dir σ ops = some (history, σ') ∧
      OpsInvariant dir pool σ' free' (lastMapping history) := by
  induction ops with
  | nil => exact ⟨[], σ, pool, rfl, hinit.invariant⟩
  | cons op earlier ih =>
      obtain ⟨history, before, free, hbefore, hinv⟩ :=
        ih (fun other hother => hops other (List.mem_cons_of_mem _ hother))
          fun prior hprior => hfit prior (hprior.trans (List.suffix_cons op earlier))
      obtain ⟨event, σ', free', hresult, hnext, -⟩ :=
        hinv.step (hfit earlier (List.suffix_cons op earlier) history before hbefore)
          (hops op List.mem_cons_self)
      refine ⟨event.toList ++ history, σ', free', ?_, ?_⟩
      · rw [runOps, hbefore]
        simp only [Option.bind_eq_bind, Option.bind_some, hresult]
        rfl
      · cases event <;> exact hnext

/-- Few operations make few references. -/
theorem run_short {dir : ι → ℕ} {σ : Phys} {pool : List ℕ} (hinit : EmptySpaces dir σ pool)
    {ops : List (PageOp ι)} (hops : ∀ op ∈ ops, op.InUser) (hshort : ops.length < 2 ^ 15) :
    ∃ history σ' free', runOps dir σ ops = some (history, σ') ∧
      OpsInvariant dir pool σ' free' (lastMapping history) ∧
      ∀ page, references dir σ' page ≤ 2 * ops.length := by
  induction ops with
  | nil =>
      refine ⟨[], σ, pool, rfl, hinit.invariant, fun page => Nat.le_of_eq ?_⟩
      exact refs_eq_zero_iff.mpr fun key hkey => by
        rw [hinit.tableSlot_none key hkey]
        simp
  | cons op earlier ih =>
      rw [List.length_cons] at hshort ⊢
      obtain ⟨history, before, free, hbefore, hinv, hrefs⟩ :=
        ih (fun other hother => hops other (List.mem_cons_of_mem _ hother)) (by omega)
      have hfit : CountersFit dir before := fun page => by
        have hpage := hrefs page
        omega
      obtain ⟨event, σ', free', hresult, hnext, hgrow⟩ :=
        hinv.step hfit (hops op List.mem_cons_self)
      refine ⟨event.toList ++ history, σ', free', ?_, ?_, fun page => ?_⟩
      · rw [runOps, hbefore]
        simp only [Option.bind_eq_bind, Option.bind_some, hresult]
        rfl
      · cases event <;> exact hnext
      · have hpage := hrefs page
        have hstep := hgrow page
        omega

end OpsInvariant

/-- A sequence of fewer than `2 ^ 15` operations cannot make a counter wrap. -/
theorem countersFit_of_short {dir : ι → ℕ} {σ : Phys} {pool : List ℕ}
    (hinit : EmptySpaces dir σ pool) {ops : List (PageOp ι)} (hops : ∀ op ∈ ops, op.InUser)
    (hshort : ops.length < 2 ^ 15) :
    ∀ earlier, earlier <:+ ops → ∀ history σ',
      runOps dir σ earlier = some (history, σ') → CountersFit dir σ' := by
  intro earlier hsuffix history σ' hresult page
  have hlength := hsuffix.length_le
  obtain ⟨history', σ'', -, hsame, -, hrefs⟩ := OpsInvariant.run_short hinit
    (fun op hop => hops op (hsuffix.subset hop)) (by omega)
  rw [hresult] at hsame
  cases hsame
  have hpage := hrefs page
  omega

/-- Every sequence of operations keeps the representation consistent, and a
lookup returns the page of the last insertion that no removal followed. -/
theorem runOps_consistent {dir : ι → ℕ} {σ : Phys} {pool : List ℕ}
    (hinit : EmptySpaces dir σ pool) {ops : List (PageOp ι)} (hops : ∀ op ∈ ops, op.InUser)
    (hfit : ∀ earlier, earlier <:+ ops → ∀ history σ',
      runOps dir σ earlier = some (history, σ') → CountersFit dir σ') :
    ∃ history σ' free, runOps dir σ ops = some (history, σ') ∧
      Consistent dir pool σ' free ∧
      ∀ i va, va < utop → (pageLookup σ' (dir i) va).map (Option.map Prod.fst) =
        some (lastMapping history i va) := by
  obtain ⟨history, σ', free, hresult, hinv⟩ := OpsInvariant.run hinit hops hfit
  have hfinal := hfit ops List.suffix_rfl history σ' hresult
  refine ⟨history, σ', free, hresult, hinv.consistent hfinal, fun i va hva => ?_⟩
  have hdir : allDirs dir i = some (dir i) := rfl
  rw [pageLookup_page hinv.paged hdir hva, hinv.mapped i va hva]

/-- A memory of eight pages: two directories, and three pages on the free list. -/
def smallMemory : Phys where
  npages := 8
  pages := fun pp => ⟨if pp = 5 then some 3 else if pp = 3 then some 6 else none, 0⟩
  pageFreeList := some 5
  mem := fun _ _ => 0
  mmuBits := fun _ _ => 0

def smallDirs (i : Fin 2) : ℕ := 1 + i

theorem smallMemory_empty : EmptySpaces smallDirs smallMemory [5, 3, 6] where
  threads := Threads.cons (Threads.cons (Threads.cons Threads.nil))
  free_lt := by decide
  npages_le := by decide
  ref_zero := fun _ _ => rfl
  dir_inj := by decide
  dir_not_free := by decide
  user_empty := fun i d _ => by simp [smallMemory]

/-- A page is allocated in one space, shared with the other one, inserted
again where it is, and removed from the first. -/
def sharingOps : List (PageOp (Fin 2)) :=
  [.remove 0 0x400000, .insertMapped 1 0x800000 1 0x800000 5,
    .insertMapped 1 0x800000 0 0x400000 7, .allocInsert 0 0x400000 true 7]

theorem sharingOps_consistent :
    ∃ history σ' free, runOps smallDirs smallMemory sharingOps = some (history, σ') ∧
      Consistent smallDirs [5, 3, 6] σ' free ∧
      ∀ i va, va < utop → (pageLookup σ' (smallDirs i) va).map (Option.map Prod.fst) =
        some (lastMapping history i va) := by
  have hops : ∀ op ∈ sharingOps, op.InUser := by
    simp [sharingOps, PageOp.InUser, utop, uenvs, upages, uvpt, ulim, mmioBase, mmioLim,
      kstackTop, kernBase, ptSize]
  exact runOps_consistent smallMemory_empty hops
    (countersFit_of_short smallMemory_empty hops (by decide))

end OsLabs.Jos
