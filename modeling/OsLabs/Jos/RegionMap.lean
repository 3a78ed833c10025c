import OsLabs.Jos.KernelLayout
import OsLabs.Jos.Lab5Alloc

/-!
# The region of `boot_map_region`

`boot_map_region` on any page directory, in both versions: the later one counts
pages, the earlier one counts bytes in an `int`.  Each page rewrites one entry,
of a page table that is there or newly installed, and the two versions write
the same words.
-/

namespace OsLabs.Jos

open Function
open OsLabs.IntrusiveList

/-! ## The earlier version -/

/-- `pgdir_walk(pgdir, va, 1)` of the earlier kernel. -/
def pgdirWalk5 (σ : Phys) (pgdir : ℕ) (va : Word) : Option (Option (ℕ × ℕ) × Phys) := do
  let dicOff := pdx va
  if σ.load pgdir dicOff &&& pteP = 0 then
    match pageAlloc5 σ true with
    | (none, σ) => return (none, σ)
    | (some newPage, σ) =>
        let σ := σ.incRef newPage
        let σ := σ.store pgdir dicOff (page2pa newPage ||| pteP ||| pteW ||| pteU)
        let pageBase ← σ.pa2page (pteAddr (σ.load pgdir dicOff))
        return (some (pageBase, ptx va), σ)
  else
    let pageBase ← σ.pa2page (pteAddr (σ.load pgdir dicOff))
    return (some (pageBase, ptx va), σ)

/-- One page of the earlier `boot_map_region`, which writes through a null pointer when there is no
memory. -/
def mapPage5 (σ : Phys) (pgdir : ℕ) (va entry : Word) : Option Phys := do
  match ← pgdirWalk5 σ pgdir va with
  | (none, _) => none
  | (some (table, index), σ) => return σ.store table index entry

/-- The loop of the earlier `boot_map_region` from `nadd` on, within `fuel` rounds.  The comparison
with `size` is unsigned. -/
def bootMapBytes5 (pgdir : ℕ) (size perm : Word) : ℕ → Phys → Word → Word → Word → Option Phys
  | 0, _, _, _, _ => none
  | fuel + 1, σ, nadd, va, pa =>
      if nadd < size then do
        let σ ← mapPage5 σ pgdir va (pa ||| perm ||| pteP)
        bootMapBytes5 pgdir size perm fuel σ (nadd + pgSize) (va + pgSize) (pa + pgSize)
      else some σ

def bootMapRegion5 (fuel : ℕ) (σ : Phys) (pgdir : ℕ) (va size pa perm : Word) : Option Phys :=
  bootMapBytes5 pgdir size perm fuel σ 0 va pa

/-! ## Directories -/

/-- The page tables of the directory are distinct pages, and `free` are free pages.  The directory
may be a page table of its own. -/
structure Directory (σ : Phys) (pgdir : ℕ) (free : List ℕ) : Prop where
  threads : Threads σ.link σ.pageFreeList free
  free_lt : ∀ page ∈ free, page < σ.npages
  npages_le : σ.npages ≤ 2 ^ 20
  dir_not_free : pgdir ∉ free
  table_lt : ∀ d < 1024, ∀ table, entryPage (σ.mem pgdir d) = some table → table < σ.npages
  table_not_free : ∀ d < 1024, ∀ table, entryPage (σ.mem pgdir d) = some table → table ∉ free
  table_inj : ∀ d < 1024, ∀ e < 1024, ∀ table, entryPage (σ.mem pgdir d) = some table →
    entryPage (σ.mem pgdir e) = some table → d = e

/-- The entry for `va`, where there is a page table. -/
def pteWord (σ : Phys) (pgdir : ℕ) (va : Word) : Option Word :=
  (entryPage (σ.mem pgdir (pdx va))).map fun table => σ.load table (ptx va)

/-- How the directory translates `va`: the entries of both levels, when they are present. -/
def translation (σ : Phys) (pgdir : ℕ) (va : Word) : Option (Word × Word) :=
  (pteWord σ pgdir va).bind fun pte =>
    if pte &&& pteP = 0 then none else some (σ.load pgdir (pdx va), pte)

/-- The page table for `va` is the directory itself. -/
def SelfMapped (σ : Phys) (pgdir : ℕ) (va : Word) : Prop :=
  entryPage (σ.mem pgdir (pdx va)) = some pgdir

/-! ## One page -/

/-- The entry of `va` is rewritten in a page table that is there, or newly taken off the list. -/
structure PageMapped (σ : Phys) (pgdir : ℕ) (free : List ℕ) (va entry : Word) (σ' : Phys)
    (free' : List ℕ) : Prop where
  directory : Directory σ' pgdir free'
  entry : pteWord σ' pgdir va = some entry
  others : ∀ va', pgnum va' ≠ pgnum va →
    entryPage (σ.mem pgdir (pdx va)) ≠ none ∨ ¬ SelfMapped σ pgdir va' →
    translation σ' pgdir va' = translation σ pgdir va'
  words : ∀ va', pgnum va' ≠ pgnum va → ¬ SelfMapped σ pgdir va' → ∀ word,
    pteWord σ pgdir va' = some word → pteWord σ' pgdir va' = some word
  kept : ∀ d, entryPage (σ.mem pgdir d) ≠ none ∨ d ≠ pdx va → σ'.mem pgdir d = σ.mem pgdir d
  taken : (entryPage (σ.mem pgdir (pdx va)) ≠ none ∧ free' = free ∧ σ'.ref = σ.ref) ∨
    ∃ pg, entryPage (σ.mem pgdir (pdx va)) = none ∧ free = pg :: free' ∧
      entryPage (σ'.mem pgdir (pdx va)) = some pg ∧ σ'.ref = update σ.ref pg (σ.ref pg + 1)

section OnePage

variable {σ : Phys} {pgdir : ℕ} {free : List ℕ} {va : Word}

/-- What is loaded depends on the word and the flags of the MMU only. -/
theorem load_congr {σ' : Phys} {page index : ℕ} (hmem : σ'.mem page index = σ.mem page index)
    (hbits : σ'.mmuBits page index = σ.mmuBits page index) :
    σ'.load page index = σ.load page index := by
  rw [Phys.load, Phys.load, hmem, hbits]

theorem load_store_self (σ : Phys) (page index : ℕ) (value : Word) :
    (σ.store page index value).load page index = value := by
  simp [Phys.load, Phys.store]

theorem load_store_of_ne {page index other i : ℕ} (value : Word)
    (hne : ¬ (other = page ∧ i = index)) :
    (σ.store page index value).load other i = σ.load other i := by
  by_cases hpage : other = page
  · have hindex : i ≠ index := fun hindex => hne ⟨hpage, hindex⟩
    subst hpage
    apply load_congr
    · rw [mem_store_self, update_of_ne hindex]
    · simp [Phys.store, update_of_ne hindex]
  · apply load_congr
    · rw [mem_store_of_ne _ _ _ _ hpage]
    · simp [Phys.store, update_of_ne hpage]

/-- Storing into the page table for `va`. -/
theorem Directory.store (hdir : Directory σ pgdir free) {table : ℕ}
    (htable : entryPage (σ.mem pgdir (pdx va)) = some table) (hself : table ≠ pgdir)
    (entry : Word) :
    PageMapped σ pgdir free va entry (σ.store table (ptx va) entry) free := by
  have hmem : (σ.store table (ptx va) entry).mem pgdir = σ.mem pgdir :=
    mem_store_of_ne _ _ _ _ hself.symm
  have hpde (d : ℕ) : (σ.store table (ptx va) entry).load pgdir d = σ.load pgdir d :=
    load_store_of_ne entry fun hboth => hself hboth.1.symm
  have hwords (va' : Word) (hva : pgnum va' ≠ pgnum va) :
      pteWord (σ.store table (ptx va) entry) pgdir va' = pteWord σ pgdir va' := by
    rw [pteWord, pteWord, hmem]
    cases hother : entryPage (σ.mem pgdir (pdx va')) with
    | none => rfl
    | some page =>
      refine congrArg some (load_store_of_ne entry ?_)
      rintro ⟨rfl, hindex⟩
      have hd := hdir.table_inj _ (pdx_lt va') _ (pdx_lt va) _ hother htable
      refine hva ?_
      rw [pgnum_eq_pdx_ptx va', pgnum_eq_pdx_ptx va, hd, hindex]
  exact
    { directory :=
        { threads := by simpa using hdir.threads
          free_lt := by simpa using hdir.free_lt
          npages_le := by simpa using hdir.npages_le
          dir_not_free := hdir.dir_not_free
          table_lt := by
            rw [hmem]
            simpa using hdir.table_lt
          table_not_free := by
            rw [hmem]
            exact hdir.table_not_free
          table_inj := by
            rw [hmem]
            exact hdir.table_inj }
      entry := by
        rw [pteWord, hmem, htable, Option.map_some, load_store_self]
      others := fun va' hva _ => by rw [translation, translation, hwords va' hva, hpde]
      words := fun va' hva _ word hword => (hwords va' hva).trans hword
      kept := fun d _ => by rw [hmem]
      taken := Or.inl ⟨by rw [htable]; exact Option.some_ne_none _, rfl, ref_store _ _ _ _⟩ }

/-! ### A new page table -/

/-- `page_alloc` took `pg` and cleared it. -/
structure TableTaken (σ : Phys) (pg : ℕ) (rest : List ℕ) (τ : Phys) : Prop where
  mem : τ.mem = update σ.mem pg fun _ => 0
  mmuBits : τ.mmuBits = update σ.mmuBits pg fun _ => 0
  ref : τ.ref = σ.ref
  npages : τ.npages = σ.npages
  threads : Threads τ.link τ.pageFreeList rest

/-- The new page table in the directory. -/
def installed (τ : Phys) (pgdir d pg : ℕ) : Phys := (τ.incRef pg).store pgdir d (tableEntry pg)

section Install

variable {τ : Phys} {pg : ℕ} {rest : List ℕ} {d : ℕ}

theorem TableTaken.mem_dir (htaken : TableTaken σ pg rest τ) (hne : pgdir ≠ pg) (e : ℕ) :
    (installed τ pgdir d pg).mem pgdir e = update (σ.mem pgdir) d (tableEntry pg) e := by
  rw [installed, mem_store_self, mem_incRef, htaken.mem, update_of_ne hne]

theorem TableTaken.load_dir (htaken : TableTaken σ pg rest τ) (hne : pgdir ≠ pg) {e : ℕ}
    (hother : e ≠ d) : (installed τ pgdir d pg).load pgdir e = σ.load pgdir e := by
  rw [installed, load_store_of_ne _ fun hboth => hother hboth.2]
  apply load_congr
  · rw [mem_incRef, htaken.mem, update_of_ne hne]
  · rw [show (τ.incRef pg).mmuBits = τ.mmuBits from rfl, htaken.mmuBits, update_of_ne hne]

theorem TableTaken.load_new (htaken : TableTaken σ pg rest τ) (hne : pgdir ≠ pg) (t : ℕ) :
    (installed τ pgdir d pg).load pg t = 0 := by
  have hmem : (τ.incRef pg).mem pg t = 0 := by rw [mem_incRef, htaken.mem, update_self]
  rw [installed, load_store_of_ne _ fun hboth => hne hboth.1.symm]
  simp [Phys.load, hmem]

theorem TableTaken.load_other (htaken : TableTaken σ pg rest τ) {page : ℕ} (hdir : page ≠ pgdir)
    (hpg : page ≠ pg) (t : ℕ) : (installed τ pgdir d pg).load page t = σ.load page t := by
  rw [installed, load_store_of_ne _ fun hboth => hdir hboth.1]
  apply load_congr
  · rw [mem_incRef, htaken.mem, update_of_ne hpg]
  · rw [show (τ.incRef pg).mmuBits = τ.mmuBits from rfl, htaken.mmuBits, update_of_ne hpg]

theorem TableTaken.entryPage_dir (htaken : TableTaken σ pg rest τ) (hne : pgdir ≠ pg)
    (hlt : pg < 2 ^ 20) (e : ℕ) :
    entryPage ((installed τ pgdir d pg).mem pgdir e) =
      if e = d then some pg else entryPage (σ.mem pgdir e) := by
  rw [htaken.mem_dir hne]
  by_cases hsame : e = d
  · rw [hsame, update_self, if_pos rfl, entryPage_tableEntry hlt]
  · rw [update_of_ne hsame, if_neg hsame]

theorem TableTaken.directory (htaken : TableTaken σ pg rest τ)
    (hdir : Directory σ pgdir (pg :: rest)) :
    Directory (installed τ pgdir d pg) pgdir rest := by
  have hne : pgdir ≠ pg := fun hsame => hdir.dir_not_free (hsame ▸ List.mem_cons_self)
  have hlt := hdir.free_lt pg List.mem_cons_self
  have hentry := htaken.entryPage_dir (d := d) hne (hlt.trans_le hdir.npages_le)
  have hnodup := (List.nodup_cons.mp hdir.threads.nodup).1
  have hfresh (e : ℕ) (he : e < 1024) : entryPage (σ.mem pgdir e) ≠ some pg := fun hpg =>
    hdir.table_not_free e he pg hpg List.mem_cons_self
  have hnpages : (installed τ pgdir d pg).npages = σ.npages := htaken.npages
  refine
    { threads := by simpa [installed] using htaken.threads
      free_lt := fun page hpage => ?_
      npages_le := by rw [hnpages]; exact hdir.npages_le
      dir_not_free := fun hmem => hdir.dir_not_free (List.mem_cons_of_mem _ hmem)
      table_lt := fun e he table htable => ?_
      table_not_free := fun e he table htable => ?_
      table_inj := fun e he f hf table htable hother => ?_ }
  · rw [hnpages]
    exact hdir.free_lt page (List.mem_cons_of_mem _ hpage)
  · rw [hentry] at htable
    rw [hnpages]
    split at htable
    · cases htable
      exact hlt
    · exact hdir.table_lt e he table htable
  · rw [hentry] at htable
    split at htable
    · cases htable
      exact hnodup
    · exact fun hmem => hdir.table_not_free e he table htable (List.mem_cons_of_mem _ hmem)
  · rw [hentry] at htable hother
    split at htable
    case isTrue hsame =>
      cases htable
      split at hother
      case isTrue hsame' => rw [hsame, hsame']
      case isFalse => exact absurd hother (hfresh f hf)
    case isFalse =>
      split at hother
      case isTrue =>
        cases hother
        exact absurd htable (hfresh e he)
      case isFalse => exact hdir.table_inj e he f hf table htable hother

/-- The page of the new entry passes the check of `KADDR`. -/
theorem TableTaken.check (htaken : TableTaken σ pg rest τ)
    (hdir : Directory σ pgdir (pg :: rest)) (d : ℕ) :
    (installed τ pgdir d pg).pa2page (pteAddr ((installed τ pgdir d pg).load pgdir d)) =
      some pg := by
  have hne : pgdir ≠ pg := fun hsame => hdir.dir_not_free (hsame ▸ List.mem_cons_self)
  have hlt := hdir.free_lt pg List.mem_cons_self
  have hentry := htaken.entryPage_dir (d := d) hne (hlt.trans_le hdir.npages_le) d
  rw [if_pos rfl] at hentry
  refine pa2page_load hentry ?_
  rw [show (installed τ pgdir d pg).npages = τ.npages from rfl, htaken.npages]
  exact hlt

/-- Mapping a page below a new page table. -/
theorem TableTaken.store (htaken : TableTaken σ pg rest τ)
    (hdir : Directory σ pgdir (pg :: rest))
    (habsent : entryPage (σ.mem pgdir (pdx va)) = none) (entry : Word) :
    PageMapped σ pgdir (pg :: rest) va entry
      ((installed τ pgdir (pdx va) pg).store pg (ptx va) entry) rest := by
  have hne : pgdir ≠ pg := fun hsame => hdir.dir_not_free (hsame ▸ List.mem_cons_self)
  have hlt := (hdir.free_lt pg List.mem_cons_self).trans_le hdir.npages_le
  have hentry := htaken.entryPage_dir (d := pdx va) hne hlt
  have hnew : entryPage ((installed τ pgdir (pdx va) pg).mem pgdir (pdx va)) = some pg := by
    rw [hentry, if_pos rfl]
  have hstored := (htaken.directory hdir).store hnew hne.symm entry
  have hnotSelf (va' : Word) (hself : ¬ SelfMapped σ pgdir va') :
      ¬ SelfMapped (installed τ pgdir (pdx va) pg) pgdir va' := by
    rw [SelfMapped, hentry]
    split
    · exact fun hsame => hne (Option.some.inj hsame).symm
    · exact hself
  have hwords (va' : Word) (hself : ¬ SelfMapped σ pgdir va') (hother : pdx va' ≠ pdx va) :
      pteWord (installed τ pgdir (pdx va) pg) pgdir va' = pteWord σ pgdir va' := by
    rw [pteWord, pteWord, hentry, if_neg hother]
    cases htable : entryPage (σ.mem pgdir (pdx va')) with
    | none => rfl
    | some table =>
      have hpg : table ≠ pg := fun hsame =>
        hdir.table_not_free _ (pdx_lt va') table htable (hsame ▸ List.mem_cons_self)
      have hdir' : table ≠ pgdir := fun hsame => hself (hsame ▸ htable)
      exact congrArg some (htaken.load_other hdir' hpg _)
  have habsentWord (va' : Word) (hd : pdx va' = pdx va) : pteWord σ pgdir va' = none := by
    rw [pteWord, hd, habsent]
    rfl
  exact
    { directory := hstored.directory
      entry := hstored.entry
      others := fun va' hva hwindow => by
        have hself := hwindow.resolve_left (not_not.mpr habsent)
        rw [hstored.others va' hva (Or.inr (hnotSelf va' hself))]
        by_cases hd : pdx va' = pdx va
        · -- the rest of the new table is empty
          have hzero : pteWord (installed τ pgdir (pdx va) pg) pgdir va' = some 0 := by
            rw [pteWord, hd, hnew, Option.map_some, htaken.load_new hne]
          rw [translation, translation, hzero, habsentWord va' hd]
          rfl
        · rw [translation, translation, hwords va' hself hd, htaken.load_dir hne hd]
      words := fun va' hva hself word hword => by
        have hd : pdx va' ≠ pdx va := fun hd => by
          rw [habsentWord va' hd] at hword
          cases hword
        refine hstored.words va' hva (hnotSelf va' hself) word ?_
        rw [hwords va' hself hd]
        exact hword
      kept := fun e he => by
        have hother : e ≠ pdx va := he.elim (fun hsome hsame => hsome (hsame ▸ habsent)) id
        rw [mem_store_of_ne _ _ _ _ hne, htaken.mem_dir hne, update_of_ne hother]
      taken := Or.inr ⟨pg, habsent, rfl, by rw [mem_store_of_ne _ _ _ _ hne, hnew], by
        rw [ref_store, installed, ref_store, ref_incRef, htaken.ref]⟩ }

end Install

/-! ### Both versions -/

/-- The same words in memory and the same reference counts. -/
structure SameWords (σ σ' : Phys) : Prop where
  mem : σ'.mem = σ.mem
  mmuBits : σ'.mmuBits = σ.mmuBits
  ref : σ'.ref = σ.ref
  npages : σ'.npages = σ.npages

theorem SameWords.load {σ' : Phys} (hsame : SameWords σ σ') (page index : ℕ) :
    σ'.load page index = σ.load page index :=
  load_congr (by rw [hsame.mem]) (by rw [hsame.mmuBits])

theorem SameWords.store {σ' : Phys} (hsame : SameWords σ σ') (page index : ℕ) (value : Word) :
    SameWords (σ.store page index value) (σ'.store page index value) where
  mem := by rw [Phys.store, Phys.store, hsame.mem]
  mmuBits := by rw [Phys.store, Phys.store, hsame.mmuBits]
  ref := by rw [ref_store, ref_store, hsame.ref]
  npages := hsame.npages

theorem SameWords.incRef {σ' : Phys} (hsame : SameWords σ σ') (pg : ℕ) :
    SameWords (σ.incRef pg) (σ'.incRef pg) where
  mem := hsame.mem
  mmuBits := hsame.mmuBits
  ref := by rw [ref_incRef, ref_incRef, hsame.ref]
  npages := hsame.npages

theorem Directory.taken {pg : ℕ} {rest : List ℕ} (hdir : Directory σ pgdir (pg :: rest)) :
    pageAlloc σ true = (some pg, takePage σ pg true) ∧
      TableTaken σ pg rest (takePage σ pg true) := by
  have hthreads := hdir.threads
  have hhead : σ.pageFreeList = some pg := hthreads.head_eq
  rw [hhead] at hthreads
  refine ⟨by rw [pageAlloc, hhead]; rfl, rfl, rfl, ref_takePage _ _, rfl, ?_⟩
  rw [link_takePage, freeList_takePage]
  exact hthreads.tail

theorem Directory.taken5 {pg : ℕ} {rest : List ℕ} (hdir : Directory σ pgdir (pg :: rest)) :
    ∃ τ, pageAlloc5 σ true = (some pg, τ) ∧ TableTaken σ pg rest τ := by
  have hthreads := hdir.threads
  have hhead : σ.pageFreeList = some pg := hthreads.head_eq
  obtain ⟨τ, halloc, hlink, href, hlist⟩ := pageAlloc5_some hhead true
  have hnew := (List.nodup_cons.mp hthreads.nodup).1
  have hτ : τ = (({ σ with pageFreeList := σ.link pg } : Phys).setLink pg none).zeroPage pg := by
    rw [pageAlloc5, hhead] at halloc
    exact (Prod.mk.inj halloc).2.symm
  refine ⟨τ, halloc, by rw [hτ]; rfl, by rw [hτ]; rfl, href, by rw [hτ]; rfl, ?_⟩
  rw [hlink, hlist]
  rw [hhead] at hthreads
  refine hthreads.tail.congr fun page hpage => update_of_ne ?_ _ _
  rintro rfl
  exact hnew hpage

/-- Both versions map a page alike, when there is a page for a missing page table. -/
theorem Directory.mapPage {σ₅ : Phys} (hdir : Directory σ pgdir free)
    (hdir₅ : Directory σ₅ pgdir free) (hsame : SameWords σ σ₅) (hself : ¬ SelfMapped σ pgdir va)
    (hfree : entryPage (σ.mem pgdir (pdx va)) = none → free ≠ []) (entry : Word) :
    ∃ σ' σ₅' free', mapPage σ pgdir va entry = some σ' ∧ mapPage5 σ₅ pgdir va entry = some σ₅' ∧
      PageMapped σ pgdir free va entry σ' free' ∧ Directory σ₅' pgdir free' ∧
      SameWords σ' σ₅' := by
  cases htable : entryPage (σ.mem pgdir (pdx va)) with
  | some table =>
    have htable₅ : entryPage (σ₅.mem pgdir (pdx va)) = some table := by rw [hsame.mem, htable]
    have hne : table ≠ pgdir := fun hpgdir => hself (by rw [SelfMapped, htable, hpgdir])
    have hlt := hdir.table_lt _ (pdx_lt va) table htable
    have hpresent : σ.mem pgdir (pdx va) &&& pteP ≠ 0#32 := (entryPage_eq_some.mp htable).1
    have hpresent₅ : σ₅.mem pgdir (pdx va) &&& pteP ≠ 0#32 := (entryPage_eq_some.mp htable₅).1
    refine ⟨σ.store table (ptx va) entry, σ₅.store table (ptx va) entry, free, ?_, ?_,
      hdir.store htable hne entry, (hdir₅.store htable₅ hne entry).directory,
      hsame.store table (ptx va) entry⟩
    · simp [Jos.mapPage, pgdirWalk, hpresent, pa2page_load htable hlt]
    · simp [mapPage5, pgdirWalk5, hpresent₅, pa2page_load htable₅ (hsame.npages.symm ▸ hlt)]
  | none =>
    obtain ⟨pg, rest, rfl⟩ := List.exists_cons_of_ne_nil (hfree htable)
    have htable₅ : entryPage (σ₅.mem pgdir (pdx va)) = none := by rw [hsame.mem, htable]
    obtain ⟨halloc, htaken⟩ := hdir.taken
    obtain ⟨τ₅, halloc₅, htaken₅⟩ := hdir₅.taken5
    have hsameTaken : SameWords (takePage σ pg true) τ₅ :=
      ⟨by rw [htaken.mem, htaken₅.mem, hsame.mem],
        by rw [htaken.mmuBits, htaken₅.mmuBits, hsame.mmuBits],
        by rw [htaken.ref, htaken₅.ref, hsame.ref],
        by rw [htaken.npages, htaken₅.npages, hsame.npages]⟩
    refine ⟨(installed (takePage σ pg true) pgdir (pdx va) pg).store pg (ptx va) entry,
      (installed τ₅ pgdir (pdx va) pg).store pg (ptx va) entry, rest, ?_, ?_,
      htaken.store hdir htable entry, (htaken₅.store hdir₅ htable₅ entry).directory,
      ((hsameTaken.incRef pg).store _ _ _).store _ _ _⟩
    · have hcheck := htaken.check hdir (pdx va)
      rw [entryPage_eq_none] at htable
      rw [installed, tableEntry] at hcheck
      simp [Jos.mapPage, pgdirWalk, htable, halloc, hcheck, installed, tableEntry]
    · have hcheck := htaken₅.check hdir₅ (pdx va)
      have hflags : page2pa pg ||| pteP ||| pteW ||| pteU = tableEntry pg := by
        unfold tableEntry
        ac_rfl
      rw [entryPage_eq_none] at htable₅
      rw [installed] at hcheck
      simp [mapPage5, pgdirWalk5, htable₅, halloc₅, hcheck, installed, hflags]

end OnePage

/-! ## The region -/

/-- Address `k` pages behind `va`. -/
abbrev pageBehind (va : Word) (k : ℕ) : Word := va + BitVec.ofNat 32 k * pgSize

/-- The directory indices of the first `count` pages from `va`. -/
def regionTables (va : Word) (count : ℕ) : Finset ℕ :=
  (Finset.range count).image fun k => pdx (pageBehind va k)

/-- Those of them without a page table. -/
def missingTables (σ : Phys) (pgdir : ℕ) (va : Word) (count : ℕ) : Finset ℕ :=
  (regionTables va count).filter fun d => entryPage (σ.mem pgdir d) = none

/-- Exactly the first `count` pages from `va` are mapped to the pages from `pa`, and the missing
page tables are taken off the free list. -/
structure RegionMapped (σ : Phys) (pgdir : ℕ) (free : List ℕ) (va pa perm : Word) (count : ℕ)
    (σ' : Phys) (free' : List ℕ) : Prop where
  directory : Directory σ' pgdir free'
  entries : ∀ k < count,
    pteWord σ' pgdir (pageBehind va k) = some (pageBehind pa k ||| perm ||| pteP)
  others : ∀ va', (∀ k < count, pgnum va' ≠ pgnum (pageBehind va k)) →
    missingTables σ pgdir va count = ∅ ∨ ¬ SelfMapped σ pgdir va' →
    translation σ' pgdir va' = translation σ pgdir va'
  kept : ∀ d, entryPage (σ.mem pgdir d) ≠ none ∨ d ∉ regionTables va count →
    σ'.mem pgdir d = σ.mem pgdir d
  tables : ∀ d ∈ missingTables σ pgdir va count, ∃ pg ∈ free, entryPage (σ'.mem pgdir d) = some pg
  refs : ∀ page, σ'.ref page ≠ σ.ref page →
    ∃ d ∈ missingTables σ pgdir va count, entryPage (σ'.mem pgdir d) = some page
  left : ∃ taken, free = taken ++ free' ∧ taken.length = (missingTables σ pgdir va count).card

section Region

variable {σ σ' : Phys} {pgdir : ℕ} {free free' : List ℕ} {va pa perm : Word} {i count : ℕ}

theorem mem_regionTables {d : ℕ} :
    d ∈ regionTables va count ↔ ∃ k < count, pdx (pageBehind va k) = d := by
  simp [regionTables]

theorem mem_missingTables {d : ℕ} : d ∈ missingTables σ pgdir va count ↔
    d ∈ regionTables va count ∧ entryPage (σ.mem pgdir d) = none :=
  Finset.mem_filter

theorem regionTables_succ (va : Word) (i : ℕ) :
    regionTables va (i + 1) = insert (pdx (pageBehind va i)) (regionTables va i) := by
  rw [regionTables, Finset.range_add_one, Finset.image_insert]
  rfl

theorem regionMapped_zero (hdir : Directory σ pgdir free) :
    RegionMapped σ pgdir free va pa perm 0 σ free where
  directory := hdir
  entries := fun _ hk => absurd hk (Nat.not_lt_zero _)
  others := fun _ _ _ => rfl
  kept := fun _ _ => rfl
  tables := fun _ hd => absurd hd (Finset.notMem_empty _)
  refs := fun _ hne => absurd rfl hne
  left := ⟨[], rfl, rfl⟩

/-- The directory is its own page table where it was. -/
theorem RegionMapped.self_iff (hmapped : RegionMapped σ pgdir free va pa perm i σ' free')
    (hdir : Directory σ pgdir free) (d : ℕ) :
    entryPage (σ'.mem pgdir d) = some pgdir ↔ entryPage (σ.mem pgdir d) = some pgdir := by
  by_cases hmissing : d ∈ missingTables σ pgdir va i
  · obtain ⟨pg, hpg, htable⟩ := hmapped.tables d hmissing
    rw [htable, (mem_missingTables.mp hmissing).2]
    refine iff_of_false (fun hsame => ?_) (by simp)
    exact hdir.dir_not_free (Option.some.inj hsame ▸ hpg)
  · rw [hmapped.kept d]
    by_contra hboth
    rw [not_or, not_not, not_not] at hboth
    exact hmissing (mem_missingTables.mpr ⟨hboth.2, hboth.1⟩)

/-- A page table that a page of the region needs is there already, or missing from the start. -/
theorem RegionMapped.absent_iff (hmapped : RegionMapped σ pgdir free va pa perm i σ' free')
    (d : ℕ) : entryPage (σ'.mem pgdir d) = none ↔
      entryPage (σ.mem pgdir d) = none ∧ d ∉ regionTables va i := by
  by_cases hmissing : d ∈ missingTables σ pgdir va i
  · obtain ⟨pg, -, htable⟩ := hmapped.tables d hmissing
    rw [htable]
    exact iff_of_false (by simp) fun hboth => hboth.2 (mem_missingTables.mp hmissing).1
  · have hkept : entryPage (σ.mem pgdir d) ≠ none ∨ d ∉ regionTables va i := by
      by_contra hboth
      rw [not_or, not_not, not_not] at hboth
      exact hmissing (mem_missingTables.mpr ⟨hboth.2, hboth.1⟩)
    rw [hmapped.kept d hkept]
    constructor
    · intro habsent
      exact ⟨habsent, hkept.resolve_left (not_not.mpr habsent)⟩
    · exact And.left

theorem missingTables_present {d : ℕ} (hd : d = pdx (pageBehind va i))
    (hpresent : entryPage (σ.mem pgdir d) ≠ none ∨ d ∈ regionTables va i) :
    missingTables σ pgdir va (i + 1) = missingTables σ pgdir va i := by
  ext e
  rw [mem_missingTables, mem_missingTables, regionTables_succ, Finset.mem_insert, ← hd]
  constructor
  · rintro ⟨rfl | hold, habsent⟩
    · exact ⟨hpresent.resolve_left (not_not.mpr habsent), habsent⟩
    · exact ⟨hold, habsent⟩
  · rintro ⟨hold, habsent⟩
    exact ⟨Or.inr hold, habsent⟩

theorem missingTables_absent (habsent : entryPage (σ.mem pgdir (pdx (pageBehind va i))) = none) :
    missingTables σ pgdir va (i + 1) =
      insert (pdx (pageBehind va i)) (missingTables σ pgdir va i) := by
  rw [missingTables, regionTables_succ, Finset.filter_insert, if_pos habsent]
  rfl

/-- The next page of the region. -/
theorem RegionMapped.next {σ₁ σ₂ : Phys} {free₁ free₂ : List ℕ}
    (hmapped : RegionMapped σ pgdir free va pa perm i σ₁ free₁) (hdir : Directory σ pgdir free)
    (hself : ∀ k < i + 1, ¬ SelfMapped σ pgdir (pageBehind va k))
    (hfits : va.toNat + (i + 1) * 4096 ≤ 2 ^ 32)
    (hpage : PageMapped σ₁ pgdir free₁ (pageBehind va i) (pageBehind pa i ||| perm ||| pteP) σ₂
      free₂) :
    RegionMapped σ pgdir free va pa perm (i + 1) σ₂ free₂ := by
  have hpgnum (k : ℕ) (hk : k < i) : pgnum (pageBehind va k) ≠ pgnum (pageBehind va i) := by
    rw [pgnum_add_pages hfits (Nat.lt_succ_of_lt hk), pgnum_add_pages hfits (Nat.lt_succ_self i)]
    omega
  have hselfAfter (va' : Word) : SelfMapped σ₁ pgdir va' ↔ SelfMapped σ pgdir va' :=
    hmapped.self_iff hdir (pdx va')
  have hsub : missingTables σ pgdir va i ⊆ missingTables σ pgdir va (i + 1) := by
    intro d hd
    rw [mem_missingTables] at hd ⊢
    rw [regionTables_succ]
    exact ⟨Finset.mem_insert_of_mem hd.1, hd.2⟩
  -- tables that are there stay
  have htables (d : ℕ) (hd : d ∈ missingTables σ pgdir va i) :
      σ₂.mem pgdir d = σ₁.mem pgdir d := by
    obtain ⟨pg, -, htable⟩ := hmapped.tables d hd
    exact hpage.kept d (Or.inl (by rw [htable]; simp))
  refine
    { directory := hpage.directory
      entries := fun k hk => ?_
      others := fun va' hother hwindow => ?_
      kept := fun d hd => ?_
      tables := fun d hd => ?_
      refs := fun page hne => ?_
      left := ?_ }
  · rcases Nat.lt_succ_iff_lt_or_eq.mp hk with hlt | rfl
    · exact hpage.words _ (hpgnum k hlt) (fun hsame => hself k hk ((hselfAfter _).mp hsame)) _
        (hmapped.entries k hlt)
    · exact hpage.entry
  · rw [hpage.others va' (hother i (Nat.lt_succ_self i)) ?_,
      hmapped.others va' (fun k hk => hother k (Nat.lt_succ_of_lt hk)) ?_]
    · rcases hwindow with hnone | hnot
      · rw [hnone] at hsub
        exact Or.inl (Finset.subset_empty.mp hsub)
      · exact Or.inr hnot
    · refine hwindow.imp (fun hnone habsent => ?_) fun hnot hsame => hnot ((hselfAfter _).mp hsame)
      have hmem : pdx (pageBehind va i) ∈ missingTables σ pgdir va (i + 1) := by
        rw [missingTables_absent ((hmapped.absent_iff _).mp habsent).1]
        exact Finset.mem_insert_self _ _
      rw [hnone] at hmem
      exact absurd hmem (Finset.notMem_empty _)
  · rw [regionTables_succ, Finset.mem_insert, not_or] at hd
    have hfirst := hmapped.kept d (hd.imp_right And.right)
    rw [← hfirst]
    refine hpage.kept d (hd.imp (fun hsome => ?_) And.left)
    rwa [hfirst]
  · by_cases hold : d ∈ missingTables σ pgdir va i
    · rw [htables d hold]
      exact hmapped.tables d hold
    · obtain ⟨taken, hfree, -⟩ := hmapped.left
      obtain ⟨hregion, habsent⟩ := mem_missingTables.mp hd
      have hnew : d ∉ regionTables va i := fun hmem =>
        hold (mem_missingTables.mpr ⟨hmem, habsent⟩)
      have hindex : d = pdx (pageBehind va i) := by
        rw [regionTables_succ, Finset.mem_insert] at hregion
        exact hregion.resolve_right hnew
      have habsent₁ : entryPage (σ₁.mem pgdir d) = none :=
        (hmapped.absent_iff d).mpr ⟨habsent, hnew⟩
      rcases hpage.taken with ⟨hpresent, -⟩ | ⟨pg, -, hlist, htable, -⟩
      · exact absurd (hindex ▸ habsent₁) hpresent
      · refine ⟨pg, ?_, by rw [hindex, htable]⟩
        rw [hfree, hlist]
        exact List.mem_append_right _ List.mem_cons_self
  · have hbefore (hne : σ₁.ref page ≠ σ.ref page) :
        ∃ d ∈ missingTables σ pgdir va (i + 1), entryPage (σ₂.mem pgdir d) = some page := by
      obtain ⟨d, hd, htable⟩ := hmapped.refs page hne
      exact ⟨d, hsub hd, by rw [htables d hd, htable]⟩
    rcases hpage.taken with ⟨-, -, href⟩ | ⟨pg, habsent, -, htable, href⟩
    · rw [href] at hne
      exact hbefore hne
    · by_cases hnew : page = pg
      · have hmissing := missingTables_absent ((hmapped.absent_iff _).mp habsent).1
        exact ⟨_, hmissing ▸ Finset.mem_insert_self _ _, hnew ▸ htable⟩
      · rw [href, update_of_ne hnew] at hne
        exact hbefore hne
  · obtain ⟨taken, hfree, hcount⟩ := hmapped.left
    rcases hpage.taken with ⟨hpresent, hlist, -⟩ | ⟨pg, habsent, hlist, -⟩
    · refine ⟨taken, by rw [hlist, hfree], ?_⟩
      rw [missingTables_present rfl, hcount]
      by_contra hboth
      rw [not_or, not_not] at hboth
      exact hpresent ((hmapped.absent_iff _).mpr hboth)
    · obtain ⟨hnone, hnew⟩ := (hmapped.absent_iff _).mp habsent
      refine ⟨taken ++ [pg], by rw [hfree, hlist, List.append_assoc]; rfl, ?_⟩
      rw [missingTables_absent hnone, Finset.card_insert_of_notMem, List.length_append, hcount,
        List.length_singleton]
      exact fun hmem => hnew (mem_missingTables.mp hmem).1

/-- The first `count` pages that the loop of the earlier version maps. -/
def mapPages5 (σ : Phys) (pgdir : ℕ) (va pa perm : Word) : ℕ → Option Phys
  | 0 => some σ
  | i + 1 => (mapPages5 σ pgdir va pa perm i).bind fun σ =>
      mapPage5 σ pgdir (pageBehind va i) (pageBehind pa i ||| perm ||| pteP)

theorem missingTables_mono (σ : Phys) (pgdir : ℕ) (va : Word) (hle : i ≤ count) :
    (missingTables σ pgdir va i).card ≤ (missingTables σ pgdir va count).card := by
  refine Finset.card_le_card fun d hd => ?_
  rw [mem_missingTables, mem_regionTables] at hd ⊢
  obtain ⟨⟨k, hk, hindex⟩, habsent⟩ := hd
  exact ⟨⟨k, hk.trans_le hle, hindex⟩, habsent⟩

/-- Both versions map the region, and write the same words. -/
theorem Directory.mapPages (hdir : Directory σ pgdir free)
    (hself : ∀ k < count, ¬ SelfMapped σ pgdir (pageBehind va k))
    (hfits : va.toNat + count * 4096 ≤ 2 ^ 32)
    (henough : (missingTables σ pgdir va count).card ≤ free.length) (hle : i ≤ count) :
    ∃ σ₁ σ₅ free₁, bootMapPages σ pgdir va pa perm i = some σ₁ ∧
      mapPages5 σ pgdir va pa perm i = some σ₅ ∧
      RegionMapped σ pgdir free va pa perm i σ₁ free₁ ∧ Directory σ₅ pgdir free₁ ∧
      SameWords σ₁ σ₅ := by
  induction i with
  | zero => exact ⟨σ, σ, free, rfl, rfl, regionMapped_zero hdir, hdir, rfl, rfl, rfl, rfl⟩
  | succ i ih =>
    obtain ⟨σ₁, σ₅, free₁, hrun, hrun₅, hmapped, hdir₅, hsame⟩ := ih (by omega)
    have hself₁ : ¬ SelfMapped σ₁ pgdir (pageBehind va i) := fun hsame =>
      hself i (by omega) ((hmapped.self_iff hdir _).mp hsame)
    have hfree₁ (habsent : entryPage (σ₁.mem pgdir (pdx (pageBehind va i))) = none) :
        free₁ ≠ [] := by
      rintro rfl
      obtain ⟨taken, hfree, hcount⟩ := hmapped.left
      obtain ⟨hnone, hnew⟩ := (hmapped.absent_iff _).mp habsent
      have hmore : (missingTables σ pgdir va (i + 1)).card =
          (missingTables σ pgdir va i).card + 1 := by
        rw [missingTables_absent hnone, Finset.card_insert_of_notMem]
        exact fun hmem => hnew (mem_missingTables.mp hmem).1
      have hmono := missingTables_mono σ pgdir va hle
      rw [hfree, List.append_nil] at henough
      omega
    obtain ⟨σ₂, σ₅', free₂, hmap, hmap₅, hpage, hdir₅', hsame'⟩ :=
      hmapped.directory.mapPage hdir₅ hsame hself₁ hfree₁ (pageBehind pa i ||| perm ||| pteP)
    have hshort : va.toNat + (i + 1) * 4096 ≤ 2 ^ 32 :=
      (Nat.add_le_add_left (Nat.mul_le_mul_right _ hle) _).trans hfits
    refine ⟨σ₂, σ₅', free₂, ?_, ?_, hmapped.next hdir (fun k hk => hself k (by omega)) hshort hpage,
      hdir₅', hsame'⟩
    · exact Option.bind_eq_some_iff.mpr ⟨σ₁, hrun, hmap⟩
    · exact Option.bind_eq_some_iff.mpr ⟨σ₅, hrun₅, hmap₅⟩

theorem mapPages5_prefix (hrun : mapPages5 σ pgdir va pa perm count = some σ') (hle : i ≤ count) :
    ∃ σ₁, mapPages5 σ pgdir va pa perm i = some σ₁ := by
  induction count generalizing σ' with
  | zero =>
    rw [Nat.le_zero.mp hle]
    exact ⟨σ', hrun⟩
  | succ count ih =>
    obtain ⟨mid, hmid, hlast⟩ := Option.bind_eq_some_iff.mp hrun
    rcases Nat.le_succ_iff.mp hle with hbefore | rfl
    · exact ih hmid hbefore
    · exact ⟨σ', hrun⟩

theorem pageBehind_succ (va : Word) (i : ℕ) : pageBehind va i + pgSize = pageBehind va (i + 1) := by
  apply BitVec.eq_of_toNat_eq
  simp only [pageBehind, BitVec.toNat_add, BitVec.toNat_mul, BitVec.toNat_ofNat,
    show pgSize.toNat = 4096 by decide]
  omega

/-- The loop of the earlier version maps the pages that are left, and ends. -/
theorem bootMapBytes5_loop {size : Word} (hsize : size.toNat = count * 4096)
    (hrun : mapPages5 σ pgdir va pa perm count = some σ') {left : ℕ} (hleft : i + left = count)
    {σ₁ : Phys} (hhere : mapPages5 σ pgdir va pa perm i = some σ₁) {fuel : ℕ}
    (hfuel : left < fuel) :
    bootMapBytes5 pgdir size perm fuel σ₁ (pageBehind 0 i) (pageBehind va i) (pageBehind pa i) =
      some σ' := by
  have hbound := size.isLt
  have hnadd (i : ℕ) (hi : i ≤ count) : (pageBehind 0 i).toNat = i * 4096 := by
    have hsum := toNat_add_pages 0 i (by rw [show (0 : Word).toNat = 0 from rfl]; omega)
    rw [show (0 : Word).toNat = 0 from rfl, Nat.zero_add] at hsum
    exact hsum
  induction left generalizing i σ₁ fuel with
  | zero =>
    obtain ⟨fuel, rfl⟩ : ∃ n, fuel = n + 1 := ⟨fuel - 1, by omega⟩
    have hdone : ¬ pageBehind 0 i < size := by
      rw [BitVec.lt_def, hnadd i (by omega)]
      omega
    rw [Nat.add_zero] at hleft
    subst hleft
    rw [hrun] at hhere
    cases hhere
    rw [bootMapBytes5, if_neg hdone]
  | succ left ih =>
    obtain ⟨fuel, rfl⟩ : ∃ n, fuel = n + 1 := ⟨fuel - 1, by omega⟩
    have hmore : pageBehind 0 i < size := by
      rw [BitVec.lt_def, hnadd i (by omega)]
      omega
    obtain ⟨σ₂, hnext⟩ := mapPages5_prefix hrun (show i + 1 ≤ count by omega)
    have hstep : mapPage5 σ₁ pgdir (pageBehind va i) (pageBehind pa i ||| perm ||| pteP) =
        some σ₂ := by
      rw [mapPages5, hhere, Option.bind_some] at hnext
      exact hnext
    rw [bootMapBytes5, if_pos hmore, hstep, Option.bind_eq_bind, Option.bind_some,
      pageBehind_succ, pageBehind_succ, pageBehind_succ]
    exact ih (by omega) hnext (by omega)

/-- Both versions end and map the region, and nothing else where the directory is not its own page
table. -/
theorem boot_map_region_maps {size : Word} (hdir : Directory σ pgdir free)
    (hsize : size.toNat = count * 4096) (hfits : va.toNat + size.toNat ≤ 2 ^ 32)
    (hself : ∀ k < count, ¬ SelfMapped σ pgdir (pageBehind va k))
    (henough : (missingTables σ pgdir va count).card ≤ free.length) :
    ∃ σ₇ σ₅ free', bootMapRegion σ pgdir va size pa perm = some σ₇ ∧
      (∀ fuel, count < fuel → bootMapRegion5 fuel σ pgdir va size pa perm = some σ₅) ∧
      RegionMapped σ pgdir free va pa perm count σ₇ free' ∧ SameWords σ₇ σ₅ := by
  rw [hsize] at hfits
  obtain ⟨σ₇, σ₅, free', hrun, hrun₅, hmapped, -, hsame⟩ :=
    @Directory.mapPages σ pgdir free va pa perm count count hdir hself hfits henough le_rfl
  refine ⟨σ₇, σ₅, free', ?_, fun fuel hfuel => ?_, hmapped, hsame⟩
  · have hcount : (size / pgSize).toNat = count := by
      rw [BitVec.toNat_udiv, hsize, show pgSize.toNat = 4096 by decide]
      omega
    rw [bootMapRegion, hcount]
    exact hrun
  · have hzero (w : Word) : pageBehind w 0 = w := by simp [pageBehind]
    have hloop := bootMapBytes5_loop hsize hrun₅ (Nat.zero_add count) rfl hfuel
    rw [hzero, hzero, hzero] at hloop
    exact hloop

end Region

/-! ## A directory that is its own page table -/

/-- The directory in page 1 maps itself at `UVPT`, and page 2 is free. -/
def selfSpace : Phys where
  npages := 16
  pages := fun _ => ⟨none, 0⟩
  pageFreeList := some 2
  mem := fun page index =>
    if page = 1 ∧ index = uvptIndex then page2pa 1 ||| pteU ||| pteP else 0
  mmuBits := fun _ _ => 0

theorem selfSpace_table {d table : ℕ} (htable : entryPage (selfSpace.mem 1 d) = some table) :
    d = uvptIndex ∧ table = 1 := by
  simp only [selfSpace, true_and] at htable
  by_cases hself : d = uvptIndex
  · rw [if_pos hself, show entryPage (page2pa 1 ||| pteU ||| pteP) = some 1 by decide]
      at htable
    exact ⟨hself, (Option.some.inj htable).symm⟩
  · rw [if_neg hself, entryPage_zero] at htable
    cases htable

theorem selfSpace_directory : Directory selfSpace 1 [2] where
  threads := Threads.cons Threads.nil
  free_lt := by decide
  npages_le := by decide
  dir_not_free := by decide
  table_lt := fun d _ table htable => by
    rw [(selfSpace_table htable).2]
    decide
  table_not_free := fun d _ table htable => by
    rw [(selfSpace_table htable).2]
    decide
  table_inj := fun d _ e _ table hd he => by
    rw [(selfSpace_table hd).1, (selfSpace_table he).1]

/-- Page 5 at address 0. -/
theorem selfSpace_maps : ∃ σ₇ σ₅ free', bootMapRegion selfSpace 1 0 0x1000 0x5000 pteW = some σ₇ ∧
    (∀ fuel, 1 < fuel → bootMapRegion5 fuel selfSpace 1 0 0x1000 0x5000 pteW = some σ₅) ∧
    RegionMapped selfSpace 1 [2] 0 0x5000 pteW 1 σ₇ free' ∧ SameWords σ₇ σ₅ := by
  have hself (k : ℕ) (hk : k < 1) : ¬ SelfMapped selfSpace 1 (pageBehind 0 k) := by
    rw [Nat.lt_one_iff.mp hk]
    intro hsame
    exact absurd (selfSpace_table hsame).1 (by decide)
  exact boot_map_region_maps selfSpace_directory (by decide) (by decide) hself (by decide)

/-- The new page table appears at `UVPT`, in the window onto the page tables. -/
theorem selfSpace_window : ¬ ∀ (σ : Phys) (pgdir : ℕ) (free : List ℕ) (va size pa perm : Word)
    (count : ℕ), Directory σ pgdir free → va.toNat % 4096 = 0 → pa.toNat % 4096 = 0 →
      size.toNat = count * 4096 → va.toNat + size.toNat ≤ 2 ^ 32 → perm < 0x1000 →
      (missingTables σ pgdir va count).card ≤ free.length →
      ∃ σ', bootMapRegion σ pgdir va size pa perm = some σ' ∧
        ∀ va', (∀ k < count, pgnum va' ≠ pgnum (pageBehind va k)) →
          translation σ' pgdir va' = translation σ pgdir va' := by
  intro hall
  obtain ⟨σ', hrun, hothers⟩ := hall selfSpace 1 [2] 0 0x1000 0x5000 pteW 1 selfSpace_directory
    (by decide) (by decide) (by decide) (by decide) (by decide) (by decide)
  have hwindow := hothers uvpt (by decide)
  have hshown : (bootMapRegion selfSpace 1 0 0x1000 0x5000 pteW).map
      (fun σ' => (translation σ' 1 uvpt).isSome) = some true := by decide +kernel
  rw [hrun, Option.map_some, hwindow] at hshown
  exact absurd hshown (by decide)

end OsLabs.Jos
