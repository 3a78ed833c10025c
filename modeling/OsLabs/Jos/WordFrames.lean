import OsLabs.Jos.Env
import OsLabs.Jos.Primitives

/-!
# Which words the primitives write

The same primitives without any invariant: `Kept` lists the words of physical
memory that an operation may change, and every other word stays as it was.
-/

namespace OsLabs.Jos

open Function

/-- The pages that following the links from the head of the list reaches. -/
inductive OnFreeList (σ : Phys) : ℕ → Prop
  | head {page : ℕ} : σ.pageFreeList = some page → OnFreeList σ page
  | next {page after : ℕ} : OnFreeList σ page → σ.link page = some after → OnFreeList σ after

/-- The words outside `changed` are the same, flags of the MMU included. -/
def Kept (changed : ℕ → ℕ → Prop) (σ σ' : Phys) : Prop :=
  ∀ page index, ¬ changed page index →
    σ'.mem page index = σ.mem page index ∧ σ'.mmuBits page index = σ.mmuBits page index

namespace Kept

variable {changed changed' : ℕ → ℕ → Prop} {σ σ' σ'' : Phys}

theorem refl (changed : ℕ → ℕ → Prop) (σ : Phys) : Kept changed σ σ :=
  fun _ _ _ => ⟨rfl, rfl⟩

theorem trans (hfirst : Kept changed σ σ') (hsecond : Kept changed σ' σ'') :
    Kept changed σ σ'' := by
  intro page index hnot
  obtain ⟨hmem, hbits⟩ := hfirst page index hnot
  obtain ⟨hmem', hbits'⟩ := hsecond page index hnot
  exact ⟨hmem'.trans hmem, hbits'.trans hbits⟩

theorem mono (hkept : Kept changed σ σ')
    (himp : ∀ page index, changed page index → changed' page index) : Kept changed' σ σ' :=
  fun page index hnot => hkept page index fun hchanged => hnot (himp page index hchanged)

theorem load (hkept : Kept changed σ σ') {page index : ℕ} (hnot : ¬ changed page index) :
    σ'.load page index = σ.load page index := by
  obtain ⟨hmem, hbits⟩ := hkept page index hnot
  rw [Phys.load, Phys.load, hmem, hbits]

theorem of_eq (hmem : σ'.mem = σ.mem) (hbits : σ'.mmuBits = σ.mmuBits) :
    Kept changed σ σ' := by
  intro page index _
  rw [hmem, hbits]
  exact ⟨rfl, rfl⟩

theorem incRef (σ : Phys) (pp : ℕ) : Kept changed σ (σ.incRef pp) := of_eq rfl rfl

theorem pageFree (σ : Phys) (pp : ℕ) : Kept changed σ (pageFree σ pp) := of_eq rfl rfl

theorem pageDecref (σ : Phys) (pp : ℕ) : Kept changed σ (pageDecref σ pp) := by
  apply of_eq (mem_pageDecref σ pp)
  unfold Jos.pageDecref
  dsimp only
  split <;> rfl

theorem store (σ : Phys) (page index : ℕ) (value : Word) :
    Kept (fun other i => other = page ∧ i = index) σ (σ.store page index value) := by
  intro other i hnot
  by_cases hpage : other = page
  · subst hpage
    have hi : i ≠ index := fun hi => hnot ⟨rfl, hi⟩
    simp [Phys.store, hi]
  · simp [Phys.store, hpage]

theorem zeroPage (σ : Phys) (pp : ℕ) :
    Kept (fun page _ => page = pp) σ (σ.zeroPage pp) := by
  intro page index hnot
  simp [Phys.zeroPage, update_of_ne hnot]

theorem takePage (σ : Phys) (pg : ℕ) (zero : Bool) :
    Kept (fun page _ => page = pg) σ (takePage σ pg zero) := by
  cases zero with
  | false => exact of_eq rfl rfl
  | true =>
    intro page index hnot
    simp [Jos.takePage, Phys.zeroPage, update_of_ne hnot]

end Kept

/-! ## Walking -/

section Walk

variable {σ σ' walked : Phys} {dir pp : ℕ} {va perm ret : Word}

/-- The word that `pgdir_walk` finds for `va` when there is a page table. -/
def EntryOf (σ : Phys) (dir : ℕ) (va : Word) (page index : ℕ) : Prop :=
  entryPage (σ.mem dir (pdx va)) = some page ∧ index = ptx va

/-- The words that `pgdir_walk` writes when it makes a page table. -/
def TableMade (σ : Phys) (dir : ℕ) (va : Word) (page index : ℕ) : Prop :=
  σ.mem dir (pdx va) &&& pteP = 0 ∧
    (page = dir ∧ index = pdx va ∨ σ.pageFreeList = some page)

/-- An entry that is followed is the one in memory. -/
theorem pa2page_eq_some {index page target : ℕ}
    (hpresent : σ.mem page index &&& pteP ≠ 0)
    (hpage : σ.pa2page (pteAddr (σ.load page index)) = some target) :
    entryPage (σ.mem page index) = some target := by
  rw [Phys.pa2page] at hpage
  split at hpage
  · cases hpage
    rw [pgnum_pteAddr, pgnum_load]
    exact entryPage_eq_some.mpr ⟨hpresent, rfl⟩
  · cases hpage

/-- `pgdir_walk` finds the page table, or makes one of the first free page. -/
theorem pgdirWalk_some {create : Bool} {table index : ℕ}
    (hsmall : ∀ pg, σ.pageFreeList = some pg → pg < 2 ^ 20)
    (hwalk : pgdirWalk σ dir va create = some (some (table, index), walked)) :
    index = ptx va ∧
      (entryPage (σ.mem dir (pdx va)) = some table ∧ walked = σ ∨
        σ.mem dir (pdx va) &&& pteP = 0 ∧ create = true ∧ σ.pageFreeList = some table ∧
          walked = installTable σ dir (pdx va) table) := by
  by_cases hpresent : σ.mem dir (pdx va) &&& pteP = 0
  · cases create with
    | false =>
      simp only [pgdirWalk, load_present, hpresent, if_pos] at hwalk
      cases hwalk
    | true =>
      cases hhead : σ.pageFreeList with
      | none =>
        simp only [pgdirWalk, load_present, hpresent, if_pos, pageAlloc, hhead] at hwalk
        cases hwalk
      | some pg =>
        have halloc : pageAlloc σ true = (some pg, takePage σ pg true) := by
          rw [pageAlloc, hhead]
          rfl
        simp only [pgdirWalk, load_present, hpresent, if_pos, halloc, Option.bind_eq_bind,
          Option.bind_eq_some_iff] at hwalk
        obtain ⟨found, hfound, hwalk⟩ := hwalk
        cases hwalk
        have hentry : entryPage ((installTable σ dir (pdx va) pg).mem dir (pdx va)) = some pg := by
          rw [installTable, mem_store_self, update_self, entryPage_tableEntry (hsmall pg hhead)]
        have hsame := pa2page_eq_some (σ := installTable σ dir (pdx va) pg)
          (entryPage_eq_some.mp hentry).1 hfound
        rw [hentry] at hsame
        cases hsame
        exact ⟨rfl, Or.inr ⟨hpresent, rfl, rfl, rfl⟩⟩
  · simp only [pgdirWalk, load_present, if_neg hpresent, Option.bind_eq_bind,
      Option.bind_eq_some_iff] at hwalk
    obtain ⟨found, hfound, hwalk⟩ := hwalk
    cases hwalk
    exact ⟨rfl, Or.inl ⟨pa2page_eq_some hpresent hfound, rfl⟩⟩

theorem Kept.installTable (σ : Phys) (dir d pg : ℕ) :
    Kept (fun page index => page = dir ∧ index = d ∨ page = pg) σ (installTable σ dir d pg) := by
  have htake : Kept (fun page index => page = dir ∧ index = d ∨ page = pg) σ
      ((Jos.takePage σ pg true).incRef pg) :=
    ((Kept.takePage σ pg true).mono fun _ _ h => Or.inr h).trans (Kept.incRef _ pg)
  exact htake.trans ((Kept.store _ dir d _).mono fun _ _ h => Or.inl h)

end Walk

/-! ## Changing an entry -/

section Entries

variable {σ σ' walked : Phys} {dir pp : ℕ} {va perm ret : Word}

/-- `page_lookup` finds the entry for `va`. -/
theorem pageLookup_place {pg table index : ℕ}
    (hlookup : pageLookup σ dir va = some (some (pg, (table, index)))) :
    EntryOf σ dir va table index := by
  simp only [pageLookup, Option.bind_eq_bind, Option.bind_eq_some_iff] at hlookup
  obtain ⟨⟨place, walked⟩, hwalk, hlookup⟩ := hlookup
  cases place with
  | none => cases hlookup
  | some place =>
    obtain ⟨found, at'⟩ := place
    dsimp only at hlookup
    split at hlookup
    · cases hlookup
    · simp only [Option.bind_eq_some_iff] at hlookup
      obtain ⟨page, -, hlookup⟩ := hlookup
      cases hlookup
      by_cases hpresent : σ.mem dir (pdx va) &&& pteP = 0
      · simp only [pgdirWalk, load_present, hpresent, if_pos] at hwalk
        cases hwalk
      · simp only [pgdirWalk, load_present, if_neg hpresent, Option.bind_eq_bind,
          Option.bind_eq_some_iff] at hwalk
        obtain ⟨target, htarget, hwalk⟩ := hwalk
        cases hwalk
        exact ⟨pa2page_eq_some hpresent htarget, rfl⟩

/-- `page_remove` writes at most the entry for `va`, and writes zero. -/
theorem pageRemove_kept (hremove : pageRemove σ dir va = some σ') :
    Kept (EntryOf σ dir va) σ σ' ∧
      ∀ page index, σ'.mem page index = σ.mem page index ∨ σ'.mem page index = 0 := by
  simp only [pageRemove, Option.bind_eq_bind, Option.bind_eq_some_iff] at hremove
  obtain ⟨found, hlookup, hremove⟩ := hremove
  cases found with
  | none =>
    cases hremove
    exact ⟨Kept.refl _ _, fun _ _ => Or.inl rfl⟩
  | some place =>
    obtain ⟨pg, table, index⟩ := place
    cases hremove
    have hplace := pageLookup_place hlookup
    constructor
    · apply (Kept.pageDecref σ pg).trans
      apply (Kept.store (pageDecref σ pg) table index 0).mono
      rintro page i ⟨rfl, rfl⟩
      exact hplace
    · intro page i
      by_cases hpage : page = table
      · subst hpage
        rw [mem_store_self, mem_pageDecref]
        by_cases hi : i = index
        · subst hi
          exact Or.inr (update_self _ _ _)
        · exact Or.inl (update_of_ne hi _ _)
      · left
        rw [mem_store_of_ne _ _ _ _ hpage, mem_pageDecref]

/-- `page_insert` writes at most the entry for `va`, and a new page table. -/
theorem pageInsert_kept (hsmall : ∀ pg, σ.pageFreeList = some pg → pg < 2 ^ 20)
    (hinsert : pageInsert σ dir pp va perm = some (ret, σ')) :
    Kept (fun page index => EntryOf σ dir va page index ∨ TableMade σ dir va page index) σ σ' := by
  cases hwalk : pgdirWalk σ dir va true with
  | none => simp [pageInsert, hwalk] at hinsert
  | some walk =>
    obtain ⟨place, walked⟩ := walk
    cases place with
    | none =>
      obtain ⟨rfl, -, -⟩ := pgdirWalk_fails hwalk
      simp only [pageInsert, hwalk, Option.bind_eq_bind, Option.bind_some] at hinsert
      cases hinsert
      exact Kept.refl _ _
    | some place =>
      obtain ⟨table, index⟩ := place
      rw [pageInsert_of_walk hwalk] at hinsert
      obtain ⟨final, hat, hpair⟩ := Option.map_eq_some_iff.mp hinsert
      cases hpair
      have hat' : Kept (fun page i => EntryOf walked dir va page i ∨
          page = table ∧ i = index) walked σ' := by
        have hlast : ∀ removed : Phys, Kept (fun page i => EntryOf walked dir va page i ∨
            page = table ∧ i = index) removed
              (removed.store table index (page2pa pp ||| perm ||| pteP)) :=
          fun removed => (Kept.store removed table index _).mono fun _ _ h => Or.inr h
        by_cases hpresent : (walked.incRef pp).load table index &&& pteP = 0
        · rw [insertAt, if_pos hpresent] at hat
          cases hat
          exact (Kept.incRef walked pp).trans (hlast _)
        · rw [insertAt, if_neg hpresent] at hat
          obtain ⟨removed, hremoved, hat⟩ := Option.bind_eq_some_iff.mp hat
          cases hat
          have hremove := (pageRemove_kept hremoved).1
          apply ((Kept.incRef walked pp).trans (hremove.mono fun _ _ h => Or.inl h)).trans
          exact hlast removed
      obtain ⟨rfl, ⟨hentry, rfl⟩ | ⟨habsent, -, hhead, rfl⟩⟩ := pgdirWalk_some hsmall hwalk
      · apply hat'.mono
        rintro page i (hplace | ⟨rfl, rfl⟩)
        · exact Or.inl hplace
        · exact Or.inl ⟨hentry, rfl⟩
      · have hmade : Kept (fun page i => EntryOf σ dir va page i ∨ TableMade σ dir va page i) σ
            (installTable σ dir (pdx va) table) := by
          apply (Kept.installTable σ dir (pdx va) table).mono
          rintro page i (hdir | rfl)
          · exact Or.inr ⟨habsent, Or.inl hdir⟩
          · exact Or.inr ⟨habsent, Or.inr hhead⟩
        apply hmade.trans
        apply hat'.mono
        rintro page i (⟨hentry, rfl⟩ | ⟨rfl, rfl⟩)
        · rw [installTable, mem_store_self, update_self,
            entryPage_tableEntry (hsmall table hhead)] at hentry
          cases hentry
          exact Or.inr ⟨habsent, Or.inr hhead⟩
        · exact Or.inr ⟨habsent, Or.inr hhead⟩

/-- A page table that `page_insert` makes is empty but for the new entry. -/
theorem pageInsert_made (hsmall : ∀ pg, σ.pageFreeList = some pg → pg < 2 ^ 20)
    (hdir : σ.pageFreeList ≠ some dir) (habsent : σ.mem dir (pdx va) &&& pteP = 0)
    (hinsert : pageInsert σ dir pp va perm = some (0, σ')) :
    ∃ table, entryPage (σ'.mem dir (pdx va)) = some table ∧
      ∀ index, index ≠ ptx va → σ'.mem table index = 0 := by
  cases hwalk : pgdirWalk σ dir va true with
  | none => simp [pageInsert, hwalk] at hinsert
  | some walk =>
    obtain ⟨place, walked⟩ := walk
    cases place with
    | none =>
      simp only [pageInsert, hwalk, Option.bind_eq_bind, Option.bind_some] at hinsert
      cases hinsert
    | some place =>
      obtain ⟨table, index⟩ := place
      rw [pageInsert_of_walk hwalk] at hinsert
      obtain ⟨final, hat, hpair⟩ := Option.map_eq_some_iff.mp hinsert
      cases hpair
      obtain ⟨rfl, ⟨hentry, -⟩ | ⟨-, -, hhead, rfl⟩⟩ := pgdirWalk_some hsmall hwalk
      · exact absurd habsent (entryPage_eq_some.mp hentry).1
      · have hne : dir ≠ table := fun hsame => hdir (hsame ▸ hhead)
        have hempty : ∀ i, (installTable σ dir (pdx va) table).mem table i = 0 := by
          intro i
          rw [installTable, mem_store_of_ne _ _ _ _ hne.symm, mem_incRef, mem_takePage_self]
        -- the entry is absent in an empty table, so nothing is removed
        have hload : ((installTable σ dir (pdx va) table).incRef pp).load table (ptx va) &&&
            pteP = 0 := by
          rw [load_present, mem_incRef, hempty]
          decide
        simp only [insertAt, hload, if_pos, Option.bind_eq_bind, Option.bind_some] at hat
        cases hat
        refine ⟨table, ?_, fun i hi => ?_⟩
        · rw [mem_store_of_ne _ _ _ _ hne, mem_incRef, installTable, mem_store_self, update_self,
            entryPage_tableEntry (hsmall table hhead)]
        · rw [mem_store_self, update_of_ne hi, mem_incRef, hempty]

end Entries

/-! ## Freeing an address space -/

section Free

variable {σ σ' : Phys} {dir pdeno pt count : ℕ}

/-- The user half of the directory, and its page tables. -/
def OfSpace (σ : Phys) (dir page index : ℕ) : Prop :=
  page = dir ∧ index < userPdes ∨ ∃ d < userPdes, entryPage (σ.mem dir d) = some page

/-- `σ'` is `σ` with some words of the address space `dir` set to zero. -/
structure Cleared (σ : Phys) (dir : ℕ) (σ' : Phys) : Prop where
  kept : Kept (OfSpace σ dir) σ σ'
  zeroed : ∀ page index, σ'.mem page index = σ.mem page index ∨ σ'.mem page index = 0

theorem Cleared.refl (σ : Phys) (dir : ℕ) : Cleared σ dir σ :=
  ⟨Kept.refl _ _, fun _ _ => Or.inl rfl⟩

/-- The page tables that are left are old ones. -/
theorem Cleared.table (hcleared : Cleared σ dir σ') {d table : ℕ}
    (htable : entryPage (σ'.mem dir d) = some table) : entryPage (σ.mem dir d) = some table := by
  rcases hcleared.zeroed dir d with hsame | hzero
  · rw [← hsame]
    exact htable
  · rw [hzero, entryPage_zero] at htable
    cases htable

theorem Cleared.step {σ'' : Phys} (hcleared : Cleared σ dir σ')
    (hkept : Kept (OfSpace σ' dir) σ' σ'')
    (hzeroed : ∀ page index, σ''.mem page index = σ'.mem page index ∨ σ''.mem page index = 0) :
    Cleared σ dir σ'' := by
  constructor
  · apply hcleared.kept.trans
    apply hkept.mono
    rintro page index (hdir | ⟨d, hd, htable⟩)
    · exact Or.inl hdir
    · exact Or.inr ⟨d, hd, hcleared.table htable⟩
  · intro page index
    rcases hzeroed page index with hsame | hzero
    · rw [hsame]
      exact hcleared.zeroed page index
    · exact Or.inr hzero

theorem unmapTable_cleared (hd : pdeno < userPdes) (hcount : count ≤ nptEntries)
    (hrun : unmapTable σ dir pdeno pt count = some σ') : Cleared σ dir σ' := by
  induction count generalizing σ' with
  | zero =>
    cases hrun
    exact Cleared.refl σ dir
  | succ pteno ih =>
    simp only [unmapTable, Option.bind_eq_bind, Option.bind_eq_some_iff] at hrun
    obtain ⟨before, hbefore, hrun⟩ := hrun
    have hcleared := ih (Nat.le_of_succ_le hcount) hbefore
    split at hrun
    · cases hrun
      exact hcleared
    · obtain ⟨hkept, hzeroed⟩ := pageRemove_kept hrun
      apply hcleared.step _ hzeroed
      apply hkept.mono
      rintro page index ⟨htable, -⟩
      rw [userPdes_eq] at hd
      rw [nptEntries] at hcount
      rw [pdx_pgaddr (by omega) (by omega)] at htable
      exact Or.inr ⟨pdeno, by rw [userPdes_eq]; exact hd, htable⟩

theorem freeTables_cleared (hcount : count ≤ userPdes)
    (hrun : freeTables σ dir count = some σ') : Cleared σ dir σ' := by
  induction count generalizing σ' with
  | zero =>
    cases hrun
    exact Cleared.refl σ dir
  | succ pdeno ih =>
    simp only [freeTables, Option.bind_eq_bind, Option.bind_eq_some_iff] at hrun
    obtain ⟨before, hbefore, hrun⟩ := hrun
    have hcleared := ih (Nat.le_of_succ_le hcount) hbefore
    split at hrun
    · cases hrun
      exact hcleared
    · simp only [Option.bind_eq_some_iff] at hrun
      obtain ⟨table, -, unmapped, hunmapped, hrun⟩ := hrun
      cases hrun
      have htables := unmapTable_cleared hcount le_rfl hunmapped
      have hunmap := hcleared.step htables.kept htables.zeroed
      have hstore : Cleared σ dir (unmapped.store dir pdeno 0) := by
        apply hunmap.step
        · apply (Kept.store unmapped dir pdeno 0).mono
          rintro page index ⟨rfl, rfl⟩
          exact Or.inl ⟨rfl, hcount⟩
        · intro page index
          by_cases hpage : page = dir
          · subst hpage
            rw [mem_store_self]
            by_cases hindex : index = pdeno
            · subst hindex
              exact Or.inr (update_self _ _ _)
            · exact Or.inl (update_of_ne hindex _ _)
          · exact Or.inl (congrFun (mem_store_of_ne _ _ _ _ hpage) index)
      apply hstore.step (Kept.pageDecref _ table)
      intro page index
      rw [mem_pageDecref]
      exact Or.inl rfl

end Free

end OsLabs.Jos
