import OsLabs.Core.IntrusiveList
import OsLabs.Core.RefLedger
import OsLabs.Jos.Pmap

/-!
# Page tables as slots

The user halves of a family of page directories, seen as a finite set of
slots.  `wordAt` is the entry the kernel wrote into a slot, whichever physical
page it lives in, and `tableSlot` the page that this entry references.  The
lemmas of this file say how one write to physical memory changes that view;
they are what the two-level layout contributes to everything proved later.
-/

namespace OsLabs.Jos

open Function
open OsLabs.IntrusiveList
open OsLabs.RefLedger

/-! ## Entries as the MMU leaves them -/

theorem load_and (σ : Phys) (page index : ℕ) {mask : Word}
    (hmask : (pteA ||| pteD) &&& mask = 0) :
    σ.load page index &&& mask = σ.mem page index &&& mask := by
  unfold Phys.load
  split
  · rfl
  · rw [BitVec.and_or_distrib_right, BitVec.and_assoc, hmask]
    simp

@[simp]
theorem load_present (σ : Phys) (page index : ℕ) :
    σ.load page index &&& pteP = σ.mem page index &&& pteP :=
  load_and σ page index (by decide)

@[simp]
theorem pgnum_load (σ : Phys) (page index : ℕ) :
    pgnum (σ.load page index) = pgnum (σ.mem page index) := by
  rw [← pgnum_pteAddr, pteAddr, load_and σ page index (by decide), ← pteAddr, pgnum_pteAddr]

theorem entryPage_eq_none {entry : Word} : entryPage entry = none ↔ entry &&& pteP = 0 := by
  unfold entryPage
  split <;> simp_all

theorem entryPage_eq_some {entry : Word} {page : ℕ} :
    entryPage entry = some page ↔ entry &&& pteP ≠ 0 ∧ pgnum entry = page := by
  unfold entryPage
  split <;> simp_all

/-- The page of a present entry passes the check of `KADDR`. -/
theorem pa2page_load {σ : Phys} {page index target : ℕ}
    (hentry : entryPage (σ.mem page index) = some target) (hbound : target < σ.npages) :
    σ.pa2page (pteAddr (σ.load page index)) = some target := by
  obtain ⟨-, hpage⟩ := entryPage_eq_some.mp hentry
  rw [Phys.pa2page, pgnum_pteAddr, pgnum_load, hpage, if_pos hbound]

/-! ## The slots of a family of page directories -/

/-- A user entry of one of the directories: of the directory itself, or of the
page table at one of its indices. -/
inductive TableKey (ι : Type*)
  | pde (i : ι) (d : ℕ)
  | pte (i : ι) (d t : ℕ)
  deriving DecidableEq

variable {ι : Type*} [Fintype ι] [DecidableEq ι]

/-- The entries below `UTOP`. -/
def userKeys (ι : Type*) [Fintype ι] [DecidableEq ι] : Finset (TableKey ι) :=
  ((Finset.univ ×ˢ Finset.range userPdes).image fun place => .pde place.1 place.2) ∪
    ((Finset.univ ×ˢ Finset.range userPdes ×ˢ Finset.range nptEntries).image
      fun place => .pte place.1 place.2.1 place.2.2)

@[simp]
theorem pde_mem_userKeys {i : ι} {d : ℕ} : .pde i d ∈ userKeys ι ↔ d < userPdes := by
  simp [userKeys]

@[simp]
theorem pte_mem_userKeys {i : ι} {d t : ℕ} :
    .pte i d t ∈ userKeys ι ↔ d < userPdes ∧ t < nptEntries := by
  simp [userKeys]

/-- The place of the entry that maps `va` in directory `i`. -/
def pteKey (i : ι) (va : Word) : TableKey ι := .pte i (pdx va) (ptx va)

omit [Fintype ι] [DecidableEq ι] in
theorem pteKey_pgaddr (i : ι) {d t : ℕ} (hd : d < userPdes) (ht : t < nptEntries) :
    pteKey i (pgaddr d t) = .pte i d t := by
  rw [userPdes_eq] at hd
  rw [nptEntries] at ht
  rw [pteKey, pdx_pgaddr (by omega) ht, ptx_pgaddr (by omega) ht]

theorem pteKey_mem {va : Word} (hva : va < utop) (i : ι) : pteKey i va ∈ userKeys ι :=
  pte_mem_userKeys.mpr ⟨pdx_lt_userPdes hva, ptx_lt va⟩

omit [Fintype ι] [DecidableEq ι] in
/-- Addresses share an entry exactly when they are on one page. -/
theorem pteKey_eq_iff {i j : ι} {va vb : Word} :
    pteKey i va = pteKey j vb ↔ i = j ∧ pgnum va = pgnum vb := by
  have hva := ptx_lt va
  have hvb := ptx_lt vb
  rw [nptEntries] at hva hvb
  rw [pteKey, pteKey, TableKey.pte.injEq, pgnum_eq_pdx_ptx, pgnum_eq_pdx_ptx]
  constructor
  · rintro ⟨rfl, hdx, htx⟩
    exact ⟨rfl, by rw [hdx, htx]⟩
  · rintro ⟨rfl, hsame⟩
    exact ⟨rfl, by omega, by omega⟩

/-- The entry written at index `d` of a directory, zero where there is none. -/
def pdeWord (σ : Phys) (dirs : ι → Option ℕ) (i : ι) (d : ℕ) : Word :=
  match dirs i with
  | none => 0
  | some dir => σ.mem dir d

/-- The entry written into a slot: zero where there is no directory or no page
table to hold it. -/
def wordAt (σ : Phys) (dirs : ι → Option ℕ) : TableKey ι → Word
  | .pde i d => pdeWord σ dirs i d
  | .pte i d t =>
      match entryPage (pdeWord σ dirs i d) with
      | none => 0
      | some table => σ.mem table t

/-- The page a slot references. -/
def tableSlot (σ : Phys) (dirs : ι → Option ℕ) (key : TableKey ι) : Option ℕ :=
  entryPage (wordAt σ dirs key)

section Views

variable {σ : Phys} {dirs : ι → Option ℕ}

omit [Fintype ι] [DecidableEq ι] in
theorem wordAt_pde {i : ι} {dir : ℕ} (hdir : dirs i = some dir) (d : ℕ) :
    wordAt σ dirs (.pde i d) = σ.mem dir d := by
  rw [wordAt, pdeWord, hdir]

omit [Fintype ι] [DecidableEq ι] in
theorem wordAt_pde_none {i : ι} (hdir : dirs i = none) (d : ℕ) :
    wordAt σ dirs (.pde i d) = 0 := by
  rw [wordAt, pdeWord, hdir]

omit [Fintype ι] [DecidableEq ι] in
theorem wordAt_pte {i : ι} {d table : ℕ} (htable : tableSlot σ dirs (.pde i d) = some table)
    (t : ℕ) : wordAt σ dirs (.pte i d t) = σ.mem table t := by
  rw [tableSlot, wordAt] at htable
  rw [wordAt, htable]

omit [Fintype ι] [DecidableEq ι] in
theorem wordAt_pte_none {i : ι} {d : ℕ} (htable : tableSlot σ dirs (.pde i d) = none)
    (t : ℕ) : wordAt σ dirs (.pte i d t) = 0 := by
  rw [tableSlot, wordAt] at htable
  rw [wordAt, htable]

omit [Fintype ι] [DecidableEq ι] in
/-- A mapping exists only under a page table. -/
theorem table_of_pte {i : ι} {d t page : ℕ}
    (hslot : tableSlot σ dirs (.pte i d t) = some page) :
    ∃ table, tableSlot σ dirs (.pde i d) = some table := by
  by_contra hnone
  rw [not_exists] at hnone
  have habsent := Option.eq_none_iff_forall_ne_some.mpr hnone
  rw [tableSlot, wordAt_pte_none habsent] at hslot
  simp at hslot

end Views

/-- Page directories and page tables are used for nothing else: a directory is
referenced by no entry, and a page table by one directory entry only. -/
structure Exclusive (σ : Phys) (dirs : ι → Option ℕ) : Prop where
  dir_inj : ∀ i j dir, dirs i = some dir → dirs j = some dir → i = j
  dir_unref : ∀ i dir, dirs i = some dir →
    ∀ key ∈ userKeys ι, tableSlot σ dirs key ≠ some dir
  table_unique : ∀ i d table, d < userPdes → tableSlot σ dirs (.pde i d) = some table →
    ∀ key ∈ userKeys ι, tableSlot σ dirs key = some table → key = .pde i d

/-- A page that holds no user entries. -/
def NotTable (σ : Phys) (dirs : ι → Option ℕ) (page : ℕ) : Prop :=
  (∀ i, dirs i ≠ some page) ∧
    ∀ i d, d < userPdes → tableSlot σ dirs (.pde i d) ≠ some page

section Frames

variable {σ σ' : Phys} {dirs : ι → Option ℕ}

/-- The view depends only on the pages that hold entries. -/
theorem wordAt_congr
    (hdirs : ∀ i dir, dirs i = some dir → ∀ d < userPdes, σ'.mem dir d = σ.mem dir d)
    (htables : ∀ i d table, d < userPdes → tableSlot σ dirs (.pde i d) = some table →
      ∀ t < nptEntries, σ'.mem table t = σ.mem table t) :
    ∀ key ∈ userKeys ι, wordAt σ' dirs key = wordAt σ dirs key := by
  have hpde : ∀ i d, d < userPdes →
      wordAt σ' dirs (.pde i d) = wordAt σ dirs (.pde i d) := by
    intro i d hd
    cases hdir : dirs i with
    | none => rw [wordAt_pde_none hdir, wordAt_pde_none hdir]
    | some dir => rw [wordAt_pde hdir, wordAt_pde hdir, hdirs i dir hdir d hd]
  intro key hkey
  cases key with
  | pde i d => exact hpde i d (pde_mem_userKeys.mp hkey)
  | pte i d t =>
      obtain ⟨hd, ht⟩ := pte_mem_userKeys.mp hkey
      have hsame : tableSlot σ' dirs (.pde i d) = tableSlot σ dirs (.pde i d) := by
        rw [tableSlot, tableSlot, hpde i d hd]
      cases htable : tableSlot σ dirs (.pde i d) with
      | none => rw [wordAt_pte_none htable, wordAt_pte_none (hsame.trans htable)]
      | some table =>
          rw [wordAt_pte htable, wordAt_pte (hsame.trans htable),
            htables i d table hd htable t ht]

/-- Writes to pages without user entries do not change the view. -/
theorem wordAt_of_notTable {page : ℕ} (hpage : NotTable σ dirs page)
    (hother : ∀ other, other ≠ page → σ'.mem other = σ.mem other) :
    ∀ key ∈ userKeys ι, wordAt σ' dirs key = wordAt σ dirs key := by
  refine wordAt_congr (fun i dir hdir d _ => ?_) (fun i d table hd htable t _ => ?_)
  · rw [hother dir fun hsame => hpage.1 i (hsame ▸ hdir)]
  · rw [hother table fun hsame => hpage.2 i d hd (hsame ▸ htable)]

/-- Writing the entry at index `t` of the page table of `(i, d)` changes that
slot and no other. -/
theorem wordAt_store_pte (hexcl : Exclusive σ dirs) {i : ι} {d t table : ℕ}
    (hd : d < userPdes) (htable : tableSlot σ dirs (.pde i d) = some table) (value : Word) :
    ∀ key ∈ userKeys ι, wordAt (σ.store table t value) dirs key =
      update (wordAt σ dirs) (.pte i d t) value key := by
  have hpde : ∀ j e, e < userPdes →
      wordAt (σ.store table t value) dirs (.pde j e) = wordAt σ dirs (.pde j e) := by
    intro j e _
    cases hdir : dirs j with
    | none => rw [wordAt_pde_none hdir, wordAt_pde_none hdir]
    | some dir =>
        have hne : dir ≠ table := fun hsame =>
          hexcl.dir_unref j dir hdir _ (pde_mem_userKeys.mpr hd) (hsame ▸ htable)
        rw [wordAt_pde hdir, wordAt_pde hdir, Phys.store]
        exact congrFun (update_of_ne hne _ _) e
  intro key hkey
  cases key with
  | pde j e =>
      rw [update_of_ne (by simp), hpde j e (pde_mem_userKeys.mp hkey)]
  | pte j e u =>
      obtain ⟨he, hu⟩ := pte_mem_userKeys.mp hkey
      have hslot : tableSlot (σ.store table t value) dirs (.pde j e) =
          tableSlot σ dirs (.pde j e) := by
        rw [tableSlot, tableSlot, hpde j e he]
      cases hother : tableSlot σ dirs (.pde j e) with
      | none =>
          have hne : TableKey.pte j e u ≠ .pte i d t := by
            rintro ⟨⟩
            rw [htable] at hother
            cases hother
          rw [update_of_ne hne, wordAt_pte_none hother,
            wordAt_pte_none (hslot.trans hother)]
      | some other =>
          rw [wordAt_pte (hslot.trans hother)]
          by_cases hsame : other = table
          · subst hsame
            have hkeys := hexcl.table_unique i d other hd htable _
              (pde_mem_userKeys.mpr he) hother
            cases hkeys
            by_cases hindex : u = t
            · subst hindex
              simp [Phys.store]
            · rw [update_of_ne (by simpa using hindex), wordAt_pte hother]
              simp [Phys.store, update_of_ne hindex]
          · have hne : TableKey.pte j e u ≠ .pte i d t := by
              rintro ⟨⟩
              rw [htable] at hother
              cases hother
              exact hsame rfl
            rw [update_of_ne hne, wordAt_pte hother]
            exact congrFun (update_of_ne hsame _ _) u

/-- Installing a cleared page as the page table of an absent directory entry
changes that entry only: no mapping appears or disappears. -/
theorem wordAt_install (hexcl : Exclusive σ dirs) {i : ι} {dir d page : ℕ} {value : Word}
    (hdir : dirs i = some dir) (hd : d < userPdes)
    (habsent : tableSlot σ dirs (.pde i d) = none) (hpage : NotTable σ dirs page)
    (hvalue : entryPage value = some page) (hzero : ∀ t, σ'.mem page t = 0)
    (hentry : ∀ e, σ'.mem dir e = update (σ.mem dir) d value e)
    (hother : ∀ other, other ≠ page → other ≠ dir → σ'.mem other = σ.mem other) :
    ∀ key ∈ userKeys ι, wordAt σ' dirs key = update (wordAt σ dirs) (.pde i d) value key := by
  have hpde : ∀ j e, e < userPdes →
      wordAt σ' dirs (.pde j e) = update (wordAt σ dirs) (.pde i d) value (.pde j e) := by
    intro j e _
    cases hdirj : dirs j with
    | none =>
        have hne : TableKey.pde j e ≠ .pde i d := by
          rintro ⟨⟩
          rw [hdir] at hdirj
          cases hdirj
        rw [update_of_ne hne, wordAt_pde_none hdirj, wordAt_pde_none hdirj]
    | some dirj =>
        rw [wordAt_pde hdirj]
        by_cases hsame : j = i
        · subst hsame
          rw [hdir] at hdirj
          cases hdirj
          rw [hentry]
          by_cases hindex : e = d
          · subst hindex
            rw [update_self, update_self]
          · rw [update_of_ne hindex, update_of_ne (by simpa using hindex), wordAt_pde hdir]
        · have hne : dirj ≠ dir := fun h => hsame (hexcl.dir_inj j i dirj hdirj (h ▸ hdir))
          rw [hother dirj (fun h => hpage.1 j (h ▸ hdirj)) hne,
            update_of_ne (by simp [hsame]), wordAt_pde hdirj]
  intro key hkey
  cases key with
  | pde j e => exact hpde j e (pde_mem_userKeys.mp hkey)
  | pte j e u =>
      obtain ⟨he, hu⟩ := pte_mem_userKeys.mp hkey
      rw [update_of_ne (by simp)]
      by_cases hsame : TableKey.pde j e = .pde i d
      · have hslot : tableSlot σ' dirs (.pde j e) = some page := by
          rw [tableSlot, hpde j e he, hsame, update_self, hvalue]
        rw [wordAt_pte hslot, hzero]
        cases hsame
        rw [wordAt_pte_none habsent]
      · have hslot : tableSlot σ' dirs (.pde j e) = tableSlot σ dirs (.pde j e) := by
          rw [tableSlot, tableSlot, hpde j e he, update_of_ne hsame]
        cases htable : tableSlot σ dirs (.pde j e) with
        | none => rw [wordAt_pte_none htable, wordAt_pte_none (hslot.trans htable)]
        | some table =>
            rw [wordAt_pte htable, wordAt_pte (hslot.trans htable),
              hother table (fun h => hpage.2 j e he (h ▸ htable))
                (fun h => hexcl.dir_unref i dir hdir _ (pde_mem_userKeys.mpr he)
                  (h ▸ htable))]

/-- Clearing a directory entry whose page table maps nothing changes that
slot only. -/
theorem tableSlot_clear_pde (hexcl : Exclusive σ dirs) {i : ι} {dir d : ℕ}
    (hdir : dirs i = some dir) (hd : d < userPdes)
    (hempty : ∀ t < nptEntries, tableSlot σ dirs (.pte i d t) = none) :
    ∀ key ∈ userKeys ι, tableSlot (σ.store dir d 0) dirs key =
      update (tableSlot σ dirs) (.pde i d) none key := by
  have hpde : ∀ j e, e < userPdes → wordAt (σ.store dir d 0) dirs (.pde j e) =
      update (wordAt σ dirs) (.pde i d) 0 (.pde j e) := by
    intro j e _
    cases hdirj : dirs j with
    | none =>
        have hne : TableKey.pde j e ≠ .pde i d := by
          rintro ⟨⟩
          rw [hdir] at hdirj
          cases hdirj
        rw [update_of_ne hne, wordAt_pde_none hdirj, wordAt_pde_none hdirj]
    | some dirj =>
        rw [wordAt_pde hdirj]
        by_cases hsame : j = i
        · subst hsame
          rw [hdir] at hdirj
          cases hdirj
          by_cases hindex : e = d
          · subst hindex
            simp [Phys.store]
          · rw [update_of_ne (by simpa using hindex), wordAt_pde hdir]
            simp [Phys.store, update_of_ne hindex]
        · have hne : dirj ≠ dir := fun h => hsame (hexcl.dir_inj j i dirj hdirj (h ▸ hdir))
          rw [update_of_ne (by simp [hsame]), wordAt_pde hdirj]
          exact congrFun (update_of_ne hne _ _) e
  intro key hkey
  cases key with
  | pde j e =>
      rw [tableSlot, hpde j e (pde_mem_userKeys.mp hkey)]
      by_cases hsame : TableKey.pde j e = .pde i d
      · rw [hsame, update_self, update_self, entryPage_zero]
      · rw [update_of_ne hsame, update_of_ne hsame, tableSlot]
  | pte j e u =>
      obtain ⟨he, hu⟩ := pte_mem_userKeys.mp hkey
      rw [update_of_ne (by simp)]
      by_cases hsame : TableKey.pde j e = .pde i d
      · have hslot : tableSlot (σ.store dir d 0) dirs (.pde j e) = none := by
          rw [tableSlot, hpde j e he, hsame, update_self, entryPage_zero]
        rw [tableSlot, wordAt_pte_none hslot, entryPage_zero]
        cases hsame
        exact (hempty u hu).symm
      · have hslot : tableSlot (σ.store dir d 0) dirs (.pde j e) =
            tableSlot σ dirs (.pde j e) := by
          rw [tableSlot, tableSlot, hpde j e he, update_of_ne hsame]
        cases htable : tableSlot σ dirs (.pde j e) with
        | none =>
            rw [tableSlot, tableSlot, wordAt_pte_none htable,
              wordAt_pte_none (hslot.trans htable)]
        | some table =>
            have hne : table ≠ dir := fun h =>
              hexcl.dir_unref i dir hdir _ (pde_mem_userKeys.mpr he) (h ▸ htable)
            rw [tableSlot, tableSlot, wordAt_pte htable, wordAt_pte (hslot.trans htable)]
            exact congrArg entryPage (congrFun (update_of_ne hne _ _) u)

end Frames

omit [Fintype ι] [DecidableEq ι] in
/-- What changes an entry changes the page it references. -/
theorem tableSlot_update [DecidableEq (TableKey ι)] {σ σ' : Phys} {dirs : ι → Option ℕ}
    {key place : TableKey ι} {value : Word}
    (hword : wordAt σ' dirs key = update (wordAt σ dirs) place value key) :
    tableSlot σ' dirs key = update (tableSlot σ dirs) place (entryPage value) key := by
  rw [tableSlot, hword]
  by_cases hsame : key = place
  · subst hsame
    rw [update_self, update_self]
  · rw [update_of_ne hsame, update_of_ne hsame, tableSlot]

end OsLabs.Jos
