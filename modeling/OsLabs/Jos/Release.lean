import OsLabs.Jos.Env
import OsLabs.Jos.Primitives

/-!
# Giving up an address space

`env_free` takes the entries of one space away, page table by page table.
`EntriesGone` says what is left when some entries are gone, and one theorem for
each loop of `env_free` says which ones are.
-/

namespace OsLabs.Jos

open Function
open OsLabs.IntrusiveList
open OsLabs.RefLedger

variable {ι : Type*} [Fintype ι] [DecidableEq ι]

/-- The directory that an entry is reached through. -/
def TableKey.space : TableKey ι → ι
  | .pde i _ => i
  | .pte i _ _ => i

/-- The directory index that an entry belongs to. -/
def TableKey.index : TableKey ι → ℕ
  | .pde _ d => d
  | .pte _ d _ => d

omit [Fintype ι] in
/-- The entries of one space do not depend on the directories of others. -/
theorem wordAt_update_dirs (σ : Phys) (dirs : ι → Option ℕ) {i : ι} (dir : Option ℕ)
    {key : TableKey ι} (hkey : key.space ≠ i) :
    wordAt σ (update dirs i dir) key = wordAt σ dirs key := by
  have hpde : ∀ d, pdeWord σ (update dirs i dir) key.space d = pdeWord σ dirs key.space d := by
    intro d
    rw [pdeWord, pdeWord, update_of_ne hkey]
  cases key with
  | pde j d => exact hpde d
  | pte j d t =>
      have hsame := hpde d
      rw [TableKey.space] at hsame
      rw [wordAt, wordAt, hsame]

omit [Fintype ι] [DecidableEq ι] in
theorem tableSlot_of_no_dir (σ : Phys) {dirs : ι → Option ℕ} {key : TableKey ι}
    (hnone : dirs key.space = none) : tableSlot σ dirs key = none := by
  have hpde : ∀ d, tableSlot σ dirs (.pde key.space d) = none := fun d => by
    rw [tableSlot, wordAt_pde_none hnone, entryPage_zero]
  cases key with
  | pde i d => exact hpde d
  | pte i d t =>
      have habsent : tableSlot σ dirs (.pde i d) = none := hpde d
      rw [tableSlot, wordAt_pte_none habsent, entryPage_zero]

theorem index_lt {key : TableKey ι} (hkey : key ∈ userKeys ι) : key.index < userPdes := by
  cases key with
  | pde i d => exact pde_mem_userKeys.mp hkey
  | pte i d t => exact (pte_mem_userKeys.mp hkey).1

/-- The entries `gone` are taken away, and the others are as before. -/
structure EntriesGone (pool : Set ℕ) (dirs : ι → Option ℕ) (gone : TableKey ι → Prop)
    (σ σ' : Phys) : Prop where
  npages : σ'.npages = σ.npages
  slots : ∀ key ∈ userKeys ι, gone key → tableSlot σ' dirs key = none
  words : ∀ key ∈ userKeys ι, ¬ gone key → wordAt σ' dirs key = wordAt σ dirs key
  mem_other : ∀ page, NotTable σ dirs page → σ'.mem page = σ.mem page
  dir_high : ∀ j dir, dirs j = some dir → ∀ d, userPdes ≤ d → σ'.mem dir d = σ.mem dir d
  ref_other : ∀ page, page ∉ pool → σ'.ref page = σ.ref page

section Clearing

variable {pool : Set ℕ} {dirs : ι → Option ℕ} {σ σ' σ'' : Phys} {free : List ℕ} {slack : ℕ → ℕ}
variable {gone gone' : TableKey ι → Prop} {i : ι} {dir : ℕ}

/-- Entries that are absent already. -/
theorem EntriesGone.absent (hslots : ∀ key ∈ userKeys ι, gone key → tableSlot σ dirs key = none) :
    EntriesGone pool dirs gone σ σ :=
  ⟨rfl, hslots, fun _ _ _ => rfl, fun _ _ => rfl, fun _ _ _ _ _ => rfl, fun _ _ => rfl⟩

theorem EntriesGone.slot (hcleared : EntriesGone pool dirs gone σ σ') {key : TableKey ι}
    (hkey : key ∈ userKeys ι) (hnot : ¬ gone key) :
    tableSlot σ' dirs key = tableSlot σ dirs key := by
  rw [tableSlot, hcleared.words key hkey hnot, tableSlot]

/-- What is referenced now was referenced before. -/
theorem EntriesGone.of_slot (hcleared : EntriesGone pool dirs gone σ σ') {key : TableKey ι}
    (hkey : key ∈ userKeys ι) {page : ℕ} (hslot : tableSlot σ' dirs key = some page) :
    ¬ gone key ∧ tableSlot σ dirs key = some page := by
  have hnot : ¬ gone key := fun hgone => by
    rw [hcleared.slots key hkey hgone] at hslot
    cases hslot
  exact ⟨hnot, (hcleared.slot hkey hnot).symm.trans hslot⟩

theorem EntriesGone.notTable (hcleared : EntriesGone pool dirs gone σ σ') {page : ℕ}
    (hnot : NotTable σ dirs page) : NotTable σ' dirs page :=
  ⟨hnot.1, fun j d hd hslot =>
    hnot.2 j d hd (hcleared.of_slot (pde_mem_userKeys.mpr hd) hslot).2⟩

theorem EntriesGone.trans (hfirst : EntriesGone pool dirs gone σ σ')
    (hsecond : EntriesGone pool dirs gone' σ' σ'') :
    EntriesGone pool dirs (fun key => gone key ∨ gone' key) σ σ'' where
  npages := hsecond.npages.trans hfirst.npages
  slots := fun key hkey hgone => by
    by_cases hlater : gone' key
    · exact hsecond.slots key hkey hlater
    · rw [hsecond.slot hkey hlater, hfirst.slots key hkey (hgone.resolve_right hlater)]
  words := fun key hkey hnot => by
    rw [not_or] at hnot
    rw [hsecond.words key hkey hnot.2, hfirst.words key hkey hnot.1]
  mem_other := fun page hnot =>
    (hsecond.mem_other page (hfirst.notTable hnot)).trans (hfirst.mem_other page hnot)
  dir_high := fun j dir hdir d hd =>
    (hsecond.dir_high j dir hdir d hd).trans (hfirst.dir_high j dir hdir d hd)
  ref_other := fun page hpage =>
    (hsecond.ref_other page hpage).trans (hfirst.ref_other page hpage)

theorem EntriesGone.congr (hcleared : EntriesGone pool dirs gone σ σ')
    (hsame : ∀ key ∈ userKeys ι, gone' key ↔ gone key) : EntriesGone pool dirs gone' σ σ' :=
  { hcleared with
    slots := fun key hkey h => hcleared.slots key hkey ((hsame key hkey).mp h)
    words := fun key hkey h => hcleared.words key hkey fun hgone => h ((hsame key hkey).mpr hgone) }

theorem EntriesGone.refs_le (hcleared : EntriesGone pool dirs gone σ σ') (page : ℕ) :
    refs (userKeys ι) (tableSlot σ' dirs) page ≤ refs (userKeys ι) (tableSlot σ dirs) page := by
  have hle := refs_le_of_new ∅ page fun key hkey hslot =>
    Or.inl (hcleared.of_slot hkey hslot).2
  rwa [Finset.card_empty, Nat.add_zero] at hle

/-- The counters do not wrap. -/
def CountsFit (pool : Set ℕ) (dirs : ι → Option ℕ) (σ : Phys) (slack : ℕ → ℕ) : Prop :=
  ∀ page ∈ pool, refs (userKeys ι) (tableSlot σ dirs) page + slack page < 2 ^ 16

theorem EntriesGone.countsFit (hcleared : EntriesGone pool dirs gone σ σ')
    (hfit : CountsFit pool dirs σ slack) : CountsFit pool dirs σ' slack := fun page hpage => by
  have hle := hcleared.refs_le page
  have hlt := hfit page hpage
  omega

/-! ## Pages -/

/-- `page_remove`. -/
theorem Paged.remove (hpaged : Paged pool dirs σ free none slack) (hfit : CountsFit pool dirs σ slack)
    (hdir : dirs i = some dir) {va : Word} (hva : va < utop) :
    ∃ σ' free', pageRemove σ dir va = some σ' ∧ Paged pool dirs σ' free' none slack ∧
      EntriesGone pool dirs (fun key => key = pteKey i va) σ σ' := by
  cases hslot : tableSlot σ dirs (pteKey i va) with
  | none =>
    refine ⟨σ, free, pageRemove_none hpaged hdir hva hslot, hpaged, EntriesGone.absent ?_⟩
    rintro key - rfl
    exact hslot
  | some page =>
    obtain ⟨table, htable⟩ := table_of_pte hslot
    have hpool := hpaged.balanced.slot_mem _ (pteKey_mem hva i) page hslot
    have hwords := hpaged.wordAt_removed hva htable page 0
    refine ⟨_, _, pageRemove_some hpaged hdir hva htable hslot,
      hpaged.removed hva htable hslot (by simp) (hfit page hpool).le,
      { npages := by simp
        slots := ?_
        words := fun key hkey hne => by rw [hwords key hkey, update_of_ne hne]
        mem_other := fun other hnot => ?_
        dir_high := (hpaged.frame_removed hva htable hpool 0).dir_high
        ref_other := (hpaged.frame_removed hva htable hpool 0).ref_other }⟩
    · rintro key hkey rfl
      rw [tableSlot_update (hwords _ hkey), update_self, entryPage_zero]
    · have hne : other ≠ table := fun hsame =>
        hnot.2 i _ (pdx_lt_userPdes hva) (hsame ▸ htable)
      rw [mem_store_of_ne _ _ _ _ hne, mem_pageDecref]

theorem pgaddr_lt_utop {d t : ℕ} (hd : d < userPdes) (ht : t < nptEntries) :
    pgaddr d t < utop := by
  rw [userPdes_eq] at hd
  rw [nptEntries] at ht
  rw [BitVec.lt_def, toNat_pgaddr (by omega) ht, show utop.toNat = 4005560320 by decide]
  omega

/-- Unmapping the first `count` entries of a page table. -/
theorem Paged.unmapTable (hpaged : Paged pool dirs σ free none slack)
    (hfit : CountsFit pool dirs σ slack) (hdir : dirs i = some dir) {d pt : ℕ} (hd : d < userPdes)
    (htable : tableSlot σ dirs (.pde i d) = some pt) {count : ℕ} (hcount : count ≤ nptEntries) :
    ∃ σ' free', Jos.unmapTable σ dir d pt count = some σ' ∧ Paged pool dirs σ' free' none slack ∧
      EntriesGone pool dirs (fun key => ∃ t < count, key = .pte i d t) σ σ' := by
  induction count with
  | zero => exact ⟨σ, free, rfl, hpaged, EntriesGone.absent (by simp)⟩
  | succ k ih =>
    obtain ⟨σ', free', hrun, hpaged', hcleared⟩ := ih (by omega)
    have hk : k < nptEntries := hcount
    have htable' : tableSlot σ' dirs (.pde i d) = some pt := by
      rw [hcleared.slot (pde_mem_userKeys.mpr hd) (by simp), htable]
    have hgone : ∀ key : TableKey ι, (∃ t < k + 1, key = .pte i d t) ↔
        (∃ t < k, key = .pte i d t) ∨ key = .pte i d k := fun key => by
      constructor
      · rintro ⟨t, ht, rfl⟩
        rcases Nat.lt_succ_iff_lt_or_eq.mp ht with hlt | rfl
        · exact Or.inl ⟨t, hlt, rfl⟩
        · exact Or.inr rfl
      · rintro (⟨t, ht, rfl⟩ | rfl)
        · exact ⟨t, Nat.lt_succ_of_lt ht, rfl⟩
        · exact ⟨k, Nat.lt_succ_self k, rfl⟩
    by_cases habsent : σ'.mem pt k &&& pteP = 0#32
    · have hslot : tableSlot σ' dirs (.pte i d k) = none := by
        rw [tableSlot, wordAt_pte htable', entryPage_eq_none]
        exact habsent
      have hnone : EntriesGone pool dirs (fun key => key = .pte i d k) σ' σ' :=
        EntriesGone.absent fun key _ hsame => hsame ▸ hslot
      refine ⟨σ', free', ?_, hpaged', (hcleared.trans hnone).congr fun key _ => hgone key⟩
      rw [Jos.unmapTable, hrun]
      simp [habsent]
    · obtain ⟨σ'', free'', hremove, hpaged'', hlast⟩ :=
        hpaged'.remove (hcleared.countsFit hfit) hdir (pgaddr_lt_utop hd hk)
      rw [pteKey_pgaddr i hd hk] at hlast
      refine ⟨σ'', free'', ?_, hpaged'', (hcleared.trans hlast).congr fun key _ => hgone key⟩
      rw [Jos.unmapTable, hrun]
      simpa [habsent] using hremove

/-- Giving up an empty page table. -/
theorem Paged.dropTable (hpaged : Paged pool dirs σ free none slack)
    (hfit : CountsFit pool dirs σ slack) (hdir : dirs i = some dir) {d pt : ℕ} (hd : d < userPdes)
    (htable : tableSlot σ dirs (.pde i d) = some pt)
    (hempty : ∀ t < nptEntries, tableSlot σ dirs (.pte i d t) = none) :
    ∃ free', Paged pool dirs (pageDecref (σ.store dir d 0) pt) free' none slack ∧
      EntriesGone pool dirs (fun key => key.space = i ∧ key.index = d) σ
        (pageDecref (σ.store dir d 0) pt) := by
  have hkey : TableKey.pde i d ∈ userKeys ι := pde_mem_userKeys.mpr hd
  have hpool := hpaged.balanced.slot_mem _ hkey pt htable
  have hfree := hpaged.balanced.slot_not_free hkey htable
  have hmem : (pageDecref (σ.store dir d 0) pt).mem = (σ.store dir d 0).mem := mem_pageDecref _ _
  have hslots : ∀ key ∈ userKeys ι, tableSlot (pageDecref (σ.store dir d 0) pt) dirs key =
      update (tableSlot σ dirs) (.pde i d) none key := fun key hk => by
    rw [tableSlot_congr_mem hmem, tableSlot_clear_pde hpaged.exclusive hdir hd hempty key hk]
  have hrefs := refs_update (tableSlot σ dirs) hkey none pt
  rw [if_pos htable, if_neg (by simp)] at hrefs
  have hbound := hfit pt hpool
  have hnotDir : ∀ e dire, dirs e = some dire → dire ≠ pt := fun e dire hdire hsame =>
    hpaged.exclusive.dir_unref e dire hdire _ hkey (hsame ▸ htable)
  have hother : ∀ page, page ≠ dir →
      (pageDecref (σ.store dir d 0) pt).mem page = σ.mem page := fun page hne => by
    rw [hmem, mem_store_of_ne _ _ _ _ hne]
  have hpdes : ∀ j e, (j = i → e ≠ d) → wordAt (pageDecref (σ.store dir d 0) pt) dirs (.pde j e) =
      wordAt σ dirs (.pde j e) := fun j e hne => by
    cases hdirj : dirs j with
    | none => rw [wordAt_pde_none hdirj, wordAt_pde_none hdirj]
    | some dirj =>
      rw [wordAt_pde hdirj, wordAt_pde hdirj, hmem]
      by_cases hsame : j = i
      · rw [hsame, hdir] at hdirj
        obtain rfl := Option.some.inj hdirj
        rw [mem_store_self, update_of_ne (hne hsame)]
      · have hne : dirj ≠ dir := fun hdirs =>
          hsame (hpaged.exclusive.dir_inj j i dirj hdirj (hdirs.symm ▸ hdir))
        rw [mem_store_of_ne _ _ _ _ hne]
  refine ⟨freeAfterDec σ pt free,
    { threads := threads_pageDecref (σ.store dir d 0) pt hpaged.threads hfree
      balanced := by
        rw [ref_pageDecref, ref_store]
        exact ((hpaged.balanced.clear hkey htable).dec hpool hfree (by simp)
          (by omega)).congr_slot hslots
      exclusive := hpaged.exclusive.cleared hslots
      dir_busy := fun e dire hdire => by
        refine ⟨fun hmem => ?_, by simp⟩
        rcases mem_freeAfterDec hmem with hsame | hmem
        · exact hnotDir e dire hdire hsame
        · exact (hpaged.dir_busy e dire hdire).1 hmem
      pool_lt := by simpa using hpaged.pool_lt
      npages_le := by simpa using hpaged.npages_le },
    { npages := by simp
      slots := fun key hk hgone => ?_
      words := fun key hk hnot => ?_
      mem_other := fun page hnot => hother page fun hsame => hnot.1 i (hsame ▸ hdir)
      dir_high := fun e dire hdire f hf => ?_
      ref_other := fun page hpage => ?_ }⟩
  · rw [hslots key hk]
    cases key with
    | pde j e =>
      obtain ⟨rfl, rfl⟩ := hgone
      exact update_self _ _ _
    | pte j e t =>
      obtain ⟨rfl, rfl⟩ := hgone
      rw [update_of_ne (by simp)]
      exact hempty t (pte_mem_userKeys.mp hk).2
  · cases key with
    | pde j e => exact hpdes j e fun hj he => hnot ⟨hj, he⟩
    | pte j e t =>
      have hpde := hpdes j e fun hj he => hnot ⟨hj, he⟩
      have hslot : tableSlot (pageDecref (σ.store dir d 0) pt) dirs (.pde j e) =
          tableSlot σ dirs (.pde j e) := by rw [tableSlot, hpde, tableSlot]
      cases htable' : tableSlot σ dirs (.pde j e) with
      | none => rw [wordAt_pte_none htable', wordAt_pte_none (hslot.trans htable')]
      | some table =>
        have hne : table ≠ dir := fun hdirs => hpaged.exclusive.dir_unref i dir hdir _
          (pde_mem_userKeys.mpr (pte_mem_userKeys.mp hk).1) (hdirs ▸ htable')
        rw [wordAt_pte htable', wordAt_pte (hslot.trans htable'), hother table hne]
  · by_cases hsame : dire = dir
    · rw [hsame, hmem, mem_store_self, update_of_ne (by omega)]
    · rw [hother dire hsame]
  · have hne : page ≠ pt := fun hsame => hpage (hsame ▸ hpool)
    rw [ref_pageDecref, update_of_ne hne, ref_store]

/-- The first `count` iterations of the loop of `env_free`. -/
theorem Paged.freeTables (hpaged : Paged pool dirs σ free none slack)
    (hfit : CountsFit pool dirs σ slack) (hdir : dirs i = some dir) {count : ℕ}
    (hcount : count ≤ userPdes) :
    ∃ σ' free', Jos.freeTables σ dir count = some σ' ∧ Paged pool dirs σ' free' none slack ∧
      EntriesGone pool dirs (fun key => key.space = i ∧ key.index < count) σ σ' := by
  induction count with
  | zero => exact ⟨σ, free, rfl, hpaged, EntriesGone.absent (by simp)⟩
  | succ k ih =>
    obtain ⟨σ₁, free₁, hrun, hpaged₁, hcleared⟩ := ih (by omega)
    have hk : k < userPdes := hcount
    have hkey : TableKey.pde i k ∈ userKeys ι := pde_mem_userKeys.mpr hk
    have hgone : ∀ key : TableKey ι, (key.space = i ∧ key.index < k + 1) ↔
        (key.space = i ∧ key.index < k) ∨ (key.space = i ∧ key.index = k) := fun key => by
      rw [← and_or_left, Nat.lt_succ_iff_lt_or_eq]
    cases hslot : tableSlot σ₁ dirs (.pde i k) with
    | none =>
      have habsent : σ₁.mem dir k &&& pteP = 0 := by
        rw [tableSlot, wordAt_pde hdir, entryPage_eq_none] at hslot
        exact hslot
      have hnone : EntriesGone pool dirs (fun key => key.space = i ∧ key.index = k) σ₁ σ₁ :=
        EntriesGone.absent fun key _ hgone => by
          cases key with
          | pde j e =>
            obtain ⟨rfl, rfl⟩ := hgone
            exact hslot
          | pte j e t =>
            obtain ⟨rfl, rfl⟩ := hgone
            have hpde : tableSlot σ₁ dirs (.pde j e) = none := hslot
            rw [tableSlot, wordAt_pte_none hpde, entryPage_zero]
      refine ⟨σ₁, free₁, ?_, hpaged₁, (hcleared.trans hnone).congr fun key _ => hgone key⟩
      rw [Jos.freeTables, hrun]
      simp [habsent]
    | some pt =>
      have hpresent : ¬ σ₁.mem dir k &&& pteP = 0#32 := by
        rw [tableSlot, wordAt_pde hdir, entryPage_eq_some] at hslot
        exact hslot.1
      have hpa : σ₁.pa2page (pteAddr (σ₁.load dir k)) = some pt := by
        refine pa2page_load ?_ (hpaged₁.slot_lt hkey hslot)
        rw [← wordAt_pde hdir]
        exact hslot
      have hfit₁ := hcleared.countsFit hfit
      obtain ⟨σ₂, free₂, hunmap, hpaged₂, hunmapped⟩ :=
        hpaged₁.unmapTable hfit₁ hdir hk hslot (Nat.le_refl _)
      have hslot₂ : tableSlot σ₂ dirs (.pde i k) = some pt := by
        rw [hunmapped.slot hkey (by simp), hslot]
      obtain ⟨free₃, hpaged₃, hdropped⟩ :=
        hpaged₂.dropTable (hunmapped.countsFit hfit₁) hdir hk hslot₂ fun t ht =>
          hunmapped.slots _ (pte_mem_userKeys.mpr ⟨hk, ht⟩) ⟨t, ht, rfl⟩
      refine ⟨_, free₃, ?_, hpaged₃, (hcleared.trans (hunmapped.trans hdropped)).congr
        fun key _ => (hgone key).trans (or_congr_right ⟨Or.inr, ?_⟩)⟩
      · rw [Jos.freeTables, hrun]
        simp [hpresent, hpa, hunmap]
      · rintro (⟨t, -, rfl⟩ | h)
        · exact ⟨rfl, rfl⟩
        · exact h

/-! ## The directory -/

/-- An empty directory has no part in the view. -/
theorem tableSlot_dropDir (dir : ℕ) (σ : Phys)
    (hempty : ∀ key ∈ userKeys ι, key.space = i → tableSlot σ dirs key = none) :
    ∀ key ∈ userKeys ι,
      tableSlot (pageDecref σ dir) (update dirs i none) key = tableSlot σ dirs key := by
  intro key hkey
  rw [tableSlot_congr_mem (mem_pageDecref σ dir)]
  by_cases hspace : key.space = i
  · rw [tableSlot_of_no_dir σ (by rw [hspace, update_self]), hempty key hkey hspace]
  · rw [tableSlot, wordAt_update_dirs σ dirs none hspace, tableSlot]

omit [Fintype ι] in
theorem dirs_of_drop {e : ι} {dire : ℕ} (hdire : update dirs i none e = some dire) :
    e ≠ i ∧ dirs e = some dire := by
  by_cases he : e = i
  · rw [he, update_self] at hdire
    cases hdire
  · rw [update_of_ne he] at hdire
    exact ⟨he, hdire⟩

/-- Giving up an empty directory, which was counted once. -/
theorem Paged.dropDir {rest : ℕ → ℕ} (hpaged : Paged pool dirs σ free none slack)
    (hfit : CountsFit pool dirs σ slack) (hdir : dirs i = some dir) (hpool : dir ∈ pool)
    (hempty : ∀ key ∈ userKeys ι, key.space = i → tableSlot σ dirs key = none)
    (hslack : ∀ page, rest page + (if page = dir then 1 else 0) = slack page) :
    Paged pool (update dirs i none) (pageDecref σ dir) (freeAfterDec σ dir free) none rest := by
  have hfree := (hpaged.dir_busy i dir hdir).1
  have hslots := tableSlot_dropDir dir σ hempty
  have hbalanced : Balanced (userKeys ι) pool (tableSlot σ dirs) σ.ref free none
      (fun page => rest page + if page = dir then 1 else 0) :=
    hpaged.balanced.congr_slack fun page _ => hslack page
  have hbound := hfit dir hpool
  have hcounted := hslack dir
  exact
    { threads := threads_pageDecref σ dir hpaged.threads hfree
      balanced := by
        rw [ref_pageDecref]
        exact (hbalanced.dec hpool hfree (by simp) (by omega)).congr_slot hslots
      exclusive :=
        { dir_inj := fun j k dire hj hk =>
            hpaged.exclusive.dir_inj j k dire (dirs_of_drop hj).2 (dirs_of_drop hk).2
          dir_unref := fun j dire hj key hkey hslot =>
            hpaged.exclusive.dir_unref j dire (dirs_of_drop hj).2 key hkey
              (by rw [← hslots key hkey, hslot])
          table_unique := fun j e table he htable key hkey hslot =>
            hpaged.exclusive.table_unique j e table he
              (by rw [← hslots _ (pde_mem_userKeys.mpr he), htable]) key hkey
              (by rw [← hslots key hkey, hslot]) }
      dir_busy := fun j dire hj => by
        obtain ⟨hne, hj'⟩ := dirs_of_drop hj
        refine ⟨fun hmem => ?_, by simp⟩
        rcases mem_freeAfterDec hmem with hsame | hmem
        · exact hne (hpaged.exclusive.dir_inj j i dire hj' (hsame ▸ hdir))
        · exact (hpaged.dir_busy j dire hj').1 hmem
      pool_lt := by simpa using hpaged.pool_lt
      npages_le := by simpa using hpaged.npages_le }

end Clearing

end OsLabs.Jos
