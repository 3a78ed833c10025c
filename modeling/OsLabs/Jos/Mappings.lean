import OsLabs.Jos.Monitor
import OsLabs.Jos.MmioMap

/-!
# The range of `showmappings`

The loop of `showmappings` adds `PGSIZE` to an address that need not be aligned,
and asks `pgdir_walk` for an entry with `create`.  So it may stop short of the
last page, go round past the top of the address space, or run out of memory for
page tables.
-/

namespace OsLabs.Jos

open Function

/-- The flags that `pprint` prints. -/
def pprint (pte : Word) : Word × Word × Word := (pte &&& pteP, pte &&& pteW, pte &&& pteU)

/-- One round of the loop: the address that is printed, the flags unless the page does not exist,
and the memory that the round started with. -/
structure Visit where
  va : Word
  shown : Option (Word × Word × Word)
  before : Phys

/-- What a round prints of an entry. -/
def shownEntry (pte : Word) : Option (Word × Word × Word) :=
  if pte &&& pteP ≠ 0 then some (pprint pte) else none

/-- The loop of `showmappings` within `fuel` rounds; no result after `panic`. -/
def mappingsLoop (kernPgdir : ℕ) (last : Word) : ℕ → Phys → Word → Option (List Visit × Phys)
  | 0, _, _ => none
  | fuel + 1, σ, va =>
      if va ≤ last then do
        match ← pgdirWalk σ kernPgdir va true with
        | (none, _) => none
        | (some (table, index), σ') =>
            let (visits, final) ← mappingsLoop kernPgdir last fuel σ' (va + pgSize)
            some (⟨va, shownEntry (σ'.load table index), σ⟩ :: visits, final)
      else some ([], σ)

/-- The present entry that `page_lookup` finds for `va`. -/
def mappingAt (σ : Phys) (pgdir : ℕ) (va : Word) : Option Word :=
  match pgdirWalk σ pgdir va false with
  | some (some (table, index), _) =>
      if σ.load table index &&& pteP = 0 then none else some (σ.load table index)
  | _ => none

/-- The loop ends; it reports the pages from `va` to `last` once each and in order, each with the
flags of the mapping that `page_lookup` finds there at that time, and at the start too unless the
page is in the window of the directory onto its own tables. -/
def CoversRange (σ : Phys) (kernPgdir : ℕ) (va last : Word) : Prop :=
  ∃ fuel visits final, mappingsLoop kernPgdir last fuel σ va = some (visits, final) ∧
    visits.map (fun visit => pgnum visit.va) =
      List.range' (pgnum va) (pgnum last + 1 - pgnum va) ∧
    ∀ visit ∈ visits, visit.shown = (mappingAt visit.before kernPgdir visit.va).map pprint ∧
      (SelfMapped σ kernPgdir visit.va ∨
        mappingAt visit.before kernPgdir visit.va = mappingAt σ kernPgdir visit.va)

/-! ## One round -/

section Round

variable {σ : Phys} {pgdir table pg : ℕ} {free rest : List ℕ} {va : Word}

theorem Directory.walk_present (hdir : Directory σ pgdir free)
    (htable : entryPage (σ.mem pgdir (pdx va)) = some table) (create : Bool) :
    pgdirWalk σ pgdir va create = some (some (table, ptx va), σ) := by
  have hlt := hdir.table_lt _ (pdx_lt va) table htable
  have hpresent : σ.mem pgdir (pdx va) &&& pteP ≠ 0#32 := (entryPage_eq_some.mp htable).1
  simp [pgdirWalk, hpresent, pa2page_load htable hlt]

theorem walk_absent (habsent : entryPage (σ.mem pgdir (pdx va)) = none) :
    pgdirWalk σ pgdir va false = some (none, σ) := by
  rw [entryPage_eq_none] at habsent
  simp [pgdirWalk, habsent]

theorem Directory.walk_exhausted (hdir : Directory σ pgdir [])
    (habsent : entryPage (σ.mem pgdir (pdx va)) = none) :
    pgdirWalk σ pgdir va true = some (none, σ) := by
  have hhead : σ.pageFreeList = none := hdir.threads.head_eq
  rw [entryPage_eq_none] at habsent
  simp [pgdirWalk, habsent, pageAlloc, hhead]

theorem Directory.walk_create (hdir : Directory σ pgdir (pg :: rest))
    (habsent : entryPage (σ.mem pgdir (pdx va)) = none) :
    pgdirWalk σ pgdir va true =
      some (some (pg, ptx va), installed (takePage σ pg true) pgdir (pdx va) pg) := by
  obtain ⟨halloc, htaken⟩ := hdir.taken
  have hcheck := htaken.check hdir (pdx va)
  rw [installed, tableEntry] at hcheck
  rw [entryPage_eq_none] at habsent
  simp [pgdirWalk, habsent, halloc, hcheck, installed, tableEntry]

theorem mappingAt_eq (hdir : Directory σ pgdir free) (va : Word) :
    mappingAt σ pgdir va = (entryPage (σ.mem pgdir (pdx va))).bind fun table =>
      if σ.load table (ptx va) &&& pteP = 0 then none else some (σ.load table (ptx va)) := by
  cases htable : entryPage (σ.mem pgdir (pdx va)) with
  | some table => rw [mappingAt, hdir.walk_present htable]; rfl
  | none => rw [mappingAt, walk_absent htable]; rfl

/-- `page_lookup` reports that there is no page just where it finds no such entry. -/
theorem pageLookup_eq_none_iff (hdir : Directory σ pgdir free) (va : Word) :
    pageLookup σ pgdir va = some none ↔ mappingAt σ pgdir va = none := by
  cases htable : entryPage (σ.mem pgdir (pdx va)) with
  | none =>
    rw [pageLookup, mappingAt, walk_absent htable]
    exact iff_of_true rfl rfl
  | some table =>
    rw [pageLookup, mappingAt, hdir.walk_present htable, Option.bind_eq_bind, Option.bind_some]
    dsimp only
    split
    case isTrue => exact iff_of_true rfl rfl
    case isFalse =>
      refine iff_of_false (fun hnone => ?_) (Option.some_ne_none _)
      cases hpage : σ.pa2page (pteAddr (σ.load table (ptx va))) with
      | none =>
        rw [hpage] at hnone
        cases hnone
      | some page =>
        rw [hpage] at hnone
        cases hnone

theorem shownEntry_eq (pte : Word) :
    shownEntry pte = (if pte &&& pteP = 0 then none else some pte).map pprint := by
  rw [shownEntry, ite_not, apply_ite (Option.map pprint)]
  rfl

/-- The memory behind one round that does not panic: as it was, or with a new empty page table. -/
structure Walked (σ : Phys) (pgdir : ℕ) (free : List ℕ) (va : Word) (σ' : Phys)
    (free' : List ℕ) : Prop where
  directory : Directory σ' pgdir free'
  present : entryPage (σ'.mem pgdir (pdx va)) ≠ none
  others : ∀ d, d ≠ pdx va → entryPage (σ'.mem pgdir d) = entryPage (σ.mem pgdir d)
  free : free.length = free'.length + if entryPage (σ.mem pgdir (pdx va)) = none then 1 else 0
  self : ∀ va', SelfMapped σ' pgdir va' ↔ SelfMapped σ pgdir va'
  mapping : ∀ va', ¬ SelfMapped σ pgdir va' → mappingAt σ' pgdir va' = mappingAt σ pgdir va'

theorem Walked.refl (hdir : Directory σ pgdir free)
    (htable : entryPage (σ.mem pgdir (pdx va)) = some table) : Walked σ pgdir free va σ free where
  directory := hdir
  present := by rw [htable]; exact Option.some_ne_none _
  others _ _ := rfl
  free := by rw [htable, if_neg (Option.some_ne_none _), Nat.add_zero]
  self _ := Iff.rfl
  mapping _ _ := rfl

theorem Directory.walked_create (hdir : Directory σ pgdir (pg :: rest))
    (habsent : entryPage (σ.mem pgdir (pdx va)) = none) :
    Walked σ pgdir (pg :: rest) va (installed (takePage σ pg true) pgdir (pdx va) pg) rest := by
  obtain ⟨-, htaken⟩ := hdir.taken
  have hne : pgdir ≠ pg := fun hsame => hdir.dir_not_free (hsame ▸ List.mem_cons_self)
  have hlt := (hdir.free_lt pg List.mem_cons_self).trans_le hdir.npages_le
  have hentry := htaken.entryPage_dir (d := pdx va) hne hlt
  have hnew : entryPage ((installed (takePage σ pg true) pgdir (pdx va) pg).mem pgdir (pdx va)) =
      some pg := (hentry (pdx va)).trans (if_pos rfl)
  have hdir' := htaken.directory (d := pdx va) hdir
  refine
    { directory := hdir'
      present := by rw [hnew]; exact Option.some_ne_none _
      others := fun d hd => (hentry d).trans (if_neg hd)
      free := by rw [if_pos habsent, List.length_cons]
      self := fun va' => ?_
      mapping := fun va' hself => ?_ }
  · rw [SelfMapped, SelfMapped, hentry]
    by_cases hsame : pdx va' = pdx va
    · rw [if_pos hsame, hsame, habsent]
      exact iff_of_false (fun h => hne (Option.some.inj h).symm) (Option.some_ne_none pgdir).symm
    · rw [if_neg hsame]
  · rw [mappingAt_eq hdir', mappingAt_eq hdir]
    by_cases hsame : pdx va' = pdx va
    · rw [hsame, hnew, habsent, Option.bind_some, htaken.load_new hne]
      rfl
    · rw [hentry, if_neg hsame]
      cases htable : entryPage (σ.mem pgdir (pdx va')) with
      | none => rfl
      | some table =>
        have hpg : table ≠ pg := fun h =>
          hdir.table_not_free _ (pdx_lt va') table htable (h ▸ List.mem_cons_self)
        have hpgdir : table ≠ pgdir := fun h => hself (h ▸ htable)
        rw [Option.bind_some, Option.bind_some, htaken.load_other hpgdir hpg]

/-- A round prints what `page_lookup` finds, if it does not panic. -/
theorem Directory.round (hdir : Directory σ pgdir free)
    (hfree : entryPage (σ.mem pgdir (pdx va)) = none → free ≠ []) :
    ∃ table σ' free', pgdirWalk σ pgdir va true = some (some (table, ptx va), σ') ∧
      Walked σ pgdir free va σ' free' ∧
      shownEntry (σ'.load table (ptx va)) = (mappingAt σ pgdir va).map pprint := by
  cases htable : entryPage (σ.mem pgdir (pdx va)) with
  | some table =>
    refine ⟨table, σ, free, hdir.walk_present htable true, Walked.refl hdir htable, ?_⟩
    rw [shownEntry_eq, mappingAt_eq hdir, htable]
    rfl
  | none =>
    obtain ⟨pg, rest, rfl⟩ := List.exists_cons_of_ne_nil (hfree htable)
    have hne : pgdir ≠ pg := fun hsame => hdir.dir_not_free (hsame ▸ List.mem_cons_self)
    refine ⟨pg, _, rest, hdir.walk_create htable, hdir.walked_create htable, ?_⟩
    rw [hdir.taken.2.load_new hne, mappingAt_eq hdir, htable]
    rfl

end Round

/-! ## The whole loop -/

section Loop

variable {σ σ' : Phys} {pgdir : ℕ} {free free' : List ℕ} {va last : Word}

theorem pageBehind_zero (va : Word) : pageBehind va 0 = va := by
  rw [pageBehind, show BitVec.ofNat 32 0 * pgSize = 0 from rfl]
  exact BitVec.add_zero va

theorem pageBehind_next (va : Word) (k : ℕ) :
    pageBehind (va + pgSize) k = pageBehind va (k + 1) := by
  rw [← pageBehind_succ, pageBehind, pageBehind, add_right_comm]

theorem regionTables_head (va : Word) (count : ℕ) :
    regionTables va (count + 1) = insert (pdx va) (regionTables (va + pgSize) count) := by
  ext d
  rw [Finset.mem_insert, mem_regionTables, mem_regionTables]
  constructor
  · rintro ⟨k, hk, rfl⟩
    cases k with
    | zero => exact Or.inl (congrArg pdx (pageBehind_zero va))
    | succ k => exact Or.inr ⟨k, by omega, congrArg pdx (pageBehind_next va k)⟩
  · rintro (rfl | ⟨k, hk, rfl⟩)
    · exact ⟨0, Nat.succ_pos _, congrArg pdx (pageBehind_zero va)⟩
    · exact ⟨k + 1, by omega, congrArg pdx (pageBehind_next va k).symm⟩

/-- A round takes the page table that it misses off the free list, and leaves the others missing. -/
theorem Walked.missing (hwalked : Walked σ pgdir free va σ' free') (count : ℕ) :
    (missingTables σ pgdir va (count + 1)).card ≤ free.length ↔
      (missingTables σ' pgdir (va + pgSize) count).card ≤ free'.length := by
  have hrest : missingTables σ' pgdir (va + pgSize) count =
      (missingTables σ pgdir va (count + 1)).erase (pdx va) := by
    ext d
    rw [mem_missingTables, Finset.mem_erase, mem_missingTables, regionTables_head,
      Finset.mem_insert]
    by_cases hd : d = pdx va
    · exact iff_of_false (fun h => hwalked.present (hd ▸ h.2)) fun h => h.1 hd
    · rw [hwalked.others d hd]
      constructor
      · exact fun ⟨hmem, habsent⟩ => ⟨hd, Or.inr hmem, habsent⟩
      · exact fun ⟨_, hmem, habsent⟩ => ⟨hmem.resolve_left hd, habsent⟩
  have hmem : pdx va ∈ missingTables σ pgdir va (count + 1) ↔
      entryPage (σ.mem pgdir (pdx va)) = none := by
    rw [mem_missingTables, regionTables_head]
    exact and_iff_right (Finset.mem_insert_self _ _)
  rw [hrest, hwalked.free]
  by_cases habsent : entryPage (σ.mem pgdir (pdx va)) = none
  · rw [Finset.card_erase_of_mem (hmem.mpr habsent), if_pos habsent]
    omega
  · rw [Finset.erase_eq_of_notMem (hmem.not.mpr habsent), if_neg habsent]
    rfl

/-- What the loop has done when it ends. -/
structure Visited (σ : Phys) (pgdir : ℕ) (free : List ℕ) (va last : Word) (visits : List Visit) :
    Prop where
  addresses : visits.map Visit.va = (List.range visits.length).map (pageBehind va)
  below : ∀ visit ∈ visits, visit.va ≤ last
  ends : ¬ pageBehind va visits.length ≤ last
  memory : (missingTables σ pgdir va visits.length).card ≤ free.length
  shown : ∀ visit ∈ visits, visit.shown = (mappingAt visit.before pgdir visit.va).map pprint ∧
    (SelfMapped σ pgdir visit.va ∨
      mappingAt visit.before pgdir visit.va = mappingAt σ pgdir visit.va)

theorem visited_of_loop {fuel : ℕ} (hdir : Directory σ pgdir free) {visits : List Visit}
    {final : Phys} (hrun : mappingsLoop pgdir last fuel σ va = some (visits, final)) :
    Visited σ pgdir free va last visits := by
  induction fuel generalizing σ free va visits final with
  | zero => cases hrun
  | succ fuel ih =>
    rw [mappingsLoop] at hrun
    split at hrun
    case isFalse habove =>
      obtain ⟨rfl, -⟩ := Prod.mk.inj (Option.some.inj hrun)
      refine ⟨rfl, (fun _ h => nomatch h), ?_, Nat.zero_le _, (fun _ h => nomatch h)⟩
      rwa [List.length_nil, pageBehind_zero]
    case isTrue hbelow =>
      have hfree (habsent : entryPage (σ.mem pgdir (pdx va)) = none) : free ≠ [] := by
        rintro rfl
        rw [hdir.walk_exhausted habsent] at hrun
        cases hrun
      obtain ⟨table, σ', free', hwalk, hwalked, hshown⟩ := hdir.round hfree
      rw [hwalk, Option.bind_eq_bind, Option.bind_some] at hrun
      dsimp only at hrun
      obtain ⟨⟨rest, final'⟩, hrest, hcons⟩ := Option.bind_eq_some_iff.mp hrun
      obtain ⟨rfl, -⟩ := Prod.mk.inj (Option.some.inj hcons)
      have hvisited := ih hwalked.directory hrest
      constructor
      · rw [List.map_cons, hvisited.addresses, List.length_cons, List.range_succ_eq_map,
          List.map_cons, List.map_map, pageBehind_zero]
        exact congrArg _ (List.map_congr_left fun k _ => pageBehind_next va k)
      · exact List.forall_mem_cons.mpr ⟨hbelow, hvisited.below⟩
      · rw [List.length_cons, ← pageBehind_next]
        exact hvisited.ends
      · exact (hwalked.missing _).mpr hvisited.memory
      · refine List.forall_mem_cons.mpr ⟨⟨hshown, Or.inr rfl⟩, fun visit hvisit => ?_⟩
        obtain ⟨hreport, hstart⟩ := hvisited.shown visit hvisit
        refine ⟨hreport, ?_⟩
        by_cases hself : SelfMapped σ pgdir visit.va
        · exact Or.inl hself
        · right
          rw [← hwalked.mapping _ hself]
          exact hstart.resolve_left ((hwalked.self _).not.mpr hself)

/-- The loop runs to its end when there is memory for the page tables. -/
theorem exists_loop (hdir : Directory σ pgdir free) (count : ℕ)
    (hbelow : ∀ i < count, pageBehind va i ≤ last) (hends : ¬ pageBehind va count ≤ last)
    (hmemory : (missingTables σ pgdir va count).card ≤ free.length) :
    ∃ visits final, mappingsLoop pgdir last (count + 1) σ va = some (visits, final) ∧
      visits.length = count := by
  induction count generalizing σ free va with
  | zero =>
    rw [pageBehind_zero] at hends
    exact ⟨[], σ, if_neg hends, rfl⟩
  | succ count ih =>
    have hfree (habsent : entryPage (σ.mem pgdir (pdx va)) = none) : free ≠ [] := by
      rintro rfl
      have hmem : pdx va ∈ missingTables σ pgdir va (count + 1) := by
        rw [mem_missingTables, regionTables_head]
        exact ⟨Finset.mem_insert_self _ _, habsent⟩
      exact absurd (Finset.card_pos.mpr ⟨_, hmem⟩) (Nat.not_lt.mpr hmemory)
    obtain ⟨table, σ', free', hwalk, hwalked, -⟩ := hdir.round hfree
    obtain ⟨visits, final, hrest, hlength⟩ := @ih σ' free' (va + pgSize) hwalked.directory
      (fun i hi => by rw [pageBehind_next]; exact hbelow (i + 1) (by omega))
      (by rwa [pageBehind_next]) ((hwalked.missing count).mp hmemory)
    have hfirst : va ≤ last := pageBehind_zero va ▸ hbelow 0 (Nat.succ_pos _)
    refine ⟨⟨va, shownEntry (σ'.load table (ptx va)), σ⟩ :: visits, final, ?_,
      congrArg (· + 1) hlength⟩
    rw [mappingsLoop, if_pos hfirst, hwalk, Option.bind_eq_bind, Option.bind_some]
    dsimp only
    rw [hrest]
    rfl

theorem toNat_pageBehind (va : Word) (count : ℕ) :
    (pageBehind va count).toNat = (va.toNat + count * 4096) % 2 ^ 32 := by
  rw [pageBehind, BitVec.toNat_add, BitVec.toNat_mul, BitVec.toNat_ofNat,
    show pgSize.toNat = 4096 from rfl, Nat.mod_mul_mod, Nat.add_mod_mod]

/-- The loop steps over the pages of the range just when the offset in the page of the first address
is not above that of the last, and the range ends below the last page of all. -/
theorem range_iff (hle : va ≤ last) {count : ℕ} (hcount : count = pgnum last + 1 - pgnum va) :
    ((∀ i < count, pageBehind va i ≤ last) ∧ ¬ pageBehind va count ≤ last) ↔
      va.toNat % 4096 ≤ last.toNat % 4096 ∧ last.toNat + 4096 < 2 ^ 32 := by
  have hva := va.isLt
  have hlast := last.isLt
  rw [BitVec.le_def] at hle
  rw [pgnum_eq, pgnum_eq] at hcount
  have hpos : 0 < count := by omega
  constructor
  · rintro ⟨hbelow, hends⟩
    have hlastPage := hbelow (count - 1) (by omega)
    rw [BitVec.le_def, toNat_pageBehind] at hlastPage hends
    omega
  · rintro ⟨hoffset, htop⟩
    constructor
    · intro i hi
      rw [BitVec.le_def, toNat_pageBehind]
      omega
    · rw [BitVec.le_def, toNat_pageBehind]
      omega

/-- What a covered range says about the addresses and the memory. -/
theorem CoversRange.steps (hdir : Directory σ pgdir free) (hcovers : CoversRange σ pgdir va last)
    {count : ℕ} (hcount : count = pgnum last + 1 - pgnum va) :
    ((∀ i < count, pageBehind va i ≤ last) ∧ ¬ pageBehind va count ≤ last) ∧
      (missingTables σ pgdir va count).card ≤ free.length := by
  obtain ⟨fuel, visits, final, hrun, hpages, -⟩ := hcovers
  have hvisited := visited_of_loop hdir hrun
  have hlength : visits.length = count := by
    have hlengths := congrArg List.length hpages
    rw [List.length_map, List.length_range', ← hcount] at hlengths
    exact hlengths
  have hends := hvisited.ends
  have hmemory := hvisited.memory
  rw [hlength] at hends hmemory
  refine ⟨⟨fun i hi => ?_, hends⟩, hmemory⟩
  have hplace : pageBehind va i ∈ visits.map Visit.va := by
    rw [hvisited.addresses, hlength]
    exact List.mem_map_of_mem (List.mem_range.mpr hi)
  obtain ⟨visit, hvisit, hva⟩ := List.mem_map.mp hplace
  exact hva ▸ hvisited.below visit hvisit

end Loop

/-- `showmappings` covers its range just when the first address is not further into its page than the
last, the last is not in the last page of the address space, and there are free pages for the page
tables that are missing. -/
theorem showmappings_covers_iff {σ : Phys} {pgdir : ℕ} {free : List ℕ} {va last : Word}
    (hdir : Directory σ pgdir free) (hle : va ≤ last) :
    CoversRange σ pgdir va last ↔
      va.toNat % 4096 ≤ last.toNat % 4096 ∧ last.toNat + 4096 < 2 ^ 32 ∧
        (missingTables σ pgdir va (pgnum last + 1 - pgnum va)).card ≤ free.length := by
  obtain ⟨count, hcount⟩ : ∃ count, pgnum last + 1 - pgnum va = count := ⟨_, rfl⟩
  rw [← and_assoc, ← range_iff hle hcount.symm, hcount]
  constructor
  · exact fun hcovers => hcovers.steps hdir hcount.symm
  · rintro ⟨⟨hbelow, hends⟩, hmemory⟩
    obtain ⟨visits, final, hrun, hlength⟩ := exists_loop hdir count hbelow hends hmemory
    have hvisited := visited_of_loop hdir hrun
    refine ⟨_, visits, final, hrun, ?_, hvisited.shown⟩
    have hshort : last.toNat + 4096 < 2 ^ 32 :=
      ((range_iff hle hcount.symm).mp ⟨hbelow, hends⟩).2
    have hpages : visits.map (fun visit => pgnum visit.va) =
        (List.range count).map fun i => pgnum va + i := by
      have hmap : visits.map (fun visit => pgnum visit.va) =
          (visits.map Visit.va).map pgnum := by
        rw [List.map_map]
        rfl
      rw [hmap, hvisited.addresses, hlength, List.map_map]
      refine List.map_congr_left fun i hi => ?_
      have hi := List.mem_range.mp hi
      rw [Function.comp_apply, pgnum_eq, pgnum_eq, toNat_pageBehind]
      rw [pgnum_eq, pgnum_eq] at hcount
      rw [BitVec.le_def] at hle
      omega
    rw [hpages, hcount, List.range'_eq_map_range]

/-- Two pages, with memory for their page table. -/
theorem showmappings_covers_two : CoversRange selfSpace 1 0x1000 0x2fff :=
  (showmappings_covers_iff selfSpace_directory (by decide)).mpr
    ⟨by decide, by decide, by decide⟩

/-- From the end of one page to the begin of the next, the second is not reported. -/
theorem last_page_missed : ¬ ∀ (σ : Phys) (pgdir : ℕ) (free : List ℕ) (va last : Word),
    Directory σ pgdir free → va ≤ last →
      (missingTables σ pgdir va (pgnum last + 1 - pgnum va)).card ≤ free.length →
      CoversRange σ pgdir va last := by
  intro hall
  have hcovers := hall selfSpace 1 [2] 0x1fff 0x2000 selfSpace_directory (by decide) (by decide)
  have hsecond := (hcovers.steps selfSpace_directory rfl).1.1 1 (by decide)
  exact absurd hsecond (by decide)

end OsLabs.Jos
