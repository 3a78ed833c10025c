import OsLabs.Core.Transition
import OsLabs.Jos.BootAlloc
import OsLabs.Jos.Delivery
import OsLabs.Jos.RegionMap

/-!
# Reservations of `mmio_map_region`

`mmio_map_region` rounds the physical range to whole pages and returns the
base of its pages, whatever the offset of `pa`; its test against `MMIOLIM` adds
32-bit quantities.  For page-aligned `pa` and sizes that do not wrap the sum,
the reservations of every run are usable and disjoint.
-/

namespace OsLabs.Jos

open Function
open OsLabs.Transition

/-- A call of `mmio_map_region`. -/
structure MmioCall where
  pa : Word
  size : Word

/-- A call that has returned `va`. -/
structure Reservation extends MmioCall where
  va : Word

/-- A call on the directory `kern`; the state holds `base`. -/
def mmioStep (kern : ℕ) (state : Phys × Word) (call : MmioCall) : Option (Phys × Word) :=
  (mmioMapRegion state.1 kern state.2 call.pa call.size).map Prod.swap

/-- The call returned `base` as it was before. -/
def noteReserved (state : Phys × Word) (call : MmioCall) (_ : Phys × Word)
    (reserved : List Reservation) : List Reservation :=
  ⟨call, state.2⟩ :: reserved

/-- The range of the call is not empty and ends within the physical address space. -/
def MmioCall.Valid (call : MmioCall) : Prop :=
  0 < call.size ∧ call.pa.toNat + call.size.toNat ≤ 2 ^ 32

instance (call : MmioCall) : Decidable call.Valid := inferInstanceAs (Decidable (_ ∧ _))

/-- The flags of device memory. -/
def mmioFlags : Word := ptePcd ||| ptePwt ||| pteW

/-- `va` is translated to `pa`, writable, not cached, and not for users. -/
def DeviceAt (σ : Phys) (kern : ℕ) (va pa : Word) : Prop :=
  ∃ pde pte, translation σ kern va = some (pde, pte) ∧
    (pteAddr pte).toNat + pgoff va = pa.toNat ∧ pte &&& mmioFlags = mmioFlags ∧ pte &&& pteU = 0

/-- The reservations are usable and disjoint, and the other mappings are those of `σ₀`. -/
structure MmioRight (σ₀ σ : Phys) (kern : ℕ) (reserved : List Reservation) : Prop where
  usable : ∀ r ∈ reserved, ∀ k < r.size.toNat,
    DeviceAt σ kern (r.va + BitVec.ofNat 32 k) (r.pa + BitVec.ofNat 32 k)
  apart : reserved.Pairwise fun r q => q.va.toNat + q.size.toNat ≤ r.va.toNat ∨
    r.va.toNat + r.size.toNat ≤ q.va.toNat
  inside : ∀ r ∈ reserved, mmioBase ≤ r.va ∧ r.va.toNat + r.size.toNat ≤ mmioLim.toNat
  others : ∀ va, va < mmioBase ∨ mmioLim ≤ va → translation σ kern va = translation σ₀ kern va

/-- The bytes of the pages that the range of the call touches. -/
def MmioCall.pageBytes (call : MmioCall) : ℕ :=
  (call.pa.toNat + call.size.toNat + 4095) / 4096 * 4096 - call.pa.toNat / 4096 * 4096

/-- The sum of the limit test does not wrap, and what passes the test is page-aligned. -/
def MmioCall.Good (base : Word) (call : MmioCall) : Prop :=
  base.toNat + call.pageBytes < 2 ^ 32 ∧
    (call.pa.toNat % 4096 = 0 ∨ mmioLim.toNat ≤ base.toNat + call.pageBytes)

instance (base : Word) (call : MmioCall) : Decidable (call.Good base) :=
  inferInstanceAs (Decidable (_ ∧ _))

/-- A directory for device mappings: the page table of the region is there, or the directory is not
its own page table. -/
structure MmioDirectory (σ : Phys) (kern : ℕ) (free : List ℕ) : Prop where
  directory : Directory σ kern free
  notSelf : entryPage (σ.mem kern (pdx mmioBase)) ≠ some kern
  table : entryPage (σ.mem kern (pdx mmioBase)) ≠ none ∨
    ∀ d < 1024, entryPage (σ.mem kern d) ≠ some kern

/-! ## One call -/

theorem toNat_mmioBase : mmioBase.toNat = 0xEF800000 := by decide

theorem toNat_mmioLim : mmioLim.toNat = 0xEFC00000 := by decide

/-- The region has one page table. -/
theorem pdx_mmio {va : Word} (hlow : 0xEF800000 ≤ va.toNat) (hhigh : va.toNat < 0xEFC00000) :
    pdx va = pdx mmioBase := by
  rw [pdx_eq, show pdx mmioBase = 958 by decide]
  omega

theorem pdx_pageBehind {base : Word} {count k : ℕ} (hlow : 0xEF800000 ≤ base.toNat)
    (hhigh : base.toNat + count * 4096 < 0xEFC00000) (hk : k < count) :
    pdx (pageBehind base k) = pdx mmioBase := by
  have hfits : base.toNat + k * 4096 < 0xEFC00000 :=
    (Nat.add_lt_add_left (Nat.mul_lt_mul_of_pos_right hk (by decide)) _).trans hhigh
  have hva := toNat_add_pages base k (hfits.trans (by decide))
  refine pdx_mmio ?_ ?_ <;> rw [hva]
  · exact hlow.trans (Nat.le_add_right _ _)
  · exact hfits

section OneCall

variable {σ σ' : Phys} {kern : ℕ} {free : List ℕ} {base : Word} {call : MmioCall}

/-- The size that the code computes. -/
theorem toNat_mmioBytes (hvalid : call.Valid) (hlt : call.pageBytes < 2 ^ 32) :
    (roundUp (call.pa + call.size) - roundDown call.pa).toNat = call.pageBytes := by
  have hpa := call.pa.isLt
  have hsize := call.size.isLt
  have hend := hvalid.2
  rw [MmioCall.pageBytes] at hlt ⊢
  rw [BitVec.toNat_sub, toNat_roundUp, toNat_roundDown, BitVec.toNat_add]
  omega

/-- Without memory for a missing page table nothing is mapped. -/
theorem Directory.mapPage_exhausted {pgdir : ℕ} (hdir : Directory σ pgdir []) {va : Word}
    (habsent : entryPage (σ.mem pgdir (pdx va)) = none) (entry : Word) :
    Jos.mapPage σ pgdir va entry = none := by
  have hhead : σ.pageFreeList = none := hdir.threads.head_eq
  rw [entryPage_eq_none] at habsent
  simp [Jos.mapPage, pgdirWalk, habsent, pageAlloc, hhead]

theorem bootMapPages_prefix {va pa perm : Word} {i count : ℕ}
    (hrun : bootMapPages σ kern va pa perm count = some σ') (hle : i ≤ count) :
    ∃ σ₁, bootMapPages σ kern va pa perm i = some σ₁ := by
  induction count generalizing σ' with
  | zero =>
    rw [Nat.le_zero.mp hle]
    exact ⟨σ', hrun⟩
  | succ count ih =>
    obtain ⟨mid, hmid, hlast⟩ := Option.bind_eq_some_iff.mp hrun
    rcases Nat.le_succ_iff.mp hle with hbefore | rfl
    · exact ih hmid hbefore
    · exact ⟨σ', hrun⟩

/-- A region in one page table is mapped whenever `boot_map_region` returns. -/
theorem Directory.region_some {d : ℕ} {va pa perm size : Word} {count : ℕ}
    (hdir : Directory σ kern free) (hsize : size.toNat = count * 4096)
    (hfits : va.toNat + size.toNat ≤ 2 ^ 32)
    (hindex : ∀ k < count, pdx (pageBehind va k) = d) (hself : entryPage (σ.mem kern d) ≠ some kern)
    (hrun : bootMapRegion σ kern va size pa perm = some σ') :
    ∃ free', RegionMapped σ kern free va pa perm count σ' free' := by
  have henough : (missingTables σ kern va count).card ≤ free.length := by
    have hsub : missingTables σ kern va count ⊆ {d} := fun e he => by
      obtain ⟨k, hk, hpdx⟩ := mem_regionTables.mp (mem_missingTables.mp he).1
      rw [Finset.mem_singleton, ← hpdx, hindex k hk]
    have hone := Finset.card_le_card hsub
    rw [Finset.card_singleton] at hone
    cases free with
    | cons page rest =>
      rw [List.length_cons]
      omega
    | nil =>
      -- the first page would have failed
      rw [List.length_nil, Nat.le_zero, Finset.card_eq_zero]
      by_contra hsome
      obtain ⟨e, he⟩ := Finset.nonempty_iff_ne_empty.mpr hsome
      obtain ⟨hregion, habsent⟩ := mem_missingTables.mp he
      obtain ⟨k, hk, hpdx⟩ := mem_regionTables.mp hregion
      have hcount : (size / pgSize).toNat = count := by
        rw [BitVec.toNat_udiv, hsize, show pgSize.toNat = 4096 by decide]
        omega
      rw [bootMapRegion, hcount] at hrun
      obtain ⟨σ₁, hfirst⟩ := bootMapPages_prefix hrun (show 1 ≤ count by omega)
      have hmap : Jos.mapPage σ kern (pageBehind va 0) (pageBehind pa 0 ||| perm ||| pteP) =
          some σ₁ := hfirst
      rw [hindex k hk] at hpdx
      rw [hdir.mapPage_exhausted (by rw [hindex 0 (by omega), hpdx]; exact habsent)] at hmap
      cases hmap
  have hnotSelf (k : ℕ) (hk : k < count) : ¬ SelfMapped σ kern (pageBehind va k) := by
    rw [SelfMapped, hindex k hk]
    exact hself
  obtain ⟨σ₇, -, free', hrun₇, -, hmapped, -⟩ :=
    @boot_map_region_maps σ kern free va pa perm count size hdir hsize hfits hnotSelf henough
  rw [hrun] at hrun₇
  cases hrun₇
  exact ⟨free', hmapped⟩

/-- A call that returns has mapped its pages behind the base. -/
theorem mmioMapRegion_some (hdir : MmioDirectory σ kern free) (hvalid : call.Valid)
    (hlow : mmioBase ≤ base) (hsum : base.toNat + call.pageBytes < 2 ^ 32) {next : Word}
    (hrun : mmioMapRegion σ kern base call.pa call.size = some (next, σ')) :
    ∃ count free', call.pageBytes = count * 4096 ∧ 0 < count ∧
      base.toNat + count * 4096 < 0xEFC00000 ∧ next.toNat = base.toNat + count * 4096 ∧
      RegionMapped σ kern free base (roundDown call.pa) mmioFlags count σ' free' := by
  have hbytes := toNat_mmioBytes hvalid (by omega)
  have hpos : 0 < call.size.toNat := hvalid.1
  obtain ⟨count, hcount⟩ : ∃ count, call.pageBytes = count * 4096 :=
    ⟨call.pageBytes / 4096, by rw [MmioCall.pageBytes]; omega⟩
  have hsome : 0 < count := by
    rw [MmioCall.pageBytes] at hcount
    omega
  obtain ⟨size, hsize⟩ : ∃ size, size = roundUp (call.pa + call.size) - roundDown call.pa :=
    ⟨_, rfl⟩
  rw [← hsize] at hbytes
  have hnext : (base + size).toNat = base.toNat + count * 4096 := by
    rw [BitVec.toNat_add, hbytes, ← hcount, Nat.mod_eq_of_lt hsum]
  have hcode : mmioMapRegion σ kern base call.pa call.size =
      if mmioLim ≤ base + size then none
      else (bootMapRegion σ kern base size (roundDown call.pa) mmioFlags).map
        fun σ => (base + size, σ) := by
    rw [hsize, mmioMapRegion]
    split
    · rfl
    · rw [Option.map_eq_bind]
      rfl
  rw [hcode] at hrun
  split at hrun
  · cases hrun
  case isFalse hbelow =>
    obtain ⟨mapped, hmap, hpair⟩ := Option.map_eq_some_iff.mp hrun
    cases hpair
    rw [BitVec.le_def, hnext, toNat_mmioLim, not_le] at hbelow
    rw [BitVec.le_def, toNat_mmioBase] at hlow
    have hindex (k : ℕ) (hk : k < count) : pdx (pageBehind base k) = pdx mmioBase :=
      pdx_pageBehind hlow hbelow hk
    obtain ⟨free', hregion⟩ := hdir.directory.region_some (hbytes.trans hcount) (by omega) hindex
      hdir.notSelf hmap
    exact ⟨count, free', hcount, hsome, hbelow, hnext, hregion⟩

/-- The bytes of an aligned range appear behind the base. -/
theorem RegionMapped.device {count : ℕ} {free' : List ℕ} (hvalid : call.Valid)
    (haligned : call.pa.toNat % 4096 = 0) (hbase : base.toNat % 4096 = 0)
    (hcount : call.pageBytes = count * 4096) (hhigh : base.toNat + count * 4096 < 2 ^ 32)
    (hregion : RegionMapped σ kern free base (roundDown call.pa) mmioFlags count σ' free')
    {k : ℕ} (hk : k < call.size.toNat) :
    DeviceAt σ' kern (base + BitVec.ofNat 32 k) (call.pa + BitVec.ofNat 32 k) := by
  have hend := hvalid.2
  have hpage : k / 4096 < count := by
    rw [MmioCall.pageBytes] at hcount
    omega
  have hbefore : k / 4096 * 4096 ≤ k := Nat.div_mul_le_self k 4096
  have hround : roundDown call.pa = call.pa := by
    apply BitVec.eq_of_toNat_eq
    rw [toNat_roundDown]
    omega
  have hfits : base.toNat + k < 2 ^ 32 := by
    rw [MmioCall.pageBytes] at hcount
    omega
  have hva : (base + BitVec.ofNat 32 k).toNat = base.toNat + k := by
    rw [BitVec.toNat_add, BitVec.toNat_ofNat]
    omega
  have hpa : (call.pa + BitVec.ofNat 32 k).toNat = call.pa.toNat + k := by
    rw [BitVec.toNat_add, BitVec.toNat_ofNat]
    omega
  have hpaFits : call.pa.toNat + k < 2 ^ 32 := by omega
  have hvaPage := toNat_add_pages base (k / 4096) ((Nat.add_le_add_left hbefore _).trans_lt hfits)
  have hpaPage := toNat_add_pages call.pa (k / 4096)
    ((Nat.add_le_add_left hbefore _).trans_lt hpaFits)
  -- the entry of the page that `va` lies in
  obtain ⟨hd, ht⟩ : pdx (base + BitVec.ofNat 32 k) = pdx (pageBehind base (k / 4096)) ∧
      ptx (base + BitVec.ofNat 32 k) = ptx (pageBehind base (k / 4096)) := by
    rw [← indices_of_pgnum, pgnum_eq, pgnum_eq, hva, hvaPage]
    omega
  have hword : pteWord σ' kern (base + BitVec.ofNat 32 k) =
      some (pageBehind call.pa (k / 4096) ||| mmioFlags ||| pteP) := by
    rw [pteWord, hd, ht, ← pteWord, hregion.entries _ hpage, hround]
  have halignedPage : pteAddr (pageBehind call.pa (k / 4096)) = pageBehind call.pa (k / 4096) :=
    aligned_add_pages (by rw [pteAddr_eq_self_iff]; exact haligned) _
  refine ⟨σ'.load kern (pdx (base + BitVec.ofNat 32 k)),
    pageBehind call.pa (k / 4096) ||| mmioFlags ||| pteP, ?_, ?_, ?_, ?_⟩
  · rw [translation, hword, Option.bind_some, if_neg (entry_present _)]
  · rw [pteAddr_or, pteAddr_or, halignedPage, show pteAddr mmioFlags = 0 by decide,
      show pteAddr pteP = 0 by decide, BitVec.ofNat_eq_ofNat, BitVec.or_zero, BitVec.or_zero,
      hpaPage, pgoff_eq, hva, hpa]
    omega
  · rw [BitVec.and_or_distrib_right, BitVec.and_or_distrib_right,
      aligned_and_flags halignedPage (by decide)]
    decide
  · rw [BitVec.and_or_distrib_right, BitVec.and_or_distrib_right,
      aligned_and_flags halignedPage (by decide)]
    decide

/-- The directory after a call. -/
theorem RegionMapped.mmioDirectory {count : ℕ} {free' : List ℕ} {pa : Word}
    (hdir : MmioDirectory σ kern free) (hlow : 0xEF800000 ≤ base.toNat) (hpos : 0 < count)
    (hhigh : base.toNat + count * 4096 < 0xEFC00000)
    (hregion : RegionMapped σ kern free base pa mmioFlags count σ' free') :
    MmioDirectory σ' kern free' where
  directory := hregion.directory
  notSelf := fun hself => hdir.notSelf ((hregion.self_iff hdir.directory _).mp hself)
  table := Or.inl fun habsent => ((hregion.absent_iff _).mp habsent).2
    (mem_regionTables.mpr ⟨0, hpos, pdx_pageBehind hlow hhigh hpos⟩)

/-- Addresses outside the pages of the call are translated as before. -/
theorem RegionMapped.mmioOthers {count : ℕ} {free' : List ℕ} {pa va : Word}
    (hdir : MmioDirectory σ kern free) (hlow : 0xEF800000 ≤ base.toNat)
    (hhigh : base.toNat + count * 4096 < 0xEFC00000)
    (hregion : RegionMapped σ kern free base pa mmioFlags count σ' free')
    (hva : (0xEF800000 ≤ va.toNat ∧ va.toNat / 4096 < base.toNat / 4096) ∨
      va.toNat < 0xEF800000 ∨ 0xEFC00000 ≤ va.toNat) :
    translation σ' kern va = translation σ kern va := by
  refine hregion.others va (fun k hk hsame => ?_) ?_
  · have hindex := pdx_pageBehind hlow hhigh hk
    rw [← (indices_of_pgnum.mp hsame).1, pdx_eq, show pdx mmioBase = 958 by decide] at hindex
    have hpage := pgnum_add_pages (show base.toNat + count * 4096 ≤ 2 ^ 32 by omega) hk
    rw [← hsame, pgnum_eq, pgnum_eq] at hpage
    omega
  · rcases hva with ⟨hbase, hbelow⟩ | houtside
    · -- in the region, which the directory does not map itself in
      refine Or.inr fun hself => hdir.notSelf ?_
      rwa [SelfMapped, pdx_mmio hbase (by omega)] at hself
    · refine hdir.table.imp (fun hpresent => ?_) fun hnone hself => hnone _ (pdx_lt va) hself
      rw [Finset.eq_empty_iff_forall_notMem]
      intro d hd
      obtain ⟨hd, habsent⟩ := mem_missingTables.mp hd
      obtain ⟨k, hk, hpdx⟩ := mem_regionTables.mp hd
      rw [← hpdx, pdx_pageBehind hlow hhigh hk] at habsent
      exact hpresent habsent

end OneCall

/-! ## Runs -/

/-- What holds between the calls: the reservations lie below `base`. -/
structure Reserving (σ₀ : Phys) (kern : ℕ) (state : Phys × Word) (reserved : List Reservation) :
    Prop where
  directory : ∃ free, MmioDirectory state.1 kern free
  low : 0xEF800000 ≤ state.2.toNat
  high : state.2.toNat ≤ 0xEFC00000
  aligned : state.2.toNat % 4096 = 0
  below : ∀ r ∈ reserved, r.va.toNat + r.size.toNat ≤ state.2.toNat
  right : MmioRight σ₀ state.1 kern reserved

section Runs

variable {σ₀ : Phys} {kern : ℕ}

theorem reserving_start {free : List ℕ} (hdir : MmioDirectory σ₀ kern free) :
    Reserving σ₀ kern (σ₀, mmioBase) [] where
  directory := ⟨free, hdir⟩
  low := toNat_mmioBase.ge
  high := toNat_mmioBase.le.trans (by decide)
  aligned := (show mmioBase.toNat % 4096 = 0 by decide)
  below := fun _ hr => absurd hr List.not_mem_nil
  right :=
    { usable := fun _ hr => absurd hr List.not_mem_nil
      apart := List.Pairwise.nil
      inside := fun _ hr => absurd hr List.not_mem_nil
      others := fun _ _ => rfl }

/-- A good call keeps the reservations and adds its own. -/
theorem Reserving.step {state after : Phys × Word} {reserved : List Reservation} {call : MmioCall}
    (hreserving : Reserving σ₀ kern state reserved) (hvalid : call.Valid)
    (hgood : call.Good state.2) (hstep : mmioStep kern state call = some after) :
    Reserving σ₀ kern after (noteReserved state call after reserved) := by
  obtain ⟨σ, base⟩ := state
  obtain ⟨⟨next, σ'⟩, hrun, hpair⟩ := Option.map_eq_some_iff.mp hstep
  obtain rfl : after = (σ', next) := hpair.symm
  obtain ⟨⟨free, hdir⟩, hlow, hhigh, haligned, hbelow, husable, hapart, hinside, hothers⟩ :=
    hreserving
  dsimp only at hlow hhigh haligned hbelow hgood hrun
  obtain ⟨hsum, hfit⟩ := hgood
  have hbase : mmioBase ≤ base := by
    rw [BitVec.le_def, toNat_mmioBase]
    exact hlow
  obtain ⟨count, free', hcount, hpos, hend, hnext, hregion⟩ :=
    mmioMapRegion_some hdir hvalid hbase hsum hrun
  have hpa : call.pa.toNat % 4096 = 0 := hfit.resolve_right fun hfull => by
    rw [hcount, toNat_mmioLim] at hfull
    exact absurd hend (not_lt.mpr hfull)
  have hsize : call.size.toNat ≤ count * 4096 := by
    rw [← hcount, MmioCall.pageBytes]
    omega
  have hdevice (k : ℕ) (hk : k < call.size.toNat) :=
    hregion.device hvalid hpa haligned hcount (hend.trans (by decide)) hk
  refine
    { directory := ⟨free', hregion.mmioDirectory hdir hlow hpos hend⟩
      low := ?_
      high := ?_
      aligned := ?_
      below := fun r hr => ?_
      right :=
        { usable := fun r hr k hk => ?_
          apart := List.pairwise_cons.mpr ⟨fun q hq => Or.inl (hbelow q hq), hapart⟩
          inside := fun r hr => ?_
          others := fun va hva => ?_ } }
  · exact hlow.trans (hnext ▸ Nat.le_add_right _ _)
  · exact hnext.le.trans hend.le
  · dsimp only
    rw [hnext]
    omega
  · dsimp only
    rw [hnext]
    rcases List.mem_cons.mp hr with rfl | hr
    · exact Nat.add_le_add_left hsize _
    · exact (hbelow r hr).trans (Nat.le_add_right _ _)
  · rcases List.mem_cons.mp hr with rfl | hr
    · exact hdevice k hk
    · have hr' := hbelow r hr
      have hrlow := (hinside r hr).1
      rw [BitVec.le_def, toNat_mmioBase] at hrlow
      have hva : (r.va + BitVec.ofNat 32 k).toNat = r.va.toNat + k := by
        rw [BitVec.toNat_add, BitVec.toNat_ofNat]
        omega
      have hsame : translation σ' kern (r.va + BitVec.ofNat 32 k) =
          translation σ kern (r.va + BitVec.ofNat 32 k) := by
        refine hregion.mmioOthers hdir hlow hend (Or.inl ?_)
        rw [hva]
        clear hend
        omega
      rw [DeviceAt, hsame]
      exact husable r hr k hk
  · rcases List.mem_cons.mp hr with rfl | hr
    · refine ⟨hbase, ?_⟩
      rw [toNat_mmioLim]
      exact (Nat.add_le_add_left hsize _).trans hend.le
    · exact hinside r hr
  · rw [hregion.mmioOthers hdir hlow hend (Or.inr ?_), hothers va hva]
    rwa [BitVec.lt_def, BitVec.le_def, toNat_mmioBase, toNat_mmioLim] at hva

/-- In every run of good calls the reservations are usable and disjoint, and no other mapping
changes. -/
theorem mmio_reservations_right {free : List ℕ} (hdir : MmioDirectory σ₀ kern free)
    {state : (Phys × Word) × List Reservation}
    (hrun : Transition.Runs (ghosted (mmioStep kern) noteReserved)
      (fun before call => call.Valid ∧ call.Good before.1.2) ((σ₀, mmioBase), []) state) :
    MmioRight σ₀ state.1.1 kern state.2 := by
  have hreserving : Reserving σ₀ kern state.1 state.2 := by
    refine @Transition.Runs.invariant _ _ _ _ _ _
      (fun state => Reserving σ₀ kern state.1 state.2) hrun (reserving_start hdir) ?_
    rintro ⟨before, reserved⟩ call ⟨after, reserved'⟩ hbefore ⟨hvalid, hgood⟩ hstep
    obtain ⟨next, hnext, hpair⟩ := Option.map_eq_some_iff.mp hstep
    cases hpair
    exact hbefore.step hvalid hgood hnext
  exact hreserving.right

end Runs

/-! ## Two calls -/

/-- The directory in page 1 has the page table 2 for the region. -/
def mmioSpace : Phys where
  npages := 16
  pages := fun _ => ⟨none, 0⟩
  pageFreeList := none
  mem := fun page index => if page = 1 ∧ index = 958 then tableEntry 2 else 0
  mmuBits := fun _ _ => 0

theorem mmioSpace_table {d table : ℕ} (htable : entryPage (mmioSpace.mem 1 d) = some table) :
    d = 958 ∧ table = 2 := by
  simp only [mmioSpace, true_and] at htable
  by_cases hindex : d = 958
  · rw [if_pos hindex, entryPage_tableEntry (by decide)] at htable
    exact ⟨hindex, (Option.some.inj htable).symm⟩
  · rw [if_neg hindex, entryPage_zero] at htable
    cases htable

theorem mmioSpace_directory : MmioDirectory mmioSpace 1 [] where
  directory :=
    { threads := IntrusiveList.Threads.nil
      free_lt := fun _ hpage => absurd hpage List.not_mem_nil
      npages_le := by decide
      dir_not_free := List.not_mem_nil
      table_lt := fun d _ table htable => by
        rw [(mmioSpace_table htable).2]
        decide
      table_not_free := fun _ _ _ _ => List.not_mem_nil
      table_inj := fun d _ e _ table hd he => by
        rw [(mmioSpace_table hd).1, (mmioSpace_table he).1] }
  notSelf := fun hself => absurd (mmioSpace_table hself).2 (by decide)
  table := Or.inr fun d _ hself => absurd (mmioSpace_table hself).2 (by decide)

theorem mmioSpace_runs (call : MmioCall) {after : Phys × Word}
    (hstep : mmioStep 1 (mmioSpace, mmioBase) call = some after)
    {ok : (Phys × Word) × List Reservation → MmioCall → Prop}
    (hok : ok ((mmioSpace, mmioBase), []) call) :
    Transition.Runs (ghosted (mmioStep 1) noteReserved) ok ((mmioSpace, mmioBase), [])
      (after, [⟨call, mmioBase⟩]) :=
  Transition.Runs.noted Transition.Runs.refl hok hstep

/-- The page of a local APIC. -/
theorem mmioSpace_right :
    ∃ σ : Phys, MmioRight mmioSpace σ 1 [⟨⟨0xFEE00000, 0x1000⟩, mmioBase⟩] := by
  have hsome : (mmioStep 1 (mmioSpace, mmioBase) ⟨0xFEE00000, 0x1000⟩).isSome = true := by
    decide +kernel
  obtain ⟨after, hstep⟩ := Option.isSome_iff_exists.mp hsome
  have hrun := @mmioSpace_runs ⟨0xFEE00000, 0x1000⟩ after hstep
    (fun before call => call.Valid ∧ call.Good before.1.2) ⟨by decide, by decide⟩
  exact ⟨_, mmio_reservations_right mmioSpace_directory hrun⟩

theorem pteAddr_mod (pte : Word) : (pteAddr pte).toNat % 4096 = 0 := by
  rw [← pteAddr_eq_self_iff]
  simp [pteAddr, BitVec.and_assoc]

/-- Registers that do not begin a page are not where the call says. -/
theorem unaligned_not_usable : ¬ ∀ (σ₀ : Phys) (kern : ℕ) (free : List ℕ)
    (state : (Phys × Word) × List Reservation), MmioDirectory σ₀ kern free →
      Transition.Runs (ghosted (mmioStep kern) noteReserved) (fun _ call => call.Valid)
        ((σ₀, mmioBase), []) state →
      MmioRight σ₀ state.1.1 kern state.2 := by
  intro hall
  have hsome : (mmioStep 1 (mmioSpace, mmioBase) ⟨0xFEE00010, 0x10⟩).isSome = true := by
    decide +kernel
  obtain ⟨after, hstep⟩ := Option.isSome_iff_exists.mp hsome
  have hrun := @mmioSpace_runs ⟨0xFEE00010, 0x10⟩ after hstep (fun _ call => call.Valid)
    (by decide)
  have hright := hall mmioSpace 1 [] _ mmioSpace_directory hrun
  obtain ⟨pde, pte, -, haddr, -⟩ := hright.usable _ (List.mem_singleton.mpr rfl) 0 (by decide)
  have haligned := pteAddr_mod pte
  have hoffset : pgoff (mmioBase + BitVec.ofNat 32 0) = 0 := by decide
  have htarget : (0xFEE00010 + BitVec.ofNat 32 0 : Word).toNat = 0xFEE00010 := by decide
  dsimp only at haddr
  rw [hoffset, htarget] at haddr
  omega

end OsLabs.Jos
