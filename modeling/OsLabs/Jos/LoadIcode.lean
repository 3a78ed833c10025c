import OsLabs.Jos.Elf
import OsLabs.Jos.UserPages

/-!
# `load_icode` builds the image

A binary is a file of bytes; its headers say what the address space of the new
environment has to show.  `load_icode` finds the file in the kernel image,
copies its segments into pages that it takes from the free list, and leaves
every other address space and the kernel's mappings as they are.
-/

namespace OsLabs.Jos

open Function

/-! ## Files -/

namespace Elf

/-- The bytes of a binary. -/
abbrev File := ℕ → BitVec 8

namespace File

def halfword (file : File) (k : ℕ) : BitVec 16 := (file (k + 1) ++ file k : BitVec (8 + 8))

def word (file : File) (k : ℕ) : Word :=
  (file.halfword (k + 2) ++ file.halfword k : BitVec (16 + 16))

def entry (file : File) : Word := file.word 24
def phoff (file : File) : ℕ := (file.word 28).toNat
def phnum (file : File) : ℕ := (file.halfword 44).toNat

/-- The offset of program header `n`. -/
def headerAt (file : File) (n : ℕ) : ℕ := file.phoff + n * 32

def header (file : File) (n : ℕ) : Proghdr where
  offset := file.word (file.headerAt n + 4)
  va := file.word (file.headerAt n + 8)
  filesz := file.word (file.headerAt n + 16)
  memsz := file.word (file.headerAt n + 20)

/-- Header `n` is of a segment to load. -/
def IsLoad (file : File) (n : ℕ) : Prop := file.word (file.headerAt n) = elfProgLoad

instance (file : File) (n : ℕ) : Decidable (file.IsLoad n) :=
  inferInstanceAs (Decidable (_ = _))

/-- The segments to load among `count` headers from `n` on. -/
def segmentsFrom (file : File) (n count : ℕ) : List Proghdr :=
  ((List.range' n count).filter file.IsLoad).map file.header

/-- The loadable segments. -/
def segments (file : File) : List Proghdr := file.segmentsFrom 0 file.phnum

theorem segmentsFrom_succ (file : File) (n count : ℕ) : file.segmentsFrom n (count + 1) =
    if file.IsLoad n then file.header n :: file.segmentsFrom (n + 1) count
    else file.segmentsFrom (n + 1) count := by
  rw [segmentsFrom, List.range'_succ, List.filter_cons]
  split <;> simp_all [segmentsFrom]

end File

/-- The virtual pages of a segment. -/
def Proghdr.pages (hdr : Proghdr) : Finset ℕ := pagesOf hdr.va hdr.memsz

/-- The virtual pages of some segments. -/
def segmentPages (hdrs : List Proghdr) : Finset ℕ := hdrs.toFinset.biUnion Proghdr.pages

theorem segmentPages_nil : segmentPages [] = ∅ := rfl

theorem segmentPages_cons (hdr : Proghdr) (hdrs : List Proghdr) :
    segmentPages (hdr :: hdrs) = hdr.pages ∪ segmentPages hdrs := by
  rw [segmentPages, List.toFinset_cons, Finset.biUnion_insert, segmentPages]

/-- A segment that `load_icode` can load: it ends below the stack page, and the
file holds what it copies. -/
structure Proghdr.Fits (hdr : Proghdr) (size : ℕ) : Prop where
  below : hdr.va.toNat + hdr.memsz.toNat ≤ (ustackTop - pgSize).toNat
  memsz_pos : 0 < hdr.memsz.toNat
  filesz_le : hdr.filesz.toNat ≤ hdr.memsz.toNat
  inside : hdr.offset.toNat + hdr.filesz.toNat ≤ size

/-- A well-formed binary of `size` bytes. -/
structure File.Loadable (file : File) (size : ℕ) : Prop where
  magic : file.word 0 = elfMagic
  header : sizeofElf ≤ size
  headers : file.headerAt file.phnum ≤ size
  segments : ∀ hdr ∈ file.segments, hdr.Fits size
  disjoint : file.segments.Pairwise fun first second => Disjoint first.pages second.pages

/-- The pages that the program uses: its segments, and the page of the stack. -/
def File.touched (file : File) : Finset ℕ :=
  insert (pgnum (ustackTop - pgSize)) (segmentPages file.segments)

/-- The bytes of the file that a segment starts with. -/
def Proghdr.bytes (file : File) (hdr : Proghdr) : List (BitVec 8) :=
  (List.range' hdr.offset.toNat hdr.filesz.toNat).map file

theorem Proghdr.length_bytes (file : File) (hdr : Proghdr) :
    (hdr.bytes file).length = hdr.filesz.toNat := by
  rw [Proghdr.bytes, List.length_map, List.length_range']

def Proghdr.segment (file : File) (hdr : Proghdr) : Segment :=
  ⟨hdr.va, hdr.memsz, hdr.bytes file⟩

/-- The program in the file, as booting loads it. -/
def File.program (file : File) : Program :=
  ⟨file.segments.map (Proghdr.segment file), file.entry⟩

/-- The address space `dir` shows the segment: the bytes of the file, then zeros. -/
structure Shown (file : File) (hdr : Proghdr) (σ : Phys) (dir : ℕ) : Prop where
  copied : ∀ k < hdr.filesz.toNat,
    userByte σ dir (hdr.va + BitVec.ofNat 32 k) = some (file (hdr.offset.toNat + k))
  cleared : ∀ k, hdr.filesz.toNat ≤ k → k < hdr.memsz.toNat →
    userByte σ dir (hdr.va + BitVec.ofNat 32 k) = some 0

/-! ## The file in memory -/

/-- The file is at `binary`, in kernel memory that the page allocator does not
manage, where the linker has put it. -/
structure Linked (m : Machine) (σ : Phys) (file : File) (binary : Word) (size : ℕ) : Prop where
  kernel : kernBase ≤ binary
  fits : binary.toNat + size < 2 ^ 32
  apart : ∀ k < size, pgnum (binary + BitVec.ofNat 32 k - kernBase) ∉ m.pool
  holds : ∀ k < size, σ.kernelByte (binary + BitVec.ofNat 32 k) = file k

section Reading

variable {m : Machine} {σ σ' : Phys} {file : File} {pgdir size k : ℕ} {binary : Word}

theorem Linked.load (hlinked : Linked m σ file binary size) (hk : k < size) :
    kernelLoad σ pgdir (binary + BitVec.ofNat 32 k) = some (file k) := by
  have hkernel : kernBase ≤ binary + BitVec.ofNat 32 k := by
    have hlow := hlinked.kernel
    have hfits := hlinked.fits
    rw [BitVec.le_def] at hlow ⊢
    rw [BitVec.toNat_add, BitVec.toNat_ofNat, Nat.mod_eq_of_lt (show k < 2 ^ 32 by omega),
      Nat.mod_eq_of_lt (by omega)]
    omega
  rw [kernelLoad, if_pos hkernel, hlinked.holds k hk]

theorem add_ofNat_add (binary : Word) (k j : ℕ) :
    binary + BitVec.ofNat 32 k + BitVec.ofNat 32 j = binary + BitVec.ofNat 32 (k + j) := by
  rw [BitVec.add_assoc, ← BitVec.ofNat_add]

theorem Linked.halfword (hlinked : Linked m σ file binary size) (hk : k + 2 ≤ size) :
    kernelHalfword σ pgdir (binary + BitVec.ofNat 32 k) = some (file.halfword k) := by
  rw [kernelHalfword, hlinked.load (by omega), show (1 : Word) = BitVec.ofNat 32 1 from rfl,
    add_ofNat_add, hlinked.load (by omega)]
  rfl

theorem Linked.word (hlinked : Linked m σ file binary size) (hk : k + 4 ≤ size) :
    kernelWord σ pgdir (binary + BitVec.ofNat 32 k) = some (file.word k) := by
  rw [kernelWord, hlinked.halfword (by omega), show (2 : Word) = BitVec.ofNat 32 2 from rfl,
    add_ofNat_add, hlinked.halfword (by omega)]
  rfl

theorem Linked.loads (hlinked : Linked m σ file binary size) {count : ℕ}
    (hk : k + count ≤ size) : kernelLoads σ pgdir count (binary + BitVec.ofNat 32 k) =
      some ((List.range' k count).map file) := by
  induction count generalizing k with
  | zero => rfl
  | succ count ih =>
    rw [kernelLoads, hlinked.load (by omega), show (1 : Word) = BitVec.ofNat 32 1 from rfl,
      add_ofNat_add, ih (by omega)]
    rfl

/-- The address of program header `n`. -/
def headerAddr (binary : Word) (file : File) (n : ℕ) : Word :=
  binary + BitVec.ofNat 32 (file.headerAt n)

theorem Linked.type (hlinked : Linked m σ file binary size) {n : ℕ}
    (hn : file.headerAt (n + 1) ≤ size) :
    kernelWord σ pgdir (pType (headerAddr binary file n)) =
      some (file.word (file.headerAt n)) := by
  have hnext : file.headerAt (n + 1) = file.headerAt n + 32 := by
    rw [File.headerAt, File.headerAt]
    omega
  exact hlinked.word (by omega)

theorem Linked.header (hlinked : Linked m σ file binary size) {n : ℕ}
    (hn : file.headerAt (n + 1) ≤ size) :
    readProghdr σ pgdir (headerAddr binary file n) = some (file.header n) := by
  have hnext : file.headerAt (n + 1) = file.headerAt n + 32 := by
    rw [File.headerAt, File.headerAt]
    omega
  have hfield (j : ℕ) (hj : j + 4 ≤ 32) :
      kernelWord σ pgdir (headerAddr binary file n + BitVec.ofNat 32 j) =
        some (file.word (file.headerAt n + j)) := by
    rw [headerAddr, add_ofNat_add]
    exact hlinked.word (by omega)
  have h4 := hfield 4 (by norm_num)
  have h8 := hfield 8 (by norm_num)
  have h16 := hfield 16 (by norm_num)
  have h20 := hfield 20 (by norm_num)
  rw [readProghdr, show (4 : Word) = BitVec.ofNat 32 4 from rfl, h4,
    show (8 : Word) = BitVec.ofNat 32 8 from rfl, h8,
    show (16 : Word) = BitVec.ofNat 32 16 from rfl, h16,
    show (20 : Word) = BitVec.ofNat 32 20 from rfl, h20]
  rfl

end Reading

/-! ## One header -/

section Loop

variable {ι : Type*} [Fintype ι] [DecidableEq ι]
variable {m : Machine} {pool : Set ℕ} {base : Phys} {dirs : ι → Option ℕ} {i : ι} {dir : ℕ}
variable {σ₀ σ : Phys} {free₀ : List ℕ} {touched : Finset ℕ}
variable {file : File} {binary : Word} {size n : ℕ}

/-- What loading writes is not where the file is. -/
theorem Linked.of_populated (hlinked : Linked m σ₀ file binary size)
    (hfree : ∀ page ∈ free₀, page ∈ m.pool) (hdir : dir ∈ m.pool)
    (hpop : Populated m pool base dirs i dir σ₀ free₀ touched σ) :
    Linked m σ file binary size where
  kernel := hlinked.kernel
  fits := hlinked.fits
  apart := hlinked.apart
  holds := fun k hk => by
    have hapart := hlinked.apart k hk
    have hkept := (hpop.kept (pgnum (binary + BitVec.ofNat 32 k - kernBase))
      (pgoff (binary + BitVec.ofNat 32 k - kernBase) / 4) (by
        rintro (⟨hsame, -⟩ | hmem)
        · exact hapart (hsame ▸ hdir)
        · exact hapart (hfree _ hmem))).1
    rw [← hlinked.holds k hk, Phys.kernelByte, Phys.kernelByte, Phys.loadByte, Phys.loadByte, hkept]

omit [Fintype ι] [DecidableEq ι] in
theorem toNat_stackPage : (ustackTop - pgSize).toNat = 4005548032 := by decide

/-- Addresses in other pages are not in the segment. -/
theorem Proghdr.Fits.outside {hdr : Proghdr} (hfits : hdr.Fits size) {vb : Word}
    (hout : pgnum vb ∉ hdr.pages) : hdr.memsz.toNat ≤ (vb - hdr.va).toNat := by
  have hbelow := hfits.below
  rw [toNat_stackPage] at hbelow
  by_contra hlt
  rw [Nat.not_le] at hlt
  have hsum : hdr.va.toNat + (vb - hdr.va).toNat = vb.toNat := by bv_omega
  refine hout (Finset.mem_image.mpr ⟨(vb - hdr.va).toNat, Finset.mem_range.mpr hlt, ?_⟩)
  rw [hsum, pgnum_eq]

/-- The addresses of the segment are user addresses. -/
theorem Proghdr.Fits.address {hdr : Proghdr} (hfits : hdr.Fits size) {k : ℕ}
    (hk : k < hdr.memsz.toNat) :
    hdr.va + BitVec.ofNat 32 k < utop ∧ (hdr.va + BitVec.ofNat 32 k - hdr.va).toNat = k ∧
      pgnum (hdr.va + BitVec.ofNat 32 k) ∈ hdr.pages := by
  have hbelow := hfits.below
  rw [toNat_stackPage] at hbelow
  have hsum : (hdr.va + BitVec.ofNat 32 k).toNat = hdr.va.toNat + k := by
    rw [BitVec.toNat_add, BitVec.toNat_ofNat]
    omega
  refine ⟨?_, ?_, Finset.mem_image.mpr ⟨k, Finset.mem_range.mpr hk, ?_⟩⟩
  · rw [BitVec.lt_def, hsum, show utop.toNat = 4005560320 by decide]
    omega
  · rw [BitVec.add_comm, BitVec.add_sub_cancel, BitVec.toNat_ofNat]
    omega
  · rw [pgnum_eq, hsum]

/-- A header of another type is skipped. -/
theorem loadHeader_other (hlinked : Linked m σ file binary size)
    (hn : file.headerAt (n + 1) ≤ size) (htype : ¬ file.IsLoad n) (cr3 : ℕ) :
    loadHeader σ dir cr3 binary (headerAddr binary file n) = some σ := by
  rw [loadHeader, hlinked.type hn]
  exact if_neg htype

/-- A segment is mapped, cleared and filled. -/
theorem loadHeader_segment (hlinked : Linked m σ₀ file binary size)
    (hfree : ∀ page ∈ free₀, page ∈ m.pool) (hdir : dir ∈ m.pool)
    (hpop : Populated m pool base dirs i dir σ₀ free₀ touched σ)
    (hn : file.headerAt (n + 1) ≤ size) (htype : file.IsLoad n) (hfits : (file.header n).Fits size)
    (hnew : Disjoint touched (file.header n).pages)
    (hroom : pagesNeeded (touched ∪ (file.header n).pages) ≤ free₀.length) :
    ∃ σ', loadHeader σ dir dir binary (headerAddr binary file n) = some σ' ∧
      loadSegment σ dir ((file.header n).segment file) = some σ' ∧
      Populated m pool base dirs i dir σ₀ free₀ (touched ∪ (file.header n).pages) σ' ∧
      (∀ vb < utop, pgnum vb ∉ (file.header n).pages → userByte σ' dir vb = userByte σ dir vb) ∧
      Shown file (file.header n) σ' dir := by
  generalize hhdr : file.header n = hdr at *
  have htop : utop.toNat = 4005560320 := by decide
  have hbelow := hfits.below
  rw [toNat_stackPage] at hbelow
  have hmem : ∀ k < hdr.memsz.toNat,
      (hdr.va.toNat + k) / 4096 ∈ touched ∪ hdr.pages := fun k hk =>
    Finset.mem_union_right _ (Finset.mem_image.mpr ⟨k, Finset.mem_range.mpr hk, rfl⟩)
  obtain ⟨mapped, hmapped, hpopMapped, hkeepMapped⟩ :=
    hpop.regionAlloc hdr.va hdr.memsz hfits.memsz_pos (by omega) hnew hroom
  obtain ⟨cleared, hcleared, hpopCleared, hbytesCleared⟩ :=
    hpopMapped.kernelStores hdr.va (List.replicate hdr.memsz.toNat 0)
      (by rw [List.length_replicate]; omega) (by rw [List.length_replicate]; exact hmem)
  have hlength := hdr.length_bytes file
  obtain ⟨filled, hfilled, hpopFilled, hbytesFilled⟩ :=
    hpopCleared.kernelStores hdr.va (hdr.bytes file)
      (by rw [hlength]; exact (Nat.add_le_add_left hfits.filesz_le _).trans (by omega))
      (by rw [hlength]; exact fun k hk => hmem k (lt_of_lt_of_le hk hfits.filesz_le))
  have hread {τ : Phys} {T : Finset ℕ} (hτ : Populated m pool base dirs i dir σ₀ free₀ T τ) :=
    hlinked.of_populated hfree hdir hτ
  have hoffset : binary + hdr.offset = binary + BitVec.ofNat 32 hdr.offset.toNat := by
    rw [BitVec.ofNat_toNat, BitVec.setWidth_eq]
  have hrun : loadHeader σ dir dir binary (headerAddr binary file n) = some filled := by
    have hheader {τ : Phys} {pages : Finset ℕ}
        (hτ : Populated m pool base dirs i dir σ₀ free₀ pages τ) :
        readProghdr τ dir (headerAddr binary file n) = some hdr := by
      rw [(hread hτ).header hn, hhdr]
    have hloads : kernelLoads cleared dir hdr.filesz.toNat (binary + hdr.offset) =
        some (hdr.bytes file) := by
      rw [hoffset]
      exact (hread hpopCleared).loads hfits.inside
    simp only [loadHeader, (hread hpop).type hn, hheader hpop, hmapped, hheader hpopMapped,
      hcleared, hheader hpopCleared, hloads, Option.bind_eq_bind, Option.bind_some]
    exact (if_pos htype).trans hfilled
  have hsegment : loadSegment σ dir (hdr.segment file) = some filled := by
    simp only [loadSegment, Proghdr.segment, hmapped, hcleared, Option.bind_eq_bind,
      Option.bind_some]
    exact hfilled
  refine ⟨filled, hrun, hsegment, hpopFilled, fun vb hvb hout => ?_, fun k hk => ?_,
    fun k hlow hk => ?_⟩
  · have hdist := hfits.outside hout
    have hzeros : (List.replicate hdr.memsz.toNat (0 : BitVec 8))[(vb - hdr.va).toNat]? = none :=
      List.getElem?_eq_none (by rwa [List.length_replicate])
    have hfile : (hdr.bytes file)[(vb - hdr.va).toNat]? = none :=
      List.getElem?_eq_none (by rw [hlength]; exact hfits.filesz_le.trans hdist)
    rw [hbytesFilled vb hvb, hfile, Option.none_or, hbytesCleared vb hvb, hzeros, Option.none_or,
      hkeepMapped vb hvb hout]
  · obtain ⟨hvb, hdist, -⟩ := hfits.address (lt_of_lt_of_le hk hfits.filesz_le)
    have hfile : (hdr.bytes file)[k]? = some (file (hdr.offset.toNat + k)) := by
      rw [Proghdr.bytes, List.getElem?_map, List.getElem?_range' hk, Option.map_some, Nat.one_mul]
    rw [hbytesFilled _ hvb, hdist, hfile, Option.some_or]
  · obtain ⟨hvb, hdist, -⟩ := hfits.address hk
    have hfile : (hdr.bytes file)[k]? = none := List.getElem?_eq_none (by rwa [hlength])
    have hzeros : (List.replicate hdr.memsz.toNat (0 : BitVec 8))[k]? = some 0 := by
      rw [List.getElem?_replicate, if_pos hk]
    rw [hbytesFilled _ hvb, hdist, hfile, Option.none_or, hbytesCleared _ hvb, hdist, hzeros,
      Option.some_or]

/-- What is seen of a segment depends on its own pages. -/
theorem Shown.congr {hdr : Proghdr} {σ' : Phys} (hshown : Shown file hdr σ dir)
    (hfits : hdr.Fits size)
    (hsame : ∀ vb < utop, pgnum vb ∈ hdr.pages → userByte σ' dir vb = userByte σ dir vb) :
    Shown file hdr σ' dir where
  copied := fun k hk => by
    obtain ⟨hvb, -, hpage⟩ := hfits.address (lt_of_lt_of_le hk hfits.filesz_le)
    rw [hsame _ hvb hpage, hshown.copied k hk]
  cleared := fun k hlow hk => by
    obtain ⟨hvb, -, hpage⟩ := hfits.address hk
    rw [hsame _ hvb hpage, hshown.cleared k hlow hk]

omit [Fintype ι] [DecidableEq ι] in
theorem Linked.toNat_headerAddr (hlinked : Linked m σ file binary size)
    (hn : file.headerAt n ≤ size) :
    (headerAddr binary file n).toNat = binary.toNat + file.headerAt n := by
  have hend := hlinked.fits
  rw [headerAddr, BitVec.toNat_add, BitVec.toNat_ofNat, Nat.add_mod_mod,
    Nat.mod_eq_of_lt (by omega)]

omit [Fintype ι] [DecidableEq ι] in
theorem headerAddr_succ (binary : Word) (file : File) (n : ℕ) :
    headerAddr binary file n + sizeofProghdr = headerAddr binary file (n + 1) := by
  rw [headerAddr, headerAddr, show sizeofProghdr = BitVec.ofNat 32 32 from rfl, add_ofNat_add]
  congr 2
  rw [File.headerAt, File.headerAt]
  omega

/-- The loop over the headers from `n` on. -/
theorem loadHeaders_populated (hlinked : Linked m σ₀ file binary size)
    (hfree : ∀ page ∈ free₀, page ∈ m.pool) (hdir : dir ∈ m.pool)
    (hsize : file.headerAt file.phnum ≤ size) {count : ℕ} (hn : n + count = file.phnum)
    (hpop : Populated m pool base dirs i dir σ₀ free₀ touched σ)
    (hfits : ∀ hdr ∈ file.segmentsFrom n count, hdr.Fits size)
    (hpair : (file.segmentsFrom n count).Pairwise fun first second =>
      Disjoint first.pages second.pages)
    (hnew : Disjoint touched (segmentPages (file.segmentsFrom n count)))
    (hroom : pagesNeeded (touched ∪ segmentPages (file.segmentsFrom n count)) ≤ free₀.length) :
    ∃ σ', loadHeaders dir dir binary (headerAddr binary file file.phnum) count σ
        (headerAddr binary file n) = some σ' ∧
      ((file.segmentsFrom n count).map (Proghdr.segment file)).foldlM
        (fun σ seg => loadSegment σ dir seg) σ = some σ' ∧
      Populated m pool base dirs i dir σ₀ free₀
        (touched ∪ segmentPages (file.segmentsFrom n count)) σ' ∧
      (∀ vb < utop, pgnum vb ∉ segmentPages (file.segmentsFrom n count) →
        userByte σ' dir vb = userByte σ dir vb) ∧
      ∀ hdr ∈ file.segmentsFrom n count, Shown file hdr σ' dir := by
  induction count generalizing n σ touched with
  | zero =>
    have hnone : file.segmentsFrom n 0 = [] := rfl
    rw [hnone, segmentPages_nil, Finset.union_empty]
    exact ⟨σ, rfl, rfl, hpop, fun _ _ _ => rfl, fun _ hmem => absurd hmem List.not_mem_nil⟩
  | succ count ih =>
    have hmono : ∀ k ≤ file.phnum, file.headerAt k ≤ size := fun k hk => by
      refine le_trans ?_ hsize
      rw [File.headerAt, File.headerAt]
      omega
    have hless : headerAddr binary file n < headerAddr binary file file.phnum := by
      rw [BitVec.lt_def, hlinked.toNat_headerAddr (hmono n (by omega)),
        hlinked.toNat_headerAddr (hmono _ le_rfl), File.headerAt, File.headerAt]
      omega
    have hnext := hmono (n + 1) (by omega)
    rw [loadHeaders, if_pos hless]
    by_cases htype : file.IsLoad n
    · have hlist : file.segmentsFrom n (count + 1) =
          file.header n :: file.segmentsFrom (n + 1) count := by
        rw [File.segmentsFrom_succ, if_pos htype]
      rw [hlist, segmentPages_cons, ← Finset.union_assoc] at hroom ⊢
      rw [hlist, segmentPages_cons, Finset.disjoint_union_right] at hnew
      rw [hlist] at hfits hpair
      obtain ⟨hhead, htail⟩ := List.pairwise_cons.mp hpair
      have hdisjoint : Disjoint (file.header n).pages
          (segmentPages (file.segmentsFrom (n + 1) count)) := by
        rw [segmentPages, Finset.disjoint_biUnion_right]
        exact fun hdr hmem => hhead hdr (List.mem_toFinset.mp hmem)
      have hfitsHead := hfits _ List.mem_cons_self
      obtain ⟨loaded, hload, hsegment, hpopLoaded, hkeepLoaded, hshown⟩ :=
        loadHeader_segment hlinked hfree hdir hpop hnext htype hfitsHead hnew.1
          ((pagesNeeded_mono Finset.subset_union_left).trans hroom)
      obtain ⟨σ', hrun, hfold, hpop', hkeep, hshown'⟩ := ih (n := n + 1) (by omega) hpopLoaded
        (fun hdr hmem => hfits hdr (List.mem_cons_of_mem _ hmem)) htail
        (Finset.disjoint_union_left.mpr ⟨hnew.2, hdisjoint⟩) hroom
      rw [hload]
      refine ⟨σ', ?_, ?_, hpop', fun vb hvb hout => ?_, fun hdr hmem => ?_⟩
      · rw [headerAddr_succ]
        exact hrun
      · rw [List.map_cons, List.foldlM_cons, hsegment]
        exact hfold
      · rw [Finset.mem_union, not_or] at hout
        rw [hkeep vb hvb hout.2, hkeepLoaded vb hvb hout.1]
      · rcases List.mem_cons.mp hmem with rfl | hmem
        · exact hshown.congr hfitsHead fun vb hvb hpage =>
            hkeep vb hvb (Finset.disjoint_left.mp hdisjoint hpage)
        · exact hshown' hdr hmem
    · have hlist : file.segmentsFrom n (count + 1) = file.segmentsFrom (n + 1) count := by
        rw [File.segmentsFrom_succ, if_neg htype]
      rw [hlist] at hfits hpair hnew hroom ⊢
      have hlinked' := hlinked.of_populated hfree hdir hpop
      rw [loadHeader_other hlinked' hnext htype, Option.bind_eq_bind, Option.bind_some,
        headerAddr_succ]
      exact ih (by omega) hpop hfits hpair hnew hroom

end Loop

end Elf

/-! ## The rest of memory -/

/-- Accesses to `va` through `pgdir` reach the page they reached before. -/
def SameTranslation (σ σ' : Phys) (pgdir : ℕ) (va : Word) : Prop :=
  ∀ need, need &&& pteP = pteP → mmuPage σ' pgdir va need = mmuPage σ pgdir va need

theorem Kept.sameTranslation {changed : ℕ → ℕ → Prop} {σ σ' : Phys} {pgdir : ℕ} {va : Word}
    (hkept : Kept changed σ σ') (hpde : ¬ changed pgdir (pdx va))
    (htable : ∀ table, entryPage (σ.mem pgdir (pdx va)) = some table → ¬ changed table (ptx va)) :
    SameTranslation σ σ' pgdir va := by
  intro need hneed
  rw [mmuPage, mmuPage, hkept.load hpde]
  cases hentry : entryPage (σ.mem pgdir (pdx va)) with
  | none =>
    have habsent : σ.load pgdir (pdx va) &&& need ≠ need := fun hflags => by
      rw [entryPage_eq_none, ← load_present] at hentry
      have hzero : pteP = 0 := calc
        pteP = need &&& pteP := hneed.symm
        _ = σ.load pgdir (pdx va) &&& need &&& pteP := by rw [hflags]
        _ = σ.load pgdir (pdx va) &&& pteP := by rw [BitVec.and_assoc, hneed]
        _ = 0 := hentry
      exact absurd hzero (by decide)
    rw [if_neg fun h => habsent h.1, if_neg fun h => habsent h.1]
  | some table =>
    have hnumber : pgnum (σ.load pgdir (pdx va)) = table := by
      rw [pgnum_load, (entryPage_eq_some.mp hentry).2]
    rw [hnumber, hkept.load (htable table hentry)]

namespace Spaces

variable {ι : Type*} [Fintype ι] [DecidableEq ι]
variable {m : Machine} {pool : Set ℕ} {base : Phys} {Good : Word → Prop} {dirs : ι → Option ℕ}
variable {given : ι → Set ℕ} {σ σ' : Phys} {free : List ℕ} {leak : ℕ → ℕ} {i j : ι}
variable {dir other page : ℕ} {va : Word}

/-- The loader writes in the pool only. -/
theorem loader_pool (hspaces : Spaces m pool base Good dirs given σ free leak)
    (hdir : dirs i = some dir) {index : ℕ} (hwrites : LoaderWrites dir free page index) :
    page ∈ pool := by
  rcases hwrites with ⟨rfl, -⟩ | hfree
  · exact hspaces.dir_pool i page hdir
  · exact hspaces.paged.balanced.free_mem page hfree

/-- The kernel's page tables are not written. -/
theorem kernel_translation (hspaces : Spaces m pool base Good dirs given σ free leak)
    (himage : KernelImage m pool base) (hdir : dirs i = some dir)
    (hkept : Kept (LoaderWrites dir free) σ σ') (hlow : userPdes ≤ pdx va)
    (hindex : pdx va ≠ uvptIndex) (hpde : ¬ LoaderWrites dir free page (pdx va))
    (hentry : entryPage (σ.mem page (pdx va)) = entryPage (base.mem m.kernPgdir (pdx va))) :
    SameTranslation σ σ' page va :=
  hkept.sameTranslation hpde fun table htable hwrites =>
    (himage.tables _ hlow (pdx_lt va) hindex table (hentry.symm.trans htable)).1
      (hspaces.loader_pool hdir hwrites)

/-- Other directories, and their page tables, are not written. -/
theorem other_translation (hspaces : Spaces m pool base Good dirs given σ free leak)
    (himage : KernelImage m pool base) (hdir : dirs i = some dir) (hother : dirs j = some other)
    (hne : j ≠ i) (hkept : Kept (LoaderWrites dir free) σ σ') (va : Word) :
    SameTranslation σ σ' other va := by
  have hpde : ∀ index, ¬ LoaderWrites dir free other index := by
    rintro index (⟨rfl, -⟩ | hfree)
    · exact hne (hspaces.paged.exclusive.dir_inj j i other hother hdir)
    · exact (hspaces.paged.dir_busy j other hother).1 hfree
  obtain ⟨huvpt, hcopied⟩ := hspaces.kernel_part j other hother
  by_cases hva : va < utop
  · refine hkept.sameTranslation (hpde _) fun table htable hwrites => ?_
    have hkey : TableKey.pde j (pdx va) ∈ userKeys ι := pde_mem_userKeys.mpr (pdx_lt_userPdes hva)
    have hslot : tableSlot σ dirs (.pde j (pdx va)) = some table := by
      rw [tableSlot, wordAt_pde hother, htable]
    rcases hwrites with ⟨rfl, -⟩ | hfree
    · exact hspaces.paged.exclusive.dir_unref i table hdir _ hkey hslot
    · exact hspaces.paged.balanced.slot_not_free hkey hslot hfree
  · have hlow : userPdes ≤ pdx va := by
      rw [BitVec.not_lt, BitVec.le_def, show utop.toNat = 4005560320 by decide] at hva
      rw [userPdes_eq, pdx_eq]
      omega
    by_cases hindex : pdx va = uvptIndex
    · -- the directory is its own page table there
      refine hkept.sameTranslation (hpde _) fun table htable => ?_
      have hlt := lt_of_lt_of_le (hspaces.paged.pool_lt other (hspaces.dir_pool j other hother))
        hspaces.paged.npages_le
      have hself : entryPage (page2pa other ||| pteU ||| pteP) = some other :=
        entryPage_entry hlt (pteAddr_page2pa_or (by decide))
      rw [hindex, huvpt, BitVec.or_assoc, BitVec.or_comm pteP, ← BitVec.or_assoc, hself] at htable
      cases htable
      exact hpde _
    · exact hspaces.kernel_translation himage hdir hkept hlow hindex (hpde _)
        (hcopied _ hlow (pdx_lt va) hindex).entryPage_eq

/-- Pages of other environments are not written. -/
theorem other_page (hspaces : Spaces m pool base Good dirs given σ free leak)
    (hdir : dirs i = some dir) (hother : dirs j = some other)
    (hkept : Kept (LoaderWrites dir free) σ σ') (hva : va < utop)
    (hreach : mmuPage σ other va pteP = some page) : σ'.mem page = σ.mem page := by
  obtain ⟨-, hfree, hnot⟩ := hspaces.mapped hva (mmuPage_slot hother (by decide) hreach)
  funext index
  refine (hkept page index ?_).1
  rintro (⟨rfl, -⟩ | hmem)
  · exact hnot.1 i hdir
  · exact hfree hmem

end Spaces

/-! ## `load_icode` -/

namespace Elf

/-- What `env_create` has made for environment `e` when it calls `load_icode`:
the counters of the pages are exact, and the directory `dir` of the environment
is empty below `UTOP`. -/
structure NewSpace (m : Machine) (s : Kernel) (e : Slot) (dir : ℕ) : Prop where
  housed : HousedKernel m (fun _ => True) s
  pgdir : (s.envs e).pgdir = some dir
  empty : ∀ d < userPdes, entryPage (s.phys.mem dir d) = none

section Load

variable {m : Machine} {s : Kernel} {e : Slot} {dir : ℕ} {file : File} {binary : Word} {size : ℕ}

theorem userPdes_le_pdx {va : Word} (hva : utop ≤ va) : userPdes ≤ pdx va := by
  rw [BitVec.le_def, show utop.toNat = 4005560320 by decide] at hva
  rw [userPdes_eq, pdx_eq]
  omega

theorem pagesOf_stack : pagesOf (ustackTop - pgSize) pgSize = {pgnum (ustackTop - pgSize)} := by
  rw [pagesOf_eq (by decide), pgnum_eq, toNat_stackPage, show pgSize.toNat = 4096 by decide]
  decide

/-- The segments end below the stack page. -/
theorem File.Loadable.below_stack (hfile : file.Loadable size) :
    pgnum (ustackTop - pgSize) ∉ segmentPages file.segments := by
  intro hmem
  obtain ⟨hdr, hhdr, hpage⟩ := Finset.mem_biUnion.mp hmem
  obtain ⟨k, hk, hvpn⟩ := Finset.mem_image.mp hpage
  have hbelow := (hfile.segments hdr (List.mem_toFinset.mp hhdr)).below
  rw [Finset.mem_range] at hk
  rw [pgnum_eq, toNat_stackPage] at hvpn
  rw [toNat_stackPage] at hbelow
  omega

/-- The segments and the stack page. -/
theorem program_populated {ι : Type*} [Fintype ι] [DecidableEq ι] {pool : Set ℕ} {base σ : Phys}
    {dirs : ι → Option ℕ} {given : ι → Set ℕ} {i : ι} {free : List ℕ}
    (hspaces : Spaces m pool base (fun _ => True) dirs given σ free noLeak)
    (himage : KernelImage m pool base) (hdir : dirs i = some dir)
    (hempty : ∀ d < userPdes, entryPage (σ.mem dir d) = none)
    (hlinked : Linked m σ file binary size) (hfile : file.Loadable size)
    (hroom : pagesNeeded file.touched ≤ free.length) :
    ∃ loaded σ', loadHeaders dir dir binary (headerAddr binary file file.phnum) file.phnum σ
        (headerAddr binary file 0) = some loaded ∧
      Jos.loadIcode σ dir file.program = some σ' ∧
      Linked m loaded file binary size ∧
      regionAlloc loaded dir (ustackTop - pgSize) pgSize = some σ' ∧
      Populated m pool base dirs i dir σ free file.touched σ' ∧
      ∀ hdr ∈ file.segments, Shown file hdr σ' dir := by
  have hpool : ∀ page ∈ free, page ∈ m.pool := fun page hpage =>
    himage.pool_sub page (hspaces.paged.balanced.free_mem page hpage)
  have hdirPool : dir ∈ m.pool := himage.pool_sub dir (hspaces.dir_pool i dir hdir)
  have hsub : segmentPages file.segments ⊆ file.touched := Finset.subset_insert _ _
  have htouched : segmentPages file.segments ∪ pagesOf (ustackTop - pgSize) pgSize =
      file.touched := by
    rw [pagesOf_stack, Finset.union_comm]
    rfl
  obtain ⟨loaded, hrun, hfold, hpop, -, hshown⟩ := loadHeaders_populated hlinked hpool hdirPool
    hfile.headers (Nat.zero_add _) (Populated.start hspaces hdir hempty) hfile.segments
    hfile.disjoint (Finset.disjoint_empty_left _)
    (by rw [Finset.empty_union]; exact (pagesNeeded_mono hsub).trans hroom)
  rw [Finset.empty_union] at hpop
  change Populated m pool base dirs i dir σ free (segmentPages file.segments) loaded at hpop
  have hnew : Disjoint (segmentPages file.segments) (pagesOf (ustackTop - pgSize) pgSize) := by
    rw [pagesOf_stack, Finset.disjoint_singleton_right]
    exact hfile.below_stack
  obtain ⟨σ', hstack, hpop', hkeep⟩ := hpop.regionAlloc (ustackTop - pgSize) pgSize
    (by decide) (by decide) hnew (by rw [htouched]; exact hroom)
  rw [htouched] at hpop'
  have hprogram : Jos.loadIcode σ dir file.program = some σ' := by
    rw [Jos.loadIcode, File.program, File.segments, hfold]
    exact hstack
  refine ⟨loaded, σ', hrun, hprogram, hlinked.of_populated hpool hdirPool hpop, hstack, hpop',
    fun hdr hmem => (hshown hdr hmem).congr (hfile.segments hdr hmem) fun vb hvb hpage => ?_⟩
  refine hkeep vb hvb fun hstackPage => ?_
  have hseg : pgnum vb ∈ segmentPages file.segments :=
    Finset.mem_biUnion.mpr ⟨hdr, List.mem_toFinset.mpr hmem, hpage⟩
  exact Finset.disjoint_left.mp hnew hseg hstackPage

/-- The pointers of the loop. -/
theorem first_header (binary : Word) (file : File) :
    binary + file.word 28 = headerAddr binary file 0 := by
  rw [headerAddr, File.headerAt, File.phoff, Nat.zero_mul, Nat.add_zero, BitVec.ofNat_toNat,
    BitVec.setWidth_eq]

theorem last_header (binary : Word) (file : File) :
    binary + file.word 28 + (file.halfword 44).setWidth 32 * sizeofProghdr =
      headerAddr binary file file.phnum := by
  have hcount : BitVec.ofNat 32 (file.phnum * 32) =
      (file.halfword 44).setWidth 32 * sizeofProghdr := by
    rw [BitVec.ofNat_mul, File.phnum]
    congr 1
    rw [← BitVec.toNat_inj, BitVec.toNat_ofNat, BitVec.toNat_setWidth]
  have hsum : file.headerAt 0 + file.phnum * 32 = file.headerAt file.phnum := by
    rw [File.headerAt, Nat.zero_mul, Nat.add_zero, File.headerAt]
  rw [first_header, ← hcount, headerAddr, add_ofNat_add, hsum, headerAddr]

/-- The kernel after `load_icode`, with the memory `σ`. -/
def loadedKernel (s : Kernel) (c : ℕ) (e : Slot) (file : File) (σ : Phys) : Kernel where
  phys := σ
  kernPgdir := s.kernPgdir
  envs := update s.envs e { s.envs e with tf := { (s.envs e).tf with eip := file.entry } }
  envFreeList := s.envFreeList
  cpus := update s.cpus c { s.cpus c with cr3 := s.kernPgdir }

/-- `load_icode` loads the program in the file. -/
theorem loadIcode_eq {binarySize : Word} {c : ℕ} {σ loaded : Phys}
    (hpgdir : (s.envs e).pgdir = some dir)
    (hlinked : Linked m s.phys file binary binarySize.toNat)
    (hlinked' : Linked m loaded file binary binarySize.toNat)
    (hfile : file.Loadable binarySize.toNat)
    (hrun : loadHeaders dir dir binary (headerAddr binary file file.phnum) file.phnum s.phys
      (headerAddr binary file 0) = some loaded)
    (hstack : regionAlloc loaded dir (ustackTop - pgSize) pgSize = some σ) :
    loadIcode s c e binary binarySize = some (loadedKernel s c e file σ) := by
  have hsize : 52 ≤ binarySize.toNat := hfile.header
  have hmagic : kernelWord s.phys (s.cpus c).cr3 (eMagic binary) = some elfMagic := by
    have hword := @Linked.word m s.phys file (s.cpus c).cr3 binarySize.toNat 0 binary hlinked
      (by omega)
    rw [show binary + BitVec.ofNat 32 0 = eMagic binary from BitVec.add_zero binary,
      hfile.magic] at hword
    exact hword
  have hphoff : kernelWord s.phys (s.cpus c).cr3 (ePhoff binary) = some (file.word 28) :=
    hlinked.word (k := 28) (by omega)
  have hphnum : kernelHalfword s.phys (s.cpus c).cr3 (ePhnum binary) =
      some (file.halfword 44) := hlinked.halfword (k := 44) (by omega)
  have hentry : kernelWord loaded s.kernPgdir (eEntry binary) = some file.entry :=
    hlinked'.word (k := 24) (by omega)
  rw [← first_header, ← last_header, File.phnum] at hrun
  simp only [loadIcode, hmagic, hphoff, hphnum, hpgdir, Option.bind_eq_bind, Option.bind_some,
    ne_eq, not_true_eq_false, if_false]
  simp only [Kernel.lcr3, update_self, Kernel.setPhys, Kernel.setTf, Kernel.setEnv]
  rw [hrun, Option.bind_some, hentry, Option.bind_some, hstack, Option.bind_some, update_idem]
  rfl

end Load

/-! ## `env_create` -/

section Create

variable {m : Machine} {s s' : Kernel} {e : Slot} {file : File} {binary : Word}

/-- `env_create` calls `load_icode` with an address space that is empty. -/
theorem NewSpace.of_envAlloc (hhoused : HousedKernel m (fun _ => True) s) (hfresh : Fresh s)
    (halloc : envAlloc s 0 = .ok (e, s')) :
    ∃ dir, NewSpace m s' e dir ∧ (∀ page, page ∉ m.pool → s'.phys.mem page = s.phys.mem page) ∧
      ∀ free, IntrusiveList.Threads s.phys.link s.phys.pageFreeList free →
        IntrusiveList.Threads s'.phys.link s'.phys.pageFreeList free.tail := by
  obtain ⟨hkern, pool, base, given, free, himage, hspaces⟩ := hhoused
  obtain ⟨p, hlist, hpages, rfl⟩ := envAlloc_ok halloc
  have hnone : dirsOf s e = none := hfresh.table.head_pgdir hlist
  cases free with
  | nil =>
    rw [hspaces.paged.threads.head_eq] at hpages
    cases hpages
  | cons first rest =>
    obtain rfl : first = p := Option.some.inj (hspaces.paged.threads.head_eq.symm.trans hpages)
    have hsetup := hspaces.setupDir himage hnone (hspaces.free_room List.mem_cons_self)
    have hdirs (σ : Phys) : dirsOf
        { phys := σ
          kernPgdir := s.kernPgdir
          envs := update s.envs e (newEnv (s.envs e) e 0 first)
          envFreeList := (s.envs e).link
          cpus := s.cpus } = update (dirsOf s) e (some first) := by
      funext k
      by_cases hk : k = e
      · subst hk
        simp [dirsOf, newEnv]
      · simp [dirsOf, update_of_ne hk]
    refine ⟨first,
      { housed := ⟨hkern, pool, base, update given e ∅, rest, himage, ?_⟩
        pgdir := ?_
        empty := fun d hd => ?_ }, fun page hpage => ?_, fun free hfree => ?_⟩
    · rw [hdirs, hkern]
      exact hsetup
    · simp [newEnv]
    · rw [hkern]
      exact hspaces.setupDir_empty himage hd
    · have hpool := himage.pool_sub first (hspaces.paged.balanced.free_mem _ List.mem_cons_self)
      exact hspaces.mem_setupDir_of_ne s.kernPgdir fun hsame => hpage (hsame ▸ hpool)
    · obtain rfl := hspaces.paged.threads.unique hfree
      rw [hkern]
      exact hsetup.paged.threads

/-- Every `env_create` of a boot calls `load_icode` so. -/
theorem Boots.newSpace {programs : List Program} (hsane : m.Sane)
    (huser : ∀ program ∈ programs, program.InUser) (hboots : Boots m programs s)
    (halloc : envAlloc s 0 = .ok (e, s')) : ∃ dir, NewSpace m s' e dir := by
  obtain ⟨dir, hnew, -⟩ := NewSpace.of_envAlloc
    (hboots.housed hsane (fun _ _ => trivial) huser) (hboots.fresh hsane) halloc
  exact ⟨dir, hnew⟩

theorem File.Loadable.inUser {size : ℕ} (hfile : file.Loadable size) : file.program.InUser := by
  intro seg hseg
  obtain ⟨hdr, hmem, rfl⟩ := List.mem_map.mp hseg
  have hfits := hfile.segments hdr hmem
  refine ⟨hfits.below.trans (by decide), ?_⟩
  rw [Proghdr.segment, Proghdr.length_bytes]
  exact hfits.filesz_le

theorem Linked.of_mem {σ σ' : Phys} {size : ℕ} (hlinked : Linked m σ file binary size)
    (hmem : ∀ page, page ∉ m.pool → σ'.mem page = σ.mem page) : Linked m σ' file binary size where
  kernel := hlinked.kernel
  fits := hlinked.fits
  apart := hlinked.apart
  holds := fun k hk => by
    rw [← hlinked.holds k hk, Phys.kernelByte, Phys.loadByte, hmem _ (hlinked.apart k hk)]
    rfl

/-- `env_create` on the binary is `env_create` of the program in it. -/
theorem envCreate_program {binarySize : Word} {c : ℕ} {free : List ℕ}
    (hhoused : HousedKernel m (fun _ => True) s) (hfresh : Fresh s)
    (hlist : s.envFreeList = some e) (hlinked : Linked m s.phys file binary binarySize.toNat)
    (hfile : file.Loadable binarySize.toNat)
    (hfree : IntrusiveList.Threads s.phys.link s.phys.pageFreeList free)
    (hroom : pagesNeeded file.touched + 1 ≤ free.length) :
    ∃ s', envCreate s c binary binarySize = some s' ∧ Jos.envCreate s file.program = some s' := by
  cases free with
  | nil =>
    rw [List.length_nil] at hroom
    omega
  | cons p rest =>
  have hpages : s.phys.pageFreeList = some p := hfree.head_eq
  have halloc := envAlloc_eq hlist hpages 0
  obtain ⟨dir, hnew, hmem, hrest⟩ := NewSpace.of_envAlloc hhoused hfresh halloc
  obtain ⟨hkern, pool, base, given, free, himage, hspaces⟩ := hnew.housed
  have hpgdir := hnew.pgdir
  dsimp only at hpgdir
  rw [update_self] at hpgdir
  obtain rfl : p = dir := Option.some.inj hpgdir
  obtain rfl : free = rest := hspaces.paged.threads.unique (hrest _ hfree)
  have hlinked' := hlinked.of_mem hmem
  rw [List.length_cons, Nat.add_le_add_iff_right] at hroom
  obtain ⟨loaded, σ, hrun, hprogram, hlinkedLoaded, hstack, -⟩ :=
    program_populated hspaces himage hnew.pgdir hnew.empty hlinked' hfile hroom
  have hload := loadIcode_eq (c := c) hnew.pgdir hlinked' hlinkedLoaded hfile hrun hstack
  have hcpus : update s.cpus c { s.cpus c with cr3 := s.kernPgdir } = s.cpus := by
    rw [← (hfresh.cpu c).2]
    exact update_eq_self c s.cpus
  have hcreate := envCreate_eq hlist hpages file.program
  rw [show Jos.loadIcode (setupDir s.phys s.kernPgdir p) p file.program = some σ from hprogram]
    at hcreate
  refine ⟨_, ?_, hcreate⟩
  rw [envCreate, halloc]
  refine hload.trans (congrArg some ?_)
  rw [loadedKernel]
  dsimp only
  rw [hcpus, update_self, update_idem]
  rfl

end Create

/-! ## What is built -/

/-- `s'` is `s` after the program was loaded on CPU `c` for environment `e`,
whose directory is `dir`. -/
structure ImageBuilt (s : Kernel) (c : ℕ) (e : Slot) (dir : ℕ) (file : File) (s' : Kernel) :
    Prop where
  shown : ∀ hdr ∈ file.segments, Shown file hdr s'.phys dir
  mapped : ∀ va < utop, pgnum va ∈ file.touched → (mmuPage s'.phys dir va writeFlags).isSome
  unmapped : ∀ va < utop, pgnum va ∉ file.touched → mmuPage s'.phys dir va pteP = none
  envs : s'.envs =
    update s.envs e { s.envs e with tf := { (s.envs e).tf with eip := file.entry } }
  /-- the page directory of the kernel is loaded again -/
  cpus : s'.cpus = update s.cpus c { s.cpus c with cr3 := s.kernPgdir }
  kernPgdir : s'.kernPgdir = s.kernPgdir
  envFreeList : s'.envFreeList = s.envFreeList
  /-- the translations and the pages of the other environments -/
  others : ∀ j ≠ e, ∀ other, (s.envs j).pgdir = some other →
    (∀ va, SameTranslation s.phys s'.phys other va) ∧
      ∀ va < utop, ∀ page, mmuPage s.phys other va pteP = some page →
        s'.phys.mem page = s.phys.mem page
  /-- the kernel's page directory -/
  kernel : s'.phys.mem s.kernPgdir = s.phys.mem s.kernPgdir ∧
    ∀ va, pdx va ≠ uvptIndex → SameTranslation s.phys s'.phys s.kernPgdir va
  /-- the kernel's part of the new directory -/
  kernel_part : (∀ d, userPdes ≤ d → s'.phys.mem dir d = s.phys.mem dir d) ∧
    ∀ va, utop ≤ va → pdx va ≠ uvptIndex → SameTranslation s.phys s'.phys dir va

section Built

variable {m : Machine} {s : Kernel} {e : Slot} {dir : ℕ} {file : File} {binary : Word}

/-- `load_icode` builds the program's image, and changes nothing else. -/
theorem loadIcode_builds {binarySize : Word} {c : ℕ} {free : List ℕ} (hnew : NewSpace m s e dir)
    (hlinked : Linked m s.phys file binary binarySize.toNat)
    (hfile : file.Loadable binarySize.toNat)
    (hfree : IntrusiveList.Threads s.phys.link s.phys.pageFreeList free)
    (hroom : pagesNeeded file.touched ≤ free.length) :
    ∃ s', loadIcode s c e binary binarySize = some s' ∧ ImageBuilt s c e dir file s' := by
  obtain ⟨hkern, pool, base, given, free', himage, hspaces⟩ := hnew.housed
  obtain rfl : free' = free := hspaces.paged.threads.unique hfree
  have hdir : dirsOf s e = some dir := hnew.pgdir
  obtain ⟨loaded, σ', hrun, -, hlinked', hstack, hpop, hshown⟩ :=
    program_populated hspaces himage hdir hnew.empty hlinked hfile hroom
  have hkernMem : s.phys.mem s.kernPgdir = base.mem m.kernPgdir := by
    rw [hkern, hspaces.mem_kept _ himage.kern_not_pool]
  have hkernWrites (index : ℕ) : ¬ LoaderWrites dir free' s.kernPgdir index := fun hwrites => by
    rw [hkern] at hwrites
    exact himage.kern_not_pool (hspaces.loader_pool hdir hwrites)
  have hdirWrites {index : ℕ} (hhigh : userPdes ≤ index) : ¬ LoaderWrites dir free' dir index := by
    rintro (⟨-, hlow⟩ | hmem)
    · exact absurd hhigh (Nat.not_le.mpr hlow)
    · exact (hspaces.paged.dir_busy e dir hdir).1 hmem
  refine ⟨_, loadIcode_eq hnew.pgdir hlinked hlinked' hfile hrun hstack,
    { shown := hshown
      mapped := fun va hva hmem => ?_
      unmapped := fun va hva hmem => hpop.mmuPage_absent hva hmem
      envs := rfl
      cpus := rfl
      kernPgdir := rfl
      envFreeList := rfl
      others := fun j hne other hother =>
        ⟨hspaces.other_translation himage hdir hother hne hpop.kept, fun va hva page hreach =>
          hspaces.other_page hdir hother hpop.kept hva hreach⟩
      kernel := ⟨?_, fun va hindex => ?_⟩
      kernel_part := ⟨fun d hd => (hpop.kept dir d (hdirWrites hd)).1, fun va hva hindex => ?_⟩ }⟩
  · obtain ⟨page, -, hslot⟩ := hpop.slot hva hmem
    change (mmuPage σ' dir va writeFlags).isSome
    rw [hpop.mmuPage_eq hva, hslot, Option.isSome_some]
  · funext index
    exact (hpop.kept _ index (hkernWrites index)).1
  · by_cases hva : va < utop
    · -- the user half of the kernel's page directory is empty
      refine hpop.kept.sameTranslation (hkernWrites _) fun table htable => ?_
      rw [hkernMem, himage.user_empty _ (pdx_lt_userPdes hva)] at htable
      cases htable
    · exact hspaces.kernel_translation himage hdir hpop.kept
        (userPdes_le_pdx (BitVec.not_lt.mp hva)) hindex (hkernWrites _) (by rw [hkernMem])
  · have hhigh := userPdes_le_pdx hva
    exact hspaces.kernel_translation himage hdir hpop.kept hhigh hindex (hdirWrites hhigh)
      ((hspaces.kernel_part e dir hdir).copied _ hhigh (pdx_lt va) hindex).entryPage_eq

end Built

/-! ## A small binary -/

/-- A binary with a note that is skipped and a segment of 4 bytes, followed by
28 zero bytes, across two pages. -/
def smallWords : ℕ → Word
  | 0 => elfMagic
  | 6 => 0x00800FF0
  | 7 => 52
  | 11 => 2
  | 13 => 4
  | 21 => elfProgLoad
  | 22 => 116
  | 23 => 0x00800FF0
  | 25 => 4
  | 26 => 32
  | 29 => 0xDEADBEEF
  | _ => 0

def smallFile : File := fun k => getByte (smallWords (k / 4)) (k % 4)

theorem smallFile_segments : smallFile.segments = [⟨116, 0x00800FF0, 4, 32⟩] := by
  decide

theorem smallFile_loadable : smallFile.Loadable 120 where
  magic := by decide
  header := by decide
  headers := by decide
  segments := fun hdr hmem => by
    rw [smallFile_segments, List.mem_singleton] at hmem
    subst hmem
    exact ⟨by decide, by decide, by decide, by decide⟩
  disjoint := by
    rw [smallFile_segments]
    exact List.pairwise_singleton _ _

theorem smallFile_pages : pagesNeeded smallFile.touched = 5 := by
  rw [File.touched, smallFile_segments, segmentPages_cons, segmentPages_nil, Proghdr.pages,
    pagesOf_eq (by decide)]
  decide

end Elf

/-- The kernel image holds other pages too. -/
theorem KernelHalf.linked {pool : Set ℕ} {kern page : ℕ} {Allowed : ℕ → ℕ → Word → Prop} {σ : Phys}
    {free : List ℕ} (hhalf : KernelHalf pool kern Allowed σ free) (hpage : page ∉ pool)
    (hne : kern ≠ page) (words : ℕ → Word) :
    KernelHalf pool kern Allowed { σ with mem := update σ.mem page words } free := by
  have hkern : update σ.mem page words kern = σ.mem kern := update_of_ne hne _ _
  exact
    { threads := hhalf.threads
      free_pool := hhalf.free_pool
      free_ref := hhalf.free_ref
      pool_lt := hhalf.pool_lt
      npages_le := hhalf.npages_le
      kern_not_pool := hhalf.kern_not_pool
      table_pool := by
        dsimp only
        rw [hkern]
        exact hhalf.table_pool
      table_inj := by
        dsimp only
        rw [hkern]
        exact hhalf.table_inj
      not_lost := by
        dsimp only
        rw [hkern]
        exact hhalf.not_lost
      user_empty := by
        dsimp only
        rw [hkern]
        exact hhalf.user_empty
      uvpt_entry := by
        dsimp only
        rw [hkern]
        exact hhalf.uvpt_entry
      allowed := by
        dsimp only
        rw [hkern]
        intro d hd hindex table htable
        have hother : table ≠ page := fun hsame =>
          hpage (hsame ▸ (hhalf.table_pool d hd hindex table htable).1)
        rw [update_of_ne hother]
        exact hhalf.allowed d hd hindex table htable }

namespace Elf

/-- The small binary in page `0x150` of the kernel image. -/
theorem smallFile_linked {σ : Phys} (hpage : 0x150 ∉ smallMachine.pool)
    (hwords : σ.mem 0x150 = smallWords) :
    Linked smallMachine σ smallFile (kernBase + 0x150000) 120 := by
  have haddr : ∀ k < 120, (kernBase + 0x150000 + BitVec.ofNat 32 k - kernBase).toNat =
      0x150000 + k := fun k hk => by
    rw [show kernBase = 0xF0000000#32 from rfl]
    bv_omega
  have hnumber : ∀ k < 120, pgnum (kernBase + 0x150000 + BitVec.ofNat 32 k - kernBase) = 0x150 :=
    fun k hk => by
      rw [pgnum_eq, haddr k hk]
      omega
  exact
    { kernel := by decide
      fits := by decide
      apart := fun k hk => by
        rw [hnumber k hk]
        exact hpage
      holds := fun k hk => by
        have hoff : (0x150000 + k) % 4096 = k := by omega
        rw [Phys.kernelByte, hnumber k hk, pgoff_eq, haddr k hk, hoff, Phys.loadByte, hwords]
        rfl }

/-- The first `env_create` with a small binary. -/
theorem small_builds : ∃ s e dir s', NewSpace smallMachine s e dir ∧
    loadIcode s 0 e (kernBase + 0x150000) 120 = some s' ∧ ImageBuilt s 0 e dir smallFile s' := by
  obtain ⟨σ, free, hhalf, hspare, -⟩ := @Machine.Sane.boots _ smallMachine_sane 6 (by
    rw [smallMachine_free]
    decide)
  have hpage : 0x150 ∉ smallMachine.pool := by
    rintro (⟨-, hhigh⟩ | ⟨hlow, -⟩)
    · exact absurd hhigh (by decide)
    · exact absurd hlow (by decide)
  have himage := hhalf.linked hpage (by decide) smallWords
  have hidle := Idle.start himage hspare
  obtain ⟨pool, base, given, free, hkernel, hlength, hspaces⟩ := hidle.memory
  have hhoused : HousedKernel smallMachine (fun _ => True) (initialKernel smallMachine _) :=
    ⟨rfl, pool, base, given, free, hkernel, hspaces⟩
  have hlist := hidle.head.trans (slotLink_of_lt (by decide))
  cases free with
  | nil =>
    rw [List.length_nil] at hlength
    omega
  | cons p rest =>
  rw [List.length_cons] at hlength
  have hthreads := hspaces.paged.threads
  have halloc := envAlloc_eq hlist hthreads.head_eq 0
  obtain ⟨dir, hnew, hmem, hrest⟩ :=
    NewSpace.of_envAlloc hhoused (initialKernel_fresh smallMachine _) halloc
  have hlinked : Linked smallMachine (initialKernel smallMachine
      { σ with mem := update σ.mem 0x150 smallWords }).phys smallFile (kernBase + 0x150000) 120 :=
    smallFile_linked hpage (by simp only [initialKernel, update_self])
  obtain ⟨s', hload, hbuilt⟩ : ∃ s', loadIcode _ 0 _ (kernBase + 0x150000) 120 = some s' ∧
      ImageBuilt _ 0 _ dir smallFile s' :=
    loadIcode_builds hnew (hlinked.of_mem hmem) smallFile_loadable (hrest _ hthreads)
      (by rw [smallFile_pages, List.tail_cons]; omega)
  exact ⟨_, _, dir, s', hnew, hload, hbuilt⟩

end Elf

end OsLabs.Jos
