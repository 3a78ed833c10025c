import OsLabs.Core.CStrings
import OsLabs.Core.Overlays
import OsLabs.Jos.LoadIcode
import OsLabs.Jos.Memmove

/-!
# The boot loader

`bootmain` (`boot/main.c`) reads the first page of the kernel image into a
scratch area, and then each segment to the address that its program header
names.  `readseg` reads whole sectors, so it also writes in front of a segment
and behind it.
-/

namespace OsLabs.Jos.BootLoader

open OsLabs.Moves OsLabs.Overlays
open Elf (File elfMagic sizeofProghdr)

def sectSize : Word := 512

/-- The scratch space for the headers. -/
def elfhdr : Word := 0x10000

/-- The fields of a `struct Proghdr` that say where a segment is.  The loader does not look at
`p_filesz`. -/
structure Proghdr where
  offset : Word
  pa : Word
  filesz : Word
  memsz : Word
  deriving DecidableEq

def proghdrAt (file : File) (k : ℕ) : Proghdr where
  offset := file.word (k + 4)
  pa := file.word (k + 12)
  filesz := file.word (k + 16)
  memsz := file.word (k + 20)

/-- The bytes of memory from an address on. -/
def fileAt (mem : Bytes) (a : Word) : File := fun k => mem (a + BitVec.ofNat 32 k)

/-! ## `boot/main.c` -/

/-- `readsect`; the image begins in sector 1 of the disk. -/
def readsect (image : File) (dst sector : Word) (mem : Bytes) : Bytes :=
  store mem dst ((List.range' ((sector.toNat - 1) * 512) 512).map image)

/-- The loop of `readseg`, within `fuel` rounds. -/
def readsegLoop (image : File) (endPa : Word) : ℕ → Word → Word → Bytes → Option Bytes
  | 0, _, _, _ => none
  | fuel + 1, pa, offset, mem =>
      if pa < endPa then
        readsegLoop image endPa fuel (pa + sectSize) (offset + 1) (readsect image pa offset mem)
      else some mem

def readseg (image : File) (fuel : ℕ) (pa count offset : Word) (mem : Bytes) : Option Bytes :=
  readsegLoop image (pa + count) fuel (pa &&& ~~~(sectSize - 1)) (offset / sectSize + 1) mem

/-- The loop over the headers.  `eph` is `count` headers further, so that the comparison fails when
none is left. -/
def loadSegments (image : File) (fuel : ℕ) (eph : Word) : ℕ → Word → Bytes → Option Bytes
  | 0, _, mem => some mem
  | count + 1, ph, mem =>
      if ph < eph then do
        let hdr := proghdrAt (fileAt mem ph) 0
        let mem ← readseg image fuel hdr.pa hdr.memsz hdr.offset mem
        loadSegments image fuel eph count (ph + sizeofProghdr) mem
      else some mem

/-- How `bootmain` ends: in the loop at `bad`, or with the call of the entry point. -/
inductive Outcome
  | bad
  | entered (entry : Word) (mem : Bytes)

def bootmain (image : File) (fuel : ℕ) (mem : Bytes) : Option Outcome := do
  let mem ← readseg image fuel elfhdr (sectSize * 8) 0 mem
  if (fileAt mem elfhdr).word 0 ≠ elfMagic then return .bad
  else
    let ph := elfhdr + (fileAt mem elfhdr).word 28
    let phnum := (fileAt mem elfhdr).halfword 44
    let eph := ph + phnum.setWidth 32 * sizeofProghdr
    let mem ← loadSegments image fuel eph phnum.toNat ph mem
    return .entered (fileAt mem elfhdr).entry mem

/-! ## What is to be shown -/

/-- The program headers of an image. -/
def proghdrs (image : File) : List Proghdr :=
  (List.range image.phnum).map fun n => proghdrAt image (image.headerAt n)

/-- The range of a segment is apart from an area. -/
def Proghdr.Apart (hdr : Proghdr) (low high : ℕ) : Prop :=
  hdr.pa.toNat + hdr.memsz.toNat ≤ low ∨ high ≤ hdr.pa.toNat

instance (hdr : Proghdr) (low high : ℕ) : Decidable (hdr.Apart low high) :=
  inferInstanceAs (Decidable (_ ∨ _))

/-- From any memory, the loader enters the kernel with the bytes of all segments in their places. -/
def LoadsIntact (image : File) : Prop :=
  ∀ mem, ∃ fuel entry mem', bootmain image fuel mem = some (.entered entry mem') ∧
    ∀ hdr ∈ proghdrs image, ∀ k < hdr.filesz.toNat,
      mem' (hdr.pa + BitVec.ofNat 32 k) = image (hdr.offset.toNat + k)

/-- The images that the loader is made for.  The last two are about the scratch area and the sector
of the loader itself. -/
structure Laid (image : File) : Prop where
  magic : image.word 0 = elfMagic
  headers : image.headerAt image.phnum ≤ 4096
  increasing : (proghdrs image).Pairwise fun first second =>
    first.pa.toNat + first.memsz.toNat ≤ second.pa.toNat
  congruent : ∀ hdr ∈ proghdrs image, hdr.pa.toNat % 512 = hdr.offset.toNat % 512
  scratch : ∀ hdr ∈ proghdrs image, hdr.Apart 0x10000 0x11000
  loader : ∀ hdr ∈ proghdrs image, hdr.Apart 0x7C00 0x7E00

/-! ## The sectors of a segment -/

namespace Proghdr

/-- The end of a segment, as `readseg` computes it. -/
def endPa (hdr : Proghdr) : Word := hdr.pa + hdr.memsz

/-- The sectors that are read for a segment cover an address. -/
def Covers (hdr : Proghdr) (a : Word) : Prop :=
  hdr.pa.toNat / 512 ≤ a.toNat / 512 ∧ a.toNat / 512 * 512 < hdr.endPa.toNat

instance (hdr : Proghdr) (a : Word) : Decidable (hdr.Covers a) :=
  inferInstanceAs (Decidable (_ ∧ _))

/-- The place in the image of the byte that is read to an address. -/
def source (hdr : Proghdr) (a : Word) : ℕ :=
  (hdr.offset.toNat / 512 + (a.toNat / 512 - hdr.pa.toNat / 512)) * 512 + a.toNat % 512

/-- The last sector is the last one of memory, and the address behind it is 0 again. -/
def Endless (hdr : Proghdr) : Prop :=
  hdr.pa.toNat / 512 * 512 < hdr.endPa.toNat ∧ 2 ^ 32 - 512 < hdr.endPa.toNat

instance (hdr : Proghdr) : Decidable hdr.Endless := inferInstanceAs (Decidable (_ ∧ _))

end Proghdr

/-- The load of a segment as a layer over memory. -/
abbrev cell (image : File) (hdr : Proghdr) (a : Word) : BitVec 8 := image (hdr.source a)

/-! ## `readseg` -/

section Sectors

variable {image : File} {mem : Bytes} {a : Word}

theorem toNat_add_sectSize {pa : Word} (hpa : pa.toNat + 512 < 2 ^ 32) :
    (pa + sectSize).toNat = pa.toNat + 512 := by
  rw [BitVec.toNat_add]
  exact Nat.mod_eq_of_lt hpa

theorem readsect_apply {dst sector : Word} (hdst : dst.toNat + 512 ≤ 2 ^ 32) :
    readsect image dst sector mem a =
      if dst.toNat ≤ a.toNat ∧ a.toNat < dst.toNat + 512 then
        image ((sector.toNat - 1) * 512 + (a.toNat - dst.toNat))
      else mem a := by
  have hlt := a.isLt
  rw [readsect, store_apply (by rw [List.length_map, List.length_range']; decide),
    List.getElem?_map]
  by_cases hin : dst.toNat ≤ a.toNat ∧ a.toNat < dst.toNat + 512
  · have hdistance : (a - dst).toNat = a.toNat - dst.toNat := BitVec.toNat_sub_of_le hin.1
    rw [if_pos hin, hdistance, List.getElem?_range' (by omega), Nat.one_mul]
    rfl
  · have hfar : 512 ≤ (a - dst).toNat := by
      rw [BitVec.toNat_sub]
      omega
    rw [if_neg hin, List.getElem?_eq_none (by rwa [List.length_range'])]
    rfl

/-- The sectors from one on, read to an address and up to another. -/
def sectorsOver (image : File) (pa sector endPa : Word) (mem : Bytes) : Bytes := fun a =>
  if pa.toNat ≤ a.toNat ∧ a.toNat / 512 * 512 < endPa.toNat then
    image ((sector.toNat - 1) * 512 + (a.toNat - pa.toNat))
  else mem a

section Loop

variable {pa sector endPa : Word}

theorem sectorsOver_none (hend : ¬ pa < endPa) (haligned : pa.toNat % 512 = 0) :
    sectorsOver image pa sector endPa mem = mem := by
  funext a
  refine if_neg ?_
  rw [BitVec.lt_def] at hend
  omega

/-- One sector in front of the others. -/
theorem sectorsOver_readsect (haligned : pa.toNat % 512 = 0) (hpos : 1 ≤ sector.toNat)
    (hsector : sector.toNat + 1 < 2 ^ 32) (hpa : pa.toNat + 512 < 2 ^ 32) (hlt : pa < endPa) :
    sectorsOver image (pa + sectSize) (sector + 1) endPa (readsect image pa sector mem) =
      sectorsOver image pa sector endPa mem := by
  have hnext : (sector + 1).toNat = sector.toNat + 1 := by
    rw [BitVec.toNat_add]
    exact Nat.mod_eq_of_lt hsector
  rw [BitVec.lt_def] at hlt
  funext a
  rw [sectorsOver, sectorsOver, toNat_add_sectSize hpa, hnext, readsect_apply hpa.le]
  by_cases hlater : pa.toNat + 512 ≤ a.toNat ∧ a.toNat / 512 * 512 < endPa.toNat
  · rw [if_pos hlater, if_pos ⟨by omega, hlater.2⟩]
    refine congrArg image ?_
    omega
  · rw [if_neg hlater]
    by_cases hfirst : pa.toNat ≤ a.toNat ∧ a.toNat < pa.toNat + 512
    · rw [if_pos hfirst, if_pos ⟨hfirst.1, by omega⟩]
    · rw [if_neg hfirst, if_neg (by omega)]

/-- The loop reads all sectors, or its rounds are too few. -/
theorem readsegLoop_eq {fuel : ℕ} (haligned : pa.toNat % 512 = 0) (hpos : 1 ≤ sector.toNat)
    (hsector : sector.toNat * 512 < pa.toNat + 2 ^ 40)
    (hends : pa < endPa → endPa.toNat ≤ 2 ^ 32 - 512) :
    readsegLoop image endPa fuel pa sector mem = some (sectorsOver image pa sector endPa mem) ∨
      readsegLoop image endPa fuel pa sector mem = none ∧
        (fuel = 0 ∨ pa.toNat + 512 * (fuel - 1) < endPa.toNat) := by
  induction fuel generalizing pa sector mem with
  | zero => exact Or.inr ⟨rfl, Or.inl rfl⟩
  | succ fuel ih =>
    rw [readsegLoop]
    by_cases hlt : pa < endPa
    · have hend := hends hlt
      have hbelow := BitVec.lt_def.mp hlt
      have hpa : pa.toNat + 512 < 2 ^ 32 := by omega
      have hsectorNext : sector.toNat + 1 < 2 ^ 32 := by omega
      have hnext : (sector + 1).toNat = sector.toNat + 1 := by
        rw [BitVec.toNat_add]
        exact Nat.mod_eq_of_lt hsectorNext
      have hpaNext := toNat_add_sectSize hpa
      have hroom : (sector + 1).toNat * 512 < (pa + sectSize).toNat + 2 ^ 40 := by
        rw [hnext, hpaNext, Nat.add_mul, Nat.one_mul, Nat.add_right_comm]
        exact Nat.add_lt_add_right hsector 512
      rw [if_pos hlt]
      obtain hdone | ⟨hnone, hfew⟩ :=
        @ih (readsect image pa sector mem) (pa + sectSize) (sector + 1) (by omega) (by omega)
          hroom (fun _ => hend)
      · left
        rw [hdone, sectorsOver_readsect haligned hpos hsectorNext hpa hlt]
      · exact Or.inr ⟨hnone, Or.inr (by omega)⟩
    · rw [if_neg hlt, sectorsOver_none hlt haligned]
      exact Or.inl rfl

/-- Where the last sector is read too, the address starts again at 0. -/
theorem readsegLoop_endless (fuel : ℕ) (haligned : pa.toNat % 512 = 0) (hlt : pa < endPa)
    (hend : 2 ^ 32 - 512 < endPa.toNat) : readsegLoop image endPa fuel pa sector mem = none := by
  induction fuel generalizing pa sector mem with
  | zero => rfl
  | succ fuel ih =>
    have hbound := pa.isLt
    have hnext : (pa + sectSize).toNat = (pa.toNat + 512) % 2 ^ 32 := BitVec.toNat_add _ _
    rw [readsegLoop, if_pos hlt]
    refine ih (by omega) ?_
    rw [BitVec.lt_def]
    omega

end Loop

/-! ### As a layer -/

theorem toNat_roundDown (pa : Word) : (pa &&& ~~~(sectSize - 1)).toNat = pa.toNat / 512 * 512 := by
  have hset : ∀ k < 32, 9 ≤ k → (~~~(sectSize - 1)).getLsbD k = true := by decide
  have hclear : ∀ k < 9, (~~~(sectSize - 1)).getLsbD k = false := by decide
  have hshift : pa &&& ~~~(sectSize - 1) = (pa >>> 9) <<< 9 := by
    apply BitVec.eq_of_getLsbD_eq
    intro k hk
    rw [BitVec.getLsbD_and, BitVec.getLsbD_shiftLeft]
    by_cases hlow : k < 9
    · rw [hclear k hlow, Bool.and_false]
      simp [hlow]
    · rw [hset k hk (by omega), BitVec.getLsbD_ushiftRight, Nat.add_sub_cancel' (by omega)]
      simp [hlow, hk]
  have hlt := pa.isLt
  rw [hshift, BitVec.toNat_shiftLeft, BitVec.toNat_ushiftRight, Nat.shiftRight_eq_div_pow,
    Nat.shiftLeft_eq]
  exact Nat.mod_eq_of_lt (by omega)

theorem toNat_sector (offset : Word) : (offset / sectSize + 1).toNat = offset.toNat / 512 + 1 := by
  have hlt := offset.isLt
  rw [BitVec.toNat_add, BitVec.toNat_udiv]
  exact Nat.mod_eq_of_lt (show offset.toNat / 512 + 1 < 2 ^ 32 by omega)

theorem sectorsOver_eq_layOver (hdr : Proghdr) :
    sectorsOver image (hdr.pa &&& ~~~(sectSize - 1)) (hdr.offset / sectSize + 1) hdr.endPa mem =
      layOver Proghdr.Covers (cell image) mem hdr := by
  funext a
  rw [sectorsOver, layOver, toNat_roundDown, toNat_sector, Nat.add_sub_cancel]
  have hcovers : hdr.pa.toNat / 512 * 512 ≤ a.toNat ∧ a.toNat / 512 * 512 < hdr.endPa.toNat ↔
      hdr.Covers a := and_congr_left fun _ => (Nat.le_div_iff_mul_le (by decide)).symm
  by_cases ha : hdr.Covers a
  · have hsource : hdr.offset.toNat / 512 * 512 + (a.toNat - hdr.pa.toNat / 512 * 512) =
        hdr.source a := by
      have hle := ha.1
      rw [Proghdr.source]
      omega
    rw [if_pos (hcovers.mpr ha), if_pos ha, hsource]
  · rw [if_neg fun h => ha (hcovers.mp h), if_neg ha]

/-- The rounds that `readseg` needs at most. -/
def enoughRounds : ℕ := 2 ^ 23 + 1

theorem readseg_eq {hdr : Proghdr} (hends : ¬ hdr.Endless) (fuel : ℕ) (mem : Bytes) :
    readseg image fuel hdr.pa hdr.memsz hdr.offset mem =
        some (layOver Proghdr.Covers (cell image) mem hdr) ∨
      readseg image fuel hdr.pa hdr.memsz hdr.offset mem = none ∧ fuel < enoughRounds := by
  have hfloor := toNat_roundDown hdr.pa
  have hsector := toNat_sector hdr.offset
  have hoffset := hdr.offset.isLt
  have hend := hdr.endPa.isLt
  rw [readseg, ← sectorsOver_eq_layOver]
  refine (readsegLoop_eq (by omega) (by omega) (by omega) ?_).imp id (And.imp_right ?_)
  · intro hlt
    rw [BitVec.lt_def, hfloor] at hlt
    by_contra hlast
    exact hends ⟨hlt, Nat.lt_of_not_le hlast⟩
  · rintro (rfl | hfew)
    · decide
    · rw [enoughRounds]
      change _ < hdr.endPa.toNat at hfew
      omega

theorem readseg_endless {hdr : Proghdr} (hends : hdr.Endless) (fuel : ℕ) (mem : Bytes) :
    readseg image fuel hdr.pa hdr.memsz hdr.offset mem = none := by
  have hfloor := toNat_roundDown hdr.pa
  refine readsegLoop_endless fuel (by omega) ?_ hends.2
  rw [BitVec.lt_def, hfloor]
  exact hends.1

end Sectors

/-! ## The headers in the scratch area -/

section Headers

variable {image : File} {mem : Bytes} {hdr : Proghdr} {j k : ℕ}

/-- The load of the headers, which comes first. -/
def headerPage : Proghdr := ⟨0, elfhdr, sectSize * 8, sectSize * 8⟩

/-- The scratch area has the first page of the image. -/
def Shows (image : File) (mem : Bytes) : Prop :=
  ∀ k < 4096, mem (elfhdr + BitVec.ofNat 32 k) = image k

theorem toNat_scratch (hk : k ≤ 4096) : (elfhdr + BitVec.ofNat 32 k).toNat = 0x10000 + k := by
  rw [BitVec.toNat_add, BitVec.toNat_ofNat, Nat.mod_eq_of_lt (show k < 2 ^ 32 by omega)]
  exact Nat.mod_eq_of_lt (show 0x10000 + k < 2 ^ 32 by omega)

theorem shows_headerPage (image : File) (mem : Bytes) :
    Shows image (layOver Proghdr.Covers (cell image) mem headerPage) := by
  intro k hk
  have hscratch := toNat_scratch hk.le
  have hpa : headerPage.pa.toNat = 0x10000 := rfl
  have hoffset : headerPage.offset.toNat = 0 := rfl
  have hend : headerPage.endPa.toNat = 0x11000 := rfl
  have hcovers : headerPage.Covers (elfhdr + BitVec.ofNat 32 k) := by
    rw [Proghdr.Covers, hscratch, hpa, hend]
    omega
  have hsource : headerPage.source (elfhdr + BitVec.ofNat 32 k) = k := by
    rw [Proghdr.source, hscratch, hpa, hoffset]
    omega
  rw [layOver_covered hcovers, cell, hsource]

theorem Proghdr.Apart.not_covers (hapart : hdr.Apart 0x10000 0x11000) (hk : k < 4096) :
    ¬ hdr.Covers (elfhdr + BitVec.ofNat 32 k) := by
  have hend : hdr.endPa.toNat = (hdr.pa.toNat + hdr.memsz.toNat) % 2 ^ 32 := BitVec.toNat_add _ _
  rw [Proghdr.Apart] at hapart
  rw [Proghdr.Covers, toNat_scratch hk.le]
  omega

/-- Segments that are apart from the scratch area share no sector with it. -/
theorem Shows.overlay {hdrs : List Proghdr} (hshows : Shows image mem)
    (hapart : ∀ hdr ∈ hdrs, hdr.Apart 0x10000 0x11000) :
    Shows image (overlay Proghdr.Covers (cell image) hdrs mem) := by
  intro k hk
  rw [overlay_uncovered fun hdr hmem => (hapart hdr hmem).not_covers hk]
  exact hshows k hk

theorem halfword_congr {file file' : File} {k k' : ℕ} (h : ∀ i < 2, file (k + i) = file' (k' + i)) :
    file.halfword k = file'.halfword k' := by
  have hlow := h 0 (by decide)
  have hhigh := h 1 (by decide)
  rw [File.halfword, File.halfword, hhigh]
  rw [Nat.add_zero, Nat.add_zero] at hlow
  rw [hlow]

theorem word_congr {file file' : File} {k k' : ℕ} (h : ∀ i < 4, file (k + i) = file' (k' + i)) :
    file.word k = file'.word k' := by
  have hlow : file.halfword k = file'.halfword k' := halfword_congr fun i hi => h i (by omega)
  have hhigh : file.halfword (k + 2) = file'.halfword (k' + 2) := by
    refine halfword_congr fun i hi => ?_
    rw [Nat.add_assoc, Nat.add_assoc]
    exact h (2 + i) (by omega)
  rw [File.word, File.word, hlow, hhigh]

theorem Shows.word (hshows : Shows image mem) (hk : j + k + 4 ≤ 4096) :
    (fileAt mem (elfhdr + BitVec.ofNat 32 j)).word k = image.word (j + k) := by
  refine word_congr fun i hi => ?_
  rw [fileAt, BitVec.add_assoc, ← BitVec.ofNat_add, hshows _ (by omega), Nat.add_assoc]

theorem Shows.proghdrAt (hshows : Shows image mem) (hj : j + 32 ≤ 4096) :
    proghdrAt (fileAt mem (elfhdr + BitVec.ofNat 32 j)) 0 = proghdrAt image j := by
  rw [BootLoader.proghdrAt, hshows.word (by omega), hshows.word (by omega), hshows.word (by omega),
    hshows.word (by omega)]
  rfl

/-! ### The loop over the headers -/

/-- The headers from number `n` on. -/
def headersFrom (image : File) (n count : ℕ) : List Proghdr :=
  (List.range' n count).map fun n => BootLoader.proghdrAt image (image.headerAt n)

theorem headersFrom_succ (image : File) (n count : ℕ) : headersFrom image n (count + 1) =
    BootLoader.proghdrAt image (image.headerAt n) :: headersFrom image (n + 1) count := by
  rw [headersFrom, List.range'_succ, List.map_cons, headersFrom]

theorem proghdrs_eq_headersFrom (image : File) :
    proghdrs image = headersFrom image 0 image.phnum := by
  rw [proghdrs, headersFrom, List.range_eq_range']

theorem headerAt_succ (image : File) (n : ℕ) : image.headerAt (n + 1) = image.headerAt n + 32 := by
  rw [File.headerAt, File.headerAt]
  omega

/-- The address of a header in the scratch area. -/
def scratchHeader (image : File) (n : ℕ) : Word := elfhdr + BitVec.ofNat 32 (image.headerAt n)

theorem scratchHeader_succ (image : File) (n : ℕ) :
    scratchHeader image n + sizeofProghdr = scratchHeader image (n + 1) := by
  rw [scratchHeader, scratchHeader, headerAt_succ, BitVec.ofNat_add, ← BitVec.add_assoc]
  rfl

section Loop

variable {n count fuel : ℕ}

/-- One round of the loop: the header is read as it is in the image. -/
theorem loadSegments_succ (hshows : Shows image mem)
    (hin : image.headerAt (n + (count + 1)) ≤ 4096) :
    loadSegments image fuel (scratchHeader image (n + (count + 1))) (count + 1)
        (scratchHeader image n) mem =
      (readseg image fuel (BootLoader.proghdrAt image (image.headerAt n)).pa
        (BootLoader.proghdrAt image (image.headerAt n)).memsz
        (BootLoader.proghdrAt image (image.headerAt n)).offset mem).bind
        (loadSegments image fuel (scratchHeader image (n + 1 + count)) count
          (scratchHeader image (n + 1))) := by
  have hstart : image.headerAt n = image.phoff + n * 32 := rfl
  have hstop : image.headerAt (n + (count + 1)) = image.phoff + (n + (count + 1)) * 32 := rfl
  have hlt : scratchHeader image n < scratchHeader image (n + (count + 1)) := by
    rw [BitVec.lt_def, scratchHeader, scratchHeader, toNat_scratch (by omega), toNat_scratch hin]
    omega
  rw [loadSegments, if_pos hlt, scratchHeader, hshows.proghdrAt (by omega), ← scratchHeader,
    scratchHeader_succ, Nat.add_right_comm n 1 count]
  rfl

theorem loadSegments_eq (hshows : Shows image mem) (hin : image.headerAt (n + count) ≤ 4096)
    (hapart : ∀ hdr ∈ headersFrom image n count, hdr.Apart 0x10000 0x11000)
    (hends : ∀ hdr ∈ headersFrom image n count, ¬ hdr.Endless) :
    loadSegments image fuel (scratchHeader image (n + count)) count (scratchHeader image n) mem =
        some (overlay Proghdr.Covers (cell image) (headersFrom image n count) mem) ∨
      loadSegments image fuel (scratchHeader image (n + count)) count (scratchHeader image n) mem =
        none ∧ fuel < enoughRounds := by
  induction count generalizing n mem with
  | zero => exact Or.inl rfl
  | succ count ih =>
    rw [headersFrom_succ, List.forall_mem_cons] at hapart hends
    rw [loadSegments_succ hshows hin]
    obtain hread | ⟨hnone, hfew⟩ := @readseg_eq image _ hends.1 fuel mem
    · rw [hread, Option.bind_some, headersFrom_succ]
      refine ih ?_ (by rwa [Nat.add_right_comm]) hapart.2 hends.2
      exact hshows.overlay (List.forall_mem_singleton.mpr hapart.1)
    · rw [hnone]
      exact Or.inr ⟨rfl, hfew⟩

theorem loadSegments_endless (hshows : Shows image mem)
    (hin : image.headerAt (n + count) ≤ 4096)
    (hapart : ∀ hdr ∈ headersFrom image n count, hdr.Apart 0x10000 0x11000)
    (hends : ∃ hdr ∈ headersFrom image n count, hdr.Endless) :
    loadSegments image fuel (scratchHeader image (n + count)) count (scratchHeader image n) mem =
      none := by
  induction count generalizing n mem with
  | zero =>
    obtain ⟨hdr, hmem, -⟩ := hends
    exact (List.not_mem_nil hmem).elim
  | succ count ih =>
    rw [headersFrom_succ] at hapart hends
    rw [List.forall_mem_cons] at hapart
    rw [List.exists_mem_cons_iff] at hends
    rw [loadSegments_succ hshows hin]
    by_cases hfirst : (BootLoader.proghdrAt image (image.headerAt n)).Endless
    · rw [readseg_endless hfirst]
      rfl
    · obtain hread | ⟨hnone, -⟩ := @readseg_eq image _ hfirst fuel mem
      · rw [hread, Option.bind_some]
        refine ih ?_ (by rwa [Nat.add_right_comm]) hapart.2 (hends.resolve_left hfirst)
        exact hshows.overlay (List.forall_mem_singleton.mpr hapart.1)
      · rw [hnone]
        rfl

end Loop

end Headers

/-! ## `bootmain` -/

section Whole

variable {image : File} {mem : Bytes} {fuel : ℕ}

/-- The loads in their order. -/
def loads (image : File) : List Proghdr := headerPage :: proghdrs image

theorem scratchHeader_zero (image : File) : elfhdr + image.word 28 = scratchHeader image 0 := by
  rw [scratchHeader, File.headerAt, Nat.zero_mul, Nat.add_zero, File.phoff, BitVec.ofNat_toNat,
    BitVec.setWidth_eq]

theorem scratchHeader_phnum (image : File) :
    scratchHeader image 0 + (image.halfword 44).setWidth 32 * sizeofProghdr =
      scratchHeader image (0 + image.phnum) := by
  have hcount : (image.halfword 44).setWidth 32 = BitVec.ofNat 32 image.phnum := by
    rw [File.phnum, BitVec.ofNat_toNat]
  have hbytes : BitVec.ofNat 32 image.phnum * sizeofProghdr = BitVec.ofNat 32 (image.phnum * 32) := by
    rw [BitVec.ofNat_mul]
    rfl
  rw [hcount, hbytes, scratchHeader, scratchHeader, BitVec.add_assoc, ← BitVec.ofNat_add,
    Nat.zero_add, File.headerAt, File.headerAt, Nat.zero_mul, Nat.add_zero]

/-- Behind the load of the headers. -/
theorem bootmain_of_headers (hmagic : image.word 0 = elfMagic) {mem' : Bytes}
    (hshows : Shows image mem') (hread : readseg image fuel elfhdr (sectSize * 8) 0 mem = some mem') :
    bootmain image fuel mem =
      (loadSegments image fuel (scratchHeader image (0 + image.phnum)) image.phnum
        (scratchHeader image 0) mem').bind
        fun mem => some (.entered (fileAt mem elfhdr).entry mem) := by
  have hword {k : ℕ} (hk : k + 4 ≤ 4096) : (fileAt mem' elfhdr).word k = image.word k :=
    word_congr fun i hi => hshows (k + i) (by omega)
  have hphnum : (fileAt mem' elfhdr).halfword 44 = image.halfword 44 :=
    halfword_congr fun i hi => hshows (44 + i) (by omega)
  rw [bootmain, hread, Option.bind_eq_bind, Option.bind_some]
  have hbad : ¬ (fileAt mem' elfhdr).word 0 ≠ elfMagic := by
    rw [hword (by decide), hmagic]
    exact fun h => h rfl
  rw [if_neg hbad, hword (by decide), hphnum, scratchHeader_zero, ← scratchHeader_phnum]
  rfl

theorem bootmain_eq (hlaid : Laid image) (hends : ∀ hdr ∈ proghdrs image, ¬ hdr.Endless) :
    bootmain image fuel mem = some (.entered image.entry
        (overlay Proghdr.Covers (cell image) (loads image) mem)) ∨
      bootmain image fuel mem = none ∧ fuel < enoughRounds := by
  obtain hread | ⟨hnone, hfew⟩ :=
    @readseg_eq image headerPage (by decide) fuel mem
  · have hshows := shows_headerPage image mem
    have hapart := hlaid.scratch
    have hfinal := hshows.overlay hapart
    rw [proghdrs_eq_headersFrom] at hapart hends hfinal
    rw [bootmain_of_headers hlaid.magic hshows hread]
    obtain hloads | ⟨hnone, hfew⟩ := @loadSegments_eq image _ 0 image.phnum fuel hshows
      ((congrArg image.headerAt (Nat.zero_add _)).trans_le hlaid.headers) hapart hends
    · left
      have hentry : (fileAt (overlay Proghdr.Covers (cell image) (headersFrom image 0 image.phnum)
          (layOver Proghdr.Covers (cell image) mem headerPage)) elfhdr).entry = image.entry :=
        word_congr fun i hi => hfinal (24 + i) (by omega)
      rw [hloads, Option.bind_some, hentry, loads, proghdrs_eq_headersFrom]
      rfl
    · rw [hnone]
      exact Or.inr ⟨rfl, hfew⟩
  · right
    refine ⟨?_, hfew⟩
    rw [bootmain]
    change (readseg image fuel headerPage.pa headerPage.memsz headerPage.offset mem >>= _) = none
    rw [hnone]
    rfl

theorem bootmain_endless (hlaid : Laid image) (hends : ∃ hdr ∈ proghdrs image, hdr.Endless) :
    bootmain image fuel mem = none := by
  obtain hread | ⟨hnone, -⟩ := @readseg_eq image headerPage (by decide) fuel mem
  · have hshows := shows_headerPage image mem
    have hapart := hlaid.scratch
    rw [proghdrs_eq_headersFrom] at hapart hends
    rw [bootmain_of_headers hlaid.magic hshows hread, loadSegments_endless hshows
      ((congrArg image.headerAt (Nat.zero_add _)).trans_le hlaid.headers) hapart hends]
    rfl
  · rw [bootmain]
    change (readseg image fuel headerPage.pa headerPage.memsz headerPage.offset mem >>= _) = none
    rw [hnone]
    rfl

/-- What the segments of an image must be like: none reaches into the last sector of memory, and
where sectors of several loads cover a byte of a segment, the last of them brings that byte. -/
structure Settled (image : File) : Prop where
  ends : ∀ hdr ∈ proghdrs image, ¬ hdr.Endless
  last : ∀ hdr ∈ proghdrs image, ∀ k < hdr.filesz.toNat,
    ∃ last, top Proghdr.Covers (loads image) (hdr.pa + BitVec.ofNat 32 k) = some last ∧
      image (last.source (hdr.pa + BitVec.ofNat 32 k)) = image (hdr.offset.toNat + k)

theorem settled_of_intact (hlaid : Laid image) (hintact : LoadsIntact image) : Settled image := by
  have hends : ∀ hdr ∈ proghdrs image, ¬ hdr.Endless := by
    by_contra hendless
    push Not at hendless
    obtain ⟨fuel, entry, mem', hboot, -⟩ := hintact fun _ => 0
    rw [bootmain_endless hlaid hendless] at hboot
    cases hboot
  refine ⟨hends, fun hdr hmem k hk => ?_⟩
  refine (@forall_overlay_iff _ _ _ Proghdr.Covers _ (cell image) _ _ _ _).mp fun mem => ?_
  obtain ⟨fuel, entry, mem', hboot, hbytes⟩ := hintact mem
  obtain hresult | ⟨hnone, -⟩ := @bootmain_eq image mem fuel hlaid hends
  · rw [hresult] at hboot
    cases hboot
    exact hbytes hdr hmem k hk
  · rw [hnone] at hboot
    cases hboot

theorem intact_of_settled (hlaid : Laid image) (hsettled : Settled image) : LoadsIntact image := by
  intro mem
  have hboot := (@bootmain_eq image mem enoughRounds hlaid hsettled.ends).resolve_right
    fun h => lt_irrefl _ h.2
  refine ⟨enoughRounds, _, _, hboot, fun hdr hmem k hk => ?_⟩
  exact forall_overlay_iff.mpr (hsettled.last hdr hmem k hk) mem

/-- The boot loader loads an image intact exactly where the last load over each byte of a segment
brings that byte. -/
theorem loads_intact_iff (hlaid : Laid image) : LoadsIntact image ↔ Settled image :=
  ⟨settled_of_intact hlaid, intact_of_settled hlaid⟩

/-! ## Segments that share a sector -/

/-- As the ranges increase, a later segment that covers a byte of another begins in its sector. -/
theorem Laid.begins_in_sector (hlaid : Laid image) {before after : List Proghdr}
    {first second : Proghdr} {a : Word} (horder : proghdrs image = before ++ first :: after)
    (hsecond : second ∈ after) (ha : a.toNat < first.pa.toNat + first.memsz.toNat)
    (hcovers : second.Covers a) : second.pa.toNat / 512 = a.toNat / 512 := by
  have hincreasing := hlaid.increasing
  rw [horder, List.pairwise_append, List.pairwise_cons] at hincreasing
  have hbehind := hincreasing.2.1.1 second hsecond
  have hle := hcovers.1
  omega

/-- A linker that puts every segment at the same distance from its place in the image makes no
difference between the bytes that two loads bring to a sector. -/
theorem Laid.settled (hlaid : Laid image)
    (hfits : ∀ hdr ∈ proghdrs image, hdr.filesz.toNat ≤ hdr.memsz.toNat ∧
      hdr.pa.toNat + hdr.memsz.toNat ≤ 2 ^ 32 - 512)
    (hdistance : ∀ hdr ∈ proghdrs image, ∀ hdr' ∈ proghdrs image,
      hdr.pa.toNat + hdr'.offset.toNat = hdr'.pa.toNat + hdr.offset.toNat) : Settled image := by
  have hend : ∀ hdr ∈ proghdrs image, hdr.endPa.toNat = hdr.pa.toNat + hdr.memsz.toNat := by
    intro hdr hmem
    have hfit := (hfits hdr hmem).2
    rw [Proghdr.endPa, BitVec.toNat_add]
    exact Nat.mod_eq_of_lt (by omega)
  constructor
  · intro hdr hmem hendless
    have hlast := hendless.2
    rw [hend hdr hmem] at hlast
    exact absurd (hfits hdr hmem).2 (Nat.not_le_of_lt hlast)
  · intro hdr hmem k hk
    obtain ⟨hsize, hfit⟩ := hfits hdr hmem
    have ha : (hdr.pa + BitVec.ofNat 32 k).toNat = hdr.pa.toNat + k := by
      rw [BitVec.toNat_add, BitVec.toNat_ofNat, Nat.mod_eq_of_lt (show k < 2 ^ 32 by omega)]
      exact Nat.mod_eq_of_lt (by omega)
    have hown : hdr.Covers (hdr.pa + BitVec.ofNat 32 k) := by
      rw [Proghdr.Covers, ha, hend hdr hmem]
      omega
    obtain ⟨last, hlast⟩ := exists_top (List.mem_cons_of_mem headerPage hmem) hown
    refine ⟨last, hlast, congrArg image ?_⟩
    obtain ⟨hin, hcovers⟩ := mem_of_top hlast
    rw [Proghdr.Covers, ha] at hcovers
    rw [Proghdr.source, ha]
    obtain rfl | hin := List.mem_cons.mp hin
    · have hapart := hlaid.scratch hdr hmem
      have hpa : headerPage.pa.toNat = 0x10000 := rfl
      have hpage : headerPage.endPa.toNat = 0x11000 := rfl
      rw [Proghdr.Apart] at hapart
      rw [hpa, hpage] at hcovers
      omega
    · have hsame := hdistance hdr hmem last hin
      have hcongruent := hlaid.congruent last hin
      omega

/-- An image with two segments of 16 bytes, for 0x100000 and 0x100100.  Behind the headers, every
byte is the number of its sector. -/
def twoSegmentWords (offset : Word) : ℕ → Word
  | 0 => elfMagic
  | 7 => 52
  | 11 => 2
  | 13 => 1
  | 14 => 0x1000
  | 16 => 0x100000
  | 17 => 16
  | 18 => 16
  | 21 => 1
  | 22 => offset
  | 24 => 0x100100
  | 25 => 16
  | 26 => 16
  | k => BitVec.ofNat 32 (0x01010101 * (k / 128))

def twoSegments (offset : Word) : File := fun k => getByte (twoSegmentWords offset (k / 4)) (k % 4)

theorem twoSegments_laid {offset : Word} (h : offset = 0x1100 ∨ offset = 0x1300) :
    proghdrs (twoSegments offset) =
      [⟨0x1000, 0x100000, 16, 16⟩, ⟨offset, 0x100100, 16, 16⟩] ∧ Laid (twoSegments offset) := by
  have hproghdrs : proghdrs (twoSegments offset) =
      [⟨0x1000, 0x100000, 16, 16⟩, ⟨offset, 0x100100, 16, 16⟩] := by
    rcases h with rfl | rfl
    · decide +kernel
    · decide +kernel
  refine ⟨hproghdrs, ?_⟩
  constructor
  · rcases h with rfl | rfl
    · decide +kernel
    · decide +kernel
  · rcases h with rfl | rfl
    · decide +kernel
    · decide +kernel
  all_goals
    rw [hproghdrs]
    rcases h with rfl | rfl
    · decide
    · decide

/-- Both segments are in one sector of the image as they are in one sector of memory. -/
theorem loads_intact_two_segments : LoadsIntact (twoSegments 0x1100) := by
  obtain ⟨hproghdrs, hlaid⟩ := twoSegments_laid (Or.inl rfl)
  refine (loads_intact_iff hlaid).mpr (hlaid.settled ?_ ?_)
  · rw [hproghdrs]
    decide
  · rw [hproghdrs]
    decide

/-- The sector that is read for the second segment is written over the first. -/
theorem second_segment_over_first :
    Laid (twoSegments 0x1300) ∧ ¬ LoadsIntact (twoSegments 0x1300) := by
  obtain ⟨hproghdrs, hlaid⟩ := twoSegments_laid (Or.inr rfl)
  refine ⟨hlaid, fun hintact => ?_⟩
  have hlast := (settled_of_intact hlaid hintact).last
  rw [loads, hproghdrs] at hlast
  obtain ⟨last, htop, hbyte⟩ :=
    hlast ⟨0x1000, 0x100000, 16, 16⟩ (List.mem_cons_self ..) 0 (by decide)
  have hsecond : last = ⟨0x1300, 0x100100, 16, 16⟩ := by
    refine Option.some.inj (htop.symm.trans ?_)
    decide
  rw [hsecond] at hbyte
  exact absurd hbyte (by decide +kernel)

end Whole

end OsLabs.Jos.BootLoader
