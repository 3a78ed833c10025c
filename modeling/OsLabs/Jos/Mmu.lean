import Mathlib

/-!
# Words, linear addresses and page table entries

The constants and macros of `inc/mmu.h`, `inc/memlayout.h` and `inc/types.h`
that the Lab 7 kernel uses.  A `uint32_t` is a 32-bit vector; a physical page
is named by its number, the index of its `struct PageInfo`.
-/

namespace OsLabs.Jos

abbrev Word := BitVec 32

/-! ## Paging constants -/

def pgSize : Word := 4096
def nptEntries : ℕ := 1024
def ptSize : Word := 0x400000

def pteP : Word := 0x001
def pteW : Word := 0x002
def pteU : Word := 0x004
def ptePwt : Word := 0x008
def ptePcd : Word := 0x010
def pteA : Word := 0x020
def pteD : Word := 0x040
def pteAvail : Word := 0xE00

/-- `PTE_SYSCALL`: the flags a system call may ask for. -/
def pteSyscall : Word := pteAvail ||| pteP ||| pteW ||| pteU

/-! ## Memory layout -/

def kernBase : Word := 0xF0000000
def kstackTop : Word := kernBase
def kstkSize : Word := 8 * pgSize
def kstkGap : Word := 8 * pgSize
def mmioLim : Word := kstackTop - ptSize
def mmioBase : Word := mmioLim - ptSize
def ulim : Word := mmioBase
def uvpt : Word := ulim - ptSize
def upages : Word := uvpt - ptSize
def uenvs : Word := upages - ptSize
def utop : Word := uenvs
def uxstackTop : Word := utop
def ustackTop : Word := utop - 2 * pgSize
def utemp : Word := ptSize
def pftemp : Word := utemp + ptSize - pgSize
def mpentryPaddr : Word := 0x7000

/-! ## Decomposition of linear addresses -/

/-- `PGNUM`: the page number field. -/
def pgnum (la : Word) : ℕ := (la >>> 12).toNat

/-- `PDX`: the page directory index. -/
def pdx (la : Word) : ℕ := ((la >>> 22) &&& 0x3FF).toNat

/-- `PTX`: the page table index. -/
def ptx (la : Word) : ℕ := ((la >>> 12) &&& 0x3FF).toNat

/-- `PGADDR` with a zero offset, as `env_free` uses it. -/
def pgaddr (d t : ℕ) : Word := BitVec.ofNat 32 d <<< 22 ||| BitVec.ofNat 32 t <<< 12

def roundDown (a : Word) : Word := a - a % pgSize

def roundUp (a : Word) : Word := roundDown (a + pgSize - 1)

/-- `PTE_ADDR`: the physical address held by an entry. -/
def pteAddr (pte : Word) : Word := pte &&& ~~~0xFFF

/-- `page2pa`: the address of the page with this index in `pages[]`. -/
def page2pa (pp : ℕ) : Word := BitVec.ofNat 32 pp <<< 12

/-- The page a present entry points to. -/
def entryPage (entry : Word) : Option ℕ :=
  if entry &&& pteP = 0 then none else some (pgnum entry)

/-- Indices of user page directory entries lie below `PDX(UTOP)`. -/
def userPdes : ℕ := pdx utop

@[simp]
theorem userPdes_eq : userPdes = 955 := by decide

/-! ## Arithmetic of addresses -/

theorem pgnum_eq (la : Word) : pgnum la = la.toNat / 4096 := by
  simp [pgnum, BitVec.toNat_ushiftRight, Nat.shiftRight_eq_div_pow]

theorem pdx_eq (la : Word) : pdx la = la.toNat / 4194304 := by
  have hbound := la.isLt
  simp only [pdx, BitVec.toNat_and, BitVec.toNat_ushiftRight,
    Nat.shiftRight_eq_div_pow]
  rw [show (0x3FF : Word).toNat = 2 ^ 10 - 1 by decide, Nat.and_two_pow_sub_one_eq_mod]
  omega

theorem ptx_eq (la : Word) : ptx la = la.toNat / 4096 % 1024 := by
  simp only [ptx, BitVec.toNat_and, BitVec.toNat_ushiftRight,
    Nat.shiftRight_eq_div_pow]
  rw [show (0x3FF : Word).toNat = 2 ^ 10 - 1 by decide, Nat.and_two_pow_sub_one_eq_mod]

theorem ptx_lt (la : Word) : ptx la < nptEntries := by
  rw [ptx_eq]
  exact Nat.mod_lt _ (by decide)

theorem pdx_lt (la : Word) : pdx la < 1024 := by
  have hbound := la.isLt
  rw [pdx_eq]
  omega

/-- A user address has a user page directory index. -/
theorem pdx_lt_userPdes {va : Word} (hva : va < utop) : pdx va < userPdes := by
  rw [BitVec.lt_def, show utop.toNat = 4005560320 by decide] at hva
  rw [userPdes_eq, pdx_eq]
  omega

/-- Two addresses are on one page exactly when their indices agree. -/
theorem pgnum_eq_pdx_ptx (la : Word) : pgnum la = pdx la * 1024 + ptx la := by
  rw [pgnum_eq, pdx_eq, ptx_eq]
  omega

theorem toNat_pgaddr {d t : ℕ} (hd : d < 1024) (ht : t < 1024) :
    (pgaddr d t).toNat = d * 4194304 + t * 4096 := by
  have hshift : (BitVec.ofNat 32 d <<< 22).toNat = d <<< 22 := by
    rw [BitVec.toNat_shiftLeft, BitVec.toNat_ofNat, Nat.shiftLeft_eq,
      Nat.shiftLeft_eq]
    omega
  have hlow : (BitVec.ofNat 32 t <<< 12).toNat = t * 4096 := by
    rw [BitVec.toNat_shiftLeft, BitVec.toNat_ofNat, Nat.shiftLeft_eq]
    omega
  rw [pgaddr, BitVec.toNat_or, hshift, hlow,
    ← Nat.shiftLeft_add_eq_or_of_lt (by omega), Nat.shiftLeft_eq]

theorem pdx_pgaddr {d t : ℕ} (hd : d < 1024) (ht : t < 1024) :
    pdx (pgaddr d t) = d := by
  rw [pdx_eq, toNat_pgaddr hd ht]
  omega

theorem ptx_pgaddr {d t : ℕ} (hd : d < 1024) (ht : t < 1024) :
    ptx (pgaddr d t) = t := by
  rw [ptx_eq, toNat_pgaddr hd ht]
  omega

theorem toNat_roundDown (a : Word) : (roundDown a).toNat = a.toNat / 4096 * 4096 := by
  have hmod : (a % pgSize).toNat = a.toNat % 4096 := by
    rw [BitVec.toNat_umod]
    rfl
  rw [roundDown, BitVec.toNat_sub_of_le (by
    rw [BitVec.le_def, hmod]
    exact Nat.mod_le _ _), hmod]
  omega

/-! ## Arithmetic of page table entries -/

theorem toNat_page2pa {pp : ℕ} (hpp : pp < 2 ^ 20) : (page2pa pp).toNat = pp * 4096 := by
  rw [page2pa, BitVec.toNat_shiftLeft, BitVec.toNat_ofNat, Nat.shiftLeft_eq]
  omega

theorem pgnum_or (left right : Word) :
    pgnum (left ||| right) = pgnum left ||| pgnum right := by
  simp [pgnum, BitVec.ushiftRight_or_distrib]

theorem pgnum_page2pa {pp : ℕ} (hpp : pp < 2 ^ 20) : pgnum (page2pa pp) = pp := by
  rw [pgnum_eq, toNat_page2pa hpp]
  omega

theorem pgnum_pteAddr (pte : Word) : pgnum (pteAddr pte) = pgnum pte := by
  have hmask : ((~~~0xFFF : Word) >>> 12) = (0xFFFFF : Word) := by decide
  have hall : ∀ w : Word, (w >>> 12) &&& (0xFFFFF : Word) = w >>> 12 := by
    intro w
    apply BitVec.eq_of_toNat_eq
    rw [BitVec.toNat_and, show (0xFFFFF : Word).toNat = 2 ^ 20 - 1 by decide,
      Nat.and_two_pow_sub_one_eq_mod, BitVec.toNat_ushiftRight,
      Nat.shiftRight_eq_div_pow]
    have hbound := w.isLt
    omega
  rw [pgnum, pteAddr, BitVec.ushiftRight_and_distrib, hmask, hall, pgnum]

theorem pteAddr_page2pa (pp : ℕ) : pteAddr (page2pa pp) = page2pa pp := by
  have hset : ∀ k < 32, 12 ≤ k → (~~~0xFFF : Word).getLsbD k = true := by decide
  apply BitVec.eq_of_getLsbD_eq
  intro k hk
  rw [pteAddr, BitVec.getLsbD_and]
  by_cases hlow : k < 12
  · simp [page2pa, hlow]
  · rw [hset k hk (by omega), Bool.and_true]

/-- Flags below bit 12 do not disturb the address. -/
theorem pteAddr_page2pa_or {pp : ℕ} {flags : Word} (hflags : pteAddr flags = 0) :
    pteAddr (page2pa pp ||| flags) = page2pa pp := by
  rw [pteAddr, BitVec.and_or_distrib_right, ← pteAddr, ← pteAddr, pteAddr_page2pa, hflags]
  exact BitVec.or_zero

theorem pteAddr_eq_page2pa (pte : Word) : pteAddr pte = page2pa (pgnum pte) := by
  have hset : ∀ k < 32, 12 ≤ k → (~~~0xFFF : Word).getLsbD k = true := by decide
  have hclear : ∀ k < 12, (~~~0xFFF : Word).getLsbD k = false := by decide
  have hnumber : BitVec.ofNat 32 (pgnum pte) = pte >>> 12 := by
    rw [pgnum]
    exact BitVec.ofNat_toNat _ _
  apply BitVec.eq_of_getLsbD_eq
  intro k hk
  rw [pteAddr, page2pa, hnumber, BitVec.getLsbD_and, BitVec.getLsbD_shiftLeft]
  by_cases hlow : k < 12
  · rw [hclear k hlow, Bool.and_false]
    simp [hlow]
  · rw [hset k hk (by omega), BitVec.getLsbD_ushiftRight, Nat.add_sub_cancel' (by omega)]
    simp [hlow, hk]

/-- Page-aligned addresses are the ones that are their own page address. -/
theorem pteAddr_eq_self_iff {a : Word} : pteAddr a = a ↔ a.toNat % 4096 = 0 := by
  have hbound := a.isLt
  have hpage : (pteAddr a).toNat = a.toNat / 4096 * 4096 := by
    rw [pteAddr_eq_page2pa, pgnum_eq, toNat_page2pa (by omega)]
  rw [← BitVec.toNat_inj, hpage]
  omega

/-- A page address and flags have no bit in common. -/
theorem aligned_and_flags {a flags : Word} (ha : pteAddr a = a) (hflags : pteAddr flags = 0) :
    a &&& flags = 0 := by
  have hcomm : ~~~0xFFF &&& flags = 0 := by
    rw [BitVec.and_comm]
    exact hflags
  rw [← ha, pteAddr, BitVec.and_assoc, hcomm]
  exact BitVec.and_zero

/-- The low 12 bits of a word are flags. -/
theorem pteAddr_setWidth (flags : BitVec 12) : pteAddr (flags.setWidth 32) = 0 := by
  have hclear : ∀ k < 12, (~~~0xFFF : Word).getLsbD k = false := by decide
  apply BitVec.eq_of_getLsbD_eq
  intro k hk
  rw [pteAddr, BitVec.getLsbD_and]
  by_cases hlow : k < 12
  · rw [hclear k hlow, Bool.and_false]
    simp
  · rw [BitVec.getLsbD_setWidth, BitVec.getLsbD_of_ge _ _ (by omega)]
    simp

/-- A page number survives `| perm | PTE_P` when the address bits of `perm`
are all set in the page's own address. -/
theorem pgnum_entry {pp : ℕ} (hpp : pp < 2 ^ 20) {perm : Word}
    (hperm : pteAddr (page2pa pp ||| perm) = page2pa pp) :
    pgnum (page2pa pp ||| perm ||| pteP) = pp := by
  have hlow : pgnum pteP = 0 := by decide
  rw [pgnum_or, hlow, Nat.or_zero, ← pgnum_pteAddr, hperm, pgnum_page2pa hpp]

@[simp]
theorem entry_present (entry : Word) : (entry ||| pteP) &&& pteP ≠ 0 := by
  intro hzero
  have hbit := congrArg (fun w : Word => w.getLsbD 0) hzero
  simp [pteP] at hbit

theorem entryPage_entry {pp : ℕ} (hpp : pp < 2 ^ 20) {perm : Word}
    (hperm : pteAddr (page2pa pp ||| perm) = page2pa pp) :
    entryPage (page2pa pp ||| perm ||| pteP) = some pp := by
  rw [entryPage, if_neg (entry_present _), pgnum_entry hpp hperm]

theorem entryPage_zero : entryPage 0 = none := by
  simp [entryPage]

@[simp]
theorem entryPage_zero_literal : entryPage 0#32 = none := entryPage_zero

end OsLabs.Jos
