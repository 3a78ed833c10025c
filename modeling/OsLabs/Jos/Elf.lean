import OsLabs.Jos.Boot

/-!
# Loading an ELF binary

`env_create` and `load_icode` on the binary itself, which the linker puts into
the kernel image: the headers are read from memory, through the page directory
that is loaded at that point.
-/

namespace OsLabs.Jos

/-! ## Loads of the kernel -/

/-- The byte at a kernel address: physical memory is mapped from `KERNBASE` on. -/
def Phys.kernelByte (σ : Phys) (va : Word) : BitVec 8 :=
  σ.loadByte (pgnum (va - kernBase)) (pgoff (va - kernBase))

/-- A load of the kernel.  Every page directory maps physical memory; below
`KERNBASE` a missing mapping is a fault in kernel mode. -/
def kernelLoad (σ : Phys) (pgdir : ℕ) (va : Word) : Option (BitVec 8) :=
  if kernBase ≤ va then some (σ.kernelByte va)
  else (mmuPage σ pgdir va pteP).map fun page => σ.loadByte page (pgoff va)

/-- Consecutive bytes from `va` on. -/
def kernelLoads (σ : Phys) (pgdir : ℕ) : ℕ → Word → Option (List (BitVec 8))
  | 0, _ => some []
  | count + 1, va => do
      let byte ← kernelLoad σ pgdir va
      let bytes ← kernelLoads σ pgdir count (va + 1)
      return byte :: bytes

/-- A `uint16_t`. -/
def kernelHalfword (σ : Phys) (pgdir : ℕ) (va : Word) : Option (BitVec 16) := do
  let low ← kernelLoad σ pgdir va
  let high ← kernelLoad σ pgdir (va + 1)
  return (high ++ low : BitVec (8 + 8))

/-- A `uint32_t`. -/
def kernelWord (σ : Phys) (pgdir : ℕ) (va : Word) : Option Word := do
  let low ← kernelHalfword σ pgdir va
  let high ← kernelHalfword σ pgdir (va + 2)
  return (high ++ low : BitVec (16 + 16))

namespace Elf

/-! ## Headers (`inc/elf.h`) -/

def elfMagic : Word := 0x464C457F
def elfProgLoad : Word := 1

/-- The addresses of the fields of a `struct Elf`. -/
def eMagic (binary : Word) : Word := binary
def eEntry (binary : Word) : Word := binary + 24
def ePhoff (binary : Word) : Word := binary + 28
def ePhnum (binary : Word) : Word := binary + 44
def sizeofElf : ℕ := 52

/-- `p_type`, the first field of a `struct Proghdr`. -/
def pType (ph : Word) : Word := ph
def sizeofProghdr : Word := 32

/-- The fields of a `struct Proghdr` that say what to load. -/
structure Proghdr where
  offset : Word
  va : Word
  filesz : Word
  memsz : Word
  deriving DecidableEq, Repr

def readProghdr (σ : Phys) (pgdir : ℕ) (ph : Word) : Option Proghdr := do
  let offset ← kernelWord σ pgdir (ph + 4)
  let va ← kernelWord σ pgdir (ph + 8)
  let filesz ← kernelWord σ pgdir (ph + 16)
  let memsz ← kernelWord σ pgdir (ph + 20)
  return ⟨offset, va, filesz, memsz⟩

/-! ## `load_icode` -/

/-- The body of the loop of `load_icode`: `region_alloc` works on `pgdir`, and
all loads and stores go through the page directory in `cr3`. -/
def loadHeader (σ : Phys) (pgdir cr3 : ℕ) (binary ph : Word) : Option Phys := do
  let type ← kernelWord σ cr3 (pType ph)
  if type = elfProgLoad then
    let hdr ← readProghdr σ cr3 ph
    let σ ← regionAlloc σ pgdir hdr.va hdr.memsz
    let hdr ← readProghdr σ cr3 ph
    let σ ← kernelStores σ cr3 hdr.va (List.replicate hdr.memsz.toNat 0)
    let hdr ← readProghdr σ cr3 ph
    let bytes ← kernelLoads σ cr3 hdr.filesz.toNat (binary + hdr.offset)
    kernelStores σ cr3 hdr.va bytes
  else return σ

/-- The loop from `ph` on.  `eph` is `count` headers further, so that the
comparison fails when none is left. -/
def loadHeaders (pgdir cr3 : ℕ) (binary eph : Word) : ℕ → Phys → Word → Option Phys
  | 0, σ, _ => some σ
  | count + 1, σ, ph =>
      if ph < eph then do
        let σ ← loadHeader σ pgdir cr3 binary ph
        loadHeaders pgdir cr3 binary eph count σ (ph + sizeofProghdr)
      else some σ

/-- `load_icode` on CPU `c`; `size` is not looked at. -/
def loadIcode (s : Kernel) (c : ℕ) (e : Slot) (binary _size : Word) : Option Kernel := do
  let magic ← kernelWord s.phys (s.cpus c).cr3 (eMagic binary)
  if magic ≠ elfMagic then none
  else
    let phoff ← kernelWord s.phys (s.cpus c).cr3 (ePhoff binary)
    let ph := binary + phoff
    let phnum ← kernelHalfword s.phys (s.cpus c).cr3 (ePhnum binary)
    let eph := ph + phnum.setWidth 32 * sizeofProghdr
    let pgdir ← (s.envs e).pgdir
    let s := s.lcr3 c pgdir
    let σ ← loadHeaders pgdir (s.cpus c).cr3 binary eph phnum.toNat s.phys ph
    let s := (s.setPhys σ).lcr3 c s.kernPgdir
    let entry ← kernelWord s.phys (s.cpus c).cr3 (eEntry binary)
    let s := s.setTf e { (s.envs e).tf with eip := entry }
    let σ ← regionAlloc s.phys pgdir (ustackTop - pgSize) pgSize
    return s.setPhys σ

/-- `env_create` on CPU `c`; the type is not looked at. -/
def envCreate (s : Kernel) (c : ℕ) (binary size : Word) : Option Kernel :=
  match envAlloc s 0 with
  | .error _ => none
  | .ok (e, s) => loadIcode s c e binary size

end Elf

end OsLabs.Jos
