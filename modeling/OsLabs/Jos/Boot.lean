import OsLabs.Core.IntrusiveList
import OsLabs.Jos.Syscall

/-!
# Booting

`mem_init`, `env_init` and `env_create`: how the kernel builds its own page
directory, the free list and the first environments.  The addresses that the
linker and the firmware choose are parameters.  The self tests of `mem_init`
are represented by what they leave behind: a permuted free list and scribbled
free pages.
-/

namespace OsLabs.Jos

open Function
open OsLabs.IntrusiveList

/-- What the linker and the firmware decide. -/
structure Machine where
  /-- amount of physical memory (in pages) -/
  npages : ℕ
  /-- the first page behind the kernel image -/
  kernelEnd : ℕ
  /-- `PADDR(bootstack)` -/
  bootstack : Word
  /-- `PADDR(percpu_kstacks[i])` -/
  kstacks : ℕ → Word
  lapicaddr : Word
  ncpu : ℕ
  /-- what the memory of `pages[]` holds before `page_init` -/
  pageRam : ℕ → PageInfo
  /-- what the memory holds -/
  ram : ℕ → ℕ → Word

/-! ## Before the page allocator -/

def sizeofPageInfo : ℕ := 8
def sizeofEnv : ℕ := 128

/-- `boot_alloc` for `n > 0` bytes, in pages: the pages from `nextfree` on, and
the next free page afterwards. -/
def bootAlloc (nextfree n : ℕ) : ℕ × ℕ := (nextfree, nextfree + (n + 4095) / 4096)

/-- The kernel's page directory, the `pages` array and the `envs` array, and
the first page behind them. -/
def Machine.kernPgdir (m : Machine) : ℕ := (bootAlloc m.kernelEnd 4096).1

def Machine.pagesStart (m : Machine) : ℕ :=
  (bootAlloc (bootAlloc m.kernelEnd 4096).2 (sizeofPageInfo * m.npages)).1

def Machine.envsStart (m : Machine) : ℕ :=
  (bootAlloc (bootAlloc (bootAlloc m.kernelEnd 4096).2 (sizeofPageInfo * m.npages)).2
    (sizeofEnv * nenv)).1

/-- `med` of `page_init`. -/
def Machine.med (m : Machine) : ℕ := m.envsStart + (sizeofEnv * nenv + 4095) / 4096

/-- The first `count` iterations of a loop of `page_init` from page `first`. -/
def pageInitFrom (σ : Phys) (first : ℕ) : ℕ → Phys
  | 0 => σ
  | k + 1 =>
      let σ := pageInitFrom σ first k
      let i := first + k
      { σ with
        pages := update σ.pages i ⟨σ.pageFreeList, 0⟩
        pageFreeList := some i }

def pageInit (m : Machine) (σ : Phys) : Phys :=
  let σ := pageInitFrom σ 1 (pgnum mpentryPaddr - 1)
  pageInitFrom σ m.med (m.npages - m.med)

/-- `mem_init` up to its first self tests. -/
def memInitPages (m : Machine) : Phys :=
  let σ : Phys :=
    { npages := m.npages, pages := m.pageRam, pageFreeList := none, mem := m.ram,
      mmuBits := fun _ _ => 0 }
  let σ := σ.zeroPage m.kernPgdir
  let σ := σ.store m.kernPgdir (pdx uvpt) (page2pa m.kernPgdir ||| pteU ||| pteP)
  pageInit m σ

/-! ## Kernel mappings -/

/-- `mmio_map_region`, with the next address of its region. -/
def mmioMapRegion (σ : Phys) (kernPgdir : ℕ) (base pa size : Word) : Option (Word × Phys) := do
  let size := roundUp (pa + size)
  let pa := roundDown pa
  let size := size - pa
  if mmioLim ≤ base + size then none
  else
    let σ ← bootMapRegion σ kernPgdir base size pa (ptePcd ||| ptePwt ||| pteW)
    return (base + size, σ)

/-- `*pgdir_walk(pgdir, va, 0) = 0`, at the end of `check_page`. -/
def clearEntry (σ : Phys) (pgdir : ℕ) (va : Word) : Option Phys := do
  match ← pgdirWalk σ pgdir va false with
  | (none, _) => none
  | (some (table, index), σ) => return σ.store table index 0

/-- The part of `check_page` that tests `mmio_map_region`. -/
def checkMmio (σ : Phys) (kernPgdir : ℕ) : Option (Word × Phys) := do
  let (mm2, σ) ← mmioMapRegion σ kernPgdir mmioBase 0 4097
  let (base, σ) ← mmioMapRegion σ kernPgdir mm2 0 4096
  let σ ← clearEntry σ kernPgdir mmioBase
  let σ ← clearEntry σ kernPgdir (mmioBase + pgSize)
  let σ ← clearEntry σ kernPgdir mm2
  return (base, σ)

/-- The first `count` iterations of `mem_init_mp`. -/
def memInitMp (m : Machine) (σ : Phys) : ℕ → Option Phys
  | 0 => some σ
  | i + 1 => do
      let σ ← memInitMp m σ i
      bootMapRegion σ m.kernPgdir
        (kstackTop - kstkSize - BitVec.ofNat 32 i * (kstkSize + kstkGap)) kstkSize
        (m.kstacks i) pteW

def ncpuMax : ℕ := 8

/-- `mem_init` after `check_page_alloc`: the end of `check_page`, and the
mappings above `UTOP`. -/
def memInitMap (m : Machine) (σ : Phys) : Option (Word × Phys) := do
  let (mmio, σ) ← checkMmio σ m.kernPgdir
  let σ ← bootMapRegion σ m.kernPgdir upages ptSize (page2pa m.pagesStart) pteU
  let σ ← bootMapRegion σ m.kernPgdir uenvs ptSize (page2pa m.envsStart) pteU
  let σ ← bootMapRegion σ m.kernPgdir (kstackTop - kstkSize) kstkSize m.bootstack pteW
  let σ ← bootMapRegion σ m.kernPgdir kernBase (-kernBase) 0 pteW
  let σ ← memInitMp m σ ncpuMax
  return (mmio, σ)

/-- `lapic_init` on `count` CPUs; without a local APIC it does nothing. -/
def lapicInit (m : Machine) (mmio : Word) (σ : Phys) : ℕ → Option (Word × Phys)
  | 0 => some (mmio, σ)
  | k + 1 => do
      let (mmio, σ) ← lapicInit m mmio σ k
      if m.lapicaddr = 0 then return (mmio, σ)
      else mmioMapRegion σ m.kernPgdir mmio m.lapicaddr 4096

/-- What a run of the self tests leaves: the same pages on the free list in
some order, and anything in them. -/
structure SelfTested (σ σ' : Phys) : Prop where
  npages : σ'.npages = σ.npages
  refs : σ'.ref = σ.ref
  free : ∃ before after, Threads σ.link σ.pageFreeList before ∧
    Threads σ'.link σ'.pageFreeList after ∧ before.Perm after ∧
    (∀ page, page ∉ before → σ'.link page = σ.link page) ∧
    ∀ page, page ∉ before → σ'.mem page = σ.mem page

/-! ## Environments -/

/-- The memory of `envs[]`, which is zero after power-on: `env_init` sets
neither `env_status` nor `env_pgdir`. -/
def Env.zero : Env where
  tf := Trapframe.zero
  link := none
  id := 0
  parentId := 0
  status := .free
  runs := 0
  cpunum := 0
  pgdir := none
  pgfaultUpcall := 0
  ipcRecving := false
  ipcDstva := 0
  ipcValue := 0
  ipcFrom := 0
  ipcPerm := 0
  pr := 0

/-- The first `count` iterations of the loop of `env_init`, which counts down. -/
def envInit : ℕ → (Slot → Env) × Option Slot
  | 0 => (fun _ => Env.zero, none)
  | k + 1 =>
      let (envs, freeList) := envInit k
      let i : Slot := ⟨nenv - 1 - k, Nat.lt_of_le_of_lt (Nat.sub_le _ _) (by decide)⟩
      (update envs i { envs i with id := 0, link := freeList }, some i)

/-- The kernel before the first `env_create`, with all CPUs started. -/
def initialKernel (m : Machine) (σ : Phys) : Kernel where
  phys := σ
  kernPgdir := m.kernPgdir
  envs := (envInit nenv).1
  envFreeList := (envInit nenv).2
  cpus := fun c => ⟨if c < m.ncpu then .started else .unused, none, m.kernPgdir⟩

/-- A loadable segment of a program: `p_va`, `p_memsz`, and the bytes of the
file. -/
structure Segment where
  va : Word
  memsz : Word
  bytes : List (BitVec 8)

/-- What `load_icode` reads of an ELF binary. -/
structure Program where
  segments : List Segment
  entry : Word

/-- The loop of `region_alloc` over `count` pages from `va`.  The result of
`page_insert` is not looked at. -/
def regionPages (σ : Phys) (pgdir : ℕ) : ℕ → Word → Option Phys
  | 0, _ => some σ
  | count + 1, va =>
      match pageAlloc σ false with
      | (none, _) => none
      | (some pg, σ) => do
          let (_, σ) ← pageInsert σ pgdir pg va (pteW ||| pteU)
          regionPages σ pgdir count (va + pgSize)

def regionAlloc (σ : Phys) (pgdir : ℕ) (va len : Word) : Option Phys :=
  let first := roundDown va
  let last := roundUp (va + len)
  regionPages σ pgdir (if first < last then ((last - first) / pgSize).toNat else 0) first

/-- One iteration of the loop of `load_icode`: the segment is mapped, cleared
and filled. -/
def loadSegment (σ : Phys) (pgdir : ℕ) (seg : Segment) : Option Phys := do
  let σ ← regionAlloc σ pgdir seg.va seg.memsz
  let σ ← kernelStores σ pgdir seg.va (List.replicate seg.memsz.toNat 0)
  kernelStores σ pgdir seg.va seg.bytes

/-- `load_icode`, on the memory. -/
def loadIcode (σ : Phys) (pgdir : ℕ) (program : Program) : Option Phys := do
  let σ ← program.segments.foldlM (fun σ seg => loadSegment σ pgdir seg) σ
  regionAlloc σ pgdir (ustackTop - pgSize) pgSize

/-- `env_create`. -/
def envCreate (s : Kernel) (program : Program) : Option Kernel :=
  match envAlloc s 0 with
  | .error _ => none
  | .ok (e, s) => do
      let pgdir ← (s.envs e).pgdir
      let σ ← loadIcode s.phys pgdir program
      return (s.setPhys σ).setTf e { (s.envs e).tf with eip := program.entry }

def envCreates (s : Kernel) : List Program → Option Kernel
  | [] => some s
  | program :: programs => do
      let s ← envCreate s program
      envCreates s programs

/-- `i386_init` on a machine, up to the first call of `sched_yield`: `s` is a
possible result. -/
inductive Boots (m : Machine) (programs : List Program) (s : Kernel) : Prop
  | intro (tested mapped installed : Phys) (mmio mmio' : Word) (σ : Phys) :
      SelfTested (memInitPages m) tested →
      memInitMap m tested = some (mmio, mapped) →
      SelfTested mapped installed →
      lapicInit m mmio installed m.ncpu = some (mmio', σ) →
      envCreates (initialKernel m σ) programs = some s → Boots m programs s

/-- What holds of every machine the kernel boots on: the kernel image lies
above the I/O hole, and memory is no larger than the window at `KERNBASE`
(`check_kern_pgdir` asserts it). -/
structure Machine.Sane (m : Machine) : Prop where
  image_high : 0x100 < m.kernelEnd
  med_le : m.med ≤ m.npages
  npages_le : m.npages ≤ 0x10000
  stack_aligned : pteAddr m.bootstack = m.bootstack
  stacks_aligned : ∀ i, pteAddr (m.kstacks i) = m.kstacks i
  ncpu_pos : 0 < m.ncpu
  ncpu_le : m.ncpu ≤ ncpuMax

/-- The segments of a user program lie below `UTOP`, and the file holds no more
of a segment than its size. -/
def Program.InUser (program : Program) : Prop :=
  ∀ seg ∈ program.segments,
    seg.va.toNat + seg.memsz.toNat ≤ utop.toNat ∧ seg.bytes.length ≤ seg.memsz.toNat

end OsLabs.Jos
