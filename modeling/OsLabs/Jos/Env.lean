import OsLabs.Jos.Pmap

/-!
# Environments and CPUs

The kernel state that `kern/env.c` works on: the environment table, its free
list, and for each CPU the environment it runs and the page directory it has
loaded.  A slot of `envs[]` is named by its index.
-/

namespace OsLabs.Jos

open Function

/-! ## Saved registers (`inc/trap.h`) -/

structure PushRegs where
  edi : Word
  esi : Word
  ebp : Word
  oesp : Word
  ebx : Word
  edx : Word
  ecx : Word
  eax : Word

structure Trapframe where
  regs : PushRegs
  es : BitVec 16
  ds : BitVec 16
  trapno : Word
  err : Word
  eip : Word
  cs : BitVec 16
  eflags : Word
  esp : Word
  ss : BitVec 16

def PushRegs.zero : PushRegs := ⟨0, 0, 0, 0, 0, 0, 0, 0⟩

def Trapframe.zero : Trapframe := ⟨PushRegs.zero, 0, 0, 0, 0, 0, 0, 0, 0, 0⟩

def Trapframe.setEax (tf : Trapframe) (value : Word) : Trapframe :=
  { tf with regs := { tf.regs with eax := value } }

/-! ## The environment table (`inc/env.h`) -/

def nenv : ℕ := 1024

/-- An index into `envs[]`. -/
abbrev Slot := Fin nenv

inductive EnvStatus
  | free
  | dying
  | runnable
  | running
  | notRunnable
  deriving DecidableEq, Inhabited

/-- The values of the enumeration, as `sys_env_set_status` receives them. -/
def EnvStatus.code : EnvStatus → Word
  | free => 0
  | dying => 1
  | runnable => 2
  | running => 3
  | notRunnable => 4

structure Env where
  tf : Trapframe
  /-- next free `Env` -/
  link : Option Slot
  id : Word
  parentId : Word
  status : EnvStatus
  /-- number of times the environment has run -/
  runs : Word
  /-- the CPU that the environment is running on -/
  cpunum : ℕ
  /-- page directory, null when the slot holds no address space -/
  pgdir : Option ℕ
  pgfaultUpcall : Word
  ipcRecving : Bool
  ipcDstva : Word
  ipcValue : Word
  ipcFrom : Word
  ipcPerm : Word
  pr : Word

/-- `ENVX`: the slot named by an environment id. -/
def envx (envid : Word) : Slot :=
  ⟨(envid &&& 1023).toNat, by
    rw [BitVec.toNat_and]
    exact lt_of_le_of_lt Nat.and_le_right (by decide)⟩

/-! ## CPUs (`kern/cpu.h`) -/

inductive CpuStatus
  | unused
  | started
  | halted
  deriving DecidableEq, Inhabited

structure CpuInfo where
  status : CpuStatus
  /-- the currently running environment -/
  env : Option Slot
  /-- the page directory in `%cr3` -/
  cr3 : ℕ

/-- The whole kernel state. -/
structure Kernel where
  phys : Phys
  kernPgdir : ℕ
  envs : Slot → Env
  envFreeList : Option Slot
  cpus : ℕ → CpuInfo

namespace Kernel

def curenv (s : Kernel) (c : ℕ) : Option Slot := (s.cpus c).env

def setPhys (s : Kernel) (σ : Phys) : Kernel := { s with phys := σ }

def setEnv (s : Kernel) (e : Slot) (env : Env) : Kernel :=
  { s with envs := update s.envs e env }

def setStatus (s : Kernel) (e : Slot) (status : EnvStatus) : Kernel :=
  s.setEnv e { s.envs e with status := status }

def setTf (s : Kernel) (e : Slot) (tf : Trapframe) : Kernel :=
  s.setEnv e { s.envs e with tf := tf }

def setCurenv (s : Kernel) (c : ℕ) (e : Option Slot) : Kernel :=
  { s with cpus := update s.cpus c { s.cpus c with env := e } }

def lcr3 (s : Kernel) (c : ℕ) (pgdir : ℕ) : Kernel :=
  { s with cpus := update s.cpus c { s.cpus c with cr3 := pgdir } }

def setCpuStatus (s : Kernel) (c : ℕ) (status : CpuStatus) : Kernel :=
  { s with cpus := update s.cpus c { s.cpus c with status := status } }

section Updates

variable (s : Kernel) (σ : Phys) (e : Slot) (env : Env) (c : ℕ)

@[simp] theorem phys_setPhys : (s.setPhys σ).phys = σ := rfl
@[simp] theorem envs_setPhys : (s.setPhys σ).envs = s.envs := rfl
@[simp] theorem cpus_setPhys : (s.setPhys σ).cpus = s.cpus := rfl
@[simp] theorem kernPgdir_setPhys : (s.setPhys σ).kernPgdir = s.kernPgdir := rfl
@[simp] theorem envFreeList_setPhys : (s.setPhys σ).envFreeList = s.envFreeList := rfl

@[simp] theorem phys_setEnv : (s.setEnv e env).phys = s.phys := rfl
@[simp] theorem envs_setEnv : (s.setEnv e env).envs = update s.envs e env := rfl
@[simp] theorem cpus_setEnv : (s.setEnv e env).cpus = s.cpus := rfl
@[simp] theorem kernPgdir_setEnv : (s.setEnv e env).kernPgdir = s.kernPgdir := rfl
@[simp] theorem envFreeList_setEnv : (s.setEnv e env).envFreeList = s.envFreeList := rfl

variable (cur : Option Slot) (pgdir : ℕ) (status : CpuStatus)

@[simp] theorem phys_setCurenv : (s.setCurenv c cur).phys = s.phys := rfl
@[simp] theorem envs_setCurenv : (s.setCurenv c cur).envs = s.envs := rfl
@[simp] theorem kernPgdir_setCurenv : (s.setCurenv c cur).kernPgdir = s.kernPgdir := rfl
@[simp] theorem envFreeList_setCurenv : (s.setCurenv c cur).envFreeList = s.envFreeList := rfl
@[simp] theorem cpus_setCurenv :
    (s.setCurenv c cur).cpus = update s.cpus c { s.cpus c with env := cur } := rfl

@[simp] theorem phys_lcr3 : (s.lcr3 c pgdir).phys = s.phys := rfl
@[simp] theorem envs_lcr3 : (s.lcr3 c pgdir).envs = s.envs := rfl
@[simp] theorem kernPgdir_lcr3 : (s.lcr3 c pgdir).kernPgdir = s.kernPgdir := rfl
@[simp] theorem envFreeList_lcr3 : (s.lcr3 c pgdir).envFreeList = s.envFreeList := rfl
@[simp] theorem cpus_lcr3 :
    (s.lcr3 c pgdir).cpus = update s.cpus c { s.cpus c with cr3 := pgdir } := rfl

@[simp] theorem phys_setCpuStatus : (s.setCpuStatus c status).phys = s.phys := rfl
@[simp] theorem envs_setCpuStatus : (s.setCpuStatus c status).envs = s.envs := rfl
@[simp] theorem kernPgdir_setCpuStatus :
    (s.setCpuStatus c status).kernPgdir = s.kernPgdir := rfl
@[simp] theorem envFreeList_setCpuStatus :
    (s.setCpuStatus c status).envFreeList = s.envFreeList := rfl
@[simp] theorem cpus_setCpuStatus :
    (s.setCpuStatus c status).cpus = update s.cpus c { s.cpus c with status := status } := rfl

end Updates

end Kernel

/-- How a kernel function ends when it may not return to its caller: either it
returns, or the CPU has left the kernel through `env_run` or `sched_halt`. -/
inductive Exit (α : Type)
  | ret (result : α) (s : Kernel)
  | left (s : Kernel)

/-! ## Looking up, creating and freeing environments -/

/-- `envid2env`; `none` is the result `-E_BAD_ENV`.  The current environment
of the calling CPU is `cur`. -/
def envid2env (s : Kernel) (cur : Slot) (envid : Word) (checkperm : Bool) : Option Slot :=
  if envid = 0 then some cur
  else
    let e := envx envid
    if (s.envs e).status = .free ∨ (s.envs e).id ≠ envid then none
    else if checkperm ∧ e ≠ cur ∧ (s.envs e).parentId ≠ (s.envs cur).id then none
    else some e

/-- `env_setup_vm`; `none` is the result `-E_NO_MEM`. -/
def envSetupVm (s : Kernel) (e : Slot) : Option Kernel :=
  match pageAlloc s.phys true with
  | (none, _) => none
  | (some p, σ) =>
      let σ := σ.incRef p
      let σ := σ.copyPage p s.kernPgdir
      let σ := σ.store p (pdx uvpt) (page2pa p ||| pteP ||| pteU)
      some ((s.setPhys σ).setEnv e { s.envs e with pgdir := some p })

/-- The id `env_alloc` gives to slot `e`, whose previous id is `old`. -/
def nextEnvId (old : Word) (e : Slot) : Word :=
  let generation := (old + 0x1000) &&& ~~~1023
  let generation := if generation.sle 0 then 0x1000 else generation
  generation ||| BitVec.ofNat 32 e

def gdUt : BitVec 16 := 0x18
def gdUd : BitVec 16 := 0x20
def gdKt : BitVec 16 := 0x08
def flIf : Word := 0x200

/-- The register state of a new environment. -/
def newTrapframe : Trapframe :=
  { Trapframe.zero with
    ds := gdUd ||| 3, es := gdUd ||| 3, ss := gdUd ||| 3, esp := ustackTop
    cs := gdUt ||| 3, eflags := flIf }

/-- `env_alloc`: the new environment, or the error code. -/
def envAlloc (s : Kernel) (parentId : Word) : Except Word (Slot × Kernel) :=
  match s.envFreeList with
  | none => .error (-eNoFreeEnv)
  | some e =>
      match envSetupVm s e with
      | none => .error (-eNoMem)
      | some s =>
          let env := { s.envs e with
            id := nextEnvId (s.envs e).id e
            parentId := parentId
            status := .runnable
            runs := 0
            tf := newTrapframe
            pgfaultUpcall := 0
            ipcRecving := false }
          .ok (e, { s.setEnv e env with envFreeList := (s.envs e).link })

/-- The first `count` iterations of the loop of `env_free` over the entries
of the page table `pt` of directory index `pdeno`. -/
def unmapTable (σ : Phys) (pgdir pdeno pt : ℕ) : ℕ → Option Phys
  | 0 => some σ
  | pteno + 1 => do
      let σ ← unmapTable σ pgdir pdeno pt pteno
      if σ.load pt pteno &&& pteP = 0 then return σ
      else pageRemove σ pgdir (pgaddr pdeno pteno)

/-- The first `count` iterations of the loop of `env_free` over the user half
of the page directory. -/
def freeTables (σ : Phys) (pgdir : ℕ) : ℕ → Option Phys
  | 0 => some σ
  | pdeno + 1 => do
      let σ ← freeTables σ pgdir pdeno
      if σ.load pgdir pdeno &&& pteP = 0 then return σ
      else
        let pt ← σ.pa2page (pteAddr (σ.load pgdir pdeno))
        let σ ← unmapTable σ pgdir pdeno pt nptEntries
        return pageDecref (σ.store pgdir pdeno 0) pt

/-- `env_free`, on CPU `c`.  A null page directory is dereferenced, which has
no meaning here. -/
def envFree (s : Kernel) (c : ℕ) (e : Slot) : Option Kernel := do
  let s := if s.curenv c = some e then s.lcr3 c s.kernPgdir else s
  let pgdir ← (s.envs e).pgdir
  let σ ← freeTables s.phys pgdir userPdes
  let pt ← σ.pa2page (page2pa pgdir)
  let env := { s.envs e with pgdir := none, status := .free, link := s.envFreeList }
  return { (s.setPhys (pageDecref σ pt)).setEnv e env with envFreeList := some e }

/-- What `env_free` has done when it returns. -/
theorem envFree_cases {s freed : Kernel} {c : ℕ} {e : Slot}
    (hfree : envFree s c e = some freed) :
    ∃ pgdir σ pt, (s.envs e).pgdir = some pgdir ∧
      freeTables s.phys pgdir userPdes = some σ ∧ σ.pa2page (page2pa pgdir) = some pt ∧
      freed =
        { phys := pageDecref σ pt
          kernPgdir := s.kernPgdir
          envs := update s.envs e
            { s.envs e with pgdir := none, status := .free, link := s.envFreeList }
          envFreeList := some e
          cpus := if s.curenv c = some e then
              update s.cpus c { s.cpus c with cr3 := s.kernPgdir }
            else s.cpus } := by
  unfold envFree at hfree
  by_cases hcur : s.curenv c = some e
  · rw [if_pos hcur]
    rw [if_pos hcur] at hfree
    simp only [Option.bind_eq_bind, Option.bind_eq_some_iff] at hfree
    obtain ⟨pgdir, hdir, σ, htables, pt, hpt, hdone⟩ := hfree
    exact ⟨pgdir, σ, pt, hdir, htables, hpt, (Option.some.inj hdone).symm⟩
  · rw [if_neg hcur]
    rw [if_neg hcur] at hfree
    simp only [Option.bind_eq_bind, Option.bind_eq_some_iff] at hfree
    obtain ⟨pgdir, hdir, σ, htables, pt, hpt, hdone⟩ := hfree
    exact ⟨pgdir, σ, pt, hdir, htables, hpt, (Option.some.inj hdone).symm⟩

/-- `env_free` returns when the tables can be walked. -/
theorem envFree_of_tables {s : Kernel} {c pgdir pt : ℕ} {e : Slot} {σ : Phys}
    (hdir : (s.envs e).pgdir = some pgdir) (htables : freeTables s.phys pgdir userPdes = some σ)
    (hpage : σ.pa2page (page2pa pgdir) = some pt) :
    ∃ freed, envFree s c e = some freed ∧ freed.phys = pageDecref σ pt := by
  have hphys : (if s.curenv c = some e then s.lcr3 c s.kernPgdir else s).phys = s.phys := by
    split <;> rfl
  have henvs : (if s.curenv c = some e then s.lcr3 c s.kernPgdir else s).envs = s.envs := by
    split <;> rfl
  rw [envFree]
  simp only [hphys, henvs, hdir, htables, hpage, Option.bind_eq_bind, Option.bind_some]
  exact ⟨_, rfl, rfl⟩

/-- `env_free` does not change what the CPUs run. -/
theorem envFree_curenv {s freed : Kernel} {c : ℕ} {e : Slot}
    (hfree : envFree s c e = some freed) (k : ℕ) : freed.curenv k = s.curenv k := by
  obtain ⟨pgdir, σ, pt, -, -, -, rfl⟩ := envFree_cases hfree
  unfold Kernel.curenv
  split
  · dsimp only
    by_cases hsame : k = c
    · subst hsame
      rw [update_self]
    · rw [update_of_ne hsame]
  · rfl

end OsLabs.Jos
