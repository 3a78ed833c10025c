import OsLabs.Jos.Syscall

/-!
# Traps

`kern/trap.c`: how a CPU enters the kernel and how it leaves it again.  One
entry runs under the big kernel lock from `trap` to `env_run` or `sched_halt`,
so it is one step of the system.
-/

namespace OsLabs.Jos

def tBrkpt : Word := 3
def tPgflt : Word := 14
def tSyscall : Word := 48
def irqOffset : Word := 32
def irqTimer : Word := 0
def irqSpurious : Word := 7

/-- `sizeof(struct UTrapframe)`. -/
def utrapframeSize : Word := 52

/-- The words of `struct UTrapframe`, in the order of its fields. -/
def utrapframe (tf : Trapframe) (faultVa : Word) : List Word :=
  [faultVa, tf.err, tf.regs.edi, tf.regs.esi, tf.regs.ebp, tf.regs.oesp, tf.regs.ebx,
    tf.regs.edx, tf.regs.ecx, tf.regs.eax, tf.eip, tf.eflags, tf.esp]

def wordBytes (word : Word) : List (BitVec 8) :=
  [getByte word 0, getByte word 1, getByte word 2, getByte word 3]

/-- Where `page_fault_handler` puts the frame on the user exception stack. -/
def utfAddr (esp : Word) : Word :=
  if uxstackTop - pgSize ≤ esp ∧ esp ≤ uxstackTop - 1 then esp - utrapframeSize - 4
  else uxstackTop - utrapframeSize

/-- `page_fault_handler` for a fault of the current environment `cur` in user
mode.  The stores go through `%cr3`; the model follows them only where that is
the environment's own page directory. -/
def pageFaultHandler (s : Kernel) (c : ℕ) (cur : Slot) (faultVa : Word) :
    Option (Exit Unit) :=
  if (s.envs cur).pgfaultUpcall = 0 then envDestroy s c cur
  else do
    let tf := (s.envs cur).tf
    let utf := utfAddr tf.esp
    match ← userMemAssert s c cur utf utrapframeSize pteW with
    | .left s => return .left s
    | .ret () s =>
        if (s.envs cur).pgdir ≠ some (s.cpus c).cr3 then none
        else
          let σ ← kernelStores s.phys (s.cpus c).cr3 utf
            ((utrapframe tf faultVa).flatMap wordBytes)
          let s := (s.setPhys σ).setTf cur
            { tf with eip := (s.envs cur).pgfaultUpcall, esp := utf }
          let s ← envRun s c cur
          return .left s

/-- `trap_dispatch` for a trap of the current environment `cur` in user mode.
A breakpoint enters the monitor, whose operator lets the environment go on. -/
def trapDispatch (s : Kernel) (c : ℕ) (cur : Slot) (tf : Trapframe) (faultVa key : Word) :
    Option (Exit Unit) :=
  if tf.trapno = tPgflt then pageFaultHandler s c cur faultVa
  else if tf.trapno = tBrkpt then some (.ret () s)
  else if tf.trapno = tSyscall then do
    match ← syscall s c cur key tf.regs.eax tf.regs.edx tf.regs.ecx tf.regs.ebx
        tf.regs.edi tf.regs.esi with
    | .left s => return .left s
    | .ret eax s => return .ret () (s.setTf cur ((s.envs cur).tf.setEax eax))
  else if tf.trapno = irqOffset + irqSpurious then some (.ret () s)
  else if tf.trapno = irqOffset + irqTimer then do
    let s ← schedYield s c
    return .left s
  else envDestroy s c cur

/-- The end of `trap`: return to the current environment if doing so makes
sense, otherwise schedule. -/
def trapReturn (s : Kernel) (c : ℕ) : Option Kernel :=
  match s.curenv c with
  | some e => if (s.envs e).status = .running then envRun s c e else schedYield s c
  | none => schedYield s c

/-- `trap` for a CPU that was in user mode. -/
def trapUser (s : Kernel) (c : ℕ) (tf : Trapframe) (faultVa key : Word) : Option Kernel := do
  let cur ← s.curenv c
  if (s.envs cur).status = .dying then
    let s ← envFree s c cur
    schedYield (s.setCurenv c none) c
  else
    match ← trapDispatch (s.setTf cur tf) c cur tf faultVa key with
    | .left s => return s
    | .ret () s => trapReturn s c

/-- `trap` for the timer interrupt that wakes a halted CPU. -/
def trapHalted (s : Kernel) (c : ℕ) : Option Kernel :=
  schedYield (s.setCpuStatus c .started) c

/-- The reasons for which a CPU enters the kernel. -/
inductive Entry
  /-- the first call of `sched_yield`, by `i386_init` or `mp_main` -/
  | boot
  /-- a trap from user mode: its frame, `%cr2`, and the console character that
  `cons_getc` would find -/
  | user (tf : Trapframe) (faultVa key : Word)
  /-- a timer interrupt while halted -/
  | wake

/-- One kernel entry of CPU `c`. -/
def enter (s : Kernel) (c : ℕ) : Entry → Option Kernel
  | .boot =>
      if (s.cpus c).status = .started ∧ s.curenv c = none then schedYield s c else none
  | .user tf faultVa key =>
      if (s.cpus c).status = .started then trapUser s c tf faultVa key else none
  | .wake => if (s.cpus c).status = .halted then trapHalted s c else none

end OsLabs.Jos
