import OsLabs.Jos.Env

/-!
# Choosing and running an environment

`kern/sched.c` and the context switch of `kern/env.c`.  A function that never
returns yields the state in which its CPU has left the kernel; `none` is a
panic or the monitor loop that `sched_halt` enters when nothing can run.
-/

namespace OsLabs.Jos

/-- Step 1 of `env_run`: the current environment, if it is running, goes back
to being runnable. -/
def suspendCurenv (s : Kernel) (c : ℕ) : Kernel :=
  match s.curenv c with
  | none => s
  | some old =>
      if (s.envs old).status = EnvStatus.running then s.setStatus old .runnable else s

/-- The context switch of `env_run`, when `e` is not the current environment;
`PADDR` panics on a null page directory. -/
def switchTo (s : Kernel) (c : ℕ) (e : Slot) : Option Kernel := do
  let s := (suspendCurenv s c).setCurenv c (some e)
  let s := s.setEnv e { s.envs e with status := .running, runs := (s.envs e).runs + 1 }
  let pgdir ← (s.envs e).pgdir
  return s.lcr3 c pgdir

/-- `env_run`. -/
def envRun (s : Kernel) (c : ℕ) (e : Slot) : Option Kernel := do
  let s ← if s.curenv c = some e then some s else switchTo s c e
  return s.setEnv e { s.envs e with cpunum := c }

/-- One iteration of the search of `sched_yield`, at slot `j`. -/
def schedConsider (s : Kernel) (runenv : Option Slot) (j : Slot) : Option Slot :=
  if (s.envs j).status = .runnable then
    match runenv with
    | none => some j
    | some best => if (s.envs j).pr.slt (s.envs best).pr then some j else some best
  else runenv

/-- The slot `(cur + i) % NENV`. -/
def slotAfter (cur i : ℕ) : Slot := ⟨(cur + i) % nenv, Nat.mod_lt _ (by decide)⟩

/-- The environment that the search of `sched_yield` on CPU `c` ends with. -/
def schedPick (s : Kernel) (c : ℕ) : Option Slot :=
  let cur : ℕ := match s.curenv c with
    | some e => envx (s.envs e).id
    | none => 0
  (List.range nenv).foldl (fun runenv i => schedConsider s runenv (slotAfter cur i)) none

/-- `sched_halt`. -/
def schedHalt (s : Kernel) (c : ℕ) : Option Kernel :=
  if ∃ e, (s.envs e).status = .runnable ∨ (s.envs e).status = .running then
    let s := s.setCurenv c none
    let s := s.lcr3 c s.kernPgdir
    some (s.setCpuStatus c .halted)
  else none

/-- Whether `sched_yield` lets the current environment `e` go on: it is still
running, and the search found nothing or something of larger `pr`. -/
def keepsRunning (s : Kernel) (c : ℕ) (e : Slot) : Bool :=
  (s.envs e).status = .running &&
    match schedPick s c with
    | none => true
    | some best => (s.envs e).pr.slt (s.envs best).pr

/-- `sched_yield`. -/
def schedYield (s : Kernel) (c : ℕ) : Option Kernel :=
  match (s.curenv c).filter (keepsRunning s c), schedPick s c with
  | some e, _ => envRun s c e
  | none, some best => envRun s c best
  | none, none => schedHalt s c

/-- `env_destroy`. -/
def envDestroy (s : Kernel) (c : ℕ) (e : Slot) : Option (Exit Unit) :=
  if (s.envs e).status = .running ∧ s.curenv c ≠ some e then
    some (.ret () (s.setStatus e .dying))
  else do
    let freed ← envFree s c e
    if freed.curenv c = some e then
      let next ← schedYield (freed.setCurenv c none) c
      return .left next
    else return .ret () freed

end OsLabs.Jos
