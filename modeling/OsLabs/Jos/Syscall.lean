import OsLabs.Jos.Sched

/-!
# System calls

The handlers of `kern/syscall.c`.  A handler runs on CPU `c` on behalf of the
current environment `cur` and yields the value left in the caller's `eax`; an
outer `none` is a panic or the dereference of a null page directory.
-/

namespace OsLabs.Jos

/-- The system call numbers of `inc/syscall.h`. -/
inductive Sys
  | cputs
  | cgetc
  | getenvid
  | envDestroy
  | pageAlloc
  | pageMap
  | pageUnmap
  | exofork
  | envSetStatus
  | envSetPgfaultUpcall
  | yield
  | ipcTrySend
  | ipcRecv
  | changePr
  deriving DecidableEq

/-- The call selected by the `switch` of `syscall`. -/
def Sys.decode (syscallno : Word) : Option Sys :=
  match syscallno.toNat with
  | 0 => some cputs
  | 1 => some cgetc
  | 2 => some getenvid
  | 3 => some envDestroy
  | 4 => some pageAlloc
  | 5 => some pageMap
  | 6 => some pageUnmap
  | 7 => some exofork
  | 8 => some envSetStatus
  | 9 => some envSetPgfaultUpcall
  | 10 => some yield
  | 11 => some ipcTrySend
  | 12 => some ipcRecv
  | 13 => some changePr
  | _ => none

/-! ## Console -/

/-- `user_mem_assert` (`kern/pmap.c`). -/
def userMemAssert (s : Kernel) (c : ℕ) (e : Slot) (va len perm : Word) :
    Option (Exit Unit) := do
  let pgdir ← (s.envs e).pgdir
  match ← userMemCheck s.phys pgdir va len (perm ||| pteU) with
  | none => return .ret () s
  | some _ => envDestroy s c e

/-- `sys_cputs`, up to the text it prints. -/
def sysCputs (s : Kernel) (c : ℕ) (cur : Slot) (va len : Word) : Option (Exit Unit) := do
  let e ← envid2env s cur (s.envs cur).id true
  userMemAssert s c e va len pteU

/-! ## Environments -/

def sysGetenvid (s : Kernel) (cur : Slot) : Word := (s.envs cur).id

def sysEnvDestroy (s : Kernel) (c : ℕ) (cur : Slot) (envid : Word) : Option (Exit Word) :=
  match envid2env s cur envid true with
  | none => some (.ret (-eBadEnv) s)
  | some e => do
      match ← envDestroy s c e with
      | .ret () s => return .ret 0 s
      | .left s => return .left s

def sysExofork (s : Kernel) (cur : Slot) : Word × Kernel :=
  match envAlloc s (s.envs cur).id with
  | .error code => (code, s)
  | .ok (e, s) =>
      let s := s.setEnv e { s.envs e with
        tf := (s.envs cur).tf.setEax 0
        status := .notRunnable }
      ((s.envs e).id, s)

/-- The two statuses `sys_env_set_status` accepts. -/
def settableStatus (status : Word) : Option EnvStatus :=
  if status = EnvStatus.notRunnable.code then some .notRunnable
  else if status = EnvStatus.runnable.code then some .runnable
  else none

def sysEnvSetStatus (s : Kernel) (cur : Slot) (envid status : Word) : Word × Kernel :=
  match settableStatus status with
  | none => (-eInval, s)
  | some status =>
      match envid2env s cur envid true with
      | none => (-eBadEnv, s)
      | some e => (0, s.setStatus e status)

def sysEnvSetPgfaultUpcall (s : Kernel) (cur : Slot) (envid func : Word) : Word × Kernel :=
  match envid2env s cur envid true with
  | none => (-eBadEnv, s)
  | some e => (0, s.setEnv e { s.envs e with pgfaultUpcall := func })

def sysChangePr (s : Kernel) (cur : Slot) (pr : Word) : Word × Kernel :=
  (0, s.setEnv cur { s.envs cur with pr := pr })

/-! ## Memory -/

def sysPageAlloc (s : Kernel) (cur : Slot) (envid va perm : Word) :
    Option (Word × Kernel) :=
  match envid2env s cur envid true with
  | none => some (-eBadEnv, s)
  | some e =>
      if utop ≤ va then some (-eInval, s)
      else if perm &&& (pteU ||| pteP) ≠ pteU ||| pteP then some (-eInval, s)
      else
        match pageAlloc s.phys true with
        | (none, _) => some (-eNoMem, s)
        | (some pg, σ) => do
            let σ := σ.incRef pg
            let pgdir ← (s.envs e).pgdir
            let (ret, σ) ← pageInsert σ pgdir pg va perm
            if ret ≠ 0 then return (ret, s.setPhys (pageFree σ pg))
            else return (0, s.setPhys σ)

def sysPageMap (s : Kernel) (cur : Slot) (srcenvid srcva dstenvid dstva perm : Word) :
    Option (Word × Kernel) :=
  match envid2env s cur srcenvid true, envid2env s cur dstenvid true with
  | none, _ => some (-eBadEnv, s)
  | some _, none => some (-eBadEnv, s)
  | some se, some de =>
      if utop ≤ srcva ∨ utop ≤ dstva ∨ roundDown srcva ≠ srcva ∨ roundDown dstva ≠ dstva then
        some (-eInval, s)
      else do
        let srcdir ← (s.envs se).pgdir
        match ← pageLookup s.phys srcdir srcva with
        | none => return (-eInval, s)
        | some (pg, (table, index)) =>
            if perm &&& (pteU ||| pteP) ≠ pteU ||| pteP then return (-eInval, s)
            else if s.phys.load table index &&& pteW = 0 ∧ perm &&& pteW ≠ 0 then
              return (-eInval, s)
            else
              let dstdir ← (s.envs de).pgdir
              let (ret, σ) ← pageInsert s.phys dstdir pg dstva perm
              return (ret, s.setPhys σ)

def sysPageUnmap (s : Kernel) (cur : Slot) (envid va : Word) : Option (Word × Kernel) :=
  if utop ≤ va ∨ roundDown va ≠ va then some (-eInval, s)
  else
    match envid2env s cur envid true with
    | none => some (-eBadEnv, s)
    | some e => do
        let pgdir ← (s.envs e).pgdir
        let σ ← pageRemove s.phys pgdir va
        return (0, s.setPhys σ)

/-! ## IPC -/

/-- The end of a successful `sys_ipc_try_send` from `cur` to `e`. -/
def ipcDeliver (s : Kernel) (cur e : Slot) (value : Word) : Kernel :=
  s.setEnv e { s.envs e with
    ipcRecving := false
    ipcFrom := (s.envs cur).id
    ipcValue := value
    status := .runnable
    tf := (s.envs e).tf.setEax 0 }

def sysIpcTrySend (s : Kernel) (cur : Slot) (envid value srcva perm : Word) :
    Option (Word × Kernel) :=
  match envid2env s cur envid false with
  | none => some (-eBadEnv, s)
  | some e =>
      if (s.envs e).ipcRecving = false then some (-eIpcNotRecv, s)
      else if srcva < utop then do
        let srcdir ← (s.envs cur).pgdir
        match ← pageLookup s.phys srcdir srcva with
        | none => return (-eInval, s)
        | some (pg, (table, index)) =>
            let pte := s.phys.load table index
            if pte &&& perm ≠ perm then return (-eInval, s)
            else if perm &&& pteW ≠ 0 ∧ pte &&& pteW = 0 then return (-eInval, s)
            else if srcva ≠ roundDown srcva then return (-eInval, s)
            else if (s.envs e).ipcDstva < utop then
              let dstdir ← (s.envs e).pgdir
              let (ret, σ) ← pageInsert s.phys dstdir pg (s.envs e).ipcDstva perm
              if ret ≠ 0 then return (ret, s.setPhys σ)
              else
                let s := (s.setPhys σ).setEnv e { s.envs e with ipcPerm := perm }
                return (0, ipcDeliver s cur e value)
            else return (0, ipcDeliver s cur e value)
      else some (0, ipcDeliver s cur e value)

def sysIpcRecv (s : Kernel) (cur : Slot) (dstva : Word) : Word × Kernel :=
  if dstva < utop ∧ dstva ≠ roundDown dstva then (-eInval, s)
  else
    (0, s.setEnv cur { s.envs cur with
      ipcRecving := true, status := .notRunnable, ipcDstva := dstva })

/-! ## Dispatch -/

def returns (result : Word × Kernel) : Option (Exit Word) := some (.ret result.1 result.2)

/-- `syscall`.  The argument `key` is what `cons_getc` finds in the console
buffer. -/
def syscall (s : Kernel) (c : ℕ) (cur : Slot) (key syscallno a1 a2 a3 a4 a5 : Word) :
    Option (Exit Word) :=
  match Sys.decode syscallno with
  | some .cputs => do
      match ← sysCputs s c cur a1 a2 with
      | .ret () s => return .ret 0 s
      | .left s => return .left s
  | some .cgetc => returns (key, s)
  | some .getenvid => returns (sysGetenvid s cur, s)
  | some .envDestroy => do
      -- the result of the handler is dropped
      match ← sysEnvDestroy s c cur a1 with
      | .ret _ s => return .ret 0 s
      | .left s => return .left s
  | some .yield => do
      let s ← schedYield s c
      return .left s
  | some .exofork => returns (sysExofork s cur)
  | some .pageAlloc => (sysPageAlloc s cur a1 a2 a3).bind returns
  | some .pageMap => (sysPageMap s cur a1 a2 a3 a4 a5).bind returns
  | some .pageUnmap => (sysPageUnmap s cur a1 a2).bind returns
  | some .envSetStatus => returns (sysEnvSetStatus s cur a1 a2)
  | some .envSetPgfaultUpcall => returns (sysEnvSetPgfaultUpcall s cur a1 a2)
  | some .ipcTrySend => (sysIpcTrySend s cur a1 a2 a3 a4).bind returns
  | some .ipcRecv => returns (sysIpcRecv s cur a1)
  | some .changePr => returns (sysChangePr s cur a1)
  | none => returns (-eInval, s)

end OsLabs.Jos
