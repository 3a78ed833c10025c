import OsLabs.Jos.Operations

/-!
# Entering the kernel on purpose

What a kernel entry does in a known state: a program makes a system call or is
interrupted by the timer, a CPU decides what to run.  These are the steps from
which runs are built.
-/

namespace OsLabs.Jos

open Function

/-! ## Decisions -/

section Decisions

variable {s : Kernel} {c : ℕ} {e : Slot} {dir : ℕ}

/-- The current environment does not just go on. -/
def LetsGo (s : Kernel) (c : ℕ) : Prop := ∀ cur, s.curenv c = some cur → (s.envs cur).status ≠ .running

theorem LetsGo.filter (hletsGo : LetsGo s c) : (s.curenv c).filter (keepsRunning s c) = none := by
  rw [Option.filter_eq_none_iff]
  intro cur hcur
  rw [keepsRunning, decide_eq_false (hletsGo cur hcur), Bool.false_and]
  decide

/-- `sched_yield` switches to what it picked. -/
theorem schedYield_switch (hletsGo : LetsGo s c) (hpick : schedPick s c = some e)
    (hne : s.curenv c ≠ some e) (hdir : (s.envs e).pgdir = some dir) :
    schedYield s c = some (switched s c e dir) := by
  rw [schedYield, hletsGo.filter, hpick]
  dsimp only
  rw [envRun_switch hne, hdir]
  rfl

/-- `sched_yield` picks the current environment. -/
theorem schedYield_again (hletsGo : LetsGo s c) (hpick : schedPick s c = some e)
    (hcur : s.curenv c = some e) :
    schedYield s c = some (s.setEnv e { s.envs e with cpunum := c }) := by
  rw [schedYield, hletsGo.filter, hpick]
  exact envRun_current hcur

end Decisions

/-! ## Traps from user mode -/

/-- The number of a system call. -/
def Sys.number : Sys → Word
  | cputs => 0
  | cgetc => 1
  | getenvid => 2
  | envDestroy => 3
  | pageAlloc => 4
  | pageMap => 5
  | pageUnmap => 6
  | exofork => 7
  | envSetStatus => 8
  | envSetPgfaultUpcall => 9
  | yield => 10
  | ipcTrySend => 11
  | ipcRecv => 12
  | changePr => 13

theorem Sys.decode_number (sys : Sys) : Sys.decode sys.number = some sys := by
  cases sys <;> rfl

/-- The registers of a program that makes a system call. -/
def callFrame (call : Call) : Trapframe :=
  { Trapframe.zero with
    trapno := tSyscall
    regs := { PushRegs.zero with
      eax := call.sys.number, edx := call.a1, ecx := call.a2, ebx := call.a3, edi := call.a4
      esi := call.a5 } }

/-- The frame of a timer interrupt. -/
def timerFrame : Trapframe := { Trapframe.zero with trapno := irqOffset + irqTimer }

def callEntry (call : Call) : Entry := .user (callFrame call) 0 0

def timerEntry : Entry := .user timerFrame 0 0

section Traps

variable {s s' : Kernel} {c : ℕ} {cur : Slot}

/-- A call that returns. -/
theorem syscall_plain {key ret : Word} {call : Call}
    (hrun : plainCall s cur key call = some (ret, s')) :
    syscall s c cur key call.sys.number call.a1 call.a2 call.a3 call.a4 call.a5 =
      some (.ret ret s') := by
  rw [syscall, Sys.decode_number]
  unfold plainCall at hrun
  cases hsys : call.sys <;> rw [hsys] at hrun <;> dsimp only at hrun ⊢
  all_goals first
    | rw [hrun]; rfl
    | rw [Option.some.inj hrun]; rfl
    | cases hrun

/-- A program makes a call that returns. -/
theorem step_call {ret : Word} {call : Call} (hstarted : (s.cpus c).status = .started)
    (hcur : s.curenv c = some cur) (halive : (s.envs cur).status ≠ .dying)
    (hrun : plainCall (s.setTf cur (callFrame call)) cur 0 call = some (ret, s')) :
    step s (.enter c (callEntry call)) =
      trapReturn (s'.setTf cur ((s'.envs cur).tf.setEax ret)) c := by
  have hdispatch : trapDispatch (s.setTf cur (callFrame call)) c cur (callFrame call) 0 0 =
      some (.ret () (s'.setTf cur ((s'.envs cur).tf.setEax ret))) := by
    have hfault : (callFrame call).trapno ≠ tPgflt := by
      change tSyscall ≠ tPgflt
      decide
    have hbreak : (callFrame call).trapno ≠ tBrkpt := by
      change tSyscall ≠ tBrkpt
      decide
    have hcallno : (callFrame call).trapno = tSyscall := rfl
    have hsyscall : syscall (s.setTf cur (callFrame call)) c cur 0 (callFrame call).regs.eax
        (callFrame call).regs.edx (callFrame call).regs.ecx (callFrame call).regs.ebx
        (callFrame call).regs.edi (callFrame call).regs.esi = some (.ret ret s') :=
      syscall_plain hrun
    rw [trapDispatch, if_neg hfault, if_neg hbreak, if_pos hcallno, hsyscall]
    rfl
  simp only [step, enter, callEntry, hstarted, if_true, trapUser, hcur, Option.bind_eq_bind,
    Option.bind_some, if_neg halive, hdispatch]

/-- The timer interrupts a program. -/
theorem step_timer (hstarted : (s.cpus c).status = .started) (hcur : s.curenv c = some cur)
    (halive : (s.envs cur).status ≠ .dying) :
    step s (.enter c timerEntry) = schedYield (s.setTf cur timerFrame) c := by
  have hdispatch : trapDispatch (s.setTf cur timerFrame) c cur timerFrame 0 0 =
      (schedYield (s.setTf cur timerFrame) c).bind fun s' => some (.left s') := rfl
  simp only [step, enter, timerEntry, hstarted, if_true, trapUser, hcur, Option.bind_eq_bind,
    Option.bind_some, if_neg halive, hdispatch]
  cases schedYield (s.setTf cur timerFrame) c <;> rfl

end Traps

end OsLabs.Jos
