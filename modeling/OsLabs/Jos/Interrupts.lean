import OsLabs.Jos.Bystanders
import OsLabs.Jos.Devices
import OsLabs.Jos.EnvFree
import OsLabs.Jos.FaultFrame

/-!
# Device interrupts

An interrupted program should not notice.  The kernel handles the timer and
spurious interrupts; it opens the line of the keyboard, too, and treats its
interrupts as a fault of the program or of the kernel.
-/

namespace OsLabs.Jos

open Function
open OsLabs.Transition

/-! ## Delivery -/

/-- `trap` for a CPU that was halted in the kernel. -/
def trapKernel (s : Kernel) (c : ℕ) (trapno : Word) : Option Kernel :=
  let s := s.setCpuStatus c .started
  -- a page fault in the kernel panics
  if trapno = tPgflt then none
  else if trapno = tBrkpt then trapReturn s c
  -- a system call dereferences the null `curenv`
  else if trapno = tSyscall then none
  else if trapno = irqOffset + irqSpurious then trapReturn s c
  else if trapno = irqOffset + irqTimer then schedYield s c
  -- the trap frame has the code segment of the kernel
  else none

/-- The frame that a trap pushes. -/
def Trapframe.trapped (regs : Trapframe) (raised : Word × Word) : Trapframe :=
  { regs with trapno := raised.1, err := raised.2 }

/-- The registers of a program: the frame without the words that `env_pop_tf` skips. -/
def Trapframe.registers (tf : Trapframe) : Trapframe := { tf with trapno := 0, err := 0 }

/-- The environment that CPU `c` runs. -/
def runningOn (s : Kernel) (c : ℕ) : Option Slot :=
  if (s.cpus c).status = .started then s.curenv c else none

/-- CPU `c` runs a program or is halted. -/
def TakesInterrupts (s : Kernel) (c : ℕ) : Prop :=
  (runningOn s c).isSome ∨ (s.cpus c).status = .halted

/-- A device interrupt on CPU `c`, with the registers `regs` if it runs a program. -/
def interrupt (hw : InterruptHardware) (s : Kernel) (c : ℕ) (line : Line) (regs : Trapframe) :
    Option Kernel :=
  match (s.cpus c).status with
  | .started => trapUser s c (regs.trapped (raised (hw.vector c line))) 0 0
  | .halted => trapKernel s c (raised (hw.vector c line)).1
  | .unused => none

/-- What can happen next on a machine with devices. -/
inductive DeviceEvent
  | program (event : Event)
  | interrupt (c : ℕ) (line : Line) (regs : Trapframe)

def deviceStep (hw : InterruptHardware) (s : Kernel) : DeviceEvent → Option Kernel
  | .program event => step s event
  | .interrupt c line regs => interrupt hw s c line regs

/-! ## What became of the interrupted programs -/

/-- The registers of the interrupted environments that have not run since, and pairs of the
registers with which one was interrupted and with which it next ran. -/
structure Resumptions where
  waiting : Slot → Option Trapframe
  resumed : List (Trapframe × Trapframe)

namespace Resumptions

def start : Resumptions := ⟨fun _ => none, []⟩

/-- The environment that CPU `c` ran has been interrupted. -/
def interrupted (history : Resumptions) (s : Kernel) (c : ℕ) (regs : Trapframe) : Resumptions :=
  match runningOn s c with
  | some cur => { history with waiting := update history.waiting cur (some regs.registers) }
  | none => history

/-- Environments that have been freed do not run again. -/
def forget (history : Resumptions) (s : Kernel) : Resumptions :=
  { history with waiting := fun e => if (s.envs e).pgdir = none then none else history.waiting e }

/-- CPU `c` has left the kernel. -/
def entered (history : Resumptions) (s : Kernel) (c : ℕ) : Resumptions :=
  match s.curenv c with
  | none => history
  | some e =>
      match history.waiting e with
      | none => history
      | some regs =>
          { waiting := update history.waiting e none
            resumed := (regs, (s.envs e).tf.registers) :: history.resumed }

end Resumptions

theorem Resumptions.resumed_entered {history : Resumptions} {s : Kernel} {c : ℕ} {e : Slot}
    {regs : Trapframe} (hcur : s.curenv c = some e) (hwaits : history.waiting e = some regs) :
    (history.entered s c).resumed = (regs, (s.envs e).tf.registers) :: history.resumed := by
  rw [entered, hcur]
  dsimp only
  rw [hwaits]

/-- The history after a step. -/
def noteResumption (s : Kernel) (event : DeviceEvent) (s' : Kernel) (history : Resumptions) :
    Resumptions :=
  match event with
  | .program (.enter c _) => (history.forget s').entered s' c
  | .program _ => history
  | .interrupt c _ regs => ((history.interrupted s c regs).forget s').entered s' c

/-! ## When interrupts are invisible -/

/-- An environment that has not been destroyed. -/
def Alive (s : Kernel) (e : Slot) : Prop := (s.envs e).status ≠ .free ∧ (s.envs e).status ≠ .dying

/-- Nothing can run: `sched_halt` enters the monitor. -/
def NothingRuns (s : Kernel) : Prop :=
  ∀ e, (s.envs e).status ≠ .runnable ∧ (s.envs e).status ≠ .running

/-- An interrupt does not panic and destroys no environment. -/
structure Harmless (hw : InterruptHardware) (s : Kernel) (c : ℕ) (line : Line) (regs : Trapframe) :
    Prop where
  returns : interrupt hw s c line regs = none → NothingRuns s
  spares : ∀ s', interrupt hw s c line regs = some s' → ∀ e, Alive s e → Alive s' e

/-- A step of a run whose interrupts come through open lines and meet the condition. -/
def DeviceOk (hw : InterruptHardware) (condition : Kernel → ℕ → Line → Prop) (s : Kernel) :
    DeviceEvent → Prop
  | .program _ => True
  | .interrupt c line _ => TakesInterrupts s c ∧ hw.unmasked c line = true ∧ condition s c line

/-- In every run from `booted`, programs resume with the registers with which they were interrupted,
and the interrupts that may come next are harmless. -/
def InterruptsInvisible (hw : InterruptHardware) (condition : Kernel → ℕ → Line → Prop)
    (booted : Kernel) : Prop :=
  ∀ s history, Transition.Runs (ghosted (deviceStep hw) noteResumption)
      (fun pair event => DeviceOk hw condition pair.1 event) (booted, Resumptions.start)
      (s, history) →
    (∀ pair ∈ history.resumed, pair.2 = pair.1) ∧
      ∀ c line regs, DeviceOk hw condition s (.interrupt c line regs) → Harmless hw s c line regs

/-- The timer or a spurious interrupt, in a state in which the environment that the CPU runs is not
running elsewhere and waits for no message, or is dying and can be freed. -/
structure Suitable (s : Kernel) (c : ℕ) (line : Line) : Prop where
  handled : line = .timer ∨ line = .spurious
  dirs : ∀ e, (s.envs e).status = .runnable → (s.envs e).pgdir ≠ none
  dir : ∀ cur, runningOn s c = some cur → (s.envs cur).pgdir ≠ none
  alone : ∀ cur, runningOn s c = some cur → (s.envs cur).status ≠ .dying →
    (s.envs cur).ipcRecving = false ∧ ∀ k, k ≠ c → s.curenv k ≠ some cur
  accounts : ∀ cur, runningOn s c = some cur → (s.envs cur).status = .dying →
    ∃ managed free, Accounts managed (dirsOf s) s.phys free ∧ Exclusive s.phys (dirsOf s)

section Decisions

variable {s s' : Kernel} {c : ℕ} {e cur : Slot}

theorem schedYield_none (hdirs : ∀ e, (s.envs e).status = .runnable → (s.envs e).pgdir ≠ none)
    (hyield : schedYield s c = none) : NothingRuns s := by
  unfold schedYield at hyield
  split at hyield
  case h_1 k hkeep =>
    rw [envRun_current (Option.filter_eq_some_iff.mp hkeep).1] at hyield
    cases hyield
  case h_2 best _ hpick =>
    by_cases hcur : s.curenv c = some best
    · rw [envRun_current hcur] at hyield
      cases hyield
    · rw [envRun_switch hcur, Option.map_eq_none_iff] at hyield
      exact absurd hyield (hdirs best (schedPick_runnable hpick))
  case h_3 =>
    unfold schedHalt at hyield
    split at hyield
    · cases hyield
    case isFalse hnothing =>
      intro e
      rw [← not_or]
      exact fun hruns => hnothing ⟨e, hruns⟩

theorem trapReturn_none (hdirs : ∀ e, (s.envs e).status = .runnable → (s.envs e).pgdir ≠ none)
    (hreturn : trapReturn s c = none) : NothingRuns s := by
  unfold trapReturn at hreturn
  split at hreturn
  case h_1 k hcur =>
    split at hreturn
    · rw [envRun_current hcur] at hreturn
      cases hreturn
    · exact schedYield_none hdirs hreturn
  case h_2 => exact schedYield_none hdirs hreturn

theorem schedYield_alive (hyield : schedYield s c = some s') (halive : Alive s e) : Alive s' e := by
  cases schedYield_cases hyield with
  | keep k _ _ =>
    rw [Alive, field_setEnv Env.status (by rfl) e]
    exact halive
  | again k _ _ =>
    rw [Alive, field_setEnv Env.status (by rfl) e]
    exact halive
  | switch k dir hne _ _ =>
    obtain ⟨runs, cpunum, henv⟩ := switched_envs s hne dir e
    rw [Alive, henv]
    dsimp only
    split
    · decide
    · split
      · decide
      · exact halive
  | halt _ => exact halive

theorem trapReturn_alive (hreturn : trapReturn s c = some s') (halive : Alive s e) :
    Alive s' e := by
  unfold trapReturn at hreturn
  split at hreturn
  case h_1 k hcur =>
    split at hreturn
    · rw [envRun_current hcur] at hreturn
      cases hreturn
      rw [Alive, field_setEnv Env.status (by rfl) e]
      exact halive
    · exact schedYield_alive hreturn halive
  case h_2 => exact schedYield_alive hreturn halive

end Decisions

section Device

variable {hw : InterruptHardware} {s s' : Kernel} {c : ℕ} {e cur : Slot} {line : Line}
variable {tf regs : Trapframe}

theorem trapUser_dying (hcur : s.curenv c = some cur) (hdying : (s.envs cur).status = .dying)
    (faultVa key : Word) : trapUser s c tf faultVa key =
      (envFree s c cur).bind fun freed => schedYield (freed.setCurenv c none) c := by
  rw [trapUser, hcur, Option.bind_eq_bind, Option.bind_some, if_pos hdying]
  rfl

theorem trapUser_timer (hcur : s.curenv c = some cur) (halive : (s.envs cur).status ≠ .dying)
    (htimer : tf.trapno = irqOffset + irqTimer) (faultVa key : Word) :
    trapUser s c tf faultVa key = schedYield (s.setTf cur tf) c := by
  have hdispatch : trapDispatch (s.setTf cur tf) c cur tf faultVa key =
      (schedYield (s.setTf cur tf) c).bind fun next => some (.left next) := by
    rw [trapDispatch, htimer, if_neg (by decide), if_neg (by decide), if_neg (by decide),
      if_neg (by decide), if_pos rfl]
    rfl
  rw [trapUser, hcur, Option.bind_eq_bind, Option.bind_some, if_neg halive, hdispatch]
  cases schedYield (s.setTf cur tf) c <;> rfl

theorem trapUser_spurious (hcur : s.curenv c = some cur) (halive : (s.envs cur).status ≠ .dying)
    (hspurious : tf.trapno = irqOffset + irqSpurious) (faultVa key : Word) :
    trapUser s c tf faultVa key = trapReturn (s.setTf cur tf) c := by
  have hdispatch : trapDispatch (s.setTf cur tf) c cur tf faultVa key =
      some (.ret () (s.setTf cur tf)) := by
    rw [trapDispatch, hspurious, if_neg (by decide), if_neg (by decide), if_neg (by decide),
      if_pos rfl]
  rw [trapUser, hcur, Option.bind_eq_bind, Option.bind_some, if_neg halive, hdispatch]
  rfl

theorem runningOn_some (hrunning : runningOn s c = some cur) :
    (s.cpus c).status = .started ∧ s.curenv c = some cur :=
  Option.ite_none_right_eq_some.mp hrunning

theorem interrupt_running (hrunning : runningOn s c = some cur) :
    interrupt hw s c line regs = trapUser s c (regs.trapped (raised (hw.vector c line))) 0 0 := by
  rw [interrupt, (runningOn_some hrunning).1]

/-- `env_free` of a dying environment returns when the counters are right. -/
theorem envFree_of_accounts {managed : Set ℕ} {free : List ℕ}
    (haccounts : Accounts managed (dirsOf s) s.phys free) (hexcl : Exclusive s.phys (dirsOf s))
    (hdir : (s.envs e).pgdir ≠ none) : ∃ freed, envFree s c e = some freed := by
  obtain ⟨dir, hdir⟩ := Option.ne_none_iff_exists'.mp hdir
  obtain ⟨τ, free', hrun, hpage, -⟩ := haccounts.takenOff hexcl hdir
  obtain ⟨freed, hfreed, -⟩ := envFree_of_tables (c := c) hdir hrun hpage
  exact ⟨freed, hfreed⟩

/-- What a suitable interrupt of a program that is not dying amounts to. -/
theorem Suitable.interrupt_running (hsuitable : Suitable s c line)
    (hrunning : runningOn s c = some cur) (halive : (s.envs cur).status ≠ .dying) :
    let saved := s.setTf cur (regs.trapped (raised (hw.vector c line)))
    Jos.interrupt hw s c line regs = schedYield saved c ∨
      Jos.interrupt hw s c line regs = trapReturn saved c := by
  have hcur := (runningOn_some hrunning).2
  rw [Jos.interrupt_running hrunning]
  rcases hsuitable.handled with rfl | rfl
  · exact Or.inl (trapUser_timer hcur halive (by rw [raised_timer]; rfl) 0 0)
  · exact Or.inr (trapUser_spurious hcur halive (by rw [raised_spurious]; rfl) 0 0)

/-- What a suitable interrupt of a halted CPU amounts to. -/
theorem Suitable.interrupt_halted (hsuitable : Suitable s c line)
    (hhalted : (s.cpus c).status = .halted) :
    Jos.interrupt hw s c line regs = schedYield (s.setCpuStatus c .started) c ∨
      Jos.interrupt hw s c line regs = trapReturn (s.setCpuStatus c .started) c := by
  rw [Jos.interrupt, hhalted]
  dsimp only
  rcases hsuitable.handled with rfl | rfl
  · left
    rw [raised_timer, trapKernel, if_neg (by decide), if_neg (by decide), if_neg (by decide),
      if_neg (by decide), if_pos rfl]
  · right
    rw [raised_spurious, trapKernel, if_neg (by decide), if_neg (by decide), if_neg (by decide),
      if_pos rfl]

/-- An interrupt that ends with a decision in a state in which no more can run. -/
theorem harmless_of_decision {t : Kernel}
    (hdirs : ∀ k, (t.envs k).status = .runnable → (t.envs k).pgdir ≠ none)
    (hnothing : NothingRuns t → NothingRuns s) (halive : ∀ k, Alive s k → Alive t k)
    (hrun : interrupt hw s c line regs = schedYield t c ∨
      interrupt hw s c line regs = trapReturn t c) : Harmless hw s c line regs := by
  rcases hrun with hrun | hrun
  · exact ⟨fun hnone => hnothing (schedYield_none hdirs (hrun.symm.trans hnone)),
      fun s' hsome k hk => schedYield_alive (hrun.symm.trans hsome) (halive k hk)⟩
  · exact ⟨fun hnone => hnothing (trapReturn_none hdirs (hrun.symm.trans hnone)),
      fun s' hsome k hk => trapReturn_alive (hrun.symm.trans hsome) (halive k hk)⟩

/-- Suitable interrupts are harmless. -/
theorem Suitable.harmless (hsuitable : Suitable s c line) (htakes : TakesInterrupts s c) :
    Harmless hw s c line regs := by
  rcases htakes with hsome | hhalted
  · obtain ⟨cur, hrunning⟩ := Option.isSome_iff_exists.mp hsome
    have hcur := (runningOn_some hrunning).2
    by_cases hdying : (s.envs cur).status = .dying
    · obtain ⟨managed, free, haccounts, hexcl⟩ := hsuitable.accounts cur hrunning hdying
      obtain ⟨freed, hfree⟩ := @envFree_of_accounts s c cur managed free haccounts hexcl
        (hsuitable.dir cur hrunning)
      have hrun : Jos.interrupt hw s c line regs = schedYield (freed.setCurenv c none) c := by
        rw [Jos.interrupt_running hrunning, trapUser_dying hcur hdying, hfree]
        rfl
      obtain ⟨dir, σ, pt, -, -, -, hfreed⟩ := envFree_cases hfree
      have hself : ((freed.setCurenv c none).envs cur).status = .free := by
        rw [Kernel.envs_setCurenv, hfreed]
        dsimp only
        rw [update_self]
      have hother (k : Slot) (hk : k ≠ cur) : (freed.setCurenv c none).envs k = s.envs k := by
        rw [Kernel.envs_setCurenv, hfreed]
        exact update_of_ne hk _ _
      refine harmless_of_decision (fun k hk => ?_) (fun hnothing k => ?_) (fun k hk => ?_)
        (Or.inl hrun)
      · have hne : k ≠ cur := by
          rintro rfl
          rw [hself] at hk
          cases hk
        rw [hother k hne] at hk ⊢
        exact hsuitable.dirs k hk
      · by_cases hk : k = cur
        · rw [hk, hdying]
          decide
        · rw [← hother k hk]
          exact hnothing k
      · have hne : k ≠ cur := fun hsame => hk.2 (hsame ▸ hdying)
        rw [Alive, hother k hne]
        exact hk
    · have hstatus (k : Slot) :
          ((s.setTf cur (regs.trapped (raised (hw.vector c line)))).envs k).status =
            (s.envs k).status := field_setEnv Env.status (by rfl) k
      have hdir (k : Slot) :
          ((s.setTf cur (regs.trapped (raised (hw.vector c line)))).envs k).pgdir =
            (s.envs k).pgdir := field_setEnv Env.pgdir (by rfl) k
      refine harmless_of_decision (fun k hk => ?_) (fun hnothing k => ?_) (fun k hk => ?_)
        (hsuitable.interrupt_running hrunning hdying)
      · rw [hdir]
        rw [hstatus] at hk
        exact hsuitable.dirs k hk
      · rw [← hstatus]
        exact hnothing k
      · rw [Alive, hstatus]
        exact hk
  · exact @harmless_of_decision hw s c line regs (s.setCpuStatus c .started) hsuitable.dirs id
      (fun _ hk => hk) (hsuitable.interrupt_halted hhalted)

end Device

/-! ## Runs -/

/-- An interrupted environment that no CPU runs; `regs` are its registers. -/
structure Suspended (s : Kernel) (e : Slot) (regs : Trapframe) : Prop where
  dir : (s.envs e).pgdir ≠ none
  registers : (s.envs e).tf.registers = regs
  recving : (s.envs e).ipcRecving = false
  nowhere : ∀ k, s.curenv k ≠ some e

/-- The same while CPU `c` leaves the kernel: it may have freed the environment, or picked it. -/
def SuspendedUnless (c : ℕ) (s : Kernel) (e : Slot) (regs : Trapframe) : Prop :=
  (s.envs e).pgdir = none ∨
    (s.envs e).tf.registers = regs ∧ (s.envs e).ipcRecving = false ∧
      ∀ k, k ≠ c → s.curenv k ≠ some e

/-- The history is right so far. -/
structure ResumptionsOk (s : Kernel) (history : Resumptions) : Prop where
  table : TableOk s
  waiting : ∀ e regs, history.waiting e = some regs → Suspended s e regs
  resumed : ∀ pair ∈ history.resumed, pair.2 = pair.1

section History

variable {hw : InterruptHardware} {s s' : Kernel} {c : ℕ} {e cur : Slot} {regs : Trapframe}
variable {history : Resumptions}

theorem Suspended.unless (hsuspended : Suspended s e regs) (hleft : LeftAlone c e s s') :
    SuspendedUnless c s' e regs := by
  refine hleft.env.imp id fun hsame => ?_
  simp only [Env.resumes, Prod.mk.injEq] at hsame
  rw [hsame.2.1, hsame.2.2]
  refine ⟨hsuspended.registers, hsuspended.recving, fun k hk => ?_⟩
  rw [hleft.others k hk]
  exact hsuspended.nowhere k

theorem Suspended.not_listed (hsuspended : Suspended s e regs) (htable : TableOk s) :
    s.envFreeList ≠ some e := fun hhead => hsuspended.dir (htable.head_pgdir hhead)

/-- Forgetting who was freed and noting who runs keeps the history right. -/
theorem ResumptionsOk.leave (htable : TableOk s')
    (hwaiting : ∀ e regs, history.waiting e = some regs → SuspendedUnless c s' e regs)
    (hresumed : ∀ pair ∈ history.resumed, pair.2 = pair.1) :
    ResumptionsOk s' ((history.forget s').entered s' c) := by
  -- what is left waits, or CPU `c` runs it
  have hleft (e : Slot) (regs : Trapframe) (hwaits : (history.forget s').waiting e = some regs) :
      (s'.envs e).tf.registers = regs ∧ (s'.curenv c ≠ some e → Suspended s' e regs) := by
    simp only [Resumptions.forget] at hwaits
    split at hwaits
    · cases hwaits
    case isFalse hdir =>
      obtain ⟨hregisters, hrecving, helsewhere⟩ := (hwaiting e regs hwaits).resolve_left hdir
      refine ⟨hregisters, fun hnot => ⟨hdir, hregisters, hrecving, fun k => ?_⟩⟩
      by_cases hk : k = c
      · rwa [hk]
      · exact helsewhere k hk
  cases hcur : s'.curenv c with
  | none =>
    rw [Resumptions.entered, hcur]
    exact ⟨htable, fun e regs hwaits => (hleft e regs hwaits).2 (by rw [hcur]; simp), hresumed⟩
  | some cur =>
    have hother (e : Slot) (regs : Trapframe) (hwaits : (history.forget s').waiting e = some regs)
        (hne : e ≠ cur) : Suspended s' e regs := by
      refine (hleft e regs hwaits).2 fun hsame => ?_
      rw [hcur] at hsame
      exact hne (Option.some.inj hsame).symm
    cases hwaits : (history.forget s').waiting cur with
    | none =>
      have hsame : (history.forget s').entered s' c = history.forget s' := by
        rw [Resumptions.entered, hcur]
        dsimp only
        rw [hwaits]
      rw [hsame]
      refine ⟨htable, fun e regs he => hother e regs he ?_, hresumed⟩
      rintro rfl
      rw [hwaits] at he
      cases he
    | some regs =>
      have hnoted : (history.forget s').entered s' c =
          { waiting := update (history.forget s').waiting cur none
            resumed := (regs, (s'.envs cur).tf.registers) :: history.resumed } := by
        rw [Resumptions.entered, hcur]
        dsimp only
        rw [hwaits]
        rfl
      rw [hnoted]
      refine ⟨htable, fun e other he => ?_, fun pair hpair => ?_⟩
      · dsimp only at he
        by_cases hsame : e = cur
        · rw [hsame, update_self] at he
          cases he
        · rw [update_of_ne hsame] at he
          exact hother e other he hsame
      · rcases List.mem_cons.mp hpair with rfl | hpair
        · exact (hleft cur regs hwaits).1
        · exact hresumed pair hpair

/-- A kernel entry of CPU `c`, for an environment that waits. -/
theorem Suspended.enter (hsuspended : Suspended s e regs) (htable : TableOk s) {entry : Entry}
    (hstep : Jos.enter s c entry = some s') : LeftAlone c e s s' := by
  cases entry with
  | boot =>
    obtain ⟨-, hyield⟩ := Option.ite_none_right_eq_some.mp hstep
    exact LeftAlone.yield hyield
  | wake =>
    obtain ⟨-, hyield⟩ := Option.ite_none_right_eq_some.mp hstep
    exact (LeftAlone.setCpuStatus .started).trans (LeftAlone.yield hyield)
  | user tf faultVa key =>
    obtain ⟨-, htrap⟩ := Option.ite_none_right_eq_some.mp hstep
    obtain ⟨cur, hcur, -⟩ := Option.bind_eq_some_iff.mp htrap
    have hne : cur ≠ e := fun hsame => hsuspended.nowhere c (hsame ▸ hcur)
    exact LeftAlone.trapUser hne (hsuspended.not_listed htable) hsuspended.recving hcur htrap

/-- What the programs do by themselves. -/
theorem ResumptionsOk.program (hok : ResumptionsOk s history) {event : Event}
    (hstep : step s event = some s') :
    ResumptionsOk s' (noteResumption s (.program event) s' history) := by
  have htable : TableOk s' := (tableOk_rules fun _ _ _ _ => True).kernelRules.step
    (fun _ _ h => h.ids) (g := ()) hok.table (fun _ _ _ _ _ => trivial) hstep
  cases event with
  | enter c entry =>
    exact ResumptionsOk.leave htable
      (fun e regs hwaits => (hok.waiting e regs hwaits).unless
        ((hok.waiting e regs hwaits).enter hok.table hstep)) hok.resumed
  | store c va byte =>
    obtain ⟨σ, rfl⟩ := userStore_phys hstep
    refine ⟨htable, fun e regs hwaits => ?_, hok.resumed⟩
    obtain ⟨hdir, hregisters, hrecving, hnowhere⟩ := hok.waiting e regs hwaits
    exact ⟨hdir, hregisters, hrecving, hnowhere⟩
  | mmu bits =>
    cases hstep
    refine ⟨htable, fun e regs hwaits => ?_, hok.resumed⟩
    obtain ⟨hdir, hregisters, hrecving, hnowhere⟩ := hok.waiting e regs hwaits
    exact ⟨hdir, hregisters, hrecving, hnowhere⟩

/-- The environment that a suitable interrupt finds on CPU `c`. -/
theorem Suitable.suspends {line : Line} (hsuitable : Suitable s c line)
    (hrunning : runningOn s c = some cur)
    (hrun : interrupt hw s c line regs = some s') : SuspendedUnless c s' cur regs.registers := by
  have hcur := (runningOn_some hrunning).2
  by_cases hdying : (s.envs cur).status = .dying
  · rw [Jos.interrupt_running hrunning, trapUser_dying hcur hdying] at hrun
    obtain ⟨freed, hfree, hyield⟩ := Option.bind_eq_some_iff.mp hrun
    obtain ⟨dir, σ, pt, -, -, -, hfreed⟩ := envFree_cases hfree
    have hnone : ((freed.setCurenv c none).envs cur).pgdir = none := by
      rw [Kernel.envs_setCurenv, hfreed]
      dsimp only
      rw [update_self]
    left
    rcases (LeftAlone.yield hyield : LeftAlone c cur _ s').env with hgone | hsame
    · exact hgone
    · exact (congrArg Prod.fst hsame).trans hnone
  · obtain ⟨hrecving, halone⟩ := hsuitable.alone cur hrunning hdying
    have hleft : LeftAlone c cur (s.setTf cur (regs.trapped (raised (hw.vector c line)))) s' := by
      rcases hsuitable.interrupt_running hrunning hdying with hyield | hreturn
      · exact LeftAlone.yield (hyield.symm.trans hrun)
      · exact LeftAlone.trapReturn (hreturn.symm.trans hrun)
    refine hleft.env.imp id fun hsame => ?_
    simp only [Env.resumes, Kernel.setTf, Kernel.envs_setEnv, update_self, Prod.mk.injEq] at hsame
    rw [hsame.2.1, hsame.2.2]
    refine ⟨rfl, hrecving, fun k hk => ?_⟩
    rw [hleft.others k hk]
    exact halone k hk

/-- A suitable interrupt, for an environment that waits. -/
theorem Suspended.interrupt {line : Line} {other : Trapframe} (hsuspended : Suspended s e other)
    (htable : TableOk s) (hsuitable : Suitable s c line) (htakes : TakesInterrupts s c)
    (hrun : Jos.interrupt hw s c line regs = some s') : LeftAlone c e s s' := by
  rcases htakes with hsome | hhalted
  · obtain ⟨cur, hrunning⟩ := Option.isSome_iff_exists.mp hsome
    have hcur := (runningOn_some hrunning).2
    have hne : cur ≠ e := fun hsame => hsuspended.nowhere c (hsame ▸ hcur)
    rw [interrupt_running hrunning] at hrun
    exact LeftAlone.trapUser hne (hsuspended.not_listed htable) hsuspended.recving hcur hrun
  · refine (LeftAlone.setCpuStatus .started).trans ?_
    rcases hsuitable.interrupt_halted hhalted with hyield | hreturn
    · exact LeftAlone.yield (hyield.symm.trans hrun)
    · exact LeftAlone.trapReturn (hreturn.symm.trans hrun)

/-- A suitable interrupt keeps the table. -/
theorem Suitable.table {line : Line} (hsuitable : Suitable s c line) (htakes : TakesInterrupts s c)
    (htable : TableOk s) (hrun : interrupt hw s c line regs = some s') : TableOk s' := by
  have hrules := (tableOk_rules fun _ _ _ _ => True).kernelRules.trapRules c
  rcases htakes with hsome | hhalted
  · obtain ⟨cur, hrunning⟩ := Option.isSome_iff_exists.mp hsome
    rw [Jos.interrupt_running hrunning] at hrun
    exact hrules.trapUser (fun _ _ h => h.ids) (g := ()) htable (fun _ _ _ _ _ => trivial) hrun
  · have hstarted : TableOk (s.setCpuStatus c .started) := htable.of_slotPart (fun _ => rfl) rfl
    rcases hsuitable.interrupt_halted hhalted with hyield | hreturn
    · exact hrules.yield _ () s' hstarted (hyield.symm.trans hrun)
    · exact hrules.trapReturn (g := ()) hstarted (hreturn.symm.trans hrun)

/-- A suitable interrupt keeps the history right. -/
theorem ResumptionsOk.interrupt {line : Line} (hok : ResumptionsOk s history)
    (hsuitable : Suitable s c line) (htakes : TakesInterrupts s c)
    (hrun : Jos.interrupt hw s c line regs = some s') :
    ResumptionsOk s' (noteResumption s (.interrupt c line regs) s' history) := by
  have hothers (e : Slot) (other : Trapframe) (hwaits : history.waiting e = some other) :
      SuspendedUnless c s' e other :=
    (hok.waiting e other hwaits).unless
      ((hok.waiting e other hwaits).interrupt hok.table hsuitable htakes hrun)
  have htable := hsuitable.table htakes hok.table hrun
  refine ResumptionsOk.leave htable (fun e other hwaits => ?_) ?_
  · cases hrunning : runningOn s c with
    | none =>
      rw [Resumptions.interrupted, hrunning] at hwaits
      exact hothers e other hwaits
    | some cur =>
      rw [Resumptions.interrupted, hrunning] at hwaits
      dsimp only at hwaits
      by_cases hsame : e = cur
      · rw [hsame, update_self] at hwaits
        rw [hsame, ← Option.some.inj hwaits]
        exact hsuitable.suspends hrunning hrun
      · rw [update_of_ne hsame] at hwaits
        exact hothers e other hwaits
  · have hsame : (history.interrupted s c regs).resumed = history.resumed := by
      rw [Resumptions.interrupted]
      split <;> rfl
    rw [hsame]
    exact hok.resumed

end History

/-- A machine as the BIOS leaves it: LINT0 of the boot CPU takes interrupts of the 8259A. -/
def pcHardware : InterruptHardware where
  master := ⟨0, 8, 0⟩
  slave := ⟨0, 0x70, 0⟩
  lapicaddr := true
  lapic := fun _ _ => 0
  bootcpu := 0

/-- The first environment runs, for the first time. -/
structure FirstRuns (s : Kernel) : Prop where
  running : runningOn s 0 = some firstSlot
  status : (s.envs firstSlot).status = .running
  dirs : ∀ e, (s.envs e).status = .runnable → (s.envs e).pgdir ≠ none
  dir : (s.envs firstSlot).pgdir ≠ none
  recving : (s.envs firstSlot).ipcRecving = false
  others : ∀ k, k ≠ 0 → s.curenv k = none

theorem uniprocessor_firstRuns : ∃ booted s, Boots uniprocessor [idleProgram, idleProgram] booted ∧
    step booted (.enter 0 .boot) = some s ∧ FirstRuns s := by
  obtain ⟨booted, hboots, hidle⟩ := uniprocessor_idle
  have hfresh := hboots.fresh uniprocessor_sane
  obtain ⟨s, hstep, hacting⟩ := hidle.acts (by decide)
  have hdir (e : Slot) : (s.envs e).pgdir = (booted.envs e).pgdir := by
    rw [pgdir_of_rest hacting.rest]
    exact field_setEnv Env.pgdir (by rfl) e
  have hcpus : LeftAlone 0 firstSlot booted s :=
    LeftAlone.yield (Option.ite_none_right_eq_some.mp hstep).2
  refine ⟨booted, s, hboots, hstep, ?_⟩
  exact
    { running := (if_pos hacting.started).trans hacting.onCpu
      status := (status_of_rest hacting.rest firstSlot).trans hacting.running
      dirs := fun e he => by
        rw [hdir]
        rw [status_of_rest hacting.rest] at he
        have hne : e ≠ firstSlot := by
          rintro rfl
          rw [hacting.running] at he
          cases he
        rw [Kernel.setStatus, Kernel.envs_setEnv, update_of_ne hne] at he
        rcases hfresh.status e with ⟨hfree, -⟩ | ⟨-, hdir⟩
        · rw [hfree] at he
          cases he
        · exact hdir
      dir := by
        rw [hdir]
        exact Option.isSome_iff_ne_none.mp hidle.two.firstDir
      recving := by
        have hsame := congrArg Env.ipcRecving (envs_of_rest hacting.rest firstSlot)
        have hkept : ((booted.setStatus firstSlot .running).envs firstSlot).ipcRecving =
            (booted.envs firstSlot).ipcRecving := field_setEnv Env.ipcRecving (by rfl) firstSlot
        exact hsame.trans (hkept.trans (hfresh.recving firstSlot))
      others := fun k hk => (hcpus.others k hk).trans (hfresh.curenv k) }

theorem FirstRuns.suitable {s : Kernel} (hfirst : FirstRuns s) : Suitable s 0 .spurious where
  handled := Or.inr rfl
  dirs := hfirst.dirs
  dir := fun cur hcur => by
    obtain rfl := Option.some.inj (hfirst.running.symm.trans hcur)
    exact hfirst.dir
  alone := fun cur hcur _ => by
    obtain rfl := Option.some.inj (hfirst.running.symm.trans hcur)
    refine ⟨hfirst.recving, fun k hk => ?_⟩
    rw [hfirst.others k hk]
    exact Option.some_ne_none _ |>.symm
  accounts := fun cur hcur hdying => by
    obtain rfl := Option.some.inj (hfirst.running.symm.trans hcur)
    rw [hfirst.status] at hdying
    cases hdying

end OsLabs.Jos
