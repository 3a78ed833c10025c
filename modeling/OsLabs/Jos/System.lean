import OsLabs.Core.Transition
import OsLabs.Jos.Boot
import OsLabs.Jos.Effects
import OsLabs.Jos.Trap

/-!
# The system

The kernel together with the CPUs in user mode: kernel entries, stores of user
programs, and the flags that the MMU sets.  `KernelRules` reduces an invariant
of all of it to one obligation for each kernel operation.
-/

namespace OsLabs.Jos

open Function
open OsLabs.Transition

/-- A store of one byte by the program that runs on CPU `c`.  It goes through
`%cr3`; the model follows it where that is the environment's own directory. -/
def userStore (s : Kernel) (c : ℕ) (va : Word) (byte : BitVec 8) : Option Kernel := do
  let cur ← s.curenv c
  if (s.cpus c).status = .started ∧ (s.envs cur).pgdir = some (s.cpus c).cr3 then
    let page ← mmuPage s.phys (s.cpus c).cr3 va (pteP ||| pteU ||| pteW)
    return s.setPhys (s.phys.storeByte page (pgoff va) byte)
  else none

/-- What can happen next. -/
inductive Event
  | enter (c : ℕ) (entry : Entry)
  | store (c : ℕ) (va : Word) (byte : BitVec 8)
  /-- the MMU sets accessed and dirty flags -/
  | mmu (bits : ℕ → ℕ → Word)

def Phys.setMmuBits (σ : Phys) (bits : ℕ → ℕ → Word) : Phys := { σ with mmuBits := bits }

def step (s : Kernel) : Event → Option Kernel
  | .enter c entry => enter s c entry
  | .store c va byte => userStore s c va byte
  | .mmu bits => some (s.setPhys (s.phys.setMmuBits bits))

/-- The states of the kernel on some machine, with some programs, after any
number of steps that satisfy `ok`. -/
def ReachableUnder (ok : Kernel → Event → Prop) (s : Kernel) : Prop :=
  ∃ m programs booted, m.Sane ∧ (∀ program ∈ programs, program.InUser) ∧
    Boots m programs booted ∧ Runs step ok booted s

/-- Every reachable state. -/
def Reachable (s : Kernel) : Prop := ReachableUnder (fun _ _ => True) s

/-! ## System calls as data -/

/-- The system call of a trap frame. -/
def trapCall (tf : Trapframe) : Option Call :=
  if tf.trapno = tSyscall then
    (Sys.decode tf.regs.eax).map fun sys =>
      ⟨sys, tf.regs.edx, tf.regs.ecx, tf.regs.ebx, tf.regs.edi, tf.regs.esi⟩
  else none

/-- The system call that an event makes on CPU `c`, with the state in which it
is dispatched and its caller. -/
def callOf (s : Kernel) : Event → Option (ℕ × Kernel × Slot × Call)
  | .enter c (.user tf _ _) =>
      match s.curenv c with
      | none => none
      | some cur =>
          if (s.envs cur).status = .dying then none
          else (trapCall tf).map fun call => (c, s.setTf cur tf, cur, call)
  | _ => none

/-- A condition on the calls of an event. -/
def CallsSatisfy (P : ℕ → Kernel → Slot → Call → Prop) (s : Kernel) (event : Event) : Prop :=
  ∀ c before cur call, callOf s event = some (c, before, cur, call) → P c before cur call

/-- A ghost component that the calls update. -/
def noteCalls {Ghost : Type} (note : Kernel → Slot → Call → Ghost → Ghost) (s : Kernel)
    (event : Event) (_ : Kernel) (ghost : Ghost) : Ghost :=
  match callOf s event with
  | some (_, before, cur, call) => note before cur call ghost
  | none => ghost

/-- `env_free`, after which the CPU that did it does not claim to run the
environment. -/
def retire (s : Kernel) (c : ℕ) (e : Slot) : Option Kernel := do
  let freed ← envFree s c e
  return if freed.curenv c = some e then freed.setCurenv c none else freed

/-- An environment id names its own slot, once the slot has been used. -/
def IdsMatch (s : Kernel) : Prop := ∀ e, (s.envs e).id = 0 ∨ envx (s.envs e).id = e

/-- The environment that an entry of CPU `c` for `cur` destroys: `cur` itself,
for a fault it cannot handle, or the target of `sys_env_destroy`. -/
def MayDestroy (P : ℕ → Kernel → Slot → Call → Prop) (c : ℕ) (s : Kernel) (cur e : Slot) :
    Prop :=
  e = cur ∨ ∃ call, call.sys = .envDestroy ∧ P c s cur call ∧
    envid2env s cur call.a1 true = some e

/-! ## Rules for invariants -/

/-- One obligation for each operation, in entries whose calls satisfy `P`.  `I`
holds before the entry, `F` after it, and `M c` while CPU `c` is in the kernel,
after the operation it was asked for and before it has decided what to run
next; `note` updates the ghost component. -/
structure EntryRules {Ghost : Type} (P : ℕ → Kernel → Slot → Call → Prop)
    (note : Kernel → Slot → Call → Ghost → Ghost) (I : Kernel → Ghost → Prop)
    (M : ℕ → Kernel → Ghost → Prop) (F : Kernel → Ghost → Prop) : Prop where
  enter : ∀ c s g, I s g → M c s g
  setTf : ∀ s g e tf, I s g → I (s.setTf e tf) g
  setTfMid : ∀ c s g e tf, M c s g → M c (s.setTf e tf) g
  setCpunum : ∀ c s g e, I s g → s.curenv c = some e →
    F (s.setEnv e { s.envs e with cpunum := c }) g
  resume : ∀ c s g e, M c s g → s.curenv c = some e → (s.envs e).status = .running →
    F (s.setEnv e { s.envs e with cpunum := c }) g
  started : ∀ c s g, I s g → (s.cpus c).status = .halted → M c (s.setCpuStatus c .started) g
  yield : ∀ c s g s', M c s g → schedYield s c = some s' → F s' g
  dying : ∀ c s g cur e, I s g → s.curenv c = some cur → MayDestroy P c s cur e →
    (s.envs e).status = .running → s.curenv c ≠ some e → M c (s.setStatus e .dying) g
  retire : ∀ c s g cur e s', I s g → s.curenv c = some cur → MayDestroy P c s cur e →
    ((s.envs e).status ≠ .running ∨ s.curenv c = some e) → retire s c e = some s' → M c s' g
  plain : ∀ c s g cur key call ret s', I s g → s.curenv c = some cur → P c s cur call →
    plainCall s cur key call = some (ret, s') → M c s' (note s cur call g)
  other : ∀ s cur call g,
    call.sys = .cputs ∨ call.sys = .envDestroy ∨ call.sys = .yield → note s cur call g = g
  frame : ∀ s g e dir va bytes σ, I s g → (s.envs e).pgdir = some dir →
    va.toNat + bytes.length ≤ utop.toNat → kernelStores s.phys dir va bytes = some σ →
    I (s.setPhys σ) g
  store : ∀ c s g va byte s', I s g → userStore s c va byte = some s' → F s' g
  mmu : ∀ s g bits, I s g → F (s.setPhys (s.phys.setMmuBits bits)) g

/-- The same obligations for the entries of one CPU, and for what depends on the frames, too: an
entry writes only the frame of the environment that runs, and a call that returns answers in its
`%eax`.  `Q` holds before the answer, `M` after it. -/
structure TrapRules {Ghost : Type} (c : ℕ) (P : ℕ → Kernel → Slot → Call → Prop)
    (note : Kernel → Slot → Call → Ghost → Ghost) (I Q M F : Kernel → Ghost → Prop) : Prop where
  enter : ∀ s g, I s g → Q s g
  leave : ∀ s g, Q s g → M s g
  save : ∀ s g cur tf, I s g → s.curenv c = some cur → I (s.setTf cur tf) g
  answer : ∀ s g cur ret, Q s g → s.curenv c = some cur →
    M (s.setTf cur ((s.envs cur).tf.setEax ret)) g
  setCpunum : ∀ s g e, I s g → s.curenv c = some e →
    F (s.setEnv e { s.envs e with cpunum := c }) g
  resume : ∀ s g e, M s g → s.curenv c = some e → (s.envs e).status = .running →
    F (s.setEnv e { s.envs e with cpunum := c }) g
  started : ∀ s g, I s g → (s.cpus c).status = .halted → Q (s.setCpuStatus c .started) g
  yield : ∀ s g s', M s g → schedYield s c = some s' → F s' g
  dying : ∀ s g cur e, I s g → s.curenv c = some cur → MayDestroy P c s cur e →
    (s.envs e).status = .running → s.curenv c ≠ some e → Q (s.setStatus e .dying) g
  retire : ∀ s g cur e s', I s g → s.curenv c = some cur → MayDestroy P c s cur e →
    ((s.envs e).status ≠ .running ∨ s.curenv c = some e) → retire s c e = some s' → Q s' g
  plain : ∀ s g cur key call ret s', I s g → s.curenv c = some cur → P c s cur call →
    plainCall s cur key call = some (ret, s') →
      M (s'.setTf cur ((s'.envs cur).tf.setEax ret)) (note s cur call g)
  other : ∀ s cur call g,
    call.sys = .cputs ∨ call.sys = .envDestroy ∨ call.sys = .yield → note s cur call g = g
  frame : ∀ s g e dir va bytes σ, I s g → (s.envs e).pgdir = some dir →
    va.toNat + bytes.length ≤ utop.toNat → kernelStores s.phys dir va bytes = some σ →
    I (s.setPhys σ) g

theorem EntryRules.trapRules {Ghost : Type} {P : ℕ → Kernel → Slot → Call → Prop}
    {note : Kernel → Slot → Call → Ghost → Ghost} {I : Kernel → Ghost → Prop}
    {M : ℕ → Kernel → Ghost → Prop} {F : Kernel → Ghost → Prop}
    (hrules : EntryRules P note I M F) (c : ℕ) : TrapRules c P note I (M c) (M c) F where
  enter := hrules.enter c
  leave := fun _ _ hmid => hmid
  save := fun s g cur tf hinv _ => hrules.setTf s g cur tf hinv
  answer := fun s g cur _ hmid _ => hrules.setTfMid c s g cur _ hmid
  setCpunum := hrules.setCpunum c
  resume := hrules.resume c
  started := hrules.started c
  yield := hrules.yield c
  dying := hrules.dying c
  retire := hrules.retire c
  plain := fun s g cur key call ret s' hinv hcur hcall hrun =>
    hrules.setTfMid c s' _ cur _ (hrules.plain c s g cur key call ret s' hinv hcur hcall hrun)
  other := hrules.other
  frame := hrules.frame

/-- The obligations for an invariant `I` of the runs whose calls satisfy `P`. -/
abbrev KernelRules {Ghost : Type} (P : ℕ → Kernel → Slot → Call → Prop)
    (note : Kernel → Slot → Call → Ghost → Ghost) (I : Kernel → Ghost → Prop)
    (M : ℕ → Kernel → Ghost → Prop) : Prop :=
  EntryRules P note I M I

/-- The obligations for an invariant without a ghost component that holds
inside the kernel, too. -/
structure SimpleRules (P : ℕ → Kernel → Slot → Call → Prop) (I : Kernel → Prop) : Prop where
  setTf : ∀ s e tf, I s → I (s.setTf e tf)
  setCpunum : ∀ c s e, I s → s.curenv c = some e →
    I (s.setEnv e { s.envs e with cpunum := c })
  started : ∀ c s, I s → (s.cpus c).status = .halted → I (s.setCpuStatus c .started)
  yield : ∀ c s s', I s → schedYield s c = some s' → I s'
  dying : ∀ c s cur e, I s → s.curenv c = some cur → MayDestroy P c s cur e →
    (s.envs e).status = .running → s.curenv c ≠ some e → I (s.setStatus e .dying)
  retire : ∀ c s cur e s', I s → s.curenv c = some cur → MayDestroy P c s cur e →
    ((s.envs e).status ≠ .running ∨ s.curenv c = some e) → retire s c e = some s' → I s'
  plain : ∀ c s cur key call ret s', I s → s.curenv c = some cur → P c s cur call →
    plainCall s cur key call = some (ret, s') → I s'
  frame : ∀ s e dir va bytes σ, I s → (s.envs e).pgdir = some dir →
    va.toNat + bytes.length ≤ utop.toNat → kernelStores s.phys dir va bytes = some σ →
    I (s.setPhys σ)
  store : ∀ c s va byte s', I s → userStore s c va byte = some s' → I s'
  mmu : ∀ s bits, I s → I (s.setPhys (s.phys.setMmuBits bits))

theorem SimpleRules.kernelRules {P : ℕ → Kernel → Slot → Call → Prop} {I : Kernel → Prop}
    (hrules : SimpleRules P I) :
    KernelRules P (fun _ _ _ (g : Unit) => g) (fun s _ => I s) (fun _ s _ => I s) where
  enter := fun _ _ _ h => h
  setTf := fun s _ => hrules.setTf s
  setTfMid := fun _ s _ => hrules.setTf s
  setCpunum := fun c s _ => hrules.setCpunum c s
  resume := fun c s _ e h hcur _ => hrules.setCpunum c s e h hcur
  started := fun c s _ => hrules.started c s
  yield := fun c s _ => hrules.yield c s
  dying := fun c s _ => hrules.dying c s
  retire := fun c s _ => hrules.retire c s
  plain := fun c s _ => hrules.plain c s
  other := fun _ _ _ _ _ => rfl
  frame := fun s _ => hrules.frame s
  store := fun c s _ => hrules.store c s
  mmu := fun s _ => hrules.mmu s

/-- Two invariants at once. -/
theorem SimpleRules.and {P : ℕ → Kernel → Slot → Call → Prop} {I J : Kernel → Prop}
    (hI : SimpleRules P I) (hJ : SimpleRules P J) : SimpleRules P fun s => I s ∧ J s where
  setTf := fun s e tf h => ⟨hI.setTf s e tf h.1, hJ.setTf s e tf h.2⟩
  setCpunum := fun c s e h hcur => ⟨hI.setCpunum c s e h.1 hcur, hJ.setCpunum c s e h.2 hcur⟩
  started := fun c s h hhalt => ⟨hI.started c s h.1 hhalt, hJ.started c s h.2 hhalt⟩
  yield := fun c s s' h hrun => ⟨hI.yield c s s' h.1 hrun, hJ.yield c s s' h.2 hrun⟩
  dying := fun c s cur e h hcur hmay hrunning hne =>
    ⟨hI.dying c s cur e h.1 hcur hmay hrunning hne, hJ.dying c s cur e h.2 hcur hmay hrunning hne⟩
  retire := fun c s cur e s' h hcur hmay hstatus hrun =>
    ⟨hI.retire c s cur e s' h.1 hcur hmay hstatus hrun,
      hJ.retire c s cur e s' h.2 hcur hmay hstatus hrun⟩
  plain := fun c s cur key call ret s' h hcur hP hrun =>
    ⟨hI.plain c s cur key call ret s' h.1 hcur hP hrun,
      hJ.plain c s cur key call ret s' h.2 hcur hP hrun⟩
  frame := fun s e dir va bytes σ h hdir hva hrun =>
    ⟨hI.frame s e dir va bytes σ h.1 hdir hva hrun, hJ.frame s e dir va bytes σ h.2 hdir hva hrun⟩
  store := fun c s va byte s' h hrun =>
    ⟨hI.store c s va byte s' h.1 hrun, hJ.store c s va byte s' h.2 hrun⟩
  mmu := fun s bits h => ⟨hI.mmu s bits h.1, hJ.mmu s bits h.2⟩

/-- An invariant with a ghost component next to a simple one. -/
theorem KernelRules.and {Ghost : Type} {P : ℕ → Kernel → Slot → Call → Prop}
    {note : Kernel → Slot → Call → Ghost → Ghost} {I : Kernel → Ghost → Prop}
    {M : ℕ → Kernel → Ghost → Prop} {J : Kernel → Prop} (hI : KernelRules P note I M)
    (hJ : SimpleRules P J) :
    KernelRules P note (fun s g => I s g ∧ J s) (fun c s g => M c s g ∧ J s) where
  enter := fun c s g h => ⟨hI.enter c s g h.1, h.2⟩
  setTf := fun s g e tf h => ⟨hI.setTf s g e tf h.1, hJ.setTf s e tf h.2⟩
  setTfMid := fun c s g e tf h => ⟨hI.setTfMid c s g e tf h.1, hJ.setTf s e tf h.2⟩
  setCpunum := fun c s g e h hcur => ⟨hI.setCpunum c s g e h.1 hcur, hJ.setCpunum c s e h.2 hcur⟩
  resume := fun c s g e h hcur hrunning =>
    ⟨hI.resume c s g e h.1 hcur hrunning, hJ.setCpunum c s e h.2 hcur⟩
  started := fun c s g h hhalt => ⟨hI.started c s g h.1 hhalt, hJ.started c s h.2 hhalt⟩
  yield := fun c s g s' h hrun => ⟨hI.yield c s g s' h.1 hrun, hJ.yield c s s' h.2 hrun⟩
  dying := fun c s g cur e h hcur hmay hrunning hne =>
    ⟨hI.dying c s g cur e h.1 hcur hmay hrunning hne,
      hJ.dying c s cur e h.2 hcur hmay hrunning hne⟩
  retire := fun c s g cur e s' h hcur hmay hstatus hrun =>
    ⟨hI.retire c s g cur e s' h.1 hcur hmay hstatus hrun,
      hJ.retire c s cur e s' h.2 hcur hmay hstatus hrun⟩
  plain := fun c s g cur key call ret s' h hcur hP hrun =>
    ⟨hI.plain c s g cur key call ret s' h.1 hcur hP hrun,
      hJ.plain c s cur key call ret s' h.2 hcur hP hrun⟩
  other := hI.other
  frame := fun s g e dir va bytes σ h hdir hva hrun =>
    ⟨hI.frame s g e dir va bytes σ h.1 hdir hva hrun,
      hJ.frame s e dir va bytes σ h.2 hdir hva hrun⟩
  store := fun c s g va byte s' h hrun =>
    ⟨hI.store c s g va byte s' h.1 hrun, hJ.store c s va byte s' h.2 hrun⟩
  mmu := fun s g bits h => ⟨hI.mmu s g bits h.1, hJ.mmu s bits h.2⟩

/-! ## Kernel entries -/

/-- `sys_cputs` looks its own caller up. -/
theorem envid2env_self {s : Kernel} {cur : Slot} (hids : IdsMatch s) {found : Slot}
    (hfound : envid2env s cur (s.envs cur).id true = some found) : found = cur := by
  rcases hids cur with hzero | hslot
  · rw [hzero, envid2env, if_pos rfl] at hfound
    exact (Option.some.inj hfound).symm
  · unfold envid2env at hfound
    split at hfound
    · exact (Option.some.inj hfound).symm
    · rw [hslot] at hfound
      dsimp only at hfound
      split at hfound
      · cases hfound
      · split at hfound
        · cases hfound
        · exact (Option.some.inj hfound).symm

/-- The stored frame lies below `UTOP`. -/
theorem utfAddr_range (esp : Word) : (utfAddr esp).toNat + 52 ≤ utop.toNat := by
  have htop : uxstackTop.toNat = 4005560320 := by decide
  have hbase : (uxstackTop - pgSize).toNat = 4005556224 := by decide
  have hlast : (uxstackTop - 1).toNat = 4005560319 := by decide
  have hutop : utop.toNat = 4005560320 := by decide
  have hsize : utrapframeSize.toNat = 52 := by decide
  unfold utfAddr
  split
  case isTrue hnested =>
      have hlow := BitVec.le_def.mp hnested.1
      have hhigh := BitVec.le_def.mp hnested.2
      rw [hbase] at hlow
      rw [hlast] at hhigh
      have hframe : utrapframeSize ≤ esp := by
        rw [BitVec.le_def, hsize]
        omega
      have hword : (4 : Word) ≤ esp - utrapframeSize := by
        rw [BitVec.le_def, BitVec.toNat_sub_of_le hframe, hsize]
        have hfour : (4 : Word).toNat = 4 := by decide
        omega
      rw [BitVec.toNat_sub_of_le hword, BitVec.toNat_sub_of_le hframe, hsize, hutop]
      omega
  case isFalse hfresh => decide

theorem length_utrapframe (tf : Trapframe) (faultVa : Word) :
    ((utrapframe tf faultVa).flatMap wordBytes).length = 52 := by
  rfl

section Entries

variable {Ghost : Type} {P : ℕ → Kernel → Slot → Call → Prop}
variable {note : Kernel → Slot → Call → Ghost → Ghost} {I : Kernel → Ghost → Prop}
variable {s s' : Kernel} {g : Ghost} {c : ℕ} {cur e : Slot}

namespace TrapRules

variable {Q M F : Kernel → Ghost → Prop} (hrules : TrapRules c P note I Q M F)
include hrules

/-- Either exit of `env_destroy`. -/
theorem envDestroy (hinv : I s g) (hcur : s.curenv c = some cur)
    (hmay : MayDestroy P c s cur e) {exit : Exit Unit} (hrun : Jos.envDestroy s c e = some exit) :
    (∃ s', exit = .ret () s' ∧ s'.curenv c = some cur ∧ Q s' g) ∨
      ∃ s', exit = .left s' ∧ F s' g := by
  unfold Jos.envDestroy at hrun
  split at hrun
  case isTrue hother =>
      cases hrun
      exact Or.inl ⟨_, rfl, hcur, hrules.dying s g cur e hinv hcur hmay hother.1 hother.2⟩
  case isFalse hhere =>
      simp only [Option.bind_eq_bind, Option.bind_eq_some_iff] at hrun
      obtain ⟨freed, hfree, hrest⟩ := hrun
      have hstatus : (s.envs e).status ≠ .running ∨ s.curenv c = some e := by
        by_cases hrunning : (s.envs e).status = .running
        · exact Or.inr (by_contra fun hne => hhere ⟨hrunning, hne⟩)
        · exact Or.inl hrunning
      have hretire : ∀ final, Jos.retire s c e = some final → Q final g :=
        fun final => hrules.retire s g cur e final hinv hcur hmay hstatus
      simp only [Jos.retire, hfree, Option.bind_eq_bind, Option.bind_some] at hretire
      split at hrest
      case isTrue hsame =>
          simp only [Option.bind_eq_some_iff] at hrest
          obtain ⟨next, hyield, hexit⟩ := hrest
          cases hexit
          rw [if_pos hsame] at hretire
          exact Or.inr ⟨next, rfl, hrules.yield _ g next (hrules.leave _ g (hretire _ rfl)) hyield⟩
      case isFalse hother =>
          cases hrest
          rw [if_neg hother] at hretire
          exact Or.inl ⟨freed, rfl, (envFree_curenv hfree c).trans hcur, hretire _ rfl⟩

/-- Destroying the current environment does not return. -/
theorem envDestroy_current (hinv : I s g) (hcur : s.curenv c = some cur) {exit : Exit Unit}
    (hrun : Jos.envDestroy s c cur = some exit) : ∃ s', exit = .left s' ∧ F s' g := by
  rcases hrules.envDestroy hinv hcur (Or.inl rfl) hrun with ⟨s', rfl, -, -⟩ | hleft
  · unfold Jos.envDestroy at hrun
    rw [if_neg (fun hother => hother.2 hcur)] at hrun
    simp only [Option.bind_eq_bind, Option.bind_eq_some_iff] at hrun
    obtain ⟨freed, hfree, hrest⟩ := hrun
    rw [if_pos ((envFree_curenv hfree c).trans hcur)] at hrest
    simp only [Option.bind_eq_some_iff] at hrest
    obtain ⟨next, -, hexit⟩ := hrest
    cases hexit
  · exact hleft

/-- `user_mem_assert` for the current environment. -/
theorem userMemAssert (hinv : I s g) (hcur : s.curenv c = some cur) {va len perm : Word}
    {exit : Exit Unit} (hrun : Jos.userMemAssert s c cur va len perm = some exit) :
    exit = .ret () s ∨ ∃ s', exit = .left s' ∧ F s' g := by
  unfold Jos.userMemAssert at hrun
  simp only [Option.bind_eq_bind, Option.bind_eq_some_iff] at hrun
  obtain ⟨dir, -, bad, -, hrest⟩ := hrun
  cases bad with
  | none => exact Or.inl (Option.some.inj hrest).symm
  | some addr => exact Or.inr (hrules.envDestroy_current hinv hcur hrest)

theorem trapReturn (hmid : M s g) (hrun : Jos.trapReturn s c = some s') : F s' g := by
  unfold Jos.trapReturn at hrun
  split at hrun
  case h_1 e hcur =>
      split at hrun
      case isTrue hrunning =>
          rw [envRun_current hcur] at hrun
          cases hrun
          exact hrules.resume s g e hmid hcur hrunning
      case isFalse => exact hrules.yield s g s' hmid hrun
  case h_2 => exact hrules.yield s g s' hmid hrun

/-- `page_fault_handler` leaves the kernel. -/
theorem pageFaultHandler (hinv : I s g) (hcur : s.curenv c = some cur) {faultVa : Word}
    {exit : Exit Unit} (hrun : Jos.pageFaultHandler s c cur faultVa = some exit) :
    ∃ s', exit = .left s' ∧ F s' g := by
  unfold Jos.pageFaultHandler at hrun
  split at hrun
  · exact hrules.envDestroy_current hinv hcur hrun
  · simp only [Option.bind_eq_bind, Option.bind_eq_some_iff] at hrun
    obtain ⟨checked, hcheck, hrest⟩ := hrun
    rcases hrules.userMemAssert hinv hcur hcheck with rfl | ⟨left, rfl, hleft⟩
    · dsimp only at hrest
      split at hrest
      case isTrue => cases hrest
      case isFalse hdir =>
          rw [not_not] at hdir
          simp only [Option.bind_eq_some_iff] at hrest
          obtain ⟨σ, hstores, next, hresume, hexit⟩ := hrest
          cases hexit
          have hstored : I (s.setPhys σ) g := hrules.frame s g cur _ _ _ σ hinv hdir
            (by rw [length_utrapframe]; exact utfAddr_range _) hstores
          have hframe := hrules.save _ g cur
            { (s.envs cur).tf with
              eip := (s.envs cur).pgfaultUpcall, esp := utfAddr (s.envs cur).tf.esp } hstored hcur
          have hcurrent : ((s.setPhys σ).setTf cur { (s.envs cur).tf with
              eip := (s.envs cur).pgfaultUpcall,
              esp := utfAddr (s.envs cur).tf.esp }).curenv c = some cur := hcur
          change envRun ((s.setPhys σ).setTf cur _) c cur = some next at hresume
          rw [envRun_current hcurrent] at hresume
          cases hresume
          exact ⟨_, rfl, hrules.setCpunum _ g cur hframe hcurrent⟩
    · cases hrest
      exact ⟨left, rfl, hleft⟩

/-- `syscall`, with the calls that do not just return taken apart. -/
theorem syscall (hids : IdsMatch s) (hinv : I s g) (hcur : s.curenv c = some cur) {key : Word}
    {call : Call} (hcall : P c s cur call) {syscallno : Word}
    (hdecode : Sys.decode syscallno = some call.sys) {exit : Exit Word}
    (hrun : Jos.syscall s c cur key syscallno call.a1 call.a2 call.a3 call.a4 call.a5 =
      some exit) :
    (∃ ret s', exit = .ret ret s' ∧
      M (s'.setTf cur ((s'.envs cur).tf.setEax ret)) (note s cur call g)) ∨
      ∃ s', exit = .left s' ∧ F s' (note s cur call g) := by
  have hend := syscall_end hrun
  rw [hdecode] at hend
  -- who may be destroyed, by `sys_cputs` or by `sys_env_destroy`
  have hmay {envid : Word} {e : Slot} (hsys : call.sys = .cputs ∧ envid = (s.envs cur).id ∨
      call.sys = .envDestroy ∧ envid = call.a1) (hfound : envid2env s cur envid true = some e) :
      MayDestroy P c s cur e := by
    rcases hsys with ⟨-, rfl⟩ | ⟨hsys, rfl⟩
    · exact Or.inl (envid2env_self hids hfound)
    · exact Or.inr ⟨call, hsys, hcall, hfound⟩
  cases hend with
  | plain hplain =>
      exact Or.inl ⟨_, _, rfl, hrules.plain s g cur key call _ _ hinv hcur hcall hplain⟩
  | yield hsys hyield =>
      rw [hrules.other s cur call g (Or.inr (Or.inr hsys))]
      exact Or.inr ⟨_, rfl, hrules.yield s g _ (hrules.leave s g (hrules.enter s g hinv)) hyield⟩
  | nothing hsys =>
      rw [hrules.other s cur call g (hsys.imp id Or.inl)]
      exact Or.inl ⟨_, s, rfl, hrules.answer s g cur _ (hrules.enter s g hinv) hcur⟩
  | destroyed hsys hfound hdestroy =>
      rw [hrules.other s cur call g ((hsys.imp And.left And.left).imp id Or.inl)]
      rcases hrules.envDestroy hinv hcur (hmay hsys hfound) hdestroy with
        ⟨final, hexit, hcur', hfinal⟩ | ⟨final, hexit, -⟩
      · cases hexit
        exact Or.inl ⟨_, _, rfl, hrules.answer _ g cur _ hfinal hcur'⟩
      · cases hexit
  | ended hsys hfound hdestroy =>
      rw [hrules.other s cur call g ((hsys.imp And.left And.left).imp id Or.inl)]
      rcases hrules.envDestroy hinv hcur (hmay hsys hfound) hdestroy with
        ⟨final, hexit, -, -⟩ | ⟨final, hexit, hfinal⟩
      · cases hexit
      · cases hexit
        exact Or.inr ⟨_, rfl, hfinal⟩

/-- `trap_dispatch`. -/
theorem trapDispatch (hids : IdsMatch s) (hinv : I s g) (hcur : s.curenv c = some cur)
    {tf : Trapframe} {faultVa key : Word} {exit : Exit Unit}
    (hcalls : ∀ call, trapCall tf = some call → P c s cur call)
    (hrun : Jos.trapDispatch s c cur tf faultVa key = some exit) :
    (∃ s', exit = .ret () s' ∧ M s' ((trapCall tf).elim g fun call => note s cur call g)) ∨
      ∃ s', exit = .left s' ∧ F s' ((trapCall tf).elim g fun call => note s cur call g) := by
  have hbegun := hrules.enter s g hinv
  have hmid := hrules.leave s g hbegun
  unfold Jos.trapDispatch at hrun
  split at hrun
  case isTrue hfault =>
      have hnone : trapCall tf = none := by
        rw [trapCall, hfault]
        exact if_neg (by decide)
      rw [hnone]
      exact Or.inr (hrules.pageFaultHandler hinv hcur hrun)
  case isFalse =>
      split at hrun
      case isTrue hbreak =>
          have hnone : trapCall tf = none := by
            rw [trapCall, hbreak]
            exact if_neg (by decide)
          cases hrun
          rw [hnone]
          exact Or.inl ⟨s, rfl, hmid⟩
      case isFalse =>
          split at hrun
          case isTrue htrap =>
              simp only [Option.bind_eq_bind, Option.bind_eq_some_iff] at hrun
              obtain ⟨result, hsyscall, hrest⟩ := hrun
              cases hdecode : Sys.decode tf.regs.eax with
              | none =>
                  have hnone : trapCall tf = none := by
                    rw [trapCall, if_pos htrap, hdecode]
                    rfl
                  rw [hnone]
                  unfold Jos.syscall at hsyscall
                  rw [hdecode] at hsyscall
                  cases hsyscall
                  cases hrest
                  exact Or.inl ⟨_, rfl, hrules.answer s g cur _ hbegun hcur⟩
              | some sys =>
                  have hsome : trapCall tf = some ⟨sys, tf.regs.edx, tf.regs.ecx, tf.regs.ebx,
                      tf.regs.edi, tf.regs.esi⟩ := by
                    rw [trapCall, if_pos htrap, hdecode]
                    rfl
                  rw [hsome]
                  rcases hrules.syscall hids hinv hcur (hcalls _ hsome) hdecode hsyscall with
                    ⟨ret, final, rfl, hfinal⟩ | ⟨final, rfl, hfinal⟩
                  · cases hrest
                    exact Or.inl ⟨_, rfl, hfinal⟩
                  · cases hrest
                    exact Or.inr ⟨final, rfl, hfinal⟩
          case isFalse hother =>
              have hnone : trapCall tf = none := if_neg hother
              rw [hnone]
              split at hrun
              · cases hrun
                exact Or.inl ⟨s, rfl, hmid⟩
              · split at hrun
                · simp only [Option.bind_eq_bind, Option.bind_eq_some_iff] at hrun
                  obtain ⟨next, hyield, hexit⟩ := hrun
                  cases hexit
                  exact Or.inr ⟨next, rfl, hrules.yield s g next hmid hyield⟩
                · exact Or.inr (hrules.envDestroy_current hinv hcur hrun)

/-- `trap` of a CPU in user mode. -/
theorem trapUser (hids : ∀ s g, I s g → IdsMatch s) (hinv : I s g) {tf : Trapframe}
    {faultVa key : Word} (hcalls : CallsSatisfy P s (.enter c (.user tf faultVa key)))
    (hrun : Jos.trapUser s c tf faultVa key = some s') :
    F s' (noteCalls note s (.enter c (.user tf faultVa key)) s' g) := by
  unfold Jos.trapUser at hrun
  simp only [Option.bind_eq_bind, Option.bind_eq_some_iff] at hrun
  obtain ⟨cur, hcur, hrun⟩ := hrun
  split at hrun
  case isTrue hdying =>
      have hnone : callOf s (.enter c (.user tf faultVa key)) = none := by
        simp only [callOf, hcur]
        exact if_pos hdying
      simp only [Option.bind_eq_some_iff] at hrun
      obtain ⟨freed, hfree, hyield⟩ := hrun
      rw [noteCalls, hnone]
      refine hrules.yield _ g s' (hrules.leave _ g
        (hrules.retire s g cur cur _ hinv hcur (Or.inl rfl) (Or.inr hcur) ?_)) hyield
      simp [Jos.retire, hfree, (envFree_curenv hfree c).trans hcur]
  case isFalse halive =>
      have hcallOf : callOf s (.enter c (.user tf faultVa key)) =
          (trapCall tf).map fun call => (c, s.setTf cur tf, cur, call) := by
        simp only [callOf, hcur]
        exact if_neg halive
      simp only [Option.bind_eq_some_iff] at hrun
      obtain ⟨exit, hdispatch, hrest⟩ := hrun
      have hsaved := hrules.save s g cur tf hinv hcur
      have hcurrent : (s.setTf cur tf).curenv c = some cur := hcur
      have hghost : noteCalls note s (.enter c (.user tf faultVa key)) s' g =
          (trapCall tf).elim g fun call => note (s.setTf cur tf) cur call g := by
        rw [noteCalls, hcallOf]
        cases trapCall tf <;> rfl
      rw [hghost]
      rcases hrules.trapDispatch (hids _ _ hsaved) hsaved hcurrent (fun call hcall =>
          hcalls c _ cur call (by rw [hcallOf, hcall]; rfl)) hdispatch with
        ⟨final, rfl, hfinal⟩ | ⟨final, rfl, hfinal⟩
      · exact hrules.trapReturn hfinal hrest
      · cases hrest
        exact hfinal

/-- What every entry of the CPU does. -/
theorem entered (hids : ∀ s g, I s g → IdsMatch s) (hinv : I s g) {entry : Entry}
    (hcalls : CallsSatisfy P s (.enter c entry)) (hrun : Jos.enter s c entry = some s') :
    F s' (noteCalls note s (.enter c entry) s' g) := by
  have hbegun := hrules.enter s g hinv
  have hmid := hrules.leave s g hbegun
  cases entry with
  | boot =>
      simp only [Jos.enter] at hrun
      split at hrun
      · exact hrules.yield s g s' hmid hrun
      · cases hrun
  | wake =>
      simp only [Jos.enter] at hrun
      split at hrun
      case isTrue hhalted =>
          exact hrules.yield _ g s' (hrules.leave _ g (hrules.started s g hinv hhalted)) hrun
      case isFalse => cases hrun
  | user tf faultVa key =>
      simp only [Jos.enter] at hrun
      split at hrun
      · exact hrules.trapUser hids hinv hcalls hrun
      · cases hrun

end TrapRules

variable {M : ℕ → Kernel → Ghost → Prop} {F : Kernel → Ghost → Prop}

/-- What every step does. -/
theorem EntryRules.step (hrules : EntryRules P note I M F) (hids : ∀ s g, I s g → IdsMatch s)
    (hinv : I s g) {event : Event} (hcalls : CallsSatisfy P s event)
    (hstep : Jos.step s event = some s') : F s' (noteCalls note s event s' g) := by
  cases event with
  | store c va byte => exact hrules.store c s g va byte s' hinv hstep
  | mmu bits =>
      cases hstep
      exact hrules.mmu s g bits hinv
  | enter c entry => exact (hrules.trapRules c).entered hids hinv hcalls hstep

variable (hrules : KernelRules P note I M)

include hrules in
/-- An invariant that satisfies the rules holds in every state of a run. -/
theorem KernelRules.runs (hids : ∀ s g, I s g → IdsMatch s) {start : Kernel} {ghost : Ghost}
    (hstart : I start ghost)
    (hrun : Runs (ghosted Jos.step (noteCalls note))
      (fun pair event => CallsSatisfy P pair.1 event) (start, ghost) (s, g)) : I s g := by
  refine hrun.invariant (I := fun pair => I pair.1 pair.2) hstart fun before event after hinv
    hcalls hstep => ?_
  obtain ⟨final, hfinal, rfl⟩ := Option.map_eq_some_iff.mp hstep
  exact hrules.step hids hinv hcalls hfinal

end Entries

/-- A simple invariant holds in every state of a run. -/
theorem SimpleRules.runs {P : ℕ → Kernel → Slot → Call → Prop} {I : Kernel → Prop}
    (hrules : SimpleRules P I) (hids : ∀ s, I s → IdsMatch s) {start s : Kernel}
    (hstart : I start) (hrun : Runs step (CallsSatisfy P) start s) : I s :=
  hrun.invariant hstart fun _ _ _ hinv hcalls hstep =>
    hrules.kernelRules.step (fun s _ => hids s) (g := ()) hinv hcalls hstep

end OsLabs.Jos
