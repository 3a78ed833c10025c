import OsLabs.Jos.Trap

/-!
# Interrupt lines

`kbd_init`, `pic_init` and `lapic_init` decide which device interrupts reach a
CPU; `trap_init` and `kern/trapentry.S` decide with which trap number they
arrive.
-/

namespace OsLabs.Jos

open Function

def irqSlave : ℕ := 2
def irqKbd : Fin 16 := 1
def irqError : Word := 19
def tGpflt : Word := 13

/-! ## The interrupt controllers 8259A (`kern/picirq.c`) -/

/-- One controller: its mask, the vector of its first line, and how many
initialization words it still waits for. -/
structure Pic8259A where
  mask : BitVec 8
  offset : BitVec 8
  pending : ℕ

/-- A byte on the command port.  ICW1 clears the mask and announces ICW2 to
ICW4; the other commands change neither the mask nor the vectors. -/
def Pic8259A.command (pic : Pic8259A) (byte : BitVec 8) : Pic8259A :=
  if byte &&& 0x10 = 0 then pic else { pic with mask := 0, pending := 3 }

/-- A byte on the data port: ICW2 is the vector of the first line, and outside
the initialization a byte is the mask. -/
def Pic8259A.data (pic : Pic8259A) (byte : BitVec 8) : Pic8259A :=
  match pic.pending with
  | 0 => { pic with mask := byte }
  | 3 => { pic with offset := byte, pending := 2 }
  | words + 1 => { pic with pending := words }

/-- The two controllers and the variables of `kern/picirq.c`. -/
structure Irqs where
  master : Pic8259A
  slave : Pic8259A
  irqMask : BitVec 16
  didinit : Bool

def ioPic1 : BitVec 16 := 0x20
def ioPic2 : BitVec 16 := 0xA0

def outb (irqs : Irqs) (port : BitVec 16) (byte : BitVec 8) : Irqs :=
  if port = ioPic1 then { irqs with master := irqs.master.command byte }
  else if port = ioPic1 + 1 then { irqs with master := irqs.master.data byte }
  else if port = ioPic2 then { irqs with slave := irqs.slave.command byte }
  else if port = ioPic2 + 1 then { irqs with slave := irqs.slave.data byte }
  else irqs

/-- `irq_setmask_8259A`, without the message it prints. -/
def irqSetmask8259A (irqs : Irqs) (mask : BitVec 16) : Irqs :=
  let irqs := { irqs with irqMask := mask }
  if irqs.didinit then
    outb (outb irqs (ioPic1 + 1) (mask.setWidth 8)) (ioPic2 + 1) ((mask >>> 8).setWidth 8)
  else irqs

/-- The writes of `pic_init`, up to the mask. -/
def picInitBytes : List (BitVec 16 × BitVec 8) :=
  [(ioPic1 + 1, 0xFF), (ioPic2 + 1, 0xFF),
    (ioPic1, 0x11), (ioPic1 + 1, irqOffset.setWidth 8), (ioPic1 + 1, 1 <<< irqSlave),
    (ioPic1 + 1, 0x3),
    (ioPic2, 0x11), (ioPic2 + 1, irqOffset.setWidth 8 + 8), (ioPic2 + 1, BitVec.ofNat 8 irqSlave),
    (ioPic2 + 1, 0x01),
    (ioPic1, 0x68), (ioPic1, 0x0a), (ioPic2, 0x68), (ioPic2, 0x0a)]

def picInit (irqs : Irqs) : Irqs :=
  let irqs := picInitBytes.foldl (fun irqs write => outb irqs write.1 write.2)
    { irqs with didinit := true }
  if irqs.irqMask ≠ 0xFFFF then irqSetmask8259A irqs irqs.irqMask else irqs

/-- `kbd_init`, up to the character it drains. -/
def kbdInit (irqs : Irqs) : Irqs :=
  irqSetmask8259A irqs (irqs.irqMask &&& ~~~((1 : BitVec 16) <<< 1))

/-- The controllers after `i386_init`, which the BIOS left in some state. -/
def bootIrqs (master slave : Pic8259A) : Irqs :=
  picInit (kbdInit ⟨master, slave, 0xFFFF &&& ~~~((1 : BitVec 16) <<< irqSlave), false⟩)

/-- Whatever the BIOS left, the lines 1 and 2 of the master are open. -/
theorem bootIrqs_eq (master slave : Pic8259A) :
    bootIrqs master slave = ⟨⟨0xF9, 32, 0⟩, ⟨0xFF, 40, 0⟩, 0xFFF9, true⟩ := by
  have hmask : (0xFFFF : BitVec 16) &&& ~~~((1 : BitVec 16) <<< irqSlave) &&&
      ~~~((1 : BitVec 16) <<< 1) = 0xFFF9 := by decide
  have hinit : picInitBytes.foldl (fun irqs write => outb irqs write.1 write.2)
      ⟨master, slave, 0xFFF9, true⟩ = ⟨⟨0, 32, 0⟩, ⟨0, 40, 0⟩, 0xFFF9, true⟩ := rfl
  have hkbd : kbdInit ⟨master, slave, 0xFFFF &&& ~~~((1 : BitVec 16) <<< irqSlave), false⟩ =
      ⟨master, slave, 0xFFF9, false⟩ := by
    rw [kbdInit, hmask]
    rfl
  rw [bootIrqs, hkbd, picInit, hinit]
  rfl

/-! ## The local APIC (`kern/lapic.c`) -/

namespace Lapic

/-! Indices of registers. -/

def ver : ℕ := 0x0030 / 4
def tpr : ℕ := 0x0080 / 4
def eoi : ℕ := 0x00B0 / 4
def svr : ℕ := 0x00F0 / 4
def esr : ℕ := 0x0280 / 4
def icrlo : ℕ := 0x0300 / 4
def icrhi : ℕ := 0x0310 / 4
def timer : ℕ := 0x0320 / 4
def pcint : ℕ := 0x0340 / 4
def lint0 : ℕ := 0x0350 / 4
def lint1 : ℕ := 0x0360 / 4
def error : ℕ := 0x0370 / 4
def ticr : ℕ := 0x0380 / 4
def tdcr : ℕ := 0x03E0 / 4

def enable : Word := 0x00000100
def init : Word := 0x00000500
def level : Word := 0x00008000
def bcast : Word := 0x00080000
def x1 : Word := 0x0000000B
def periodic : Word := 0x00020000
def masked : Word := 0x00010000

end Lapic

open Lapic in
/-- The writes of `lapic_init`, on the boot CPU or on another one. -/
def lapicInitWrites (onBootcpu hasPcint : Bool) : List (ℕ × Word) :=
  [(svr, enable ||| (irqOffset + irqSpurious)), (tdcr, x1),
    (timer, periodic ||| (irqOffset + irqTimer)), (ticr, 10000000)] ++
  (if onBootcpu then [] else [(lint0, masked)]) ++
  [(lint1, masked)] ++
  (if hasPcint then [(pcint, masked)] else []) ++
  [(error, irqOffset + irqError), (esr, 0), (esr, 0), (eoi, 0), (icrhi, 0),
    (icrlo, bcast ||| init ||| level), (tpr, 0)]

/-- There is an entry for the performance counter. -/
def hasPcint (regs : ℕ → Word) : Bool := decide (4 ≤ (regs Lapic.ver >>> 16) &&& 0xFF)

def lapicInitRegs (regs : ℕ → Word) (onBootcpu : Bool) : ℕ → Word :=
  (lapicInitWrites onBootcpu (hasPcint regs)).foldl
    (fun regs write => update regs write.1 write.2) regs

/-! ## What reaches a CPU -/

/-- The interrupt hardware as the BIOS left it. -/
structure InterruptHardware where
  master : Pic8259A
  slave : Pic8259A
  /-- there is a local APIC -/
  lapicaddr : Bool
  /-- the registers of the local APIC of each CPU -/
  lapic : ℕ → ℕ → Word
  bootcpu : ℕ

/-- A source of interrupts from outside the program. -/
inductive Line
  /-- a line of the two 8259A -/
  | irq (n : Fin 16)
  /-- the entries of the local vector table -/
  | timer
  | performance
  | lint1
  | error
  /-- an interrupt of the local APIC that went away -/
  | spurious
  deriving DecidableEq

namespace InterruptHardware

variable (hw : InterruptHardware) (c : ℕ)

/-- The registers of the local APIC of CPU `c` once the kernel has set it up. -/
def registers : ℕ → Word := lapicInitRegs (hw.lapic c) (c = hw.bootcpu)

def irqs : Irqs := bootIrqs hw.master hw.slave

/-- Line `n` of the 8259A passes the masks; line 2 is where the slave is connected. -/
def picOpen (n : Fin 16) : Bool :=
  if (n : ℕ) < 8 then decide ((n : ℕ) ≠ irqSlave) && !hw.irqs.master.mask.getLsbD n
  else !hw.irqs.master.mask.getLsbD irqSlave && !hw.irqs.slave.mask.getLsbD (n - 8)

/-- An entry of the local vector table is not masked. -/
def lvtOpen (index : ℕ) : Bool := hw.lapicaddr && decide (hw.registers c index &&& Lapic.masked = 0)

/-- The lines that the kernel leaves unmasked for CPU `c`.  The 8259A is
connected to LINT0, or to the CPU itself when there is no local APIC. -/
def unmasked : Line → Bool
  | .irq n => hw.picOpen n && (!hw.lapicaddr || hw.lvtOpen c Lapic.lint0)
  | .timer => hw.lvtOpen c Lapic.timer
  | .performance => hasPcint (hw.lapic c) && hw.lvtOpen c Lapic.pcint
  | .lint1 => hw.lvtOpen c Lapic.lint1
  | .error => hw.lvtOpen c Lapic.error
  | .spurious => hw.lapicaddr

/-- The vector that a register of the local APIC holds. -/
def lvtVector (index : ℕ) : Word := hw.registers c index &&& 0xFF

/-- The vector of a line. -/
def vector : Line → Word
  | .irq n =>
      if (n : ℕ) < 8 then hw.irqs.master.offset.setWidth 32 + BitVec.ofNat 32 n
      else hw.irqs.slave.offset.setWidth 32 + BitVec.ofNat 32 (n - 8)
  | .timer => hw.lvtVector c Lapic.timer
  | .performance => hw.lvtVector c Lapic.pcint
  | .lint1 => hw.lvtVector c Lapic.lint1
  | .error => hw.lvtVector c Lapic.error
  | .spurious => hw.lvtVector c Lapic.svr

end InterruptHardware

/-- `trap_init` made a gate for the vector. -/
def idtGate (vector : Word) : Bool :=
  decide (vector ≤ 16 ∧ vector ≠ 2 ∧ vector ≠ 15) || decide (vector = 48) ||
    decide (irqOffset ≤ vector ∧ vector < irqOffset + 16)

/-- The trap number and the error code with which a vector arrives.  The gate
pushes its number; without a gate there is a general protection fault. -/
def raised (vector : Word) : Word × Word :=
  if idtGate vector then (vector, 0) else (tGpflt, vector * 8 + 3)

/-! ## The open lines -/

section Open

variable {hw : InterruptHardware} {c : ℕ}

theorem lapicInit_timer (regs : ℕ → Word) (boot : Bool) :
    lapicInitRegs regs boot Lapic.timer = Lapic.periodic ||| (irqOffset + irqTimer) := by
  rw [lapicInitRegs]
  cases boot <;> cases hasPcint regs <;> rfl

theorem lapicInit_error (regs : ℕ → Word) (boot : Bool) :
    lapicInitRegs regs boot Lapic.error = irqOffset + irqError := by
  rw [lapicInitRegs]
  cases boot <;> cases hasPcint regs <;> rfl

theorem lapicInit_svr (regs : ℕ → Word) (boot : Bool) :
    lapicInitRegs regs boot Lapic.svr = Lapic.enable ||| (irqOffset + irqSpurious) := by
  rw [lapicInitRegs]
  cases boot <;> cases hasPcint regs <;> rfl

theorem lapicInit_lint1 (regs : ℕ → Word) (boot : Bool) :
    lapicInitRegs regs boot Lapic.lint1 = Lapic.masked := by
  rw [lapicInitRegs]
  cases boot <;> cases hasPcint regs <;> rfl

theorem lapicInit_lint0 (regs : ℕ → Word) (boot : Bool) :
    lapicInitRegs regs boot Lapic.lint0 = if boot then regs Lapic.lint0 else Lapic.masked := by
  rw [lapicInitRegs]
  cases boot <;> cases hasPcint regs <;> rfl

theorem lapicInit_pcint (regs : ℕ → Word) (boot : Bool) (hpcint : hasPcint regs = true) :
    lapicInitRegs regs boot Lapic.pcint = Lapic.masked := by
  rw [lapicInitRegs, hpcint]
  cases boot <;> rfl

theorem picOpen_iff (n : Fin 16) : hw.picOpen n = true ↔ n = irqKbd := by
  rw [InterruptHardware.picOpen, InterruptHardware.irqs, bootIrqs_eq]
  revert n
  decide

/-- The lines that the kernel leaves unmasked are the keyboard on the boot CPU and, with a local
APIC, the timer, its errors and its spurious interrupts. -/
theorem unmasked_iff (line : Line) : hw.unmasked c line = true ↔
    line = .irq irqKbd ∧ (hw.lapicaddr = true →
      c = hw.bootcpu ∧ hw.lapic c Lapic.lint0 &&& Lapic.masked = 0) ∨
    (line = .timer ∨ line = .error ∨ line = .spurious) ∧ hw.lapicaddr = true := by
  cases line with
  | irq n =>
    have hlint : hw.lvtOpen c Lapic.lint0 = true ↔ hw.lapicaddr = true ∧ c = hw.bootcpu ∧
        hw.lapic c Lapic.lint0 &&& Lapic.masked = 0 := by
      rw [InterruptHardware.lvtOpen, InterruptHardware.registers, lapicInit_lint0,
        Bool.and_eq_true, decide_eq_true_eq]
      by_cases hboot : c = hw.bootcpu
      · simp [hboot]
      · simp [hboot, Lapic.masked]
    rw [InterruptHardware.unmasked, Bool.and_eq_true, picOpen_iff, Bool.or_eq_true, hlint]
    cases hw.lapicaddr <;> simp
  | timer =>
    rw [InterruptHardware.unmasked, InterruptHardware.lvtOpen, InterruptHardware.registers,
      lapicInit_timer]
    simp [Lapic.periodic, Lapic.masked, irqOffset, irqTimer]
  | performance =>
    rw [InterruptHardware.unmasked]
    cases hpcint : hasPcint (hw.lapic c) with
    | false => simp
    | true =>
      rw [InterruptHardware.lvtOpen, InterruptHardware.registers, lapicInit_pcint _ _ hpcint]
      simp [Lapic.masked]
  | lint1 =>
    rw [InterruptHardware.unmasked, InterruptHardware.lvtOpen, InterruptHardware.registers,
      lapicInit_lint1]
    simp [Lapic.masked]
  | error =>
    rw [InterruptHardware.unmasked, InterruptHardware.lvtOpen, InterruptHardware.registers,
      lapicInit_error]
    simp [Lapic.masked, irqOffset, irqError]
  | spurious => simp [InterruptHardware.unmasked]

theorem raised_timer : raised (hw.vector c .timer) = (irqOffset + irqTimer, 0) := by
  have hvector : hw.vector c .timer = irqOffset + irqTimer := by
    rw [InterruptHardware.vector, InterruptHardware.lvtVector, InterruptHardware.registers,
      lapicInit_timer]
    decide
  rw [hvector]
  decide

theorem raised_spurious : raised (hw.vector c .spurious) = (irqOffset + irqSpurious, 0) := by
  have hvector : hw.vector c .spurious = irqOffset + irqSpurious := by
    rw [InterruptHardware.vector, InterruptHardware.lvtVector, InterruptHardware.registers,
      lapicInit_svr]
    decide
  rw [hvector]
  decide

theorem raised_kbd : raised (hw.vector c (.irq irqKbd)) = (33, 0) := by
  rw [InterruptHardware.vector, InterruptHardware.irqs, bootIrqs_eq]
  decide

/-- There is no gate for the errors of the local APIC. -/
theorem raised_error : raised (hw.vector c .error) = (tGpflt, 0x19B) := by
  have hvector : hw.vector c .error = 51 := by
    rw [InterruptHardware.vector, InterruptHardware.lvtVector, InterruptHardware.registers,
      lapicInit_error]
    decide
  rw [hvector]
  decide

end Open

end OsLabs.Jos
