import OsLabs.Jos.UserMemory

/-!
# The page-fault upcall

`lib/pfentry.S` as a program of the user's processor, between the delivery of
a fault by `page_fault_handler` and the return to the instruction that faulted.
The program is fetched from text that no store of it reaches.
-/

namespace OsLabs.Jos

open UserMemory

/-! ## The processor in user mode -/

@[ext]
structure UserState where
  edi : Word
  esi : Word
  ebp : Word
  ebx : Word
  edx : Word
  ecx : Word
  eax : Word
  esp : Word
  eip : Word
  eflags : Word
  mem : UserMemory

/-- `CF`, `PF`, `AF`, `ZF`, `SF` and `OF`. -/
def statusFlags : Word := 0x8D5

/-- What `popfl` loads at `CPL` 3: the status flags, `TF`, `DF`, `NT`, `AC` and
`ID`.  The processor keeps `IF` and `IOPL`, and clears `RF` after every
instruction, so that `RF` is no part of the state. -/
def userFlags : Word := 0x244DD5

def UserState.setFlags (s : UserState) (flags : Word) : UserState :=
  { s with eflags := (s.eflags &&& ~~~statusFlags) ||| (flags &&& statusFlags) }

/-- The status flags without carry and overflow, for the result of an addition
or subtraction of `a` and `b`. -/
def resultFlags (a b result : Word) : Word :=
  let parity := (List.range 8).foldl (fun even i => even ^^ result.getLsbD i) true
  (if parity then 0x4 else 0) ||| ((a ^^^ b ^^^ result) &&& 0x10) |||
    (if result = 0 then 0x40 else 0) ||| (if result.msb then 0x80 else 0)

def addFlags (a b : Word) : Word :=
  resultFlags a b (a + b) ||| (if a + b < a then 0x1 else 0) |||
    (if a.msb = b.msb ∧ (a + b).msb ≠ a.msb then 0x800 else 0)

def subFlags (a b : Word) : Word :=
  resultFlags a b (a - b) ||| (if a < b then 0x1 else 0) |||
    (if a.msb ≠ b.msb ∧ (a - b).msb ≠ a.msb then 0x800 else 0)

/-- A store of the user: it must not reach above `UTOP`. -/
def UserState.storeWord (s : UserState) (a value : Word) : Option UserState :=
  if a.toNat + 4 ≤ utop.toNat then some { s with mem := storeBytes s.mem a (wordBytes value) }
  else none

/-- The instructions of `_pgfault_upcall`. -/
inductive Instr
  | pushlEsp
  /-- `movl a, %eax` -/
  | movlMemEax (a : Word)
  /-- `call *%eax` -/
  | callEax
  /-- `addl $imm, %esp` -/
  | addlEsp (imm : Word)
  /-- `movl disp(%esp), %edx` -/
  | movlStackEdx (disp : Word)
  /-- `subl $imm, disp(%esp)` -/
  | sublStack (imm disp : Word)
  /-- `movl disp(%esp), %eax` -/
  | movlStackEax (disp : Word)
  /-- `movl %edx, (%eax)` -/
  | movlEdxAtEax
  | popal
  | popfl
  | poplEsp
  | ret

/-- The length of its encoding. -/
def Instr.size : Instr → Word
  | pushlEsp => 1
  | movlMemEax _ => 5
  | callEax => 2
  | addlEsp _ => 3
  | movlStackEdx _ => 4
  | sublStack _ _ => 5
  | movlStackEax _ => 4
  | movlEdxAtEax => 2
  | popal => 1
  | popfl => 1
  | poplEsp => 1
  | ret => 1

/-- One instruction; a store that faults does not complete. -/
def Instr.exec (i : Instr) (s : UserState) : Option UserState :=
  let next := { s with eip := s.eip + i.size }
  match i with
  | pushlEsp => { next with esp := s.esp - 4 }.storeWord (s.esp - 4) s.esp
  | movlMemEax a => some { next with eax := s.mem.readWord a }
  | callEax =>
      { next with esp := s.esp - 4, eip := s.eax }.storeWord (s.esp - 4) (s.eip + i.size)
  | addlEsp imm => some ({ next with esp := s.esp + imm }.setFlags (addFlags s.esp imm))
  | movlStackEdx disp => some { next with edx := s.mem.readWord (s.esp + disp) }
  | sublStack imm disp =>
      let old := s.mem.readWord (s.esp + disp)
      (next.setFlags (subFlags old imm)).storeWord (s.esp + disp) (old - imm)
  | movlStackEax disp => some { next with eax := s.mem.readWord (s.esp + disp) }
  | movlEdxAtEax => next.storeWord s.eax s.edx
  | popal =>
      some { next with
        edi := s.mem.readWord s.esp
        esi := s.mem.readWord (s.esp + 4)
        ebp := s.mem.readWord (s.esp + 8)
        ebx := s.mem.readWord (s.esp + 16)
        edx := s.mem.readWord (s.esp + 20)
        ecx := s.mem.readWord (s.esp + 24)
        eax := s.mem.readWord (s.esp + 28)
        esp := s.esp + 32 }
  | popfl =>
      some { next with
        eflags := (s.eflags &&& ~~~userFlags) ||| (s.mem.readWord s.esp &&& userFlags)
        esp := s.esp + 4 }
  | poplEsp => some { next with esp := s.mem.readWord s.esp }
  | ret => some { s with eip := s.mem.readWord s.esp, esp := s.esp + 4 }

/-- `_pgfault_upcall` up to the call of the C handler, which it finds in the
variable `_pgfault_handler` at `handler`. -/
def upcallEntry (handler : Word) : List Instr :=
  [.pushlEsp, .movlMemEax handler, .callEax]

/-- `_pgfault_upcall` from the return of the C handler on. -/
def upcallExit : List Instr :=
  [.addlEsp 4, .movlStackEdx 0x28, .sublStack 4 0x30, .movlStackEax 0x30, .movlEdxAtEax,
    .addlEsp 8, .popal, .addlEsp 4, .popfl, .poplEsp, .ret]

/-! ## Delivery -/

/-- The frame `tf` that the processor and `alltraps` push for a fault in state
`s`; what it holds besides these registers is free. -/
structure TrapsAs (s : UserState) (tf : Trapframe) : Prop where
  edi : tf.regs.edi = s.edi
  esi : tf.regs.esi = s.esi
  ebp : tf.regs.ebp = s.ebp
  ebx : tf.regs.ebx = s.ebx
  edx : tf.regs.edx = s.edx
  ecx : tf.regs.ecx = s.ecx
  eax : tf.regs.eax = s.eax
  eip : tf.eip = s.eip
  eflags : tf.eflags = s.eflags
  esp : tf.esp = s.esp

/-- The memory in which `page_fault_handler` has built the user trap frame. -/
def deliverMemory (tf : Trapframe) (faultVa : Word) (mem : UserMemory) : UserMemory :=
  storeBytes mem (utfAddr tf.esp) ((utrapframe tf faultVa).flatMap wordBytes)

/-- The state in which `page_fault_handler` lets the environment go on. -/
def deliver (upcall : Word) (tf : Trapframe) (faultVa : Word) (s : UserState) : UserState :=
  { s with
    eip := upcall
    esp := utfAddr tf.esp
    mem := deliverMemory tf faultVa s.mem }

/-! ## Runs with nested faults -/

def xstackBase : ℕ := (uxstackTop - pgSize).toNat

/-- `esp` lies on the user exception stack. -/
def OnXstack (esp : Word) : Prop := xstackBase ≤ esp.toNat ∧ esp.toNat < uxstackTop.toNat

/-- The user trap frame of a fault at `esp` and the two words that the upcall
pushes below it fit in the page of the exception stack. -/
def Fits (esp : Word) : Prop :=
  xstackBase + 8 ≤ (utfAddr esp).toNat ∧ (OnXstack esp → xstackBase + 64 ≤ esp.toNat)

/-- Whether `a` is a byte of the user trap frame at `utf`. -/
def InFrame (utf a : Word) : Prop := utf.toNat ≤ a.toNat ∧ a.toNat < utf.toNat + 52

/-- Whether `a` is a byte of the word just below `esp`. -/
def BelowWord (esp a : Word) : Prop := (a - (esp - 4)).toNat < 4

section Runs

variable (Service : (Word → Prop) → UserState → UserState → Prop)

/-- Straight-line code, in which any instruction may fault first; the service
of the fault must keep the bytes of `Keep`. -/
inductive Runs (Keep : Word → Prop) : List Instr → UserState → UserState → Prop
  | done (s : UserState) : Runs Keep [] s s
  | exec {i : Instr} {is : List Instr} {s t u : UserState} :
      i.exec s = some t → Runs Keep is t u → Runs Keep (i :: is) s u
  | fault {i : Instr} {is : List Instr} {s t u : UserState} :
      OnXstack s.esp → Service Keep s t → Runs Keep (i :: is) t u → Runs Keep (i :: is) s u

/-- A C handler at work: its own code may do anything but change the bytes of
`Keep` and the flags that only the system changes, and it may fault with its
frames on the exception stack, at or below `top`. -/
inductive Handles (Keep : Word → Prop) (top : Word) : UserState → UserState → Prop
  | done (s : UserState) : Handles Keep top s s
  | own {s t u : UserState} :
      (∀ a, Keep a → t.mem a = s.mem a) →
      t.eflags &&& ~~~userFlags = s.eflags &&& ~~~userFlags →
      Handles Keep top t u → Handles Keep top s u
  | fault {s t u : UserState} :
      OnXstack s.esp → s.esp.toNat ≤ top.toNat → Service Keep s t →
      Handles Keep top t u → Handles Keep top s u

end Runs

/-- From the fault in the first state, through its delivery and the run of
`_pgfault_upcall` at `upcall`, to the state after the final `ret`, with faults
nested at most `depth` deep.  The handlers leave the bytes of `Keep`, their own
user trap frames and the word that the upcall pushes alone. -/
def Serviced (upcall handler : Word) :
    ℕ → (Word → Prop) → UserState → UserState → Prop
  | 0, _, _, _ => False
  | depth + 1, Keep, s, s' =>
      ∃ (tf : Trapframe) (faultVa : Word) (called returned : UserState),
        TrapsAs s tf ∧ Fits s.esp ∧
        Runs (Serviced upcall handler depth) (fun a => Keep a ∨ InFrame (utfAddr s.esp) a)
          (upcallEntry handler) (deliver upcall tf faultVa s) called ∧
        Handles (Serviced upcall handler depth)
          (fun a => Keep a ∨ InFrame (utfAddr s.esp) a) called.esp called returned ∧
        returned.eip = called.mem.readWord called.esp ∧ returned.esp = called.esp + 4 ∧
        Runs (Serviced upcall handler depth)
          (fun a => Keep a ∨ InFrame (utfAddr s.esp) a ∨ BelowWord s.esp a)
          upcallExit returned s'

end OsLabs.Jos
