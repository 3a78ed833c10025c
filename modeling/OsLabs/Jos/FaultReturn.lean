import OsLabs.Jos.Upcall

/-!
# Return from a page fault

A user program that faults, is delivered to its handler and comes back through
`_pgfault_upcall` finds its registers as they were, at any nesting depth.  The
argument follows the exception stack upwards: what lies at or above the stack
pointer is live, and a nested fault writes below it only.
-/

namespace OsLabs.Jos

open UserMemory

instance (esp : Word) : Decidable (OnXstack esp) := inferInstanceAs (Decidable (_ ∧ _))

/-- The end of the exception-stack bytes that are free for a fault at `esp`. -/
def xstackFree (esp : Word) : Word := if OnXstack esp then esp else uxstackTop

/-- The bytes that a fault at `esp` may cost: those of the exception stack
below the trap-time stack pointer, and the word just below it. -/
def Scratch (esp a : Word) : Prop :=
  (xstackBase ≤ a.toNat ∧ a.toNat < (xstackFree esp).toNat) ∨ BelowWord esp a

/-- `t` is `s` again, except for memory that is not in `Keep` or is scratch. -/
def Transparent (Keep : Word → Prop) (s t : UserState) : Prop :=
  t = { s with mem := t.mem } ∧ ∀ a, Keep a → ¬ Scratch s.esp a → t.mem a = s.mem a

/-! ## Addresses on the exception stack -/

theorem toNat_uxstackTop : uxstackTop.toNat = 4005560320 := by decide

theorem xstackBase_eq : xstackBase = 4005556224 := by decide

theorem utfAddr_of_onXstack {esp : Word} (hon : OnXstack esp) : utfAddr esp = esp - 56 := by
  have hguard : uxstackTop - pgSize ≤ esp ∧ esp ≤ uxstackTop - 1 := by
    constructor
    · exact BitVec.le_def.mpr hon.1
    · rw [BitVec.le_def, show (uxstackTop - 1).toNat = 4005560319 by decide]
      have := hon.2
      rw [toNat_uxstackTop] at this
      omega
  rw [utfAddr, if_pos hguard, show utrapframeSize = 52#32 from rfl]
  bv_omega

theorem utfAddr_of_not_onXstack {esp : Word} (hoff : ¬ OnXstack esp) :
    utfAddr esp = uxstackTop - 52 := by
  rw [utfAddr, if_neg, show utrapframeSize = (52 : Word) from rfl]
  rintro ⟨hlow, hhigh⟩
  apply hoff
  rw [BitVec.le_def] at hlow hhigh
  rw [show (uxstackTop - 1).toNat = 4005560319 by decide] at hhigh
  refine ⟨hlow, ?_⟩
  rw [toNat_uxstackTop]
  omega

/-- The user trap frame lies in the page, at the end of its free bytes. -/
theorem frame_bounds {esp : Word} (hfits : Fits esp) :
    xstackBase + 8 ≤ (utfAddr esp).toNat ∧
      (utfAddr esp).toNat + 52 ≤ (xstackFree esp).toNat ∧
      (xstackFree esp).toNat ≤ uxstackTop.toNat := by
  refine ⟨hfits.1, ?_⟩
  by_cases hon : OnXstack esp
  · have hroom := hfits.2 hon
    have htop := hon.2
    rw [xstackBase_eq] at hroom
    rw [xstackFree, if_pos hon, utfAddr_of_onXstack hon]
    constructor
    · bv_omega
    · omega
  · rw [xstackFree, if_neg hon, utfAddr_of_not_onXstack hon]
    decide

/-- The word that the upcall pushes is user memory outside the frame and below
nothing that is free. -/
theorem belowWord_off {esp a : Word} (hfits : Fits esp) (hesp : esp ≠ uxstackTop)
    (huser : (esp - 4).toNat + 4 ≤ utop.toNat) (hbelow : BelowWord esp a) :
    ¬ (xstackBase ≤ a.toNat ∧ a.toNat < (utfAddr esp).toNat + 52) := by
  rw [show utop.toNat = 4005560320 by decide] at huser
  rw [BelowWord] at hbelow
  rintro ⟨hlow, hhigh⟩
  by_cases hon : OnXstack esp
  · have hroom := hfits.2 hon
    rw [utfAddr_of_onXstack hon] at hhigh
    rw [xstackBase_eq] at hlow hroom
    bv_omega
  · rw [utfAddr_of_not_onXstack hon] at hhigh
    have hout : ¬ (xstackBase ≤ esp.toNat ∧ esp.toNat < uxstackTop.toNat) := hon
    have hne : esp.toNat ≠ uxstackTop.toNat := fun h => hesp (BitVec.eq_of_toNat_eq h)
    rw [xstackBase_eq] at hlow hout
    rw [toNat_uxstackTop] at hout hne
    rw [show (uxstackTop - 52).toNat = 4005560268 by decide] at hhigh
    bv_omega

/-! ## Nested faults -/

/-- `m` is changed to `m'` at most below `esp` on the exception stack and
outside `Keep`. -/
def Spares (Keep : Word → Prop) (esp : Word) (m m' : UserMemory) : Prop :=
  ∀ a, Keep a → ¬ (xstackBase ≤ a.toNat ∧ a.toNat < esp.toNat) → m' a = m a

theorem Spares.refl {Keep : Word → Prop} {esp : Word} {m : UserMemory} : Spares Keep esp m m :=
  fun _ _ _ => rfl

theorem Spares.trans {Keep : Word → Prop} {esp : Word} {m m' m'' : UserMemory}
    (hfirst : Spares Keep esp m m') (hsecond : Spares Keep esp m' m'') :
    Spares Keep esp m m'' := by
  intro a ha hhigh
  rw [hsecond a ha hhigh, hfirst a ha hhigh]

theorem Spares.mono {Keep : Word → Prop} {esp esp' : Word} {m m' : UserMemory}
    (hspares : Spares Keep esp m m') (hle : esp.toNat ≤ esp'.toNat) : Spares Keep esp' m m' :=
  fun a ha hhigh => hspares a ha fun hlow => hhigh ⟨hlow.1, lt_of_lt_of_le hlow.2 hle⟩

/-- A service that is quiet when the fault is on the exception stack: registers
come back, and memory is changed below the stack pointer only. -/
def NestedQuiet (Service : (Word → Prop) → UserState → UserState → Prop) : Prop :=
  ∀ Keep s t, OnXstack s.esp → Service Keep s t →
    t = { s with mem := t.mem } ∧ Spares Keep s.esp s.mem t.mem

section Code

variable {Service : (Word → Prop) → UserState → UserState → Prop} {Keep : Word → Prop}

/-- The next instruction is executed with the registers as they are, after the
faults before it. -/
theorem Runs.next (hquiet : NestedQuiet Service) {i : Instr} {is : List Instr}
    {s u : UserState} (hruns : Runs Service Keep (i :: is) s u) :
    ∃ m t, Spares Keep s.esp s.mem m ∧ i.exec { s with mem := m } = some t ∧
      Runs Service Keep is t u := by
  generalize hcode : i :: is = code at hruns
  induction hruns with
  | done s => cases hcode
  | @exec j js s t u hexec hrest ih =>
      cases hcode
      exact ⟨s.mem, t, Spares.refl, hexec, hrest⟩
  | @fault j js s t u hon hserv hrest ih =>
      obtain ⟨hregs, hspares⟩ := hquiet Keep s t hon hserv
      obtain ⟨m, v, hm, hexec, hv⟩ := ih hcode
      rw [hregs] at hm hexec
      exact ⟨m, v, hspares.trans hm, hexec, hv⟩

theorem Runs.eq_of_nil {s u : UserState} (hruns : Runs Service Keep [] s u) : u = s := by
  cases hruns
  rfl

/-- What a handler leaves alone, whatever faults it takes. -/
theorem Handles.spares (hquiet : NestedQuiet Service) {top : Word} {s u : UserState}
    (hhandles : Handles Service Keep top s u) :
    u.eflags &&& ~~~userFlags = s.eflags &&& ~~~userFlags ∧ Spares Keep top s.mem u.mem := by
  induction hhandles with
  | done s => exact ⟨rfl, Spares.refl⟩
  | own hkeeps hflags hrest ih =>
      refine ⟨ih.1.trans hflags, ?_⟩
      exact Spares.trans (fun a ha _ => hkeeps a ha) ih.2
  | @fault s t u hon htop hserv hrest ih =>
      obtain ⟨hregs, hspares⟩ := hquiet Keep s t hon hserv
      have hflags : t.eflags = s.eflags := by rw [hregs]
      refine ⟨by rw [ih.1, hflags], Spares.trans (fun a ha hhigh => ?_) ih.2⟩
      apply hspares a ha
      rintro ⟨hlow, hesp⟩
      exact hhigh ⟨hlow, lt_of_lt_of_le hesp htop⟩

end Code

/-! ## Single instructions -/

theorem setFlags_system (s : UserState) (flags : Word) :
    (s.setFlags flags).eflags &&& ~~~userFlags = s.eflags &&& ~~~userFlags := by
  have hstatus : ~~~statusFlags &&& ~~~userFlags = ~~~userFlags := by decide
  have hnone : statusFlags &&& ~~~userFlags = 0#32 := by decide
  rw [UserState.setFlags, BitVec.and_or_distrib_right]
  rw [BitVec.and_assoc, BitVec.and_assoc, hstatus, hnone, BitVec.and_zero, BitVec.or_zero]

/-- `popfl` restores the flags when nothing has touched those it does not load. -/
theorem popfl_restores {now saved : Word}
    (hsystem : now &&& ~~~userFlags = saved &&& ~~~userFlags) :
    (now &&& ~~~userFlags) ||| (saved &&& userFlags) = saved := by
  rw [hsystem, ← BitVec.and_or_distrib_left]
  rw [show ~~~userFlags ||| userFlags = BitVec.allOnes 32 by decide, BitVec.and_allOnes]

theorem storeWord_eq {s t : UserState} {a value : Word} (hstore : s.storeWord a value = some t) :
    a.toNat + 4 ≤ utop.toNat ∧ t = { s with mem := storeBytes s.mem a (wordBytes value) } := by
  rw [UserState.storeWord] at hstore
  split at hstore
  · next huser =>
      rw [Option.some_inj] at hstore
      exact ⟨huser, hstore.symm⟩
  · cases hstore

theorem storeWord_of_user {s : UserState} {a value : Word}
    (huser : a.toNat + 4 ≤ utop.toNat) :
    s.storeWord a value = some { s with mem := storeBytes s.mem a (wordBytes value) } :=
  if_pos huser

/-- A stored word changes no byte outside it. -/
theorem storeWord_off {mem : UserMemory} {a value b : Word} (hoff : ¬ (b - a).toNat < 4) :
    storeBytes mem a (wordBytes value) b = mem b := by
  apply storeBytes_off
  rw [length_wordBytes]
  omega

/-- A word pushed on the exception stack is stored below the stack pointer. -/
theorem push_spares {Keep : Word → Prop} {mem : UserMemory} {esp : Word} (a value : Word)
    (hlow : xstackBase ≤ a.toNat) (hhigh : a.toNat + 4 ≤ esp.toNat) :
    Spares Keep esp mem (storeBytes mem a (wordBytes value)) := by
  intro b _ hb
  apply storeWord_off
  intro hword
  apply hb
  have hesp := esp.isLt
  constructor
  · bv_omega
  · bv_omega

/-! ## Down to the handler -/

section Service

variable {Service : (Word → Prop) → UserState → UserState → Prop} {Keep : Word → Prop}
variable {s : UserState} {tf : Trapframe} {upcall handler faultVa : Word}

/-- The C handler is called right below the user trap frame. -/
theorem upcallEntry_spares (hquiet : NestedQuiet Service) (htf : TrapsAs s tf)
    (hfits : Fits s.esp) {called : UserState}
    (hruns : Runs Service Keep (upcallEntry handler) (deliver upcall tf faultVa s) called) :
    called.esp = utfAddr s.esp - 8 ∧ called.eflags = s.eflags ∧
      Spares Keep (utfAddr s.esp) (deliverMemory tf faultVa s.mem) called.mem := by
  have hlow := hfits.1
  rw [xstackBase_eq] at hlow
  have hdeliver : (deliver upcall tf faultVa s).esp = utfAddr s.esp := by rw [deliver, htf.esp]
  have hfour : (utfAddr s.esp - 4).toNat = (utfAddr s.esp).toNat - 4 := by bv_omega
  have height : (utfAddr s.esp - 4 - 4).toNat = (utfAddr s.esp).toNat - 8 := by bv_omega
  obtain ⟨m₁, t₁, hm₁, hpush, hruns⟩ := hruns.next hquiet
  obtain ⟨-, rfl⟩ := storeWord_eq hpush
  obtain ⟨m₂, t₂, hm₂, hload, hruns⟩ := hruns.next hquiet
  cases hload
  obtain ⟨m₃, t₃, hm₃, hcall, hruns⟩ := hruns.next hquiet
  obtain ⟨-, rfl⟩ := storeWord_eq hcall
  cases hruns.eq_of_nil
  dsimp only at hm₂ hm₃ ⊢
  rw [hdeliver] at hm₁ hm₂ hm₃ ⊢
  refine ⟨by bv_omega, rfl, ?_⟩
  have hfirst := hm₁.trans (push_spares (utfAddr s.esp - 4) (utfAddr s.esp)
    (by rw [xstackBase_eq, hfour]; omega) (by rw [hfour]; omega))
  have hsecond := (hfirst.trans (hm₂.mono (by omega))).trans (hm₃.mono (by omega))
  exact hsecond.trans (push_spares _ _ (by rw [xstackBase_eq, height]; omega)
    (by rw [height]; omega))

end Service

/-! ## Back to the trap-time state -/

/-- What the nested handlers of the return path leave alone. -/
def ReturnLive (Keep : Word → Prop) (esp a : Word) : Prop :=
  Keep a ∨ InFrame (utfAddr esp) a ∨ BelowWord esp a

/-- The state `t` in which the upcall unwinds the fault of `s`: its stack
pointer is at word `k` of the user trap frame, from there on the frame holds
`words`, and user memory is as in `s` up to scratch bytes. -/
structure Unwinding (Keep : Word → Prop) (s : UserState) (words : List Word) (k : ℕ)
    (t : UserState) : Prop where
  esp : t.esp = utfAddr s.esp + BitVec.ofNat 32 (4 * k)
  flags : t.eflags &&& ~~~userFlags = s.eflags &&& ~~~userFlags
  words : ∀ j word, k ≤ j → j < 13 → words[j]? = some word →
    t.mem.readWord (utfAddr s.esp + BitVec.ofNat 32 (4 * j)) = word
  rest : ∀ a, Keep a → ¬ Scratch s.esp a → t.mem a = s.mem a

/-- The address of a byte in the user trap frame. -/
theorem toNat_frameByte {esp : Word} (hfits : Fits esp) {n : ℕ} (hn : n < 52) :
    (utfAddr esp + BitVec.ofNat 32 n).toNat = (utfAddr esp).toNat + n := by
  obtain ⟨-, hend, htop⟩ := frame_bounds hfits
  rw [toNat_uxstackTop] at htop
  rw [BitVec.toNat_add, BitVec.toNat_ofNat]
  omega

section Unwind

variable {Keep : Word → Prop} {s t : UserState} {words : List Word} {k : ℕ}

/-- Bytes of the exception stack below word `k` of the frame are scratch. -/
theorem scratch_of_low (hfits : Fits s.esp) {a : Word} (hlow : xstackBase ≤ a.toNat)
    (hhigh : a.toNat < (utfAddr s.esp).toNat + 52) : Scratch s.esp a := by
  obtain ⟨-, hend, -⟩ := frame_bounds hfits
  exact Or.inl ⟨hlow, by omega⟩

theorem Unwinding.congr (hunwind : Unwinding Keep s words k t) {u : UserState}
    (hesp : u.esp = t.esp)
    (hflags : u.eflags &&& ~~~userFlags = t.eflags &&& ~~~userFlags) (hmem : u.mem = t.mem) :
    Unwinding Keep s words k u where
  esp := hesp.trans hunwind.esp
  flags := by rw [hflags, hunwind.flags]
  words := by rw [hmem]; exact hunwind.words
  rest := by rw [hmem]; exact hunwind.rest

/-- Nested faults do not disturb the unwinding. -/
theorem Unwinding.spare (hunwind : Unwinding Keep s words k t) (hfits : Fits s.esp)
    (hk : k ≤ 12) {m : UserMemory} (hspares : Spares (ReturnLive Keep s.esp) t.esp t.mem m) :
    Unwinding Keep s words k { t with mem := m } := by
  have hesp : t.esp.toNat = (utfAddr s.esp).toNat + 4 * k := by
    rw [hunwind.esp, toNat_frameByte hfits (by omega)]
  refine ⟨hunwind.esp, hunwind.flags, fun j word hj hlen hword => ?_, fun a ha hscratch => ?_⟩
  · rw [← hunwind.words j word hj hlen hword]
    apply readWord_congr
    intro i hi
    rw [BitVec.add_assoc, ← BitVec.ofNat_add]
    have hbyte := toNat_frameByte hfits (n := 4 * j + i) (by omega)
    apply hspares
    · exact Or.inr (Or.inl ⟨by omega, by omega⟩)
    · rintro ⟨-, hbelow⟩
      omega
  · rw [← hunwind.rest a ha hscratch]
    apply hspares a (Or.inl ha)
    rintro ⟨hlow, hbelow⟩
    exact hscratch (scratch_of_low hfits hlow (by omega))

/-- `addl $imm, %esp` moves the stack pointer over words of the frame. -/
theorem Unwinding.addlEsp (hunwind : Unwinding Keep s words k t) {n : ℕ} {u : UserState}
    (hexec : (Instr.addlEsp (BitVec.ofNat 32 (4 * n))).exec t = some u) :
    Unwinding Keep s words (k + n) u ∧ u.mem = t.mem := by
  cases hexec
  refine ⟨⟨?_, ?_, fun j word hj => hunwind.words j word (by omega), hunwind.rest⟩, rfl⟩
  · change t.esp + BitVec.ofNat 32 (4 * n) = _
    rw [hunwind.esp, BitVec.add_assoc, ← BitVec.ofNat_add, ← Nat.mul_add]
  · exact (setFlags_system _ _).trans hunwind.flags

/-- A word of the frame read at a displacement from the stack pointer. -/
theorem Unwinding.read (hunwind : Unwinding Keep s words k t) (j : ℕ) (word : Word)
    (hj : k + j < 13) (hword : words[k + j]? = some word) :
    t.mem.readWord (t.esp + BitVec.ofNat 32 (4 * j)) = word := by
  rw [hunwind.esp, BitVec.add_assoc, ← BitVec.ofNat_add, ← Nat.mul_add]
  exact hunwind.words (k + j) word (by omega) hj hword

/-- The trap-time stack pointer is adjusted in the frame. -/
theorem Unwinding.setEsp (hunwind : Unwinding Keep s words 0 t) (hfits : Fits s.esp)
    (value : Word) :
    Unwinding Keep s (words.set 12 value) 0
      { t with
        mem := storeBytes t.mem (utfAddr s.esp + BitVec.ofNat 32 (4 * 12)) (wordBytes value) } := by
  have hlast := toNat_frameByte hfits (n := 4 * 12) (by norm_num)
  refine ⟨hunwind.esp, hunwind.flags, fun j word hj hlen hword => ?_, fun a ha hscratch => ?_⟩
  · by_cases hj : j = 12
    · subst hj
      rw [List.getElem?_set_self'] at hword
      rw [readWord_storeWord]
      cases h12 : words[12]? with
      | none => rw [h12] at hword; cases hword
      | some old => rw [h12] at hword; exact Option.some_inj.mp hword
    · rw [List.getElem?_set_ne (Ne.symm hj)] at hword
      rw [← hunwind.words j word (by omega) hlen hword]
      apply readWord_storeBytes_off
      intro i hi
      have hbyte := toNat_frameByte hfits (n := 4 * j + i) (by omega)
      rw [BitVec.add_assoc, ← BitVec.ofNat_add, length_wordBytes, BitVec.toNat_sub, hbyte, hlast]
      omega
  · rw [← hunwind.rest a ha hscratch]
    apply storeWord_off
    intro hword
    obtain ⟨hlow, hend, htop⟩ := frame_bounds hfits
    have ha32 := a.isLt
    rw [BitVec.toNat_sub, hlast] at hword
    rw [toNat_uxstackTop] at htop
    rw [xstackBase_eq] at hlow
    apply hscratch (scratch_of_low hfits ?_ ?_)
    · rw [xstackBase_eq]
      omega
    · omega

/-- The word that the upcall pushes on the trap-time stack is stored: the frame
does not lie there. -/
theorem Unwinding.pushEip (hunwind : Unwinding Keep s words k t) (hfits : Fits s.esp)
    (hesp : s.esp ≠ uxstackTop) (huser : (s.esp - 4).toNat + 4 ≤ utop.toNat) (value : Word) :
    Unwinding Keep s words k
      { t with mem := storeBytes t.mem (s.esp - 4) (wordBytes value) } := by
  have hlow := hfits.1
  refine ⟨hunwind.esp, hunwind.flags, fun j word hj hlen hword => ?_, fun a ha hscratch => ?_⟩
  · rw [← hunwind.words j word hj hlen hword]
    apply readWord_congr
    intro i hi
    rw [BitVec.add_assoc, ← BitVec.ofNat_add]
    have hbyte := toNat_frameByte hfits (n := 4 * j + i) (by omega)
    apply storeWord_off
    intro hbelow
    exact belowWord_off hfits hesp huser hbelow ⟨by omega, by omega⟩
  · rw [← hunwind.rest a ha hscratch]
    exact storeWord_off fun hbelow => hscratch (Or.inr hbelow)

/-- The pushed word is user memory that no nested fault may write. -/
theorem readWord_pushed (hfits : Fits s.esp) (hesp : s.esp ≠ uxstackTop)
    (huser : (s.esp - 4).toNat + 4 ≤ utop.toNat) {esp : Word} {m m' : UserMemory}
    (hfree : esp.toNat ≤ (utfAddr s.esp).toNat + 52)
    (hspares : Spares (ReturnLive Keep s.esp) esp m m') :
    m'.readWord (s.esp - 4) = m.readWord (s.esp - 4) := by
  apply readWord_congr
  intro i hi
  have hbelow : BelowWord s.esp (s.esp - 4 + BitVec.ofNat 32 i) := by
    rw [BelowWord, BitVec.add_comm, BitVec.add_sub_cancel, BitVec.toNat_ofNat]
    omega
  apply hspares _ (Or.inr (Or.inr hbelow))
  rintro ⟨hlow, hhigh⟩
  exact belowWord_off hfits hesp huser hbelow ⟨hlow, by omega⟩

theorem Unwinding.readWord_pushed (hunwind : Unwinding Keep s words k t) (hfits : Fits s.esp)
    (hesp : s.esp ≠ uxstackTop) (huser : (s.esp - 4).toNat + 4 ≤ utop.toNat) (hk : k ≤ 12)
    {m : UserMemory} (hspares : Spares (ReturnLive Keep s.esp) t.esp t.mem m) :
    m.readWord (s.esp - 4) = t.mem.readWord (s.esp - 4) := by
  apply Jos.readWord_pushed hfits hesp huser _ hspares
  rw [hunwind.esp, toNat_frameByte hfits (by omega)]
  omega

end Unwind

section Service

variable {Service : (Word → Prop) → UserState → UserState → Prop} {Keep : Word → Prop}
variable {s : UserState} {tf : Trapframe} {faultVa : Word}

/-- The instructions up to the store of the trap-time `%eip` on the trap-time
stack. -/
theorem upcallExit_push (hquiet : NestedQuiet Service) (htf : TrapsAs s tf)
    (hfits : Fits s.esp) (hesp : s.esp ≠ uxstackTop) {r u : UserState}
    (hstart : Unwinding Keep s (utrapframe tf faultVa) 0 { r with esp := utfAddr s.esp })
    (hbelow : r.esp = utfAddr s.esp - 4)
    (hruns : Runs Service (ReturnLive Keep s.esp) upcallExit r u) :
    ∃ t, Unwinding Keep s ((utrapframe tf faultVa).set 12 (s.esp - 4)) 0 t ∧
      t.mem.readWord (s.esp - 4) = s.eip ∧ (s.esp - 4).toNat + 4 ≤ utop.toNat ∧
      Runs Service (ReturnLive Keep s.esp)
        [.addlEsp 8, .popal, .addlEsp 4, .popfl, .poplEsp, .ret] t u := by
  obtain ⟨m₁, t₁, hm₁, hexec₁, hruns⟩ := hruns.next hquiet
  obtain ⟨m₂, t₂, hm₂, hexec₂, hruns⟩ := hruns.next hquiet
  obtain ⟨m₃, t₃, hm₃, hexec₃, hruns⟩ := hruns.next hquiet
  obtain ⟨m₄, t₄, hm₄, hexec₄, hruns⟩ := hruns.next hquiet
  obtain ⟨m₅, t₅, hm₅, hexec₅, hruns⟩ := hruns.next hquiet
  -- `addl $4, %esp`
  have h₁ : Unwinding Keep s (utrapframe tf faultVa) 0 t₁ := by
    have hspare := hstart.spare hfits (by norm_num) (hm₁.mono (by
      dsimp only
      rw [hbelow]
      have hlow := hfits.1
      rw [xstackBase_eq] at hlow
      bv_omega))
    cases hexec₁
    refine hspare.congr ?_ ?_ rfl
    · change r.esp + 4 = utfAddr s.esp
      rw [hbelow, BitVec.sub_add_cancel]
    · exact setFlags_system _ _
  -- `movl 0x28(%esp), %edx`
  have h₂ : Unwinding Keep s (utrapframe tf faultVa) 0 t₂ ∧ t₂.edx = s.eip := by
    have hspare := h₁.spare hfits (by norm_num) hm₂
    cases hexec₂
    refine ⟨hspare.congr rfl rfl rfl, ?_⟩
    exact hspare.read 10 s.eip (by norm_num) (by rw [← htf.eip]; rfl)
  -- `subl $4, 0x30(%esp)`
  have h₃ : Unwinding Keep s ((utrapframe tf faultVa).set 12 (s.esp - 4)) 0 t₃ ∧
      t₃.edx = s.eip := by
    have hspare := h₂.1.spare hfits (by norm_num) hm₃
    have hold := hspare.read 12 s.esp (by norm_num) (by rw [← htf.esp]; rfl)
    obtain ⟨-, ht₃⟩ := storeWord_eq hexec₃
    dsimp only at hold ht₃
    rw [show BitVec.ofNat 32 (4 * 12) = 0x30 from rfl] at hold
    have hset := hspare.setEsp hfits (s.esp - 4)
    rw [← show t₂.esp + 0x30 = utfAddr s.esp + BitVec.ofNat 32 (4 * 12) by
      rw [h₂.1.esp]; exact congrArg (· + 0x30) (BitVec.add_zero _)] at hset
    rw [ht₃, hold]
    exact ⟨hset.congr rfl (setFlags_system _ _) rfl, h₂.2⟩
  -- `movl 0x30(%esp), %eax`
  have h₄ : Unwinding Keep s ((utrapframe tf faultVa).set 12 (s.esp - 4)) 0 t₄ ∧
      t₄.edx = s.eip ∧ t₄.eax = s.esp - 4 := by
    have hspare := h₃.1.spare hfits (by norm_num) hm₄
    cases hexec₄
    refine ⟨hspare.congr rfl rfl rfl, h₃.2, ?_⟩
    exact hspare.read 12 (s.esp - 4) (by norm_num) rfl
  -- `movl %edx, (%eax)`
  obtain ⟨h₄, hedx, heax⟩ := h₄
  have hspare := h₄.spare hfits (by norm_num) hm₅
  obtain ⟨huser, ht₅⟩ := storeWord_eq hexec₅
  dsimp only at huser ht₅
  rw [heax] at huser
  rw [heax, hedx] at ht₅
  refine ⟨t₅, ?_, ?_, huser, hruns⟩
  · rw [ht₅]
    exact (hspare.pushEip hfits hesp huser s.eip).congr rfl rfl rfl
  · rw [ht₅]
    exact readWord_storeWord

/-- The registers that `popal` loads. -/
structure Reloaded (s t : UserState) : Prop where
  edi : t.edi = s.edi
  esi : t.esi = s.esi
  ebp : t.ebp = s.ebp
  ebx : t.ebx = s.ebx
  edx : t.edx = s.edx
  ecx : t.ecx = s.ecx
  eax : t.eax = s.eax

theorem Unwinding.popal (htf : TrapsAs s tf) {t u : UserState} {value : Word}
    (hunwind : Unwinding Keep s ((utrapframe tf faultVa).set 12 value) 2 t)
    (hexec : Instr.popal.exec t = some u) :
    Unwinding Keep s ((utrapframe tf faultVa).set 12 value) 10 u ∧ Reloaded s u ∧
      u.mem = t.mem := by
  have hread (j : ℕ) (word : Word) (hj : 2 + j < 13)
      (hword : ((utrapframe tf faultVa).set 12 value)[2 + j]? = some word) :=
    hunwind.read j word hj hword
  cases hexec
  refine ⟨⟨?_, hunwind.flags, fun j word hj => hunwind.words j word (by omega), hunwind.rest⟩,
    ⟨?_, ?_, ?_, ?_, ?_, ?_, ?_⟩, rfl⟩
  · change t.esp + 32 = _
    rw [hunwind.esp, BitVec.add_assoc]
    rfl
  · have hedi := hread 0 tf.regs.edi (by norm_num) rfl
    rw [show BitVec.ofNat 32 (4 * 0) = 0#32 from rfl, BitVec.add_zero] at hedi
    exact hedi.trans htf.edi
  · exact (hread 1 tf.regs.esi (by norm_num) rfl).trans htf.esi
  · exact (hread 2 tf.regs.ebp (by norm_num) rfl).trans htf.ebp
  · exact (hread 4 tf.regs.ebx (by norm_num) rfl).trans htf.ebx
  · exact (hread 5 tf.regs.edx (by norm_num) rfl).trans htf.edx
  · exact (hread 6 tf.regs.ecx (by norm_num) rfl).trans htf.ecx
  · exact (hread 7 tf.regs.eax (by norm_num) rfl).trans htf.eax

theorem Unwinding.popfl (htf : TrapsAs s tf) {t u : UserState} {value : Word}
    (hunwind : Unwinding Keep s ((utrapframe tf faultVa).set 12 value) 11 t)
    (hexec : Instr.popfl.exec t = some u) :
    Unwinding Keep s ((utrapframe tf faultVa).set 12 value) 12 u ∧ u.eflags = s.eflags ∧
      u.mem = t.mem := by
  have hsaved := hunwind.read 0 tf.eflags (by norm_num) rfl
  rw [show BitVec.ofNat 32 (4 * 0) = 0#32 from rfl, BitVec.add_zero, htf.eflags] at hsaved
  have hflags : u.eflags = s.eflags := by
    cases hexec
    dsimp only
    rw [hsaved]
    exact popfl_restores hunwind.flags
  refine ⟨⟨?_, by rw [hflags], ?_, ?_⟩, hflags, ?_⟩ <;> cases hexec
  · change t.esp + 4 = _
    rw [hunwind.esp, BitVec.add_assoc]
    rfl
  · exact fun j word hj => hunwind.words j word (by omega)
  · exact hunwind.rest
  · rfl

/-- The stack pointer of the final `ret` is not above the frame's room. -/
theorem returnEsp_le (hfits : Fits s.esp) (huser : (s.esp - 4).toNat + 4 ≤ utop.toNat) :
    (s.esp - 4).toNat ≤ (utfAddr s.esp).toNat + 52 := by
  have hlow := hfits.1
  rw [xstackBase_eq] at hlow
  by_cases hon : OnXstack s.esp
  · rw [utfAddr_of_onXstack hon] at hlow ⊢
    bv_omega
  · rw [utfAddr_of_not_onXstack hon, show (uxstackTop - 52).toNat = 4005560268 by decide]
    rw [show utop.toNat = 4005560320 by decide] at huser
    omega

/-- The instructions that take the registers from the frame and return. -/
theorem upcallExit_pop (hquiet : NestedQuiet Service) (htf : TrapsAs s tf)
    (hfits : Fits s.esp) (hesp : s.esp ≠ uxstackTop)
    (huser : (s.esp - 4).toNat + 4 ≤ utop.toNat) {t u : UserState}
    (hunwind : Unwinding Keep s ((utrapframe tf faultVa).set 12 (s.esp - 4)) 0 t)
    (hpushed : t.mem.readWord (s.esp - 4) = s.eip)
    (hruns : Runs Service (ReturnLive Keep s.esp)
      [.addlEsp 8, .popal, .addlEsp 4, .popfl, .poplEsp, .ret] t u) :
    Transparent Keep s u := by
  -- `addl $8, %esp`
  obtain ⟨m₁, t₁, hm₁, hexec₁, hruns⟩ := hruns.next hquiet
  have hpush₁ := hunwind.readWord_pushed hfits hesp huser (by norm_num) hm₁
  obtain ⟨h₁, hmem₁⟩ := (hunwind.spare hfits (by norm_num) hm₁).addlEsp (n := 2) hexec₁
  -- `popal`
  obtain ⟨m₂, t₂, hm₂, hexec₂, hruns⟩ := hruns.next hquiet
  have hpush₂ := h₁.readWord_pushed hfits hesp huser (by norm_num) hm₂
  obtain ⟨h₂, hregs, hmem₂⟩ :=
    Unwinding.popal htf (h₁.spare hfits (by norm_num) hm₂) hexec₂
  -- `addl $4, %esp`
  obtain ⟨m₃, t₃, hm₃, hexec₃, hruns⟩ := hruns.next hquiet
  have hpush₃ := h₂.readWord_pushed hfits hesp huser (by norm_num) hm₃
  obtain ⟨h₃, hmem₃⟩ := (h₂.spare hfits (by norm_num) hm₃).addlEsp (n := 1) hexec₃
  -- `popfl`
  obtain ⟨m₄, t₄, hm₄, hexec₄, hruns⟩ := hruns.next hquiet
  have hpush₄ := h₃.readWord_pushed hfits hesp huser (by norm_num) hm₄
  obtain ⟨h₄, hflags, hmem₄⟩ :=
    Unwinding.popfl htf (h₃.spare hfits (by norm_num) hm₄) hexec₄
  -- `popl %esp`
  obtain ⟨m₅, t₅, hm₅, hexec₅, hruns⟩ := hruns.next hquiet
  have hpush₅ := h₄.readWord_pushed hfits hesp huser (by norm_num) hm₅
  have h₅ := h₄.spare hfits (by norm_num) hm₅
  have hesp₅ := h₅.read 0 (s.esp - 4) (by norm_num) rfl
  rw [show BitVec.ofNat 32 (4 * 0) = 0#32 from rfl, BitVec.add_zero] at hesp₅
  -- `ret`
  obtain ⟨m₆, t₆, hm₆, hexec₆, hruns⟩ := hruns.next hquiet
  cases hruns.eq_of_nil
  have hfree := returnEsp_le hfits huser
  have hpop : t₅.esp = s.esp - 4 ∧ t₅.mem = m₅ := by
    cases hexec₅
    exact ⟨hesp₅, rfl⟩
  rw [hpop.1, hpop.2] at hm₆
  have hreturn : m₆.readWord (s.esp - 4) = s.eip := by
    rw [readWord_pushed hfits hesp huser hfree hm₆, hpush₅, hmem₄]
    dsimp only
    rw [hpush₄, hmem₃]
    dsimp only
    rw [hpush₃, hmem₂]
    dsimp only
    rw [hpush₂, hmem₁]
    dsimp only
    rw [hpush₁, hpushed]
  have hrest (a : Word) (ha : Keep a) (hscratch : ¬ Scratch s.esp a) : m₆ a = s.mem a := by
    rw [← h₅.rest a ha hscratch]
    apply hm₆ a (Or.inl ha)
    rintro ⟨hlow, hbelow⟩
    exact hscratch (scratch_of_low hfits hlow (by omega))
  cases hexec₃
  cases hexec₄
  cases hexec₅
  cases hexec₆
  refine ⟨?_, hrest⟩
  apply UserState.ext
  · exact hregs.edi
  · exact hregs.esi
  · exact hregs.ebp
  · exact hregs.ebx
  · exact hregs.edx
  · exact hregs.ecx
  · exact hregs.eax
  · exact (congrArg (· + 4) hpop.1).trans (BitVec.sub_add_cancel s.esp 4)
  · exact (congrArg m₆.readWord hpop.1).trans hreturn
  · exact hflags
  · rfl

/-! ## The whole service -/

/-- The user trap frame holds the words that `page_fault_handler` has stored. -/
theorem deliver_unwinding (htf : TrapsAs s tf) (hfits : Fits s.esp) {t : UserState}
    (hesp : t.esp = utfAddr s.esp)
    (hflags : t.eflags &&& ~~~userFlags = s.eflags &&& ~~~userFlags)
    (hspares : Spares (fun a => Keep a ∨ InFrame (utfAddr s.esp) a) (utfAddr s.esp)
      (deliverMemory tf faultVa s.mem) t.mem) :
    Unwinding Keep s (utrapframe tf faultVa) 0 t := by
  rw [deliverMemory, htf.esp] at hspares
  have hlen : ((utrapframe tf faultVa).flatMap wordBytes).length = 52 := by
    rw [length_flatMap_wordBytes]
    rfl
  refine ⟨?_, hflags, fun j word _ hj hword => ?_, fun a ha hscratch => ?_⟩
  · rw [hesp]
    exact (BitVec.add_zero _).symm
  · rw [← readWord_storeWords s.mem (utfAddr s.esp) hword (by omega)]
    apply readWord_congr
    intro i hi
    rw [BitVec.add_assoc, ← BitVec.ofNat_add]
    have hbyte := toNat_frameByte hfits (n := 4 * j + i) (by omega)
    apply hspares
    · exact Or.inr ⟨by omega, by omega⟩
    · rintro ⟨-, hbelow⟩
      omega
  · obtain ⟨hlow, hend, htop⟩ := frame_bounds hfits
    have hnot : ¬ (xstackBase ≤ a.toNat ∧ a.toNat < (utfAddr s.esp).toNat + 52) :=
      fun h => hscratch (scratch_of_low hfits h.1 h.2)
    rw [hspares a (Or.inl ha) fun h => hnot ⟨h.1, by omega⟩]
    apply storeBytes_off
    rw [hlen]
    rw [toNat_uxstackTop] at htop
    rw [xstackBase_eq] at hlow hnot
    bv_omega

/-- When the handler is back, the user trap frame is as it was delivered. -/
theorem handler_unwinding (hquiet : NestedQuiet Service) (htf : TrapsAs s tf)
    (hfits : Fits s.esp) {upcall handler : Word} {called returned : UserState}
    (hentry : Runs Service (fun a => Keep a ∨ InFrame (utfAddr s.esp) a)
      (upcallEntry handler) (deliver upcall tf faultVa s) called)
    (hhandler : Handles Service (fun a => Keep a ∨ InFrame (utfAddr s.esp) a) called.esp
      called returned) :
    called.esp = utfAddr s.esp - 8 ∧
      Unwinding Keep s (utrapframe tf faultVa) 0 { returned with esp := utfAddr s.esp } := by
  have hlow := hfits.1
  rw [xstackBase_eq] at hlow
  obtain ⟨hcalled, hflags, hdown⟩ := upcallEntry_spares hquiet htf hfits hentry
  obtain ⟨hsystem, hwork⟩ := hhandler.spares hquiet
  have hspares := hdown.trans (hwork.mono (by rw [hcalled]; bv_omega))
  exact ⟨hcalled, deliver_unwinding htf hfits rfl (by rw [hsystem, hflags]) hspares⟩

/-- One level of nesting: with quiet services below it, a service is
transparent. -/
theorem service_transparent (hquiet : NestedQuiet Service) (htf : TrapsAs s tf)
    (hfits : Fits s.esp) (hesp : s.esp ≠ uxstackTop) {upcall handler : Word}
    {called returned s' : UserState}
    (hentry : Runs Service (fun a => Keep a ∨ InFrame (utfAddr s.esp) a)
      (upcallEntry handler) (deliver upcall tf faultVa s) called)
    (hhandler : Handles Service (fun a => Keep a ∨ InFrame (utfAddr s.esp) a) called.esp
      called returned)
    (hreturn : returned.esp = called.esp + 4)
    (hexit : Runs Service (ReturnLive Keep s.esp) upcallExit returned s') :
    Transparent Keep s s' := by
  obtain ⟨hcalled, hstart⟩ := handler_unwinding hquiet htf hfits hentry hhandler
  have hbelow : returned.esp = utfAddr s.esp - 4 := by
    rw [hreturn, hcalled]
    bv_omega
  obtain ⟨t, hunwind, hpushed, huser, hruns⟩ :=
    upcallExit_push hquiet htf hfits hesp hstart hbelow hexit
  exact upcallExit_pop hquiet htf hfits hesp huser hunwind hpushed hruns

end Service

/-- A service that is transparent is quiet for a fault on the exception stack:
the word below the stack pointer lies on it, too. -/
theorem quiet_of_transparent {Service : (Word → Prop) → UserState → UserState → Prop}
    (hfits : ∀ Keep s t, Service Keep s t → Fits s.esp)
    (htransparent : ∀ Keep s t, Service Keep s t → s.esp ≠ uxstackTop → Transparent Keep s t) :
    NestedQuiet Service := by
  intro Keep s t hon hserv
  have hne : s.esp ≠ uxstackTop := by
    intro h
    have htop := hon.2
    rw [h] at htop
    exact lt_irrefl _ htop
  obtain ⟨hregs, hrest⟩ := htransparent Keep s t hserv hne
  refine ⟨hregs, fun a ha hhigh => hrest a ha ?_⟩
  rintro (hlow | hbelow)
  · rw [xstackFree, if_pos hon] at hlow
    exact hhigh hlow
  · apply hhigh
    have hroom := (hfits Keep s t hserv).2 hon
    rw [BelowWord] at hbelow
    rw [xstackBase_eq] at hroom ⊢
    constructor
    · bv_omega
    · bv_omega

theorem Serviced.fits {upcall handler : Word} {depth : ℕ} {Keep : Word → Prop}
    {s s' : UserState} (hserviced : Serviced upcall handler depth Keep s s') : Fits s.esp := by
  cases depth with
  | zero => exact hserviced.elim
  | succ depth =>
      obtain ⟨_, _, _, _, -, hfits, -⟩ := hserviced
      exact hfits

theorem serviced_transparent {upcall handler : Word} {depth : ℕ} {Keep : Word → Prop}
    {s s' : UserState} (hserviced : Serviced upcall handler depth Keep s s')
    (hesp : s.esp ≠ uxstackTop) : Transparent Keep s s' := by
  induction depth generalizing Keep s s' with
  | zero => exact hserviced.elim
  | succ depth ih =>
      have hquiet : NestedQuiet (Serviced upcall handler depth) :=
        quiet_of_transparent (fun _ _ _ => Serviced.fits) fun _ _ _ => ih
      obtain ⟨tf, faultVa, called, returned, htf, hfits, hentry, hhandler, -, hreturn, hexit⟩ :=
        hserviced
      exact service_transparent hquiet htf hfits hesp hentry hhandler hreturn hexit

/-- Page-fault delivery is transparent at every nesting depth: registers,
flags, instruction and stack pointer are those of the fault, memory changes in
scratch bytes only, and when the fault is one of a handler at work, nothing
changes from its stack pointer up. -/
theorem fault_transparent (upcall handler : Word) (depth : ℕ) (Keep : Word → Prop)
    (s s' : UserState) (hserviced : Serviced upcall handler depth Keep s s')
    (hesp : s.esp ≠ uxstackTop) :
    Transparent Keep s s' ∧
      (OnXstack s.esp → ∀ a, Keep a → s.esp.toNat ≤ a.toNat → s'.mem a = s.mem a) := by
  have htransparent := serviced_transparent hserviced hesp
  refine ⟨htransparent, fun hon a ha hlive => htransparent.2 a ha ?_⟩
  have hlow := hon.1
  rw [xstackBase_eq] at hlow
  rintro (hfree | hbelow)
  · rw [xstackFree, if_pos hon] at hfree
    omega
  · rw [BelowWord] at hbelow
    bv_omega

/-! ## Runs without a nested fault -/

def execAll : List Instr → UserState → Option UserState
  | [], s => some s
  | i :: is, s => i.exec s >>= execAll is

theorem Runs.of_execAll {Service : (Word → Prop) → UserState → UserState → Prop}
    {Keep : Word → Prop} {is : List Instr} {s t : UserState} (hexec : execAll is s = some t) :
    Runs Service Keep is s t := by
  induction is generalizing s with
  | nil =>
      cases hexec
      exact Runs.done _
  | cons i is ih =>
      obtain ⟨u, hu, hrest⟩ := Option.bind_eq_some_iff.mp hexec
      exact Runs.exec hu (ih hrest)

/-- Without a fault in it, the upcall reaches the call of the handler. -/
theorem upcallEntry_completes (upcall handler faultVa : Word) {s : UserState} {tf : Trapframe}
    (htf : TrapsAs s tf) (hfits : Fits s.esp) :
    ∃ called, execAll (upcallEntry handler) (deliver upcall tf faultVa s) = some called := by
  obtain ⟨hlow, hend, htop⟩ := frame_bounds hfits
  rw [xstackBase_eq] at hlow
  rw [toNat_uxstackTop] at htop
  have hfirst : (utfAddr s.esp - 4).toNat + 4 ≤ utop.toNat := by
    rw [show utop.toNat = 4005560320 by decide]
    bv_omega
  have hsecond : (utfAddr s.esp - 4 - 4).toNat + 4 ≤ utop.toNat := by
    rw [show utop.toNat = 4005560320 by decide]
    bv_omega
  have hesp : (deliver upcall tf faultVa s).esp = utfAddr s.esp := by rw [deliver, htf.esp]
  simp only [execAll, upcallEntry, Instr.exec, hesp, storeWord_of_user hfirst,
    Option.bind_eq_bind, Option.bind_some, storeWord_of_user hsecond, Option.some.injEq,
    exists_eq']

/-- Without a fault in it, the return path of the upcall reaches its final
`ret`, when the word below the trap-time stack pointer is user memory. -/
theorem upcallExit_completes {Keep : Word → Prop} {s r : UserState} {tf : Trapframe}
    {faultVa : Word} (htf : TrapsAs s tf) (hfits : Fits s.esp)
    (huser : (s.esp - 4).toNat + 4 ≤ utop.toNat)
    (hstart : Unwinding Keep s (utrapframe tf faultVa) 0 { r with esp := utfAddr s.esp })
    (hbelow : r.esp = utfAddr s.esp - 4) :
    ∃ s', execAll upcallExit r = some s' := by
  obtain ⟨-, hend, htop⟩ := frame_bounds hfits
  rw [toNat_uxstackTop] at htop
  have hframe : (utfAddr s.esp + 0x30).toNat + 4 ≤ utop.toNat := by
    rw [show utop.toNat = 4005560320 by decide]
    bv_omega
  have hsaved : r.mem.readWord (utfAddr s.esp + 0x30) = s.esp :=
    hstart.read 12 s.esp (by norm_num) (by rw [← htf.esp]; rfl)
  simp only [execAll, upcallExit, Instr.exec, UserState.setFlags, hbelow,
    BitVec.sub_add_cancel, Option.bind_eq_bind, Option.bind_some, hsaved,
    storeWord_of_user hframe, readWord_storeWord, storeWord_of_user huser, Option.some.injEq,
    exists_eq']

/-- The frame of a write fault in state `s`. -/
def UserState.trapframe (s : UserState) : Trapframe where
  regs := ⟨s.edi, s.esi, s.ebp, 0, s.ebx, s.edx, s.ecx, s.eax⟩
  es := 0x23
  ds := 0x23
  trapno := tPgflt
  err := 6
  eip := s.eip
  cs := 0x1B
  eflags := s.eflags
  esp := s.esp
  ss := 0x23

theorem UserState.trapsAs_trapframe (s : UserState) : TrapsAs s s.trapframe :=
  ⟨rfl, rfl, rfl, rfl, rfl, rfl, rfl, rfl, rfl, rfl⟩

/-- Delivery to a handler that returns at once. -/
def serve (upcall handler : Word) (tf : Trapframe) (faultVa : Word) (s : UserState) :
    Option UserState := do
  let called ← execAll (upcallEntry handler) (deliver upcall tf faultVa s)
  let returned ← Instr.ret.exec called
  execAll upcallExit returned

theorem serviced_of_serve {upcall handler faultVa : Word} {tf : Trapframe} {depth : ℕ}
    {Keep : Word → Prop} {s s' : UserState} (htf : TrapsAs s tf) (hfits : Fits s.esp)
    (hserve : serve upcall handler tf faultVa s = some s') :
    Serviced upcall handler (depth + 1) Keep s s' := by
  obtain ⟨called, hcalled, hrest⟩ := Option.bind_eq_some_iff.mp hserve
  obtain ⟨returned, hreturned, hexit⟩ := Option.bind_eq_some_iff.mp hrest
  cases hreturned
  refine ⟨tf, faultVa, called, _, htf, hfits, Runs.of_execAll hcalled, ?_, rfl, rfl,
    Runs.of_execAll hexit⟩
  refine Handles.own ?_ ?_ (Handles.done _)
  · exact fun _ _ => rfl
  · rfl

theorem Handles.trans {Service : (Word → Prop) → UserState → UserState → Prop}
    {Keep : Word → Prop} {top : Word} {s t u : UserState}
    (hfirst : Handles Service Keep top s t) (hsecond : Handles Service Keep top t u) :
    Handles Service Keep top s u := by
  induction hfirst with
  | done s => exact hsecond
  | own hkeeps hflags hrest ih => exact Handles.own hkeeps hflags (ih hsecond)
  | fault hon htop hserv hrest ih => exact Handles.fault hon htop hserv (ih hsecond)

theorem serviced_quiet (upcall handler : Word) (depth : ℕ) :
    NestedQuiet (Serviced upcall handler depth) :=
  quiet_of_transparent (fun _ _ _ => Serviced.fits) fun _ _ _ => serviced_transparent

/-- A handler that comes back to its first stack pointer can return, and the
upcall with it. -/
theorem exists_serviced_of_handles {upcall handler : Word} (faultVa : Word) {tf : Trapframe}
    {depth : ℕ} {Keep : Word → Prop} {s : UserState} (htf : TrapsAs s tf) (hfits : Fits s.esp)
    (huser : (s.esp - 4).toNat + 4 ≤ utop.toNat)
    (hhandler : ∀ called, called.esp = utfAddr s.esp - 8 → ∃ t,
      Handles (Serviced upcall handler depth)
        (fun a => Keep a ∨ InFrame (utfAddr s.esp) a) called.esp called t ∧
      t.esp = called.esp) :
    ∃ s', Serviced upcall handler (depth + 1) Keep s s' := by
  have hquiet := serviced_quiet upcall handler depth
  obtain ⟨called, hexec⟩ := upcallEntry_completes upcall handler faultVa htf hfits
  have hentry : Runs (Serviced upcall handler depth)
      (fun a => Keep a ∨ InFrame (utfAddr s.esp) a) (upcallEntry handler)
      (deliver upcall tf faultVa s) called := Runs.of_execAll hexec
  obtain ⟨hcalled, -, -⟩ := upcallEntry_spares hquiet htf hfits hentry
  obtain ⟨t, hhandles, hback⟩ := hhandler called hcalled
  have hreturned : Handles (Serviced upcall handler depth)
      (fun a => Keep a ∨ InFrame (utfAddr s.esp) a) called.esp called
      { t with esp := called.esp + 4, eip := called.mem.readWord called.esp } := by
    apply hhandles.trans
    refine Handles.own ?_ ?_ (Handles.done _)
    · exact fun _ _ => rfl
    · rfl
  obtain ⟨-, hstart⟩ := handler_unwinding hquiet htf hfits hentry hreturned
  have hbelow : called.esp + 4 = utfAddr s.esp - 4 := by
    rw [hcalled]
    bv_omega
  obtain ⟨s', hexit⟩ := upcallExit_completes htf hfits huser hstart hbelow
  exact ⟨s', tf, faultVa, called, _, htf, hfits, hentry, hreturned, rfl, rfl,
    Runs.of_execAll hexit⟩

/-- A fault with room for `depth` more below it is served, whatever the other
registers hold: here by a handler that faults at once while there is room. -/
theorem exists_serviced (upcall handler : Word) (Keep : Word → Prop) (depth : ℕ)
    (s : UserState) (hroom : xstackBase + 8 + 64 * depth ≤ (utfAddr s.esp).toNat)
    (hfits : Fits s.esp) (hesp : s.esp ≠ uxstackTop)
    (huser : (s.esp - 4).toNat + 4 ≤ utop.toNat) :
    ∃ s', Serviced upcall handler (depth + 1) Keep s s' := by
  induction depth generalizing Keep s with
  | zero =>
      exact exists_serviced_of_handles 0 s.trapsAs_trapframe hfits huser fun called hcalled =>
        ⟨called, Handles.done called, rfl⟩
  | succ depth ih =>
      apply exists_serviced_of_handles 0 s.trapsAs_trapframe hfits huser
      intro called hcalled
      obtain ⟨hlow, hend, htop⟩ := frame_bounds hfits
      rw [toNat_uxstackTop] at htop
      rw [xstackBase_eq] at hlow hroom
      have hesp₁ : called.esp.toNat = (utfAddr s.esp).toNat - 8 := by
        rw [hcalled]
        bv_omega
      have hon : OnXstack called.esp := by
        rw [OnXstack, xstackBase_eq, toNat_uxstackTop]
        omega
      have hutf : (utfAddr called.esp).toNat = (utfAddr s.esp).toNat - 64 := by
        rw [utfAddr_of_onXstack hon]
        bv_omega
      have hne : called.esp ≠ uxstackTop := fun h => by
        rw [h, toNat_uxstackTop] at hesp₁
        omega
      have hfits₁ : Fits called.esp := by
        rw [Fits, hutf, xstackBase_eq]
        exact ⟨by omega, fun _ => by omega⟩
      obtain ⟨t, hserviced⟩ := ih (fun a => Keep a ∨ InFrame (utfAddr s.esp) a) called
        (by rw [xstackBase_eq, hutf]; omega) hfits₁ hne
        (by rw [show utop.toNat = 4005560320 by decide]; bv_omega)
      have hback := congrArg UserState.esp (serviced_transparent hserviced hne).1
      exact ⟨t, Handles.fault hon le_rfl hserviced (Handles.done t), hback⟩

/-- A user program about to fault, with its stack pointer at `esp`. -/
def faultingAt (esp : Word) : UserState :=
  ⟨1, 2, 3, 4, 5, 6, 7, esp, 0x800020, 0x246, fun _ => 0⟩

/-- A fault on the normal stack, whose handler faults in turn. -/
theorem nestedFault_transparent :
    ∃ s', Serviced 0x800100 0x804000 2 (fun _ => True) (faultingAt 0xEEBFDF00) s' ∧
      Transparent (fun _ => True) (faultingAt 0xEEBFDF00) s' := by
  obtain ⟨s', hserviced⟩ := exists_serviced 0x800100 0x804000 (fun _ => True) 1
    (faultingAt 0xEEBFDF00) (by decide) ⟨by decide, fun hon => absurd hon (by decide)⟩
    (by decide) (by decide)
  exact ⟨s', hserviced,
    (fault_transparent 0x800100 0x804000 2 (fun _ => True) _ s' hserviced (by decide)).1⟩

/-- With the stack pointer at the very top of the exception stack the frame is
built where the upcall pushes `%eip`: control comes back with another stack
pointer. -/
theorem fault_at_xstackTop :
    ¬ ∀ (depth : ℕ) (Keep : Word → Prop) (s s' : UserState),
      Serviced 0x800100 0x804000 depth Keep s s' → Transparent Keep s s' := by
  intro h
  have hesp : (serve 0x800100 0x804000 (faultingAt uxstackTop).trapframe 0xA0000000
      (faultingAt uxstackTop)).map UserState.esp = some 0x800024 := by
    decide
  obtain ⟨s', hserve, hesp'⟩ := Option.map_eq_some_iff.mp hesp
  have hfits : Fits (faultingAt uxstackTop).esp :=
    ⟨by decide, fun hon => absurd hon (by decide)⟩
  have hserviced : Serviced 0x800100 0x804000 1 (fun _ => True) (faultingAt uxstackTop) s' :=
    serviced_of_serve (faultingAt uxstackTop).trapsAs_trapframe hfits hserve
  have hback := congrArg UserState.esp (h 1 _ _ s' hserviced).1
  rw [hesp'] at hback
  change (0x800024 : Word) = uxstackTop at hback
  exact absurd hback (by decide)

end OsLabs.Jos
