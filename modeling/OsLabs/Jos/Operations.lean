import OsLabs.Jos.EnvTable

/-!
# The kernel one operation at a time

A kernel entry is a sequence of operations: it saves the trap frame, carries
out a system call, frees an environment, decides what to run.  `operate`
performs one of them.  Every run of the system is a run of operations, so what
a history of operations shows (how often `sched_yield` passed an environment
over, what a CPU has cached) is a history of the system.
-/

namespace OsLabs.Jos

open OsLabs.Transition

inductive Operation
  | setTf (e : Slot) (tf : Trapframe)
  /-- `env_run` of the current environment -/
  | resume (c : ℕ) (e : Slot)
  /-- a timer interrupt wakes CPU `c` -/
  | wake (c : ℕ)
  /-- `sched_yield` -/
  | decide (c : ℕ)
  /-- `env_destroy` of an environment that another CPU runs -/
  | mark (c : ℕ) (e : Slot)
  /-- `env_free`, at the end of an environment -/
  | retire (c : ℕ) (e : Slot)
  /-- a system call that returns -/
  | call (c : ℕ) (cur : Slot) (key : Word) (call : Call)
  /-- `page_fault_handler` stores a frame -/
  | frame (e : Slot) (va : Word) (bytes : List (BitVec 8))
  /-- a user program stores a byte -/
  | store (c : ℕ) (va : Word) (byte : BitVec 8)
  /-- the MMU sets accessed and dirty flags -/
  | mmu (bits : ℕ → ℕ → Word)

/-- One operation, where the kernel can perform it. -/
def operate (s : Kernel) : Operation → Option Kernel
  | .setTf e tf => some (s.setTf e tf)
  | .resume c e =>
      if s.curenv c = some e then some (s.setEnv e { s.envs e with cpunum := c }) else none
  | .wake c => if (s.cpus c).status = .halted then some (s.setCpuStatus c .started) else none
  | .decide c => schedYield s c
  | .mark c e =>
      if (s.envs e).status = .running ∧ s.curenv c ≠ some e then some (s.setStatus e .dying)
      else none
  | .retire c e =>
      if (s.envs e).status ≠ .running ∨ s.curenv c = some e then retire s c e else none
  | .call c cur key call =>
      if s.curenv c = some cur then (plainCall s cur key call).map Prod.snd else none
  | .frame e va bytes => do
      let dir ← (s.envs e).pgdir
      if va.toNat + bytes.length ≤ utop.toNat then
        (kernelStores s.phys dir va bytes).map s.setPhys
      else none
  | .store c va byte => userStore s c va byte
  | .mmu bits => some (s.setPhys (s.phys.setMmuBits bits))

/-- The calls satisfy `P`, and only what a current environment may destroy is
destroyed. -/
def Allowed (P : ℕ → Kernel → Slot → Call → Prop) (s : Kernel) : Operation → Prop
  | .call c cur _ call => P c s cur call
  | .mark c e => ∃ cur, s.curenv c = some cur ∧ MayDestroy P c s cur e
  | .retire c e => ∃ cur, s.curenv c = some cur ∧ MayDestroy P c s cur e
  | _ => True

section Invariants

variable {P : ℕ → Kernel → Slot → Call → Prop} {I : Kernel → Prop} {s s' : Kernel}

/-- The rules for an invariant are its obligations for each operation. -/
theorem SimpleRules.operate (hrules : SimpleRules P I) (hinv : I s) {operation : Operation}
    (hallowed : Allowed P s operation) (hstep : Jos.operate s operation = some s') : I s' := by
  cases operation with
  | setTf e tf =>
      cases hstep
      exact hrules.setTf s e tf hinv
  | resume c e =>
      obtain ⟨hcur, hdone⟩ := Option.ite_none_right_eq_some.mp hstep
      cases hdone
      exact hrules.setCpunum c s e hinv hcur
  | wake c =>
      obtain ⟨hhalted, hdone⟩ := Option.ite_none_right_eq_some.mp hstep
      cases hdone
      exact hrules.started c s hinv hhalted
  | decide c => exact hrules.yield c s s' hinv hstep
  | mark c e =>
      obtain ⟨⟨hrunning, hne⟩, hdone⟩ := Option.ite_none_right_eq_some.mp hstep
      obtain ⟨cur, hcur, hmay⟩ := hallowed
      cases hdone
      exact hrules.dying c s cur e hinv hcur hmay hrunning hne
  | retire c e =>
      obtain ⟨hstatus, hdone⟩ := Option.ite_none_right_eq_some.mp hstep
      obtain ⟨cur, hcur, hmay⟩ := hallowed
      exact hrules.retire c s cur e s' hinv hcur hmay hstatus hdone
  | call c cur key call =>
      obtain ⟨hcur, hdone⟩ := Option.ite_none_right_eq_some.mp hstep
      obtain ⟨⟨ret, after⟩, hcall, rfl⟩ := Option.map_eq_some_iff.mp hdone
      exact hrules.plain c s cur key call ret after hinv hcur hallowed hcall
  | frame e va bytes =>
      obtain ⟨dir, hdir, hdone⟩ := Option.bind_eq_some_iff.mp hstep
      obtain ⟨hva, hstores⟩ := Option.ite_none_right_eq_some.mp hdone
      obtain ⟨σ, hσ, rfl⟩ := Option.map_eq_some_iff.mp hstores
      exact hrules.frame s e dir va bytes σ hinv hdir hva hσ
  | store c va byte => exact hrules.store c s va byte s' hinv hstep
  | mmu bits =>
      cases hstep
      exact hrules.mmu s bits hinv

/-- An invariant that satisfies the rules holds after any operations. -/
theorem SimpleRules.operations (hrules : SimpleRules P I) {start : Kernel} (hstart : I start)
    (hrun : Runs Jos.operate (Allowed P) start s) : I s :=
  hrun.invariant hstart fun _ _ _ hinv hallowed hstep => hrules.operate hinv hallowed hstep

end Invariants

/-- Being reached by operations satisfies the rules. -/
theorem operations_rules (P : ℕ → Kernel → Slot → Call → Prop) (start : Kernel) :
    SimpleRules P (Runs operate (Allowed P) start) where
  setTf := fun s e tf hrun => hrun.tail (show Allowed P s (.setTf e tf) from trivial) rfl
  setCpunum := fun c s e hrun hcur =>
    hrun.tail (show Allowed P s (.resume c e) from trivial) (if_pos hcur)
  started := fun c s hrun hhalted =>
    hrun.tail (show Allowed P s (.wake c) from trivial) (if_pos hhalted)
  yield := fun c s s' hrun hyield =>
    hrun.tail (show Allowed P s (.decide c) from trivial) hyield
  dying := fun c s cur e hrun hcur hmay hrunning hne =>
    hrun.tail (show Allowed P s (.mark c e) from ⟨cur, hcur, hmay⟩) (if_pos ⟨hrunning, hne⟩)
  retire := fun c s cur e s' hrun hcur hmay hstatus hretire =>
    hrun.tail (show Allowed P s (.retire c e) from ⟨cur, hcur, hmay⟩)
      ((if_pos hstatus).trans hretire)
  plain := fun c s cur key call ret s' hrun hcur hP hcall =>
    hrun.tail (show Allowed P s (.call c cur key call) from hP)
      (by rw [operate, if_pos hcur, hcall]; rfl)
  frame := fun s e dir va bytes σ hrun hdir hva hstores =>
    hrun.tail (show Allowed P s (.frame e va bytes) from trivial)
      (by simp [operate, hdir, hva, hstores])
  store := fun c s va byte s' hrun hstore =>
    hrun.tail (show Allowed P s (.store c va byte) from trivial) hstore
  mmu := fun s bits hrun => hrun.tail (show Allowed P s (.mmu bits) from trivial) rfl

/-- A run of the system is a run of operations. -/
theorem runs_operate {P : ℕ → Kernel → Slot → Call → Prop} {start s : Kernel}
    (htable : TableOk start) (hrun : Runs step (CallsSatisfy P) start s) :
    Runs operate (Allowed P) start s :=
  (((tableOk_rules P).and (operations_rules P start)).runs (fun _ hinv => hinv.1.ids)
    ⟨htable, Runs.refl⟩ hrun).2

end OsLabs.Jos
