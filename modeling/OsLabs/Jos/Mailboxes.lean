import OsLabs.Core.Rendezvous
import OsLabs.Jos.Exclusion
import OsLabs.Jos.Messages
import OsLabs.Jos.Receivers

/-!
# Messages between environments

The `env_ipc` fields of an environment are a mailbox for one message.
`sys_ipc_recv` asks for one, `sys_ipc_try_send` posts it, and `ipc_recv` of the
user library takes it by three loads, between which other environments and the
other CPUs go on.
-/

namespace OsLabs.Jos

open Function
open OsLabs.Rendezvous
open OsLabs.Transition

/-- How far the receiver is in `ipc_recv`. -/
inductive RecvPhase
  | outside
  /-- in `sys_ipc_recv` -/
  | called
  | back (ret : Word)
  | gotFrom (sender : Word)
  | gotPerm (sender perm : Word)

/-- The mailbox of the receiver, and its program. -/
structure Inbox where
  box : Mailbox IpcResult
  phase : RecvPhase

/-- The message of a successful `sys_ipc_try_send` to `r`. -/
def sentMessage (s : Kernel) (cur r : Slot) (call : Call) : IpcResult :=
  { fromEnvStore := (s.envs cur).id
    permStore :=
      if MapsPage s cur (sendCall call.a1 call.a2 call.a3 call.a4) then call.a4
      else (s.envs r).ipcPerm
    value := call.a2 }

/-- What a call does to the inbox of `r`. -/
def noteInbox (r : Slot) (s : Kernel) (cur : Slot) (call : Call) (inbox : Inbox) : Inbox :=
  match call.sys with
  | .ipcRecv =>
      if cur = r then
        { box := if resultOf s cur call = some 0 then inbox.box.ask else inbox.box
          phase := .called }
      else inbox
  | .ipcTrySend =>
      if envid2env s cur call.a1 false = some r ∧ resultOf s cur call = some 0 then
        { inbox with box := inbox.box.post (sentMessage s cur r call) }
      else inbox
  | _ => inbox

/-- `sys_ipc_recv` returns when CPU `c` goes on with the receiver. -/
def noteReturn (r : Slot) (c : ℕ) (s' : Kernel) (inbox : Inbox) : Inbox :=
  match inbox.phase with
  | .called =>
      if s'.curenv c = some r then { inbox with phase := .back (s'.envs r).tf.regs.eax }
      else inbox
  | _ => inbox

/-- The next step of `ipc_recv` after `sys_ipc_recv`; `env` is `*thisenv`. -/
def ipcRecvNext (env : Env) (inbox : Inbox) : Option Inbox :=
  match inbox.phase with
  | .outside => none
  | .called => none
  | .back ret =>
      some { inbox with phase := if ret ≠ 0 then .outside else .gotFrom env.ipcFrom }
  | .gotFrom sender => some { inbox with phase := .gotPerm sender env.ipcPerm }
  | .gotPerm sender perm =>
      some { box := inbox.box.take ⟨sender, perm, env.ipcValue⟩, phase := .outside }

inductive IpcEvent
  | system (event : Event)
  /-- the receiver goes on in `ipc_recv` on CPU `c` -/
  | receiver (c : ℕ)

def ipcStep (r : Slot) (pair : Kernel × Inbox) : IpcEvent → Option (Kernel × Inbox)
  | .system (.enter c entry) => (enter pair.1 c entry).map fun s' =>
      (s', noteReturn r c s' (noteCalls (noteInbox r) pair.1 (.enter c entry) s' pair.2))
  | .system event => (step pair.1 event).map fun s' => (s', pair.2)
  | .receiver c =>
      if (pair.1.cpus c).status = .started ∧ pair.1.curenv c = some r then
        (ipcRecvNext (pair.1.envs r) pair.2).map fun inbox => (pair.1, inbox)
      else none

/-- A call that leaves the status of `r` to messages and the scheduler, once it has been set up.
The receiver itself makes no other `sys_ipc_recv` than that of `ipc_recv`. -/
structure LeavesReceiver (r : Slot) (phase : RecvPhase) (s : Kernel) (cur : Slot) (call : Call) :
    Prop where
  status : call.sys = .envSetStatus → envid2env s cur call.a1 true = some r →
    OffCpu s r ∧ (s.envs r).ipcRecving = false
  recv : call.sys = .ipcRecv → cur = r → phase = .outside

/-- The condition on the steps: their calls leave the receiver alone, and it is not destroyed. -/
def KeepsReceiver (r : Slot) (pair : Kernel × Inbox) : IpcEvent → Prop
  | .system event => CallsSatisfy (fun _ => LeavesReceiver r pair.2.phase) pair.1 event ∧
      ∀ s', step pair.1 event = some s' → (s'.envs r).pgdir ≠ none
  | .receiver _ => True

/-- Of the messages that were sent to `r`, `ipc_recv` has returned all, once and in order, but for
one that it is about to return; and no other can be sent before it asks for one. -/
structure DeliversOnce (r : Slot) (s : Kernel) (inbox : Inbox) : Prop where
  orderly : inbox.box.Orderly
  started : inbox.box.taken <+: inbox.box.posted
  all : inbox.phase = .outside → inbox.box.taken = inbox.box.posted
  waiting : (s.envs r).ipcRecving = true → inbox.phase = .called ∧
    inbox.box.taken = inbox.box.posted
  refused : inbox.box.slip ≠ .asked → ∀ cur envid value srcva perm,
    envid2env s cur envid false = some r →
      sysIpcTrySend s cur envid value srcva perm = some (-eIpcNotRecv, s)

/-! ## The invariant -/

/-- What the mailbox depends on. -/
def Env.ipcPart (env : Env) : EnvStatus × Bool × IpcResult :=
  (env.status, env.ipcRecving, ipcRecv env 0)

/-- There is a message in the mailbox. -/
def Inbox.Full (inbox : Inbox) : Prop := ∃ message, inbox.box.slip = .full message

/-- What is in the mailbox at each point of `ipc_recv`. -/
def Inbox.Fits (inbox : Inbox) (away : Prop) (env : Env) : Prop :=
  match inbox.phase with
  | .outside => inbox.box.slip = .shut
  | .called => away ∧ (env.tf.regs.eax = 0 ↔ inbox.box.slip ≠ .shut)
  | .back ret => (ret = 0 ∧ inbox.Full) ∨ (ret ≠ 0 ∧ inbox.box.slip = .shut)
  | .gotFrom sender => inbox.Full ∧ sender = env.ipcFrom
  | .gotPerm sender perm => inbox.Full ∧ sender = env.ipcFrom ∧ perm = env.ipcPerm

/-- The mailbox is what the fields of the receiver say, and the receiver is where its status and
its program say, as far as the CPUs in `K` are concerned. -/
structure Receiving (K : Set ℕ) (r : Slot) (s : Kernel) (inbox : Inbox) : Prop where
  table : TableOk s
  present : (s.envs r).pgdir ≠ none
  orderly : inbox.box.Orderly
  asked : inbox.box.slip = .asked ↔ (s.envs r).ipcRecving = true
  full : ∀ message, inbox.box.slip = .full message → message = ipcRecv (s.envs r) 0
  fits : inbox.Fits (∀ k ∈ K, s.curenv k ≠ some r) (s.envs r)
  blocked : (s.envs r).ipcRecving = true → (s.envs r).status = .notRunnable
  alone : ∀ j k, s.curenv j = some r → s.curenv k = some r → j = k
  active : ∀ k, s.curenv k = some r → (s.envs r).status = .running ∨
    (s.envs r).status = .dying ∨ k ∉ K ∧ (s.envs r).ipcRecving = true

theorem table_rules : SimpleRules (fun _ _ _ _ => True) TableOk := tableOk_rules _

section Receiver

variable {r e cur : Slot} {s s' : Kernel} {inbox : Inbox} {K K' : Set ℕ} {c : ℕ}

theorem Inbox.Fits.mono {away away' : Prop} {env env' : Env} (hfits : inbox.Fits away env)
    (haway : inbox.phase = .called → away → away' ∧ env'.tf.regs.eax = env.tf.regs.eax)
    (hsame : ipcRecv env' 0 = ipcRecv env 0) : inbox.Fits away' env' := by
  have hfrom : env'.ipcFrom = env.ipcFrom := congrArg IpcResult.fromEnvStore hsame
  have hperm : env'.ipcPerm = env.ipcPerm := congrArg IpcResult.permStore hsame
  cases hphase : inbox.phase with
  | outside => simpa only [Inbox.Fits, hphase] using hfits
  | called =>
    simp only [Inbox.Fits, hphase] at hfits ⊢
    obtain ⟨haway', heax⟩ := haway hphase hfits.1
    rw [heax]
    exact ⟨haway', hfits.2⟩
  | back ret => simpa only [Inbox.Fits, hphase] using hfits
  | gotFrom sender => simpa only [Inbox.Fits, hphase, hfrom] using hfits
  | gotPerm sender perm => simpa only [Inbox.Fits, hphase, hfrom, hperm] using hfits

namespace Receiving

/-- Nothing that the mailbox depends on changes. -/
theorem congr (h : Receiving K r s inbox) (htable : TableOk s')
    (hdir : (s'.envs r).pgdir = (s.envs r).pgdir)
    (hpart : (s'.envs r).ipcPart = (s.envs r).ipcPart)
    (heax : inbox.phase = .called → (s'.envs r).tf.regs.eax = (s.envs r).tf.regs.eax)
    (hcur : ∀ k, s'.curenv k = s.curenv k) : Receiving K r s' inbox := by
  simp only [Env.ipcPart, Prod.mk.injEq] at hpart
  obtain ⟨hstatus, hrecving, hfields⟩ := hpart
  exact
    { table := htable
      present := by rw [hdir]; exact h.present
      orderly := h.orderly
      asked := by rw [hrecving]; exact h.asked
      full := by rw [hfields]; exact h.full
      fits := h.fits.mono (fun hcalled haway => ⟨fun k hk => by rw [hcur]; exact haway k hk,
        heax hcalled⟩) hfields
      blocked := by rw [hrecving, hstatus]; exact h.blocked
      alone := fun j k hj hk => h.alone j k (by rwa [← hcur]) (by rwa [← hcur])
      active := fun k hk => by
        rw [hstatus, hrecving]
        exact h.active k (by rwa [← hcur]) }

theorem mono (h : Receiving K r s inbox) (hsub : K' ⊆ K) : Receiving K' r s inbox :=
  { h with
    fits := h.fits.mono (fun _ haway => ⟨fun k hk => haway k (hsub hk), rfl⟩) rfl
    active := fun k hk => (h.active k hk).imp_right fun hrest =>
      hrest.imp_right fun hout => ⟨fun hk' => hout.1 (hsub hk'), hout.2⟩ }

/-- A change of one environment that leaves the fields of the receiver alone. -/
theorem setEnv (h : Receiving K r s inbox) {env : Env} (htable : TableOk (s.setEnv e env))
    (hdir : env.pgdir = (s.envs e).pgdir)
    (hpart : e = r → env.ipcPart = (s.envs r).ipcPart)
    (heax : e = r → inbox.phase = .called → env.tf.regs.eax = (s.envs r).tf.regs.eax) :
    Receiving K r (s.setEnv e env) inbox := by
  by_cases hsame : e = r
  · subst hsame
    have hself : (s.setEnv e env).envs e = env := update_self _ _ _
    exact h.congr htable (by rw [hself, hdir]) (by rw [hself]; exact hpart rfl)
      (fun hcalled => by rw [hself]; exact heax rfl hcalled) fun _ => rfl
  · have hother : (s.setEnv e env).envs r = s.envs r := update_of_ne (Ne.symm hsame) _ _
    exact h.congr htable (by rw [hother]) (by rw [hother]) (fun _ => by rw [hother]) fun _ => rfl

/-- A receiver that is on a CPU is not in `sys_ipc_recv`. -/
theorem not_called (h : Receiving K r s inbox) {k : ℕ} (hk : k ∈ K) (hcur : s.curenv k = some r) :
    inbox.phase ≠ .called := by
  intro hcalled
  have hfits := h.fits
  simp only [Inbox.Fits, hcalled] at hfits
  exact hfits.1 k hk hcur

theorem not_recving (h : Receiving K r s inbox) (hstatus : (s.envs r).status ≠ .notRunnable) :
    (s.envs r).ipcRecving = false := by
  by_contra hrecv
  exact hstatus (h.blocked (by rwa [Bool.not_eq_false] at hrecv))

/-- A runnable receiver is on no CPU. -/
theorem offCpu_of_runnable (h : Receiving K r s inbox) (hstatus : (s.envs r).status = .runnable) :
    OffCpu s r := by
  intro k hk
  have hactive := h.active k hk
  rw [hstatus, h.not_recving (by rw [hstatus]; decide)] at hactive
  rcases hactive with hbad | hbad | ⟨-, hbad⟩ <;> cases hbad

/-- The receiver runs, or has been destroyed while it ran. -/
theorem running (h : Receiving K r s inbox) {k : ℕ} (hk : k ∈ K) (hcur : s.curenv k = some r) :
    (s.envs r).status = .running ∨ (s.envs r).status = .dying :=
  (h.active k hcur).imp_right fun hrest => hrest.resolve_right fun hout => hout.1 hk

theorem setTf (h : Receiving K r s inbox) (hcur : cur = r → inbox.phase ≠ .called)
    (tf : Trapframe) : Receiving K r (s.setTf cur tf) inbox :=
  h.setEnv (table_rules.setTf s cur tf h.table) rfl (fun hsame => by rw [← hsame]; rfl)
    fun hsame hcalled => absurd hcalled (hcur hsame)

theorem setPhys (h : Receiving K r s inbox) (σ : Phys) : Receiving K r (s.setPhys σ) inbox :=
  h.congr (h.table.of_slotPart (fun _ => rfl) rfl) rfl rfl (fun _ => rfl) fun _ => rfl

theorem setCpunum (h : Receiving K r s inbox) (e : Slot) (c : ℕ) :
    Receiving K r (s.setEnv e { s.envs e with cpunum := c }) inbox :=
  h.setEnv (h.table.of_slotPart (fun k => field_setEnv Env.slotPart (by rfl) k) rfl) rfl
    (fun hsame => by rw [← hsame]; rfl) fun hsame _ => by rw [← hsame]

end Receiving

/-! ## Scheduling -/

/-- The receiver is on a CPU only if it runs there. -/
def ActiveOnly (r : Slot) (s : Kernel) : Prop :=
  ∀ k, s.curenv k = some r → (s.envs r).status = .running ∨ (s.envs r).status = .dying

theorem Receiving.active_of_cpu (h : Receiving {c}ᶜ r s inbox)
    (hcpu : s.curenv c = some r → (s.envs r).status = .running) : ActiveOnly r s := by
  intro k hk
  by_cases hc : k = c
  · rw [hc] at hk
    exact Or.inl (hcpu hk)
  · exact h.running (Set.mem_compl_singleton_iff.mpr hc) hk

/-- The CPU goes on with its environment, which runs. -/
theorem Receiving.keep (h : Receiving {c}ᶜ r s inbox) (hcur : s.curenv c = some e)
    (hrunning : (s.envs e).status = .running) :
    Receiving {c}ᶜ r (s.setEnv e { s.envs e with cpunum := c }) inbox ∧
      ActiveOnly r (s.setEnv e { s.envs e with cpunum := c }) := by
  have hkept := h.setCpunum e c
  refine ⟨hkept, hkept.active_of_cpu fun hr => ?_⟩
  have hsame : e = r := Option.some.inj (hcur.symm.trans hr)
  rw [field_setEnv Env.status (by rfl) r, ← hsame]
  exact hrunning

/-- The CPU switches to another environment. -/
theorem Receiving.switch (h : Receiving {c}ᶜ r s inbox) (hne : s.curenv c ≠ some e)
    (hrunnable : (s.envs e).status = .runnable) {dir : ℕ} (htable : TableOk (switched s c e dir)) :
    Receiving {c}ᶜ r (switched s c e dir) inbox ∧ ActiveOnly r (switched s c e dir) := by
  obtain ⟨runs, cpunum, henv⟩ := switched_envs s hne dir r
  have hcurenv := curenv_switched s c e dir
  -- whether the receiver is the one that is picked
  have hcases : (r = e ∧ ((switched s c e dir).envs r).status = .running ∧
        (s.envs r).ipcRecving = false) ∨
      (r ≠ e ∧ ∀ k, (switched s c e dir).curenv k = some r → k ≠ c ∧ s.curenv k = some r ∧
        ((switched s c e dir).envs r).status = (s.envs r).status) := by
    by_cases hr : r = e
    · refine Or.inl ⟨hr, by rw [henv, if_pos hr], h.not_recving ?_⟩
      rw [hr, hrunnable]
      decide
    · refine Or.inr ⟨hr, fun k hk => ?_⟩
      rw [hcurenv] at hk
      by_cases hc : k = c
      · rw [if_pos hc] at hk
        exact absurd (Option.some.inj hk).symm hr
      · rw [if_neg hc] at hk
        refine ⟨hc, hk, ?_⟩
        rw [henv, if_neg hr, if_neg fun hleft => hc (h.alone k c hk hleft.1)]
  have hactive : ActiveOnly r (switched s c e dir) := fun k hk => by
    rcases hcases with ⟨-, hrunning, -⟩ | ⟨-, hrest⟩
    · exact Or.inl hrunning
    · obtain ⟨hc, hold, hstatus⟩ := hrest k hk
      rw [hstatus]
      exact h.running (Set.mem_compl_singleton_iff.mpr hc) hold
  refine ⟨?_, hactive⟩
  exact
    { table := htable
      present := by rw [henv]; exact h.present
      orderly := h.orderly
      asked := by rw [henv]; exact h.asked
      full := by rw [henv]; exact h.full
      fits := h.fits.mono (fun _ haway => ⟨fun k hk => by
          rw [hcurenv, if_neg (Set.mem_compl_singleton_iff.mp hk)]
          exact haway k hk, by rw [henv]⟩) (by rw [henv]; rfl)
      blocked := fun hrecv => by
        rw [henv] at hrecv ⊢
        have hblocked := h.blocked hrecv
        have hr : r ≠ e := fun hsame => by
          rw [hsame, hrunnable] at hblocked
          cases hblocked
        have hleft : ¬ (s.curenv c = some r ∧ (s.envs r).status = .running) := fun hleft => by
          rw [hblocked] at hleft
          cases hleft.2
        dsimp only
        rw [if_neg hr, if_neg hleft]
        exact hblocked
      alone := fun j k hj hk => by
        rcases hcases with ⟨hr, -, -⟩ | ⟨-, hrest⟩
        · have hoff := h.offCpu_of_runnable (by rw [hr]; exact hrunnable)
          have honly (i : ℕ) (hi : (switched s c e dir).curenv i = some r) : i = c := by
            by_contra hc
            rw [hcurenv, if_neg hc] at hi
            exact hoff i hi
          rw [honly j hj, honly k hk]
        · exact h.alone j k (hrest j hj).2.1 (hrest k hk).2.1
      active := fun k hk => (hactive k hk).imp_right Or.inl }

/-- The CPU has nothing to run. -/
theorem Receiving.halt (h : Receiving {c}ᶜ r s inbox) :
    Receiving {c}ᶜ r (haltedState s c) inbox ∧ ActiveOnly r (haltedState s c) := by
  have hcurenv := curenv_haltedState s c
  have hother (k : ℕ) (hk : (haltedState s c).curenv k = some r) : k ≠ c ∧ s.curenv k = some r := by
    rw [hcurenv] at hk
    by_cases hc : k = c
    · rw [if_pos hc] at hk
      cases hk
    · rw [if_neg hc] at hk
      exact ⟨hc, hk⟩
  have hactive : ActiveOnly r (haltedState s c) := fun k hk =>
    h.running (Set.mem_compl_singleton_iff.mpr (hother k hk).1) (hother k hk).2
  refine ⟨?_, hactive⟩
  exact
    { table := h.table.of_slotPart (fun _ => rfl) rfl
      present := h.present
      orderly := h.orderly
      asked := h.asked
      full := h.full
      fits := h.fits.mono (fun _ haway => ⟨fun k hk hr => haway k hk (hother k hr).2, rfl⟩) rfl
      blocked := h.blocked
      alone := fun j k hj hk => h.alone j k (hother j hj).2 (hother k hk).2
      active := fun k hk => (hactive k hk).imp_right Or.inl }

theorem Receiving.yield (h : Receiving {c}ᶜ r s inbox) (hyield : schedYield s c = some s') :
    Receiving {c}ᶜ r s' inbox ∧ ActiveOnly r s' := by
  have htable := table_rules.yield c s s' h.table hyield
  cases schedYield_cases hyield with
  | keep e hcur hrunning => exact h.keep hcur hrunning
  | again e hcur hpick =>
    have hkept := h.setCpunum e c
    refine ⟨hkept, hkept.active_of_cpu fun hr => ?_⟩
    have hsame : e = r := Option.some.inj (hcur.symm.trans hr)
    have hrunnable := schedPick_runnable hpick
    rw [hsame] at hrunnable
    exact absurd hr (h.offCpu_of_runnable hrunnable c)
  | switch e dir hne hpick _ => exact h.switch hne (schedPick_runnable hpick) htable
  | halt _ => exact h.halt

/-- Returning from `sys_ipc_recv` takes nothing from the mailbox. -/
theorem noteReturn_box (r : Slot) (c : ℕ) (s : Kernel) (inbox : Inbox) :
    (noteReturn r c s inbox).box = inbox.box := by
  rw [noteReturn]
  split
  · split <;> rfl
  · rfl

/-- The receiver is back from `sys_ipc_recv` when it runs again. -/
theorem Receiving.returned (h : Receiving {c}ᶜ r s inbox) (hactive : ActiveOnly r s) :
    Receiving Set.univ r s (noteReturn r c s inbox) := by
  have hbox := noteReturn_box r c s inbox
  refine
    { table := h.table
      present := h.present
      orderly := by rw [hbox]; exact h.orderly
      asked := by rw [hbox]; exact h.asked
      full := by rw [hbox]; exact h.full
      fits := ?_
      blocked := h.blocked
      alone := h.alone
      active := fun k hk => (hactive k hk).imp_right Or.inl }
  by_cases hcalled : inbox.phase = .called
  · have hfits := h.fits
    simp only [Inbox.Fits, hcalled] at hfits
    by_cases hcur : s.curenv c = some r
    · have hnote : noteReturn r c s inbox = ⟨inbox.box, .back (s.envs r).tf.regs.eax⟩ := by
        simp only [noteReturn, hcalled, if_pos hcur]
      rw [hnote]
      by_cases heax : (s.envs r).tf.regs.eax = 0
      · refine Or.inl ⟨heax, ?_⟩
        cases hslip : inbox.box.slip with
        | shut => exact absurd hslip (hfits.2.mp heax)
        | asked =>
          have hblocked := h.blocked (h.asked.mp hslip)
          have hruns := hactive c hcur
          rw [hblocked] at hruns
          rcases hruns with hbad | hbad <;> cases hbad
        | full message => exact ⟨message, hslip⟩
      · exact Or.inr ⟨heax, by_contra fun hslip => heax (hfits.2.mpr hslip)⟩
    · have hnote : noteReturn r c s inbox = inbox := by
        simp only [noteReturn, hcalled, if_neg hcur]
      rw [hnote]
      simp only [Inbox.Fits, hcalled]
      refine ⟨fun k _ hk => ?_, hfits.2⟩
      by_cases hc : k = c
      · exact hcur (hc ▸ hk)
      · exact hfits.1 k (Set.mem_compl_singleton_iff.mpr hc) hk
  · have hnote : noteReturn r c s inbox = inbox := by
      rw [noteReturn]
      split
      · contradiction
      · rfl
    rw [hnote]
    exact h.fits.mono (fun hbad => absurd hbad hcalled) rfl

/-! ## System calls -/

section Calls

variable {call : Call} {key ret : Word}

/-- A call that neither posts for the receiver nor asks. -/
theorem noteInbox_other (hrecv : call.sys = .ipcRecv → cur ≠ r)
    (hsend : call.sys = .ipcTrySend → envid2env s cur call.a1 false = some r →
      resultOf s cur call ≠ some 0) : noteInbox r s cur call inbox = inbox := by
  rw [noteInbox]
  split
  case h_1 hsys => exact if_neg (hrecv hsys)
  case h_2 hsys => exact if_neg fun h => hsend hsys h.1 h.2
  case h_3 => rfl

theorem noteInbox_recv (hsys : call.sys = .ipcRecv)
    (hrun : plainCall s r key call = some (ret, s')) : noteInbox r s r call inbox =
      { box := if ret = 0 then inbox.box.ask else inbox.box, phase := .called } := by
  rw [noteInbox, hsys, resultOf_eq (by rw [hsys]; decide) hrun]
  dsimp only
  rw [if_pos rfl]
  simp only [Option.some.injEq]

/-- `sys_ipc_recv` of the receiver, with its answer. -/
theorem Receiving.receive (h : Receiving Set.univ r s inbox) (hcur : s.curenv c = some r)
    (hout : inbox.phase = .outside) (htable : TableOk s') (hcpus : ∀ k, s'.curenv k = s.curenv k)
    (hdir : (s'.envs r).pgdir = (s.envs r).pgdir)
    (hfields : ipcRecv (s'.envs r) 0 = ipcRecv (s.envs r) 0)
    (heax : (s'.envs r).tf.regs.eax = ret)
    (haccepted : ret = 0 → (s'.envs r).ipcRecving = true ∧ (s'.envs r).status = .notRunnable)
    (hrefused : ret ≠ 0 → (s'.envs r).ipcRecving = (s.envs r).ipcRecving ∧
      (s'.envs r).status = (s.envs r).status) :
    Receiving {c}ᶜ r s'
      { box := if ret = 0 then inbox.box.ask else inbox.box, phase := .called } := by
  have hshut : inbox.box.slip = .shut := by
    have hfits := h.fits
    simpa only [Inbox.Fits, hout] using hfits
  have honly (k : ℕ) (hk : s'.curenv k = some r) : k = c :=
    h.alone k c ((hcpus k).symm.trans hk) hcur
  have haway : ∀ k ∈ ({c}ᶜ : Set ℕ), s'.curenv k ≠ some r := fun k hk hr =>
    Set.mem_compl_singleton_iff.mp hk (honly k hr)
  have halone (j k : ℕ) (hj : s'.curenv j = some r) (hk : s'.curenv k = some r) : j = k := by
    rw [honly j hj, honly k hk]
  by_cases hret : ret = 0
  · obtain ⟨hrecving, hstatus⟩ := haccepted hret
    rw [if_pos hret]
    exact
      { table := htable
        present := by rw [hdir]; exact h.present
        orderly := h.orderly.ask hshut
        asked := ⟨fun _ => hrecving, fun _ => rfl⟩
        full := fun message hfull => by cases hfull
        fits := ⟨haway, ⟨fun _ hbad => (by cases hbad), fun _ => heax.trans hret⟩⟩
        blocked := fun _ => hstatus
        alone := halone
        active := fun k hk => Or.inr (Or.inr ⟨fun hin => haway k hin hk, hrecving⟩) }
  · obtain ⟨hrecving, hstatus⟩ := hrefused hret
    rw [if_neg hret]
    exact
      { table := htable
        present := by rw [hdir]; exact h.present
        orderly := h.orderly
        asked := by rw [hrecving]; exact h.asked
        full := by rw [hfields]; exact h.full
        fits := ⟨haway, ⟨fun hzero => absurd (heax.symm.trans hzero) hret,
          fun hbad => absurd hshut hbad⟩⟩
        blocked := by rw [hrecving, hstatus]; exact h.blocked
        alone := halone
        active := fun k hk => by
          rw [hstatus]
          exact (h.running (Set.mem_univ k) ((hcpus k).symm.trans hk)).imp_right Or.inl }

/-- A message for the receiver. -/
theorem Receiving.deliver (h : Receiving Set.univ r s inbox)
    (hrecving : (s.envs r).ipcRecving = true) {message : IpcResult} (htable : TableOk s')
    (hcpus : ∀ k, s'.curenv k = s.curenv k)
    (hdir : (s'.envs r).pgdir = (s.envs r).pgdir) (hfields : ipcRecv (s'.envs r) 0 = message)
    (heax : (s'.envs r).tf.regs.eax = 0) (hdone : (s'.envs r).ipcRecving = false) :
    OffCpu s r ∧ Receiving Set.univ r s' { inbox with box := inbox.box.post message } := by
  have hasked := h.asked.mpr hrecving
  have hoff : OffCpu s r := fun k hk => by
    have hblocked := h.blocked hrecving
    have hruns := h.running (Set.mem_univ k) hk
    rw [hblocked] at hruns
    rcases hruns with hbad | hbad <;> cases hbad
  have hcalled : inbox.phase = .called := by
    have hfits := h.fits
    cases hphase : inbox.phase <;> simp only [Inbox.Fits, Inbox.Full, hphase, hasked] at hfits
    · cases hfits
    · rfl
    all_goals simp at hfits
  have hoff' (k : ℕ) : s'.curenv k ≠ some r := by
    rw [hcpus]
    exact hoff k
  refine ⟨hoff, ?_⟩
  exact
    { table := htable
      present := by rw [hdir]; exact h.present
      orderly := h.orderly.post message hasked
      asked := ⟨fun hbad => (by cases hbad), fun hbad => by rw [hdone] at hbad; cases hbad⟩
      full := fun other hother => by
        cases hother
        exact hfields.symm
      fits := by
        simp only [Inbox.Fits, hcalled]
        exact ⟨fun k _ => hoff' k, ⟨fun _ hbad => (by cases hbad), fun _ => heax⟩⟩
      blocked := fun hbad => by
        rw [hdone] at hbad
        cases hbad
      alone := fun j _ hj _ => absurd hj (hoff' j)
      active := fun k hk => absurd hk (hoff' k) }

/-- A call that changes the status of a receiver that is on no CPU. -/
theorem Receiving.setStatus (h : Receiving K r s inbox) {status : EnvStatus}
    (hquiet : e = r → OffCpu s r ∧ (s.envs r).ipcRecving = false) :
    Receiving K r (s.setStatus e status) inbox := by
  have htable : TableOk (s.setStatus e status) :=
    h.table.of_slotPart (fun k => field_setEnv Env.slotPart (by rfl) k) rfl
  by_cases hsame : e = r
  · obtain ⟨hoff, hrecving⟩ := hquiet hsame
    have henv : (s.setStatus e status).envs r = { s.envs r with status := status } := by
      rw [hsame]
      exact update_self _ _ _
    exact
      { table := htable
        present := by rw [henv]; exact h.present
        orderly := h.orderly
        asked := by rw [henv]; exact h.asked
        full := by rw [henv]; exact h.full
        fits := h.fits.mono (fun _ haway => ⟨haway, by rw [henv]⟩) (by rw [henv]; rfl)
        blocked := fun hbad => by
          rw [henv, hrecving] at hbad
          cases hbad
        alone := h.alone
        active := fun k hk => absurd hk (hoff k) }
  · exact h.setEnv htable rfl (fun hbad => absurd hbad hsame) fun hbad => absurd hbad hsame

/-- The message that a successful send leaves in the fields. -/
theorem ipcRecv_sent (hsys : call.sys = .ipcTrySend)
    (hfound : envid2env s cur call.a1 false = some r)
    (hrun : plainCall s cur key call = some (0, s')) :
    ipcRecv (s'.envs r) 0 = sentMessage s cur r call := by
  rw [plainCall, hsys] at hrun
  obtain ⟨-, hsender, hvalue, hperm⟩ := sysIpcTrySend_receiver hfound hrun
  rw [ipcRecv, if_neg fun hbad => hbad rfl, sentMessage, hsender, hvalue, hperm]

/-- What a call that returns does to the mailbox, its answer included. -/
theorem Receiving.plain (h : Receiving Set.univ r s inbox) (hcur : s.curenv c = some cur)
    (hleaves : LeavesReceiver r inbox.phase s cur call)
    (hrun : plainCall s cur key call = some (ret, s')) :
    Receiving {c}ᶜ r (s'.setTf cur ((s'.envs cur).tf.setEax ret))
      (noteInbox r s cur call inbox) := by
  have htable' : TableOk s' :=
    table_rules.plain c s cur key call ret s' h.table hcur trivial hrun
  have htable : TableOk (s'.setTf cur ((s'.envs cur).tf.setEax ret)) :=
    table_rules.setTf s' cur _ htable'
  have hphase : cur = r → inbox.phase ≠ .called := fun hsame =>
    h.not_called (Set.mem_univ c) (hsame ▸ hcur)
  have hnotsent (hret : call.sys = .ipcTrySend → ret ≠ 0) : call.sys = .ipcTrySend →
      envid2env s cur call.a1 false = some r → resultOf s cur call ≠ some 0 :=
      fun hsys _ hzero => by
    rw [resultOf_eq (by rw [hsys]; decide) hrun] at hzero
    exact hret hsys (Option.some.inj hzero)
  have hcompl : ({c}ᶜ : Set ℕ) ⊆ Set.univ := Set.subset_univ _
  -- a call that leaves the mailbox and its fields alone
  have hrest (hkept : Receiving Set.univ r s' inbox) (hrecv : call.sys = .ipcRecv → cur ≠ r)
      (hsend : call.sys = .ipcTrySend → envid2env s cur call.a1 false = some r →
        resultOf s cur call ≠ some 0) : Receiving {c}ᶜ r
          (s'.setTf cur ((s'.envs cur).tf.setEax ret)) (noteInbox r s cur call inbox) := by
    rw [noteInbox_other hrecv hsend]
    exact (hkept.setTf hphase _).mono hcompl
  cases plainCall_effect hrun with
  | memory σ hsend hrecv hfork =>
    by_cases hasks : call.sys = .ipcRecv ∧ cur = r
    · obtain ⟨hsys, rfl⟩ := hasks
      rw [noteInbox_recv hsys hrun]
      have henv : ((s.setPhys σ).setTf cur (((s.setPhys σ).envs cur).tf.setEax ret)).envs cur =
          { s.envs cur with tf := (s.envs cur).tf.setEax ret } := update_self _ _ _
      exact h.receive hcur (hleaves.recv hsys rfl) htable (fun _ => rfl) (by rw [henv])
        (by rw [henv]; rfl) (by rw [henv]; rfl) (fun hzero => absurd hzero (hrecv hsys))
        fun _ => by rw [henv]; exact ⟨rfl, rfl⟩
    · exact hrest (h.setPhys σ) (fun hsys hsame => hasks ⟨hsys, hsame⟩)
        (hnotsent fun hsys => (hsend hsys).1)
  | fork e p hsys hret hhead _ =>
    have hne : r ≠ e := fun hsame => by
      have hdir := h.table.head_pgdir hhead
      rw [← hsame] at hdir
      exact h.present hdir
    refine hrest ?_ (fun hbad => ?_) fun hbad => ?_
    · exact h.congr htable' (by dsimp only; rw [update_of_ne hne])
        (by dsimp only; rw [update_of_ne hne]) (fun _ => by dsimp only; rw [update_of_ne hne])
        fun _ => rfl
    · rw [hsys] at hbad
      cases hbad
    · rw [hsys] at hbad
      cases hbad
  | status e status hsys _ hfound =>
    refine hrest (h.setStatus fun hsame => ?_) (fun hbad => ?_) fun hbad => ?_
    · exact hleaves.status hsys (hsame ▸ hfound)
    · rw [hsys] at hbad
      cases hbad
    · rw [hsys] at hbad
      cases hbad
  | upcall e func hsys _ =>
    refine hrest ?_ (fun hbad => ?_) fun hbad => ?_
    · exact h.setEnv htable' rfl (fun hsame => by rw [← hsame]; rfl) fun hsame _ => by rw [← hsame]
    · rw [hsys] at hbad
      cases hbad
    · rw [hsys] at hbad
      cases hbad
  | priority pr hsys =>
    refine hrest ?_ (fun hbad => ?_) fun hbad => ?_
    · exact h.setEnv htable' rfl (fun hsame => by rw [← hsame]; rfl) fun hsame _ => by rw [← hsame]
    · rw [hsys] at hbad
      cases hbad
    · rw [hsys] at hbad
      cases hbad
  | receive hsys hret =>
    by_cases hsame : cur = r
    · subst hsame
      rw [noteInbox_recv hsys hrun]
      have henv : ∀ tf, ((s.setEnv cur { s.envs cur with
          ipcRecving := true
          status := .notRunnable
          ipcDstva := call.a1 }).setTf cur tf).envs cur =
          { s.envs cur with
            ipcRecving := true, status := .notRunnable, ipcDstva := call.a1, tf := tf } := by
        intro tf
        rw [Kernel.setTf, Kernel.envs_setEnv, update_self, Kernel.envs_setEnv, update_self]
      refine h.receive hcur (hleaves.recv hsys rfl) htable (fun _ => rfl) (by rw [henv])
        (by rw [henv]; rfl) (by rw [henv]; rfl) (fun _ => ?_) fun hbad => absurd hret hbad
      rw [henv]
      exact ⟨rfl, rfl⟩
    · refine hrest ?_ (fun _ => hsame) fun hbad => ?_
      · exact h.setEnv htable' rfl (fun hbad => absurd hbad hsame) fun hbad => absurd hbad hsame
      · rw [hsys] at hbad
        cases hbad
  | deliver e σ perm hsys hret hfound hrecving =>
    have hrecv : call.sys = .ipcRecv → cur ≠ r := fun hbad => by
      rw [hsys] at hbad
      cases hbad
    by_cases hsame : e = r
    · subst hsame
      subst hret
      have hnote : noteInbox e s cur call inbox =
          { inbox with box := inbox.box.post (sentMessage s cur e call) } := by
        rw [noteInbox, hsys, resultOf_eq (by rw [hsys]; decide) hrun]
        exact if_pos ⟨hfound, rfl⟩
      obtain ⟨hoff, hdelivered⟩ := h.deliver hrecving htable' (fun _ => rfl)
        (by rw [ipcDeliver_receiver, Kernel.envs_setEnv, update_self])
        (ipcRecv_sent hsys hfound hrun) (by rw [ipcDeliver_receiver]; rfl)
        (by rw [ipcDeliver_receiver])
      rw [hnote]
      refine (hdelivered.setTf (fun hbad => absurd hcur ?_) _).mono hcompl
      rw [hbad]
      exact hoff c
    · refine hrest ?_ hrecv fun _ hbad => absurd (Option.some.inj (hfound.symm.trans hbad)) hsame
      have hother : (ipcDeliver ((s.setPhys σ).setEnv e { s.envs e with ipcPerm := perm }) cur e
          call.a2).envs r = s.envs r := by
        rw [ipcDeliver, Kernel.envs_setEnv, update_of_ne (Ne.symm hsame), Kernel.envs_setEnv,
          update_of_ne (Ne.symm hsame)]
        rfl
      exact h.congr htable' (by rw [hother]) (by rw [hother]) (fun _ => by rw [hother]) fun _ => rfl

end Calls

/-! ## Kernel entries -/

/-- A receiver that is destroyed while it runs on another CPU. -/
theorem Receiving.dying (h : Receiving Set.univ r s inbox)
    (hrunning : (s.envs e).status = .running) :
    Receiving Set.univ r (s.setStatus e .dying) inbox := by
  have htable : TableOk (s.setStatus e .dying) :=
    h.table.of_slotPart (fun k => field_setEnv Env.slotPart (by rfl) k) rfl
  by_cases hsame : e = r
  · subst hsame
    have hrecving := h.not_recving (by rw [hrunning]; decide)
    have henv : (s.setStatus e .dying).envs e = { s.envs e with status := .dying } :=
      update_self _ _ _
    exact
      { table := htable
        present := by rw [henv]; exact h.present
        orderly := h.orderly
        asked := by rw [henv]; exact h.asked
        full := by rw [henv]; exact h.full
        fits := h.fits.mono (fun _ haway => ⟨haway, by rw [henv]⟩) (by rw [henv]; rfl)
        blocked := fun hbad => by
          rw [henv, hrecving] at hbad
          cases hbad
        alone := h.alone
        active := fun _ _ => Or.inr (Or.inl (by rw [henv])) }
  · exact h.setEnv htable rfl (fun hbad => absurd hbad hsame) fun hbad => absurd hbad hsame

/-- Another environment is freed. -/
theorem Receiving.retire (h : Receiving Set.univ r s inbox) (hretire : retire s c e = some s')
    (hpresent : (s'.envs r).pgdir ≠ none) : Receiving Set.univ r s' inbox := by
  have hcurenv := curenv_retire hretire
  have hstill (k : ℕ) (hk : s'.curenv k = some r) : s.curenv k = some r := by
    rw [hcurenv] at hk
    split at hk
    · cases hk
    · exact hk
  have htable : TableOk s' := by
    obtain ⟨pgdir, σ, pt, hdir, -, -, rfl⟩ := retire_cases hretire
    exact h.table.push hdir (by rfl) (by rfl) (by rfl) rfl rfl
  obtain ⟨pgdir, σ, pt, -, -, -, rfl⟩ := retire_cases hretire
  have hne : r ≠ e := fun hsame => hpresent (by rw [hsame]; dsimp only; rw [update_self])
  have henv : ∀ env, update s.envs e env r = s.envs r := fun _ => update_of_ne hne _ _
  exact
    { table := htable
      present := hpresent
      orderly := h.orderly
      asked := by dsimp only; rw [henv]; exact h.asked
      full := by dsimp only; rw [henv]; exact h.full
      fits := h.fits.mono (fun _ haway => ⟨fun k hk hr => haway k hk (hstill k hr), by
        dsimp only; rw [henv]⟩) (by dsimp only; rw [henv])
      blocked := by dsimp only; rw [henv]; exact h.blocked
      alone := fun j k hj hk => h.alone j k (hstill j hj) (hstill k hk)
      active := fun k hk => by
        dsimp only
        rw [henv]
        exact h.active k (hstill k hk) }

theorem mailbox_rules (r : Slot) (phase : RecvPhase) (c : ℕ) :
    TrapRules c (fun _ => LeavesReceiver r phase) (noteInbox r)
      (fun s inbox => Receiving Set.univ r s inbox ∧ inbox.phase = phase)
      (fun s inbox => (s.envs r).pgdir ≠ none →
        Receiving Set.univ r s inbox)
      (fun s inbox => (s.envs r).pgdir ≠ none → Receiving {c}ᶜ r s inbox)
      (fun s inbox => (s.envs r).pgdir ≠ none → Receiving {c}ᶜ r s inbox ∧ ActiveOnly r s) where
  enter := fun s g h _ => h.1
  leave := fun s g h hpresent => (h hpresent).mono (Set.subset_univ _)
  save := fun s g cur tf h hcur =>
    ⟨h.1.setTf (fun hsame => h.1.not_called (Set.mem_univ c) (hsame ▸ hcur)) tf, h.2⟩
  answer := fun s g cur ret h hcur hpresent => by
    have hdir : ((s.setTf cur ((s.envs cur).tf.setEax ret)).envs r).pgdir = (s.envs r).pgdir :=
      field_setEnv Env.pgdir (by rfl) r
    have hkept := h (hdir ▸ hpresent)
    exact (hkept.setTf (fun hsame => hkept.not_called (Set.mem_univ c) (hsame ▸ hcur)) _).mono
      (Set.subset_univ _)
  setCpunum := fun s g e h _ _ =>
    ⟨(h.1.setCpunum e c).mono (Set.subset_univ _), fun k hk =>
      (h.1.setCpunum e c).running (Set.mem_univ k) hk⟩
  resume := fun s g e h hcur hrunning hpresent =>
    (h (by rwa [field_setEnv Env.pgdir (by rfl) r] at hpresent)).keep hcur hrunning
  started := fun s g h _ _ => h.1.congr (h.1.table.of_slotPart (fun _ => rfl) rfl) rfl rfl
    (fun _ => rfl) fun k => by
      rw [Kernel.curenv, Kernel.curenv, Kernel.cpus_setCpuStatus]
      by_cases hk : k = c
      · rw [hk, update_self]
      · rw [update_of_ne hk]
  yield := fun s g s' h hyield hpresent => by
    have hslot := (schedYield_cases hyield).slotPart.1 r
    have hdir : (s'.envs r).pgdir = (s.envs r).pgdir :=
      congrArg (fun part => part.2.1) hslot
    exact (h (hdir ▸ hpresent)).yield hyield
  dying := fun s g cur e h _ _ hrunning _ _ => h.1.dying hrunning
  retire := fun s g cur e s' h _ _ _ hretire hpresent => h.1.retire hretire hpresent
  plain := fun s g cur key call ret s' h hcur hleaves hrun _ =>
    h.1.plain hcur (h.2.symm ▸ hleaves) hrun
  other := fun s cur call g hsys =>
    noteInbox_other (fun hbad => by rw [hbad] at hsys; rcases hsys with h | h | h <;> cases h)
      fun hbad => by rw [hbad] at hsys; rcases hsys with h | h | h <;> cases h
  frame := fun s g e dir va bytes σ h _ _ _ => ⟨h.1.setPhys σ, h.2⟩

/-- The loads of `ipc_recv`. -/
theorem Receiving.next (h : Receiving Set.univ r s inbox) {inbox' : Inbox}
    (hnext : ipcRecvNext (s.envs r) inbox = some inbox') : Receiving Set.univ r s inbox' := by
  have hfits := h.fits
  have hkeep {phase : RecvPhase}
      (hphase : (Inbox.mk inbox.box phase).Fits (∀ k ∈ Set.univ, s.curenv k ≠ some r) (s.envs r)) :
      Receiving Set.univ r s ⟨inbox.box, phase⟩ := { h with fits := hphase }
  cases hphase : inbox.phase with
  | outside =>
    rw [ipcRecvNext, hphase] at hnext
    cases hnext
  | called =>
    rw [ipcRecvNext, hphase] at hnext
    cases hnext
  | back ret =>
    rw [ipcRecvNext, hphase] at hnext
    cases hnext
    simp only [Inbox.Fits, hphase] at hfits
    rcases hfits with ⟨hret, hfull⟩ | ⟨hret, hshut⟩
    · rw [if_neg (not_not.mpr hret)]
      exact hkeep ⟨hfull, rfl⟩
    · rw [if_pos hret]
      exact hkeep hshut
  | gotFrom sender =>
    rw [ipcRecvNext, hphase] at hnext
    cases hnext
    simp only [Inbox.Fits, hphase] at hfits
    exact hkeep ⟨hfits.1, hfits.2, rfl⟩
  | gotPerm sender perm =>
    rw [ipcRecvNext, hphase] at hnext
    cases hnext
    simp only [Inbox.Fits, hphase] at hfits
    obtain ⟨⟨message, hfull⟩, hsender, hperm⟩ := hfits
    have hmessage : message = ⟨sender, perm, (s.envs r).ipcValue⟩ := by
      rw [h.full message hfull, hsender, hperm]
      rfl
    rw [hmessage] at hfull
    have hnot : (s.envs r).ipcRecving ≠ true := fun hbad => by
      rw [h.asked.mpr hbad] at hfull
      cases hfull
    exact
      { table := h.table
        present := h.present
        orderly := h.orderly.take hfull
        asked := ⟨fun hbad => (by cases hbad), fun hbad => absurd hbad hnot⟩
        full := fun other hother => by cases hother
        fits := rfl
        blocked := h.blocked
        alone := h.alone
        active := h.active }

/-- What every step does. -/
theorem Receiving.step (h : Receiving Set.univ r s inbox) {event : IpcEvent} {inbox' : Inbox}
    (hkeeps : KeepsReceiver r (s, inbox) event)
    (hstep : ipcStep r (s, inbox) event = some (s', inbox')) : Receiving Set.univ r s' inbox' := by
  cases event with
  | receiver c =>
    rw [ipcStep] at hstep
    split at hstep
    case isTrue =>
      obtain ⟨next, hnext, hpair⟩ := Option.map_eq_some_iff.mp hstep
      cases hpair
      exact h.next hnext
    case isFalse => cases hstep
  | system event =>
    obtain ⟨hcalls, hpresent⟩ := hkeeps
    cases event with
    | enter c entry =>
      obtain ⟨next, hrun, hpair⟩ := Option.map_eq_some_iff.mp hstep
      cases hpair
      obtain ⟨hreceiving, hactive⟩ := (mailbox_rules r inbox.phase c).entered
        (fun _ _ h => h.1.table.ids) ⟨h, rfl⟩ hcalls hrun (hpresent _ hrun)
      exact hreceiving.returned hactive
    | store c va byte =>
      obtain ⟨next, hrun, hpair⟩ := Option.map_eq_some_iff.mp hstep
      cases hpair
      obtain ⟨σ, rfl⟩ := userStore_phys hrun
      exact h.setPhys σ
    | mmu bits =>
      cases hstep
      exact h.setPhys _

/-- What the invariant says about the messages. -/
theorem Receiving.deliversOnce (h : Receiving Set.univ r s inbox) : DeliversOnce r s inbox := by
  have hfits := h.fits
  refine
    { orderly := h.orderly
      started := h.orderly.taken_initial
      all := fun hout => h.orderly.taken_eq ?_
      waiting := fun hrecving => ?_
      refused := fun hslip cur envid value srcva perm hfound => ?_ }
  · simp only [Inbox.Fits, hout] at hfits
    rw [hfits]
    rfl
  · have hasked := h.asked.mpr hrecving
    refine ⟨?_, h.orderly.taken_eq (by rw [hasked]; rfl)⟩
    cases hphase : inbox.phase with
    | called => rfl
    | _ => simp [Inbox.Fits, Inbox.Full, hphase, hasked] at hfits
  · have hrecving : (s.envs r).ipcRecving = false := by
      by_contra hrecv
      exact hslip (h.asked.mpr (by rwa [Bool.not_eq_false] at hrecv))
    rw [sysIpcTrySend, hfound]
    dsimp only
    rw [if_pos hrecving]

end Receiver

/-! ## Runs -/

section Delivery

variable {start s : Kernel} {r : Slot} {inbox : Inbox}

/-- The program outside `ipc_recv`, before the first message. -/
def Inbox.fresh : Inbox := ⟨Mailbox.empty, .outside⟩

/-- A system event of a run, when `r` keeps its address space. -/
theorem deliveryRun_tail {s' : Kernel} {event : Event}
    (hrun : Transition.Runs (ipcStep r) (KeepsReceiver r) (start, Inbox.fresh) (s, inbox))
    (hcalls : CallsSatisfy (fun _ => LeavesReceiver r inbox.phase) s event)
    (hstep : step s event = some s') (hpresent : (s'.envs r).pgdir ≠ none) {inbox' : Inbox}
    (hnote : ipcStep r (s, inbox) (.system event) = some (s', inbox')) :
    Transition.Runs (ipcStep r) (KeepsReceiver r) (start, Inbox.fresh) (s', inbox') := by
  have hok : KeepsReceiver r (s, inbox) (.system event) := ⟨hcalls, fun next hnext => by
    rw [hstep] at hnext
    rw [← Option.some.inj hnext]
    exact hpresent⟩
  exact hrun.tail hok hnote

/-- Nothing happens to the inbox outside `ipc_recv`, without a call. -/
theorem ipcStep_quiet {s' : Kernel} {c : ℕ} {entry : Entry} (hout : inbox.phase = .outside)
    (hnone : callOf s (.enter c entry) = none) (hstep : step s (.enter c entry) = some s') :
    ipcStep r (s, inbox) (.system (.enter c entry)) = some (s', inbox) := by
  have hrun : enter s c entry = some s' := hstep
  rw [ipcStep, hrun, Option.map_some, noteCalls, hnone]
  simp only [noteReturn, hout]

end Delivery

end OsLabs.Jos
