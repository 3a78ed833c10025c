import OsLabs.Jos.Fresh

/-!
# Blocked receivers

An environment that waits in `sys_ipc_recv` is not runnable and runs nowhere,
provided nobody makes it runnable by `sys_env_set_status`.  The ghost component
remembers who waits: it is set by a successful `sys_ipc_recv` and cleared by a
successful `sys_ipc_try_send`.
-/

namespace OsLabs.Jos

open Function
open OsLabs.Transition

/-! ## What the CPUs run after `sched_yield` -/

theorem curenv_update (s : Kernel) (c : ℕ) (e : Option Slot) (k : ℕ) :
    (s.setCurenv c e).curenv k = if k = c then e else s.curenv k := by
  unfold Kernel.curenv Kernel.setCurenv
  by_cases hk : k = c
  · rw [hk, if_pos rfl]
    dsimp only
    rw [update_self]
  · rw [if_neg hk]
    dsimp only
    rw [update_of_ne hk]

theorem curenv_switched (s : Kernel) (c : ℕ) (e : Slot) (dir k : ℕ) :
    (switched s c e dir).curenv k = if k = c then some e else s.curenv k := by
  unfold Kernel.curenv
  rw [switched_cpus]
  by_cases hk : k = c
  · rw [hk, if_pos rfl, update_self]
  · rw [if_neg hk, update_of_ne hk]

theorem curenv_haltedState (s : Kernel) (c k : ℕ) :
    (haltedState s c).curenv k = if k = c then none else s.curenv k := by
  unfold Kernel.curenv haltedState
  by_cases hk : k = c
  · simp [hk]
  · simp [hk]

/-- `retire`, seen from the CPUs. -/
theorem curenv_retire {s s' : Kernel} {c : ℕ} {e : Slot} (hretire : retire s c e = some s')
    (k : ℕ) : s'.curenv k = if k = c ∧ s.curenv c = some e then none else s.curenv k := by
  obtain ⟨pgdir, σ, pt, -, -, -, rfl⟩ := retire_cases hretire
  unfold Kernel.curenv
  dsimp only
  by_cases hcur : (s.cpus c).env = some e
  · rw [if_pos hcur]
    by_cases hk : k = c
    · rw [if_pos ⟨hk, hcur⟩, hk, update_self]
    · rw [if_neg fun h => hk h.1, update_of_ne hk]
  · rw [if_neg hcur, if_neg fun h => hcur h.2]

/-! ## The condition and the ghost component -/

/-- The calls that keep receivers blocked: nobody makes an environment runnable
that waits for a message, and the caller of `sys_ipc_recv` runs on no other
CPU. -/
def RespectsReceivers (c : ℕ) (s : Kernel) (cur : Slot) (call : Call) : Prop :=
  (call.sys = .envSetStatus → settableStatus call.a2 = some .runnable →
    ∀ e, envid2env s cur call.a1 true = some e → (s.envs e).ipcRecving = false) ∧
  (call.sys = .ipcRecv → ∀ k, k ≠ c → s.curenv k ≠ some cur)

/-- The result of a call. -/
def resultOf (s : Kernel) (cur : Slot) (call : Call) : Option Word :=
  (plainCall s cur 0 call).map Prod.fst

/-- The console character matters for `sys_cgetc` only. -/
theorem resultOf_eq {s s' : Kernel} {cur : Slot} {key ret : Word} {call : Call}
    (hsys : call.sys ≠ .cgetc) (hrun : plainCall s cur key call = some (ret, s')) :
    resultOf s cur call = some ret := by
  have hkey : plainCall s cur 0 call = plainCall s cur key call := by
    unfold plainCall
    cases h : call.sys <;> first | rfl | exact absurd h hsys
  rw [resultOf, hkey, hrun]
  rfl

/-- Who waits for a message, after a call. -/
def noteWaiting (s : Kernel) (cur : Slot) (call : Call) (waiting : Slot → Bool) : Slot → Bool :=
  match call.sys with
  | .ipcRecv => if resultOf s cur call = some 0 then update waiting cur true else waiting
  | .ipcTrySend =>
      match envid2env s cur call.a1 false with
      | some e => if resultOf s cur call = some 0 then update waiting e false else waiting
      | none => waiting
  | .exofork =>
      -- a new environment in an old slot waits for nothing
      match s.envFreeList, resultOf s cur call with
      | some e, some ret => if IsError ret then waiting else update waiting e false
      | _, _ => waiting
  | _ => waiting

/-! ## The invariant -/

/-- Between kernel entries: receivers are blocked and run nowhere. -/
structure ReceiversBlocked (s : Kernel) (waiting : Slot → Bool) : Prop where
  waiting_eq : ∀ e, waiting e = (s.envs e).ipcRecving
  blocked : ∀ e, (s.envs e).ipcRecving = true →
    ((s.envs e).status = .notRunnable ∨ (s.envs e).status = .free) ∧ ∀ k, s.curenv k ≠ some e

/-- While CPU `c` is in the kernel its own environment may be a receiver. -/
structure ReceiversBlockedOn (c : ℕ) (s : Kernel) (waiting : Slot → Bool) : Prop where
  waiting_eq : ∀ e, waiting e = (s.envs e).ipcRecving
  blocked : ∀ e, (s.envs e).ipcRecving = true →
    ((s.envs e).status = .notRunnable ∨ (s.envs e).status = .free) ∧
      ∀ k, k ≠ c → s.curenv k ≠ some e

section Blocked

variable {s s' : Kernel} {waiting : Slot → Bool} {c : ℕ}

theorem ReceiversBlocked.on (hblocked : ReceiversBlocked s waiting) (c : ℕ) :
    ReceiversBlockedOn c s waiting where
  waiting_eq := hblocked.waiting_eq
  blocked := fun e hrecv =>
    ⟨(hblocked.blocked e hrecv).1, fun k _ => (hblocked.blocked e hrecv).2 k⟩

theorem ReceiversBlocked.congr (hblocked : ReceiversBlocked s waiting)
    (hrecving : ∀ e, (s'.envs e).ipcRecving = (s.envs e).ipcRecving)
    (hstatus : ∀ e, (s'.envs e).status = (s.envs e).status)
    (hcur : ∀ k, s'.curenv k = s.curenv k) : ReceiversBlocked s' waiting where
  waiting_eq := fun e => by rw [hrecving, hblocked.waiting_eq]
  blocked := fun e hrecv => by
    rw [hrecving] at hrecv
    rw [hstatus]
    exact ⟨(hblocked.blocked e hrecv).1, fun k => by
      rw [hcur]
      exact (hblocked.blocked e hrecv).2 k⟩

theorem ReceiversBlockedOn.congr (hblocked : ReceiversBlockedOn c s waiting)
    (hrecving : ∀ e, (s'.envs e).ipcRecving = (s.envs e).ipcRecving)
    (hstatus : ∀ e, (s'.envs e).status = (s.envs e).status)
    (hcur : ∀ k, s'.curenv k = s.curenv k) : ReceiversBlockedOn c s' waiting where
  waiting_eq := fun e => by rw [hrecving, hblocked.waiting_eq]
  blocked := fun e hrecv => by
    rw [hrecving] at hrecv
    rw [hstatus]
    exact ⟨(hblocked.blocked e hrecv).1, fun k hk => by
      rw [hcur]
      exact (hblocked.blocked e hrecv).2 k hk⟩

/-- An environment with another status is no receiver. -/
theorem ReceiversBlockedOn.not_recving (hblocked : ReceiversBlockedOn c s waiting) {e : Slot}
    (hblock : (s.envs e).status ≠ .notRunnable) (hfree : (s.envs e).status ≠ .free) :
    (s.envs e).ipcRecving = false := by
  by_contra hrecv
  rw [Bool.not_eq_false] at hrecv
  exact (hblocked.blocked e hrecv).1.elim hblock hfree

/-- CPU `c` goes on with an environment that does not wait. -/
theorem ReceiversBlockedOn.keep (hblocked : ReceiversBlockedOn c s waiting) {e : Slot}
    (hcur : s.curenv c = some e) (hrecv : (s.envs e).ipcRecving = false) :
    ReceiversBlocked (s.setEnv e { s.envs e with cpunum := c }) waiting := by
  have hbase : ReceiversBlocked s waiting := ⟨hblocked.waiting_eq, fun k hk =>
    ⟨(hblocked.blocked k hk).1, fun j hj => by
      by_cases hc : j = c
      · rw [hc, hcur] at hj
        rw [← Option.some.inj hj, hrecv] at hk
        cases hk
      · exact (hblocked.blocked k hk).2 j hc hj⟩⟩
  exact hbase.congr (fun k => field_setEnv Env.ipcRecving (by rfl) k)
    (fun k => field_setEnv Env.status (by rfl) k) fun _ => rfl

/-- When CPU `c` leaves its environment, or runs one that does not wait, all
receivers run nowhere. -/
theorem ReceiversBlockedOn.yield (hblocked : ReceiversBlockedOn c s waiting)
    (hyield : schedYield s c = some s') : ReceiversBlocked s' waiting := by
  have hpicked : ∀ e, schedPick s c = some e → (s.envs e).ipcRecving = false := fun e hpick => by
    have hrunnable := schedPick_runnable hpick
    exact hblocked.not_recving (by rw [hrunnable]; decide) (by rw [hrunnable]; decide)
  cases schedYield_cases hyield with
  | keep e hcur hrunning =>
      exact hblocked.keep hcur
        (hblocked.not_recving (by rw [hrunning]; decide) (by rw [hrunning]; decide))
  | again e hcur hpick => exact hblocked.keep hcur (hpicked e hpick)
  | switch e dir hne hpick hdir =>
      have hrecving : ∀ k, ((switched s c e dir).envs k).ipcRecving = (s.envs k).ipcRecving := by
        intro k
        obtain ⟨runs, cpunum, henv⟩ := switched_envs s hne dir k
        rw [henv]
      refine ⟨fun k => by rw [hrecving, hblocked.waiting_eq], fun k hk => ?_⟩
      rw [hrecving] at hk
      have hother : k ≠ e := fun hsame => by
        rw [hsame, hpicked e hpick] at hk
        cases hk
      obtain ⟨hstatus, hcpus⟩ := hblocked.blocked k hk
      have hnot : ¬ (s.curenv c = some k ∧ (s.envs k).status = .running) := fun h => by
        rw [h.2] at hstatus
        rcases hstatus with h | h <;> cases h
      obtain ⟨runs, cpunum, henv⟩ := switched_envs s hne dir k
      refine ⟨by rw [henv, if_neg hother, if_neg hnot]; exact hstatus, fun j => ?_⟩
      rw [curenv_switched]
      split
      · exact fun h => hother (Option.some.inj h).symm
      · exact hcpus j ‹_›
  | halt _ =>
      refine ⟨hblocked.waiting_eq, fun k hk => ⟨(hblocked.blocked k hk).1, fun j => ?_⟩⟩
      rw [curenv_haltedState]
      split
      · simp
      · exact (hblocked.blocked k hk).2 j ‹_›

/-- A change of one environment that leaves alone whether it waits. -/
theorem ReceiversBlocked.setEnv (hblocked : ReceiversBlocked s waiting) {e : Slot} {env : Env}
    (hrecving : env.ipcRecving = (s.envs e).ipcRecving)
    (hstatus : env.ipcRecving = true → env.status = .notRunnable ∨ env.status = .free) :
    ReceiversBlocked (s.setEnv e env) waiting where
  waiting_eq := fun k => by
    rw [field_setEnv Env.ipcRecving hrecving, hblocked.waiting_eq]
  blocked := fun k hk => by
    rw [field_setEnv Env.ipcRecving hrecving] at hk
    refine ⟨?_, (hblocked.blocked k hk).2⟩
    by_cases hsame : k = e
    · subst hsame
      rw [Kernel.envs_setEnv, update_self]
      exact hstatus (hrecving.trans hk)
    · rw [Kernel.envs_setEnv, update_of_ne hsame]
      exact (hblocked.blocked k hk).1

/-- `env_free` makes nobody wait. -/
theorem ReceiversBlocked.retire (hblocked : ReceiversBlocked s waiting) {e : Slot}
    (hretire : retire s c e = some s') : ReceiversBlocked s' waiting := by
  have hcur := curenv_retire hretire
  obtain ⟨pgdir, σ, pt, -, -, -, rfl⟩ := retire_cases hretire
  have hrecving : ∀ k, (update s.envs e
      { s.envs e with pgdir := none, status := .free, link := s.envFreeList } k).ipcRecving =
      (s.envs k).ipcRecving := fun k => field_update Env.ipcRecving (by rfl) k
  refine ⟨fun k => (hblocked.waiting_eq k).trans (hrecving k).symm, fun k hk => ⟨?_, fun j => ?_⟩⟩
  · dsimp only at hk ⊢
    rw [hrecving] at hk
    by_cases hsame : k = e
    · rw [hsame, update_self]
      exact Or.inr rfl
    · rw [update_of_ne hsame]
      exact (hblocked.blocked k hk).1
  · rw [hcur]
    split
    · simp
    · exact (hblocked.blocked k ((hrecving k).symm.trans hk)).2 j

end Blocked

/-! ## System calls -/

section Calls

variable {s s' : Kernel} {cur : Slot} {key ret : Word} {call : Call} {waiting : Slot → Bool}

/-- A call that neither receives, sends nor forks leaves the ghost alone. -/
theorem noteWaiting_other (hrecv : call.sys ≠ .ipcRecv) (hsend : call.sys ≠ .ipcTrySend)
    (hfork : call.sys ≠ .exofork) : noteWaiting s cur call waiting = waiting := by
  unfold noteWaiting
  split <;> first | rfl | contradiction

/-- So does a call that fails. -/
theorem noteWaiting_failed (hrun : plainCall s cur key call = some (ret, s'))
    (hsend : call.sys = .ipcTrySend → ret ≠ 0) (hrecv : call.sys = .ipcRecv → ret ≠ 0)
    (hfork : call.sys = .exofork → IsError ret) : noteWaiting s cur call waiting = waiting := by
  unfold noteWaiting
  split
  case h_1 hsys =>
      rw [resultOf_eq (by rw [hsys]; decide) hrun, if_neg]
      exact fun h => hrecv hsys (Option.some.inj h)
  case h_2 hsys =>
      rw [resultOf_eq (by rw [hsys]; decide) hrun]
      split
      · exact if_neg fun h => hsend hsys (Option.some.inj h)
      · rfl
  case h_3 hsys =>
      rw [resultOf_eq (by rw [hsys]; decide) hrun]
      split
      case h_1 hlist hret =>
          cases hret
          exact if_pos (hfork hsys)
      case h_2 => rfl
  case h_4 => rfl

/-- What a returning call does to receivers and to the ghost. -/
theorem ReceiversBlocked.plain (hblocked : ReceiversBlocked s waiting) {c : ℕ}
    (hrespects : RespectsReceivers c s cur call)
    (hrun : plainCall s cur key call = some (ret, s')) :
    ReceiversBlockedOn c s' (noteWaiting s cur call waiting) := by
  cases plainCall_effect hrun with
  | memory σ hsend hrecv hfork =>
      rw [noteWaiting_failed hrun (fun h => (hsend h).1) hrecv hfork]
      refine ReceiversBlocked.on ?_ c
      exact hblocked.congr (fun _ => rfl) (fun _ => rfl) fun _ => rfl
  | fork e p hsys hret hlist _ =>
      have hnote : noteWaiting s cur call waiting = update waiting e false := by
        unfold noteWaiting
        rw [resultOf_eq (by rw [hsys]; decide) hrun, hsys, hlist]
        exact if_neg hret
      rw [hnote]
      refine ReceiversBlocked.on ⟨fun k => ?_, fun k hk => ?_⟩ c
      · by_cases hsame : k = e
        · rw [hsame, update_self]
          dsimp only
          rw [update_self]
          rfl
        · rw [update_of_ne hsame]
          dsimp only
          rw [update_of_ne hsame, hblocked.waiting_eq]
      · dsimp only at hk ⊢
        by_cases hsame : k = e
        · rw [hsame, update_self] at hk
          cases hk
        · rw [update_of_ne hsame] at hk ⊢
          exact hblocked.blocked k hk
  | status e status hsys hsettable hfound =>
      rw [noteWaiting_other (by rw [hsys]; decide) (by rw [hsys]; decide) (by rw [hsys]; decide)]
      refine (hblocked.setEnv (by rfl) fun hrecv => Or.inl ?_).on c
      by_contra hblock
      have hrunnable : status = .runnable := by
        unfold settableStatus at hsettable
        split at hsettable
        · exact absurd (Option.some.inj hsettable).symm hblock
        · split at hsettable
          · exact (Option.some.inj hsettable).symm
          · cases hsettable
      rw [hrunnable] at hsettable
      rw [hrespects.1 hsys hsettable e hfound] at hrecv
      cases hrecv
  | upcall e func hsys _ =>
      rw [noteWaiting_other (by rw [hsys]; decide) (by rw [hsys]; decide) (by rw [hsys]; decide)]
      refine ReceiversBlocked.on ?_ c
      exact hblocked.setEnv (by rfl) fun hrecv => (hblocked.blocked e hrecv).1
  | priority pr hsys =>
      rw [noteWaiting_other (by rw [hsys]; decide) (by rw [hsys]; decide) (by rw [hsys]; decide)]
      refine ReceiversBlocked.on ?_ c
      exact hblocked.setEnv (by rfl) fun hrecv => (hblocked.blocked cur hrecv).1
  | receive hsys hret =>
      have hnote : noteWaiting s cur call waiting = update waiting cur true := by
        unfold noteWaiting
        rw [resultOf_eq (by rw [hsys]; decide) hrun, hsys, hret]
        exact if_pos rfl
      rw [hnote]
      refine ⟨fun k => ?_, fun k hk => ?_⟩
      · rw [Kernel.envs_setEnv]
        by_cases hsame : k = cur
        · rw [hsame, update_self, update_self]
        · rw [update_of_ne hsame, update_of_ne hsame, hblocked.waiting_eq]
      · rw [Kernel.envs_setEnv] at hk ⊢
        by_cases hsame : k = cur
        · rw [hsame, update_self]
          exact ⟨Or.inl rfl, hrespects.2 hsys⟩
        · rw [update_of_ne hsame] at hk ⊢
          exact ⟨(hblocked.blocked k hk).1, fun j _ => (hblocked.blocked k hk).2 j⟩
  | deliver e σ perm hsys hret hfound _ =>
      have hnote : noteWaiting s cur call waiting = update waiting e false := by
        unfold noteWaiting
        rw [resultOf_eq (by rw [hsys]; decide) hrun, hsys, hret, hfound]
        exact if_pos rfl
      rw [hnote]
      have henv : ∀ k, k ≠ e → (ipcDeliver ((s.setPhys σ).setEnv e
          { s.envs e with ipcPerm := perm }) cur e call.a2).envs k = s.envs k := fun k hk => by
        rw [ipcDeliver, Kernel.envs_setEnv, update_of_ne hk, Kernel.envs_setEnv, update_of_ne hk]
        rfl
      have hself : ((ipcDeliver ((s.setPhys σ).setEnv e
          { s.envs e with ipcPerm := perm }) cur e call.a2).envs e).ipcRecving = false := by
        rw [ipcDeliver, Kernel.envs_setEnv, update_self]
      refine ReceiversBlocked.on ⟨fun k => ?_, fun k hk => ?_⟩ c
      · by_cases hsame : k = e
        · rw [hsame, update_self, hself]
        · rw [update_of_ne hsame, henv k hsame, hblocked.waiting_eq]
      · by_cases hsame : k = e
        · rw [hsame, hself] at hk
          cases hk
        · rw [henv k hsame] at hk ⊢
          exact hblocked.blocked k hk

end Calls

theorem receivers_rules :
    KernelRules RespectsReceivers noteWaiting ReceiversBlocked ReceiversBlockedOn where
  enter := fun c s g hinv => hinv.on c
  setTf := fun s g e tf hinv => hinv.congr (fun k => field_setEnv Env.ipcRecving (by rfl) k)
    (fun k => field_setEnv Env.status (by rfl) k) fun _ => rfl
  setTfMid := fun c s g e tf hmid => hmid.congr (fun k => field_setEnv Env.ipcRecving (by rfl) k)
    (fun k => field_setEnv Env.status (by rfl) k) fun _ => rfl
  setCpunum := fun c s g e hinv _ => hinv.congr (fun k => field_setEnv Env.ipcRecving (by rfl) k)
    (fun k => field_setEnv Env.status (by rfl) k) fun _ => rfl
  resume := fun c s g e hmid hcur hrunning => hmid.keep hcur
    (hmid.not_recving (by rw [hrunning]; decide) (by rw [hrunning]; decide))
  started := fun c s g hinv _ => by
    refine ReceiversBlocked.on ?_ c
    refine hinv.congr (fun _ => rfl) (fun _ => rfl) fun k => ?_
    unfold Kernel.curenv
    rw [Kernel.cpus_setCpuStatus]
    by_cases hk : k = c <;> simp [hk]
  yield := fun c s g s' hmid hyield => hmid.yield hyield
  dying := fun c s g cur e hinv _ _ hrunning _ => by
    refine ReceiversBlocked.on (hinv.setEnv (by rfl) fun hrecv => ?_) c
    have hnot := (hinv.on c).not_recving (e := e) (by rw [hrunning]; decide)
      (by rw [hrunning]; decide)
    dsimp only at hrecv
    rw [hnot] at hrecv
    cases hrecv
  retire := fun c s g cur e s' hinv _ _ _ hretire => (hinv.retire hretire).on c
  plain := fun c s g cur key call ret s' hinv _ hrespects hrun => hinv.plain hrespects hrun
  other := fun s cur call g hsys =>
    noteWaiting_other (by rcases hsys with h | h | h <;> rw [h] <;> decide)
      (by rcases hsys with h | h | h <;> rw [h] <;> decide)
      (by rcases hsys with h | h | h <;> rw [h] <;> decide)
  frame := fun s g e dir va bytes σ hinv _ _ _ =>
    hinv.congr (fun _ => rfl) (fun _ => rfl) fun _ => rfl
  store := fun c s g va byte s' hinv hstore => by
    obtain ⟨σ, rfl⟩ := userStore_phys hstore
    exact hinv.congr (fun _ => rfl) (fun _ => rfl) fun _ => rfl
  mmu := fun s g bits hinv => hinv.congr (fun _ => rfl) (fun _ => rfl) fun _ => rfl

end OsLabs.Jos
