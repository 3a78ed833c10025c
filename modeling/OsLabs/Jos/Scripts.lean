import OsLabs.Jos.RoundRobin

/-!
# Programs that make calls one after the other

On one CPU a program makes calls until it blocks, ends or is interrupted.  The
steps here keep track of the kernel up to what running an environment changes
by itself: its saved registers, its CPU and how often it ran.
-/

namespace OsLabs.Jos

open Function

/-- An environment up to what running it changes. -/
def Env.resting (env : Env) : Env := { env with tf := Trapframe.zero, runs := 0, cpunum := 0 }

/-- The kernel up to what running environments changes, and without its CPUs. -/
def Kernel.resting (s : Kernel) : Kernel :=
  { s with
    envs := fun e => (s.envs e).resting
    cpus := fun _ => ⟨.started, none, 0⟩ }

section Resting

variable {s : Kernel} {cur e : Slot}

theorem resting_resting (s : Kernel) : s.resting.resting = s.resting := rfl

theorem resting_setEnv (s : Kernel) (e : Slot) (env : Env) :
    (s.setEnv e env).resting = s.resting.setEnv e env.resting := by
  have henvs : (fun k => (update s.envs e env k).resting) =
      update (fun k => (s.envs k).resting) e env.resting := by
    funext k
    by_cases hsame : k = e
    · rw [hsame, update_self, update_self]
    · rw [update_of_ne hsame, update_of_ne hsame]
  simp only [Kernel.resting, Kernel.setEnv, henvs]

theorem resting_setTf (s : Kernel) (e : Slot) (tf : Trapframe) :
    (s.setTf e tf).resting = s.resting := by
  rw [Kernel.setTf, resting_setEnv]
  have hsame : ({ s.envs e with tf := tf } : Env).resting = s.resting.envs e := rfl
  rw [hsame, Kernel.setEnv, update_eq_self]

theorem resting_setCpunum (s : Kernel) (e : Slot) (c : ℕ) :
    (s.setEnv e { s.envs e with cpunum := c }).resting = s.resting := by
  rw [resting_setEnv]
  have hsame : ({ s.envs e with cpunum := c } : Env).resting = s.resting.envs e := rfl
  rw [hsame, Kernel.setEnv, update_eq_self]

theorem phys_resting (s : Kernel) : s.resting.phys = s.phys := rfl

theorem pgdir_resting (s : Kernel) (e : Slot) : (s.resting.envs e).pgdir = (s.envs e).pgdir := rfl

theorem envid2env_resting (s : Kernel) (cur : Slot) (envid : Word) (checkperm : Bool) :
    envid2env s.resting cur envid checkperm = envid2env s cur envid checkperm := rfl

/-- The outcome of a call up to what running environments changes. -/
def restingOutcome : Option (Word × Kernel) → Option (Word × Kernel) :=
  Option.map fun outcome => (outcome.1, outcome.2.resting)

theorem restingOutcome_some (ret : Word) (s : Kernel) :
    restingOutcome (some (ret, s)) = some (ret, s.resting) := rfl

theorem restingOutcome_setEnv {ret : Word} {env env' : Env} (hsame : env.resting = env'.resting) :
    restingOutcome (some (ret, s.resting.setEnv e env)) =
      restingOutcome (some (ret, s.setEnv e env')) := by
  rw [restingOutcome_some, restingOutcome_some, resting_setEnv, resting_setEnv, resting_resting,
    hsame]

theorem restingOutcome_bind {α : Type} (o : Option α) {f g : α → Option (Word × Kernel)}
    (hsame : ∀ a, restingOutcome (f a) = restingOutcome (g a)) :
    restingOutcome (o >>= f) = restingOutcome (o >>= g) := by
  cases o with
  | none => rfl
  | some a => exact hsame a

theorem sysEnvSetStatus_resting (s : Kernel) (cur : Slot) (envid status : Word) :
    restingOutcome (some (sysEnvSetStatus s.resting cur envid status)) =
      restingOutcome (some (sysEnvSetStatus s cur envid status)) := by
  rw [sysEnvSetStatus, sysEnvSetStatus, envid2env_resting]
  cases settableStatus status with
  | none => rfl
  | some status =>
    cases envid2env s cur envid true with
    | none => rfl
    | some e => exact restingOutcome_setEnv rfl

theorem sysEnvSetPgfaultUpcall_resting (s : Kernel) (cur : Slot) (envid func : Word) :
    restingOutcome (some (sysEnvSetPgfaultUpcall s.resting cur envid func)) =
      restingOutcome (some (sysEnvSetPgfaultUpcall s cur envid func)) := by
  rw [sysEnvSetPgfaultUpcall, sysEnvSetPgfaultUpcall, envid2env_resting]
  cases envid2env s cur envid true with
  | none => rfl
  | some e => exact restingOutcome_setEnv rfl

theorem sysIpcRecv_resting (s : Kernel) (cur : Slot) (dstva : Word) :
    restingOutcome (some (sysIpcRecv s.resting cur dstva)) =
      restingOutcome (some (sysIpcRecv s cur dstva)) := by
  rw [sysIpcRecv, sysIpcRecv]
  split
  · rfl
  · exact restingOutcome_setEnv rfl

theorem sysPageAlloc_resting (s : Kernel) (cur : Slot) (envid va perm : Word) :
    restingOutcome (sysPageAlloc s.resting cur envid va perm) =
      restingOutcome (sysPageAlloc s cur envid va perm) := by
  rw [sysPageAlloc, sysPageAlloc, envid2env_resting]
  cases envid2env s cur envid true with
  | none => rfl
  | some e =>
    simp only [phys_resting, pgdir_resting]
    split
    · rfl
    split
    · rfl
    split
    · rfl
    refine restingOutcome_bind _ fun dir => restingOutcome_bind _ fun (ret, σ) => ?_
    dsimp only
    split <;> rfl

theorem sysPageMap_resting (s : Kernel) (cur : Slot) (srcenvid srcva dstenvid dstva perm : Word) :
    restingOutcome (sysPageMap s.resting cur srcenvid srcva dstenvid dstva perm) =
      restingOutcome (sysPageMap s cur srcenvid srcva dstenvid dstva perm) := by
  rw [sysPageMap, sysPageMap, envid2env_resting, envid2env_resting]
  cases envid2env s cur srcenvid true with
  | none => rfl
  | some e =>
    cases envid2env s cur dstenvid true with
    | none => rfl
    | some e' =>
      simp only [phys_resting, pgdir_resting]
      split
      · rfl
      refine restingOutcome_bind _ fun srcdir => restingOutcome_bind _ fun found => ?_
      match found with
      | none => rfl
      | some (pg, table, index) =>
        dsimp only
        split
        · rfl
        change restingOutcome (if s.phys.load table index &&& pteW = 0 ∧ perm &&& pteW ≠ 0 then _
          else _) = _
        split
        · rfl
        · exact restingOutcome_bind _ fun dstdir => restingOutcome_bind _ fun _ => rfl

theorem sysPageUnmap_resting (s : Kernel) (cur : Slot) (envid va : Word) :
    restingOutcome (sysPageUnmap s.resting cur envid va) =
      restingOutcome (sysPageUnmap s cur envid va) := by
  rw [sysPageUnmap, sysPageUnmap, envid2env_resting]
  split
  · rfl
  cases envid2env s cur envid true with
  | none => rfl
  | some e => exact restingOutcome_bind _ fun _ => restingOutcome_bind _ fun _ => rfl

theorem ipcDeliver_resting {s t : Kernel} (hsame : s.resting = t.resting) (cur e : Slot)
    (value : Word) : (ipcDeliver s cur e value).resting = (ipcDeliver t cur e value).resting := by
  have henv : ∀ k, (s.envs k).resting = (t.envs k).resting := fun k =>
    congrFun (congrArg Kernel.envs hsame) k
  have hid : (s.envs cur).id = (t.envs cur).id := by
    have hsameId := congrArg Env.id (henv cur)
    exact hsameId
  have hnew : ({ s.envs e with
      ipcRecving := false, ipcFrom := (s.envs cur).id, ipcValue := value, status := .runnable
      tf := (s.envs e).tf.setEax 0 } : Env).resting = ({ t.envs e with
      ipcRecving := false, ipcFrom := (t.envs cur).id, ipcValue := value, status := .runnable
      tf := (t.envs e).tf.setEax 0 } : Env).resting := by
    rw [hid]
    exact congrArg (fun env : Env => { env with
      ipcRecving := false, ipcFrom := (t.envs cur).id, ipcValue := value, status := .runnable })
      (henv e)
  rw [ipcDeliver, ipcDeliver, resting_setEnv, resting_setEnv, hsame, hnew]

theorem sysIpcTrySend_resting (s : Kernel) (cur : Slot) (envid value srcva perm : Word) :
    restingOutcome (sysIpcTrySend s.resting cur envid value srcva perm) =
      restingOutcome (sysIpcTrySend s cur envid value srcva perm) := by
  rw [sysIpcTrySend, sysIpcTrySend, envid2env_resting]
  cases envid2env s cur envid false with
  | none => rfl
  | some e =>
    have hrecving : (s.resting.envs e).ipcRecving = (s.envs e).ipcRecving := rfl
    have hdstva : (s.resting.envs e).ipcDstva = (s.envs e).ipcDstva := rfl
    have hdeliver : restingOutcome (some (0, ipcDeliver s.resting cur e value)) =
        restingOutcome (some (0, ipcDeliver s cur e value)) := by
      rw [restingOutcome_some, restingOutcome_some, ipcDeliver_resting (resting_resting s)]
    simp only [phys_resting, pgdir_resting, hrecving, hdstva]
    split
    · rfl
    split
    case isFalse => exact hdeliver
    refine restingOutcome_bind _ fun srcdir => restingOutcome_bind _ fun found => ?_
    match found with
    | none => rfl
    | some (pg, table, index) =>
      dsimp only
      split
      · rfl
      split
      · rfl
      split
      · rfl
      split
      case isFalse => exact hdeliver
      refine restingOutcome_bind _ fun dstdir => restingOutcome_bind _ fun (ret, σ) => ?_
      dsimp only
      split
      · rfl
      · refine congrArg (fun after => some ((0 : Word), after)) (ipcDeliver_resting ?_ cur e value)
        rw [resting_setEnv, resting_setEnv]
        rfl

/-- `sys_exofork`, forwards. -/
theorem sysExofork_forked {e : Slot} {p : ℕ} (hlist : s.envFreeList = some e)
    (hpage : s.phys.pageFreeList = some p) : sysExofork s cur =
      (nextEnvId (s.envs e).id e,
        { phys := setupDir s.phys s.kernPgdir p
          kernPgdir := s.kernPgdir
          envs := update s.envs e
            { newEnv (s.envs e) e (s.envs cur).id p with
              tf := (update s.envs e (newEnv (s.envs e) e (s.envs cur).id p) cur).tf.setEax 0
              status := .notRunnable }
          envFreeList := (s.envs e).link
          cpus := s.cpus }) := by
  have halloc : envAlloc s (s.envs cur).id = .ok (e,
      { phys := setupDir s.phys s.kernPgdir p
        kernPgdir := s.kernPgdir
        envs := update s.envs e (newEnv (s.envs e) e (s.envs cur).id p)
        envFreeList := (s.envs e).link
        cpus := s.cpus }) := by
    simp [envAlloc, hlist, envSetupVm, pageAlloc, hpage, Kernel.setEnv, Kernel.setPhys, newEnv,
      setupDir]
  rw [sysExofork, halloc]
  simp [Kernel.setEnv, newEnv]

theorem sysExofork_resting (s : Kernel) (cur : Slot) :
    restingOutcome (some (sysExofork s.resting cur)) = restingOutcome (some (sysExofork s cur)) := by
  cases hlist : s.envFreeList with
  | none =>
    have hlist' : s.resting.envFreeList = none := hlist
    rw [sysExofork, sysExofork, envAlloc, envAlloc, hlist, hlist']
    rfl
  | some e =>
    have hlist' : s.resting.envFreeList = some e := hlist
    cases hpage : s.phys.pageFreeList with
    | none =>
      have hpage' : s.resting.phys.pageFreeList = none := hpage
      simp only [sysExofork, envAlloc, hlist, hlist', envSetupVm, pageAlloc, hpage, hpage']
      rfl
    | some p =>
      have hpage' : s.resting.phys.pageFreeList = some p := hpage
      rw [sysExofork_forked hlist hpage, sysExofork_forked hlist' hpage', restingOutcome_some,
        restingOutcome_some]
      simp only [Kernel.resting]
      congr 3
      funext k
      by_cases hsame : k = e
      · subst hsame
        rw [update_self, update_self]
        rfl
      · rw [update_of_ne hsame, update_of_ne hsame]
        rfl

theorem plainCall_resting (s : Kernel) (cur : Slot) (key : Word) (call : Call) :
    restingOutcome (plainCall s.resting cur key call) =
      restingOutcome (plainCall s cur key call) := by
  unfold plainCall
  cases call.sys
  case exofork => exact sysExofork_resting s cur
  case pageAlloc => exact sysPageAlloc_resting s cur _ _ _
  case pageMap => exact sysPageMap_resting s cur _ _ _ _ _
  case pageUnmap => exact sysPageUnmap_resting s cur _ _
  case envSetStatus => exact sysEnvSetStatus_resting s cur _ _
  case envSetPgfaultUpcall => exact sysEnvSetPgfaultUpcall_resting s cur _ _
  case ipcTrySend => exact sysIpcTrySend_resting s cur _ _ _ _
  case ipcRecv => exact sysIpcRecv_resting s cur _
  case changePr => exact restingOutcome_setEnv rfl
  all_goals rfl

/-- A call does the same in states that differ in what running changes. -/
theorem plainCall_congr {t t' : Kernel} {key ret : Word} {call : Call} (hsame : s.resting = t.resting)
    (hrun : plainCall t cur key call = some (ret, t')) :
    ∃ s', plainCall s cur key call = some (ret, s') ∧ s'.resting = t'.resting := by
  have hout : restingOutcome (plainCall s cur key call) = some (ret, t'.resting) := by
    calc restingOutcome (plainCall s cur key call)
      _ = restingOutcome (plainCall s.resting cur key call) := (plainCall_resting s cur key call).symm
      _ = restingOutcome (plainCall t.resting cur key call) := by rw [hsame]
      _ = restingOutcome (plainCall t cur key call) := plainCall_resting t cur key call
      _ = some (ret, t'.resting) := by rw [hrun, restingOutcome_some]
  obtain ⟨⟨ret', s'⟩, hcall, heq⟩ := Option.map_eq_some_iff.mp hout
  obtain ⟨rfl, hrest⟩ := Prod.mk.inj heq
  exact ⟨s', hcall, hrest⟩

theorem plainCall_cpus {s' : Kernel} {key ret : Word} {call : Call}
    (hrun : plainCall s cur key call = some (ret, s')) : s'.cpus = s.cpus := by
  cases plainCall_effect hrun <;> rfl

end Resting

/-! ## Steps -/

/-- Environment `cur` runs on CPU 0, and the kernel is as in `t`. -/
structure Acting (s : Kernel) (cur : Slot) (t : Kernel) : Prop where
  rest : s.resting = t.resting
  onCpu : s.curenv 0 = some cur
  started : (s.cpus 0).status = .started
  running : (t.envs cur).status = .running

/-- Environment `e` is the only one that waits for the CPU. -/
def NextIs (t : Kernel) (e : Slot) : Prop :=
  (∀ k, (t.envs k).status = .runnable ↔ k = e) ∧ (t.envs e).pgdir.isSome

section Steps

variable {s s' t t' : Kernel} {cur e : Slot}

theorem phys_of_rest (hrest : s.resting = t.resting) : s.phys = t.phys := by
  have hsame : s.resting.phys = t.resting.phys := by rw [hrest]
  exact hsame

theorem envs_of_rest (hrest : s.resting = t.resting) (k : Slot) :
    (s.envs k).resting = (t.envs k).resting :=
  congrFun (congrArg Kernel.envs hrest) k

theorem status_of_rest (hrest : s.resting = t.resting) (k : Slot) :
    (s.envs k).status = (t.envs k).status := by
  have hsame := congrArg Env.status (envs_of_rest hrest k)
  exact hsame

theorem pgdir_of_rest (hrest : s.resting = t.resting) (k : Slot) :
    (s.envs k).pgdir = (t.envs k).pgdir := by
  have hsame := congrArg Env.pgdir (envs_of_rest hrest k)
  exact hsame

theorem pr_of_rest (hrest : s.resting = t.resting) (k : Slot) :
    (s.envs k).pr = (t.envs k).pr := by
  have hsame := congrArg Env.pr (envs_of_rest hrest k)
  exact hsame

theorem resting_setStatus (s : Kernel) (e : Slot) (status : EnvStatus) :
    (s.setStatus e status).resting = s.resting.setStatus e status :=
  resting_setEnv s e _

/-- A switch from an environment that does not go on. -/
theorem resting_switched (hne : s.curenv 0 ≠ some e)
    (hnot : ∀ k, s.curenv 0 = some k → (s.envs k).status ≠ .running) (dir : ℕ) :
    (switched s 0 e dir).resting = s.resting.setStatus e .running := by
  have henvs : (fun k => ((switched s 0 e dir).envs k).resting) =
      update s.resting.envs e { s.resting.envs e with status := .running } := by
    funext k
    obtain ⟨runs, cpunum, henv⟩ := switched_envs s hne dir k
    have hold : ¬ (s.curenv 0 = some k ∧ (s.envs k).status = .running) := fun h => hnot k h.1 h.2
    rw [henv, if_neg hold]
    by_cases hsame : k = e
    · rw [hsame, update_self, if_pos rfl]
      rfl
    · rw [update_of_ne hsame, if_neg hsame]
      rfl
  rw [Kernel.setStatus, Kernel.setEnv, ← henvs]
  rfl

/-- A switch from a running environment. -/
theorem resting_switched_running (hcur : s.curenv 0 = some cur) (hne : cur ≠ e)
    (hrunning : (s.envs cur).status = .running) (dir : ℕ) :
    (switched s 0 e dir).resting =
      (s.resting.setStatus cur .runnable).setStatus e .running := by
  have hother : s.curenv 0 ≠ some e := fun h => hne (Option.some.inj (hcur.symm.trans h))
  have henvs : (fun k => ((switched s 0 e dir).envs k).resting) =
      ((s.resting.setStatus cur .runnable).setStatus e .running).envs := by
    funext k
    obtain ⟨runs, cpunum, henv⟩ := switched_envs s hother dir k
    rw [henv, hcur, Kernel.setStatus, Kernel.setStatus]
    by_cases hsame : k = e
    · rw [hsame, if_pos rfl]
      simp only [Kernel.envs_setEnv, update_self, update_of_ne hne.symm]
      rfl
    · rw [if_neg hsame]
      simp only [Kernel.envs_setEnv, update_of_ne hsame]
      by_cases hk : k = cur
      · subst hk
        rw [update_self, if_pos ⟨rfl, hrunning⟩]
        rfl
      · rw [update_of_ne hk, if_neg fun h => hk (Option.some.inj h.1).symm]
        rfl
  have hkernel : ∀ a b : Kernel, a.phys = b.phys → a.kernPgdir = b.kernPgdir → a.envs = b.envs →
      a.envFreeList = b.envFreeList → a.cpus = b.cpus → a = b := by
    rintro ⟨⟩ ⟨⟩ rfl rfl rfl rfl rfl
    rfl
  exact hkernel _ _ rfl rfl henvs rfl rfl

/-- The current environment makes a call and goes on. -/
theorem Acting.call (hacting : Acting s cur t) {call : Call} {ret : Word}
    (hrun : plainCall t cur 0 call = some (ret, t')) (hstill : (t'.envs cur).status = .running) :
    ∃ s', step s (.enter 0 (callEntry call)) = some s' ∧ Acting s' cur t' := by
  have halive : (s.envs cur).status ≠ .dying := by
    rw [status_of_rest hacting.rest, hacting.running]
    decide
  obtain ⟨after, hcall, hafter⟩ := plainCall_congr (s := s.setTf cur (callFrame call))
    ((resting_setTf _ _ _).trans hacting.rest) hrun
  have hcpus := plainCall_cpus hcall
  have hcur : (after.setTf cur ((after.envs cur).tf.setEax ret)).curenv 0 = some cur := by
    rw [Kernel.curenv, Kernel.setTf, Kernel.cpus_setEnv, hcpus]
    exact hacting.onCpu
  have hrest := (resting_setTf after cur ((after.envs cur).tf.setEax ret)).trans hafter
  have hstep := step_call hacting.started hacting.onCpu halive hcall
  rw [trapReturn, hcur] at hstep
  dsimp only at hstep
  rw [if_pos ((status_of_rest hrest cur).trans hstill), envRun_current hcur] at hstep
  exact ⟨_, hstep, (resting_setCpunum _ _ _).trans hrest, hcur, by
    change (after.cpus 0).status = .started
    rw [hcpus]
    exact hacting.started, hstill⟩

/-- `sched_yield` after the current environment has blocked or ended. -/
theorem schedYield_next (hrest : s.resting = t.resting) (hstarted : (s.cpus 0).status = .started)
    (hnot : ∀ k, s.curenv 0 = some k → (s.envs k).status ≠ .running) (hnext : NextIs t e)
    (hne : s.curenv 0 ≠ some e) :
    ∃ s', schedYield s 0 = some s' ∧ Acting s' e (t.setStatus e .running) := by
  obtain ⟨dir, hdir⟩ := Option.isSome_iff_exists.mp hnext.2
  have hpick : schedPick s 0 = some e :=
    schedPick_unique ((status_of_rest hrest e).trans ((hnext.1 e).mpr rfl)) fun k hk =>
      (hnext.1 k).mp ((status_of_rest hrest k).symm.trans hk)
  refine ⟨_, schedYield_switch hnot hpick hne ((pgdir_of_rest hrest e).trans hdir), ?_⟩
  exact
    { rest := by rw [resting_switched hne hnot, resting_setStatus, hrest]
      onCpu := by rw [curenv_switched, if_pos rfl]
      started := by rw [switched_cpus, update_self, hstarted]
      running := by simp [Kernel.setStatus] }

/-- The current environment makes a call that blocks it. -/
theorem Acting.block (hacting : Acting s cur t) {call : Call} {ret : Word}
    (hrun : plainCall t cur 0 call = some (ret, t')) (hblocked : (t'.envs cur).status = .notRunnable)
    (hnext : NextIs t' e) :
    ∃ s', step s (.enter 0 (callEntry call)) = some s' ∧ Acting s' e (t'.setStatus e .running) := by
  have halive : (s.envs cur).status ≠ .dying := by
    rw [status_of_rest hacting.rest, hacting.running]
    decide
  obtain ⟨after, hcall, hafter⟩ := plainCall_congr (s := s.setTf cur (callFrame call))
    ((resting_setTf _ _ _).trans hacting.rest) hrun
  have hcpus := plainCall_cpus hcall
  have hcur : (after.setTf cur ((after.envs cur).tf.setEax ret)).curenv 0 = some cur := by
    rw [Kernel.curenv, Kernel.setTf, Kernel.cpus_setEnv, hcpus]
    exact hacting.onCpu
  have hrest := (resting_setTf after cur ((after.envs cur).tf.setEax ret)).trans hafter
  have hstatus := (status_of_rest hrest cur).trans hblocked
  have hnot : ∀ k, (after.setTf cur ((after.envs cur).tf.setEax ret)).curenv 0 = some k →
      ((after.setTf cur ((after.envs cur).tf.setEax ret)).envs k).status ≠ .running := by
    intro k hk
    obtain rfl := Option.some.inj (hcur.symm.trans hk)
    rw [hstatus]
    decide
  have hne : (after.setTf cur ((after.envs cur).tf.setEax ret)).curenv 0 ≠ some e := by
    intro hsame
    obtain rfl := Option.some.inj (hcur.symm.trans hsame)
    rw [(hnext.1 cur).mpr rfl] at hblocked
    cases hblocked
  obtain ⟨s', hyield, hdone⟩ := schedYield_next hrest (by
    change (after.cpus 0).status = .started
    rw [hcpus]
    exact hacting.started) hnot hnext hne
  refine ⟨s', ?_, hdone⟩
  rw [step_call hacting.started hacting.onCpu halive hcall, trapReturn, hcur]
  dsimp only
  rw [if_neg (hnot cur hcur), hyield]

theorem Acting.setTf (hacting : Acting s cur t) (tf : Trapframe) : Acting (s.setTf cur tf) cur t :=
  { hacting with rest := (resting_setTf s cur tf).trans hacting.rest }

/-- `sched_yield` while the current environment is running. -/
theorem Acting.pass (hacting : Acting s cur t) (hnext : NextIs t e)
    (hpr : (t.envs cur).pr.slt (t.envs e).pr = false) :
    ∃ s', schedYield s 0 = some s' ∧
      Acting s' e ((t.setStatus cur .runnable).setStatus e .running) := by
  have hstatus := status_of_rest hacting.rest
  have hne : cur ≠ e := by
    rintro rfl
    have hrunnable := (hnext.1 cur).mpr rfl
    rw [hacting.running] at hrunnable
    cases hrunnable
  have hother : s.curenv 0 ≠ some e := fun h =>
    hne (Option.some.inj (hacting.onCpu.symm.trans h))
  obtain ⟨dir, hdir⟩ := Option.isSome_iff_exists.mp hnext.2
  have hpick : schedPick s 0 = some e :=
    schedPick_unique ((hstatus e).trans ((hnext.1 e).mpr rfl)) fun k hk =>
      (hnext.1 k).mp ((hstatus k).symm.trans hk)
  have hkeeps : keepsRunning s 0 cur = false := by
    rw [keepsRunning, hpick]
    simp only [pr_of_rest hacting.rest, hpr, Bool.and_false]
  have hyield : schedYield s 0 = some (switched s 0 e dir) := by
    rw [schedYield, hacting.onCpu, Option.filter_some, hkeeps, hpick]
    simp only [Bool.false_eq_true, if_false]
    rw [envRun_switch hother, pgdir_of_rest hacting.rest, hdir, Option.map_some]
  exact ⟨_, hyield,
    { rest := by
        rw [resting_switched_running hacting.onCpu hne ((hstatus cur).trans hacting.running),
          resting_setStatus, resting_setStatus, hacting.rest]
      onCpu := by rw [curenv_switched, if_pos rfl]
      started := by rw [switched_cpus, update_self, hacting.started]
      running := by simp [Kernel.setStatus] }⟩

/-- The timer interrupts the current environment, and another one runs. -/
theorem Acting.tick (hacting : Acting s cur t) (hnext : NextIs t e)
    (hpr : (t.envs cur).pr.slt (t.envs e).pr = false) :
    ∃ s', step s (.enter 0 timerEntry) = some s' ∧
      Acting s' e ((t.setStatus cur .runnable).setStatus e .running) := by
  have halive : (s.envs cur).status ≠ .dying := by
    rw [status_of_rest hacting.rest, hacting.running]
    decide
  obtain ⟨s', hyield, hdone⟩ := (hacting.setTf timerFrame).pass hnext hpr
  exact ⟨s', (step_timer hacting.started hacting.onCpu halive).trans hyield, hdone⟩

/-- `sys_env_destroy` of the caller. -/
def exitCall : Call := ⟨.envDestroy, 0, 0, 0, 0, 0⟩

/-- A program ends. -/
theorem step_exit {freed : Kernel} (hstarted : (s.cpus 0).status = .started)
    (hcur : s.curenv 0 = some cur) (halive : (s.envs cur).status ≠ .dying)
    (hfree : envFree (s.setTf cur (callFrame exitCall)) 0 cur = some freed) :
    step s (.enter 0 (callEntry exitCall)) = schedYield (freed.setCurenv 0 none) 0 := by
  have hcur' : (s.setTf cur (callFrame exitCall)).curenv 0 = some cur := hcur
  have hdestroy : envDestroy (s.setTf cur (callFrame exitCall)) 0 cur =
      (schedYield (freed.setCurenv 0 none) 0).bind fun next => some (.left next) := by
    rw [envDestroy, if_neg fun h => h.2 hcur', hfree]
    simp only [Option.bind_eq_bind, Option.bind_some, envFree_curenv hfree, hcur', if_true]
    rfl
  have hself : envid2env (s.setTf cur (callFrame exitCall)) cur 0 true = some cur := rfl
  have hsyscall : syscall (s.setTf cur (callFrame exitCall)) 0 cur 0
      (callFrame exitCall).regs.eax (callFrame exitCall).regs.edx (callFrame exitCall).regs.ecx
      (callFrame exitCall).regs.ebx (callFrame exitCall).regs.edi (callFrame exitCall).regs.esi =
        (schedYield (freed.setCurenv 0 none) 0).bind fun next => some (.left next) := by
    change syscall (s.setTf cur (callFrame exitCall)) 0 cur 0 3 0 0 0 0 0 = _
    rw [syscall]
    simp only [show Sys.decode 3 = some .envDestroy from rfl, sysEnvDestroy, hself, hdestroy,
      Option.bind_eq_bind]
    cases schedYield (freed.setCurenv 0 none) 0 <;> rfl
  have hdispatch : trapDispatch (s.setTf cur (callFrame exitCall)) 0 cur (callFrame exitCall) 0 0 =
      (schedYield (freed.setCurenv 0 none) 0).bind fun next => some (.left next) := by
    have hfault : (callFrame exitCall).trapno ≠ tPgflt := by decide
    have hbreak : (callFrame exitCall).trapno ≠ tBrkpt := by decide
    have hcallno : (callFrame exitCall).trapno = tSyscall := rfl
    rw [trapDispatch, if_neg hfault, if_neg hbreak, if_pos hcallno, hsyscall]
    cases schedYield (freed.setCurenv 0 none) 0 <;> rfl
  simp only [step, enter, callEntry, hstarted, if_true, trapUser, hcur,
    Option.bind_eq_bind, Option.bind_some, if_neg halive, hdispatch]
  cases schedYield (freed.setCurenv 0 none) 0 <;> rfl

/-- The kernel after the end of environment `cur`. -/
def ended (t : Kernel) (cur : Slot) (σ : Phys) : Kernel :=
  { t with
    phys := σ
    envs := update t.envs cur { t.envs cur with pgdir := none, status := .free, link := t.envFreeList }
    envFreeList := some cur }

/-- `env_free` of the current environment, forwards. -/
theorem Acting.free (hacting : Acting s cur t) {σ : Phys} {dir pt : ℕ}
    (hdir : (t.envs cur).pgdir = some dir) (hfree : freeTables t.phys dir userPdes = some σ)
    (hpage : σ.pa2page (page2pa dir) = some pt) :
    ∃ freed, envFree s 0 cur = some freed ∧
      freed.resting = (ended t cur (pageDecref σ pt)).resting ∧
      (freed.cpus 0).status = .started ∧ freed.curenv 0 = some cur := by
  have hphys : s.phys = t.phys := by
    have hsame := congrArg Kernel.phys hacting.rest
    exact hsame
  have hlist : s.envFreeList = t.envFreeList := by
    have hsame := congrArg Kernel.envFreeList hacting.rest
    exact hsame
  have hdir' : (s.envs cur).pgdir = some dir := (pgdir_of_rest hacting.rest cur).trans hdir
  obtain ⟨freed, hdone, -⟩ := envFree_of_tables (c := 0) hdir' (hphys.symm ▸ hfree) hpage
  obtain ⟨dir', σ', pt', hd, ht, hp, heq⟩ := envFree_cases hdone
  obtain rfl := Option.some.inj (hdir'.symm.trans hd)
  rw [hphys] at ht
  obtain rfl := Option.some.inj (hfree.symm.trans ht)
  obtain rfl := Option.some.inj (hpage.symm.trans hp)
  refine ⟨freed, hdone, ?_, ?_, ?_⟩
  · rw [heq]
    have henvs : (fun k => (update s.envs cur { s.envs cur with
        pgdir := none, status := .free, link := s.envFreeList } k).resting) =
        fun k => ((ended t cur (pageDecref σ pt)).envs k).resting := by
      funext k
      rw [ended]
      dsimp only
      by_cases hsame : k = cur
      · rw [hsame, update_self, update_self, hlist]
        exact congrArg (fun env : Env => { env with
          pgdir := none, status := .free, link := t.envFreeList }) (envs_of_rest hacting.rest cur)
      · rw [update_of_ne hsame, update_of_ne hsame, envs_of_rest hacting.rest k]
    have hkern := congrArg Kernel.kernPgdir hacting.rest
    simp only [Kernel.resting, henvs]
    rw [ended]
    dsimp only at hkern ⊢
    rw [show s.kernPgdir = t.kernPgdir from hkern]
  · rw [heq]
    simp [hacting.onCpu, hacting.started]
  · rw [envFree_curenv hdone, hacting.onCpu]

/-- The current environment ends. -/
theorem Acting.exit (hacting : Acting s cur t) {σ : Phys} {dir pt : ℕ}
    (hdir : (t.envs cur).pgdir = some dir) (hfree : freeTables t.phys dir userPdes = some σ)
    (hpage : σ.pa2page (page2pa dir) = some pt)
    (hnext : NextIs (ended t cur (pageDecref σ pt)) e) :
    ∃ s', step s (.enter 0 (callEntry exitCall)) = some s' ∧
      Acting s' e ((ended t cur (pageDecref σ pt)).setStatus e .running) := by
  have halive : (s.envs cur).status ≠ .dying := by
    rw [status_of_rest hacting.rest, hacting.running]
    decide
  have hsaved := hacting.setTf (callFrame exitCall)
  obtain ⟨freed, hfreed, hrest, hstarted, hcur⟩ := hsaved.free hdir hfree hpage
  have hrest' : (freed.setCurenv 0 none).resting = (ended t cur (pageDecref σ pt)).resting := hrest
  have hnone : (freed.setCurenv 0 none).curenv 0 = none := by
    rw [Kernel.curenv, Kernel.cpus_setCurenv, update_self]
  obtain ⟨s', hyield, hdone⟩ := schedYield_next hrest' (by
    rw [Kernel.cpus_setCurenv, update_self]
    exact hstarted) (fun k hk => by rw [hnone] at hk; cases hk) hnext (by simp [hnone])
  refine ⟨s', ?_, hdone⟩
  rw [step_exit hacting.started hacting.onCpu halive hfreed, hyield]

/-! ## Two environments -/

/-- The first two environments are the only ones, with these states. -/
structure Two (t : Kernel) (first second : EnvStatus) : Prop where
  first : (t.envs firstSlot).status = first
  second : (t.envs secondSlot).status = second
  others : ∀ k, k ≠ firstSlot → k ≠ secondSlot → (t.envs k).status = .free
  firstDir : (t.envs firstSlot).pgdir.isSome
  secondDir : (t.envs secondSlot).pgdir.isSome
  pr : ∀ k, (t.envs k).pr = 0

theorem first_ne_second : firstSlot ≠ secondSlot := by decide

section TwoEnvs

variable {a b c : EnvStatus}

theorem Two.nextSecond (htwo : Two t a .runnable) (ha : a ≠ .runnable) : NextIs t secondSlot := by
  refine ⟨fun k => ?_, htwo.secondDir⟩
  by_cases hsecond : k = secondSlot
  · exact iff_of_true (hsecond ▸ htwo.second) hsecond
  · refine iff_of_false (fun hk => ?_) hsecond
    by_cases hfirst : k = firstSlot
    · rw [hfirst, htwo.first] at hk
      exact ha hk
    · rw [htwo.others k hfirst hsecond] at hk
      cases hk

theorem Two.nextFirst (htwo : Two t .runnable b) (hb : b ≠ .runnable) : NextIs t firstSlot := by
  refine ⟨fun k => ?_, htwo.firstDir⟩
  by_cases hfirst : k = firstSlot
  · exact iff_of_true (hfirst ▸ htwo.first) hfirst
  · refine iff_of_false (fun hk => ?_) hfirst
    by_cases hsecond : k = secondSlot
    · rw [hsecond, htwo.second] at hk
      exact hb hk
    · rw [htwo.others k hfirst hsecond] at hk
      cases hk

theorem Two.setFirst (htwo : Two t a b) {env : Env} (hstatus : env.status = c)
    (hdir : env.pgdir.isSome) (hpr : env.pr = 0) : Two (t.setEnv firstSlot env) c b where
  first := by rw [Kernel.envs_setEnv, update_self, hstatus]
  second := by rw [Kernel.envs_setEnv, update_of_ne first_ne_second.symm, htwo.second]
  others := fun k hfirst hsecond => by
    rw [Kernel.envs_setEnv, update_of_ne hfirst, htwo.others k hfirst hsecond]
  firstDir := by rwa [Kernel.envs_setEnv, update_self]
  secondDir := by
    rw [Kernel.envs_setEnv, update_of_ne first_ne_second.symm]
    exact htwo.secondDir
  pr := fun k => by
    by_cases hk : k = firstSlot
    · rw [hk, Kernel.envs_setEnv, update_self, hpr]
    · rw [Kernel.envs_setEnv, update_of_ne hk, htwo.pr]

theorem Two.setSecond (htwo : Two t a b) {env : Env} (hstatus : env.status = c)
    (hdir : env.pgdir.isSome) (hpr : env.pr = 0) : Two (t.setEnv secondSlot env) a c where
  first := by rw [Kernel.envs_setEnv, update_of_ne first_ne_second, htwo.first]
  second := by rw [Kernel.envs_setEnv, update_self, hstatus]
  others := fun k hfirst hsecond => by
    rw [Kernel.envs_setEnv, update_of_ne hsecond, htwo.others k hfirst hsecond]
  firstDir := by
    rw [Kernel.envs_setEnv, update_of_ne first_ne_second]
    exact htwo.firstDir
  secondDir := by rwa [Kernel.envs_setEnv, update_self]
  pr := fun k => by
    by_cases hk : k = secondSlot
    · rw [hk, Kernel.envs_setEnv, update_self, hpr]
    · rw [Kernel.envs_setEnv, update_of_ne hk, htwo.pr]

theorem Two.first_status (htwo : Two t a b) (status : EnvStatus) :
    Two (t.setStatus firstSlot status) status b :=
  htwo.setFirst rfl htwo.firstDir (htwo.pr firstSlot)

theorem Two.second_status (htwo : Two t a b) (status : EnvStatus) :
    Two (t.setStatus secondSlot status) a status :=
  htwo.setSecond rfl htwo.secondDir (htwo.pr secondSlot)

/-- The kernel when the second environment goes on after the first one. -/
def secondGoesOn (t : Kernel) : Kernel := (t.setStatus firstSlot .runnable).setStatus secondSlot .running

theorem Two.goesOn (htwo : Two t a b) : Two (secondGoesOn t) .runnable .running :=
  (htwo.first_status .runnable).second_status .running

/-- The timer interrupts the first environment. -/
theorem Two.tick (htwo : Two t .running .runnable) (hacting : Acting s firstSlot t) :
    ∃ s', step s (.enter 0 timerEntry) = some s' ∧ Acting s' secondSlot (secondGoesOn t) := by
  refine hacting.tick (htwo.nextSecond (by decide)) ?_
  rw [htwo.pr, htwo.pr]
  rfl

/-- `sys_ipc_recv`. -/
def recvCall (dstva : Word) : Call := ⟨.ipcRecv, dstva, 0, 0, 0, 0⟩

/-- The second environment waits for a message. -/
def secondWaits (t : Kernel) (dstva : Word) : Kernel :=
  t.setEnv secondSlot { t.envs secondSlot with
    ipcRecving := true, status := .notRunnable, ipcDstva := dstva }

/-- The kernel when the first environment goes on while the second one waits. -/
def firstGoesOn (t : Kernel) (dstva : Word) : Kernel :=
  (secondWaits t dstva).setStatus firstSlot .running

theorem Two.waits (htwo : Two t a b) (dstva : Word) : Two (secondWaits t dstva) a .notRunnable :=
  htwo.setSecond rfl htwo.secondDir (htwo.pr secondSlot)

theorem Two.firstGoesOn (htwo : Two t a b) (dstva : Word) :
    Two (firstGoesOn t dstva) .running .notRunnable :=
  (htwo.waits dstva).first_status .running

theorem Two.recv (htwo : Two t .runnable .running) (hacting : Acting s secondSlot t) (dstva : Word)
    (hdst : dstva < utop → dstva = roundDown dstva) :
    ∃ s', step s (.enter 0 (callEntry (recvCall dstva))) = some s' ∧
      Acting s' firstSlot (Jos.firstGoesOn t dstva) := by
  have hcall : plainCall t secondSlot 0 (recvCall dstva) = some (0, secondWaits t dstva) := by
    change some (sysIpcRecv t secondSlot dstva) = _
    rw [sysIpcRecv, if_neg fun h => h.2 (hdst h.1)]
    rfl
  exact hacting.block hcall (htwo.waits dstva).second ((htwo.waits dstva).nextFirst (by decide))

theorem Idle.two {m : Machine} {spare : ℕ} {booted : Kernel} (hidle : Idle m 2 spare booted) :
    Two booted .runnable .runnable := by
  obtain ⟨dir, hfirst⟩ := hidle.env firstSlot (by decide)
  obtain ⟨dir', hsecond⟩ := hidle.env secondSlot (by decide)
  have hunused : ∀ k : Slot, k ≠ firstSlot → k ≠ secondSlot →
      booted.envs k = { Env.zero with link := slotLink (k + 1) } := fun k hk hk' => by
    have h0 : (k : ℕ) ≠ 0 := fun h => hk (Fin.ext h)
    have h1 : (k : ℕ) ≠ 1 := fun h => hk' (Fin.ext h)
    exact hidle.unused k (by omega)
  exact
    { first := by rw [hfirst]; rfl
      second := by rw [hsecond]; rfl
      others := fun k hk hk' => by rw [hunused k hk hk']; rfl
      firstDir := by rw [hfirst]; rfl
      secondDir := by rw [hsecond]; rfl
      pr := fun k => by
        by_cases hk : k = firstSlot
        · rw [hk, hfirst]
          rfl
        · by_cases hk' : k = secondSlot
          · rw [hk', hsecond]
            rfl
          · rw [hunused k hk hk']
            rfl }

end TwoEnvs

/-- The first entry on a machine with two idle environments. -/
theorem Idle.acts {m : Machine} {spare : ℕ} {booted : Kernel} (hidle : Idle m 2 spare booted)
    (hncpu : 0 < m.ncpu) :
    ∃ running, step booted (.enter 0 .boot) = some running ∧
      Acting running firstSlot (booted.setStatus firstSlot .running) := by
  obtain ⟨running, hfirst⟩ := hidle.decides hncpu
  have hboot : step booted (.enter 0 .boot) = some running := by
    rw [step, enter, if_pos ⟨hfirst.waiting, hfirst.idle⟩, hfirst.yield]
  have hnone : ∀ k, booted.curenv 0 ≠ some k := fun k => by simp [hfirst.idle]
  refine ⟨running, hboot, ?_⟩
  have hrest : running.resting = (booted.setStatus firstSlot .running).resting := by
    cases schedYield_cases hfirst.yield with
    | keep e hcur _ => exact absurd hcur (hnone e)
    | again e hcur _ => exact absurd hcur (hnone e)
    | switch e dir hne _ _ =>
      have hcur := hfirst.cur
      rw [curenv_switched, if_pos rfl] at hcur
      obtain rfl := Option.some.inj hcur
      rw [resting_switched hne (fun k hk => absurd hk (hnone k)), resting_setStatus]
    | halt =>
      have hcur := hfirst.cur
      rw [curenv_haltedState, if_pos rfl] at hcur
      cases hcur
  exact
    { rest := hrest
      onCpu := hfirst.cur
      started := hfirst.started
      running := by simp [Kernel.setStatus] }

/-- One CPU and two idle environments, with pages to spare. -/
theorem uniprocessor_idle : ∃ booted, Boots uniprocessor [idleProgram, idleProgram] booted ∧
    Idle uniprocessor 2 8 booted := by
  have hfree : uniprocessor.initialFree.length = 15813 := smallMachine_free
  obtain ⟨booted, hboots, hidle⟩ : ∃ booted, Boots uniprocessor (List.replicate 2 idleProgram)
      booted ∧ Idle uniprocessor 2 8 booted :=
    uniprocessor_sane.boots_idle (by decide) (by omega)
  exact ⟨booted, hboots, hidle⟩

end Steps

end OsLabs.Jos
