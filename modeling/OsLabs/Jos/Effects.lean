import OsLabs.Jos.FailedCalls

/-!
# What the operations do to environments and CPUs

One inversion lemma for each operation that changes the environment table or
what a CPU runs.  Invariants about scheduling are derived from these lemmas
and never unfold the operations.
-/

namespace OsLabs.Jos

open Function

/-! ## The search of `sched_yield` -/

section Pick

variable {s : Kernel} {c : ℕ}

theorem schedConsider_runnable {runenv : Option Slot} {j : Slot}
    (hrunenv : ∀ e, runenv = some e → (s.envs e).status = .runnable) :
    ∀ e, schedConsider s runenv j = some e → (s.envs e).status = .runnable := by
  intro e hpick
  unfold schedConsider at hpick
  split at hpick
  case isTrue hj =>
      split at hpick
      · cases hpick
        exact hj
      case h_2 best =>
          split at hpick
          · cases hpick
            exact hj
          · exact hrunenv e hpick
  case isFalse => exact hrunenv e hpick

theorem schedConsider_isSome {runenv : Option Slot} {j : Slot}
    (hsome : runenv.isSome ∨ (s.envs j).status = .runnable) :
    (schedConsider s runenv j).isSome := by
  unfold schedConsider
  split
  · split
    · rfl
    · split <;> rfl
  · exact hsome.resolve_right ‹_›

theorem foldl_runnable (slots : List Slot) {runenv : Option Slot}
    (hrunenv : ∀ e, runenv = some e → (s.envs e).status = .runnable) :
    ∀ e, slots.foldl (schedConsider s) runenv = some e → (s.envs e).status = .runnable := by
  induction slots generalizing runenv with
  | nil => exact hrunenv
  | cons j slots ih => exact ih (schedConsider_runnable hrunenv)

theorem foldl_isSome (slots : List Slot) {runenv : Option Slot}
    (hsome : runenv.isSome ∨ ∃ j ∈ slots, (s.envs j).status = .runnable) :
    (slots.foldl (schedConsider s) runenv).isSome := by
  induction slots generalizing runenv with
  | nil => exact hsome.resolve_right (by simp)
  | cons j slots ih =>
      refine ih ?_
      rcases hsome with hfirst | ⟨k, hk, hrunnable⟩
      · exact Or.inl (schedConsider_isSome (Or.inl hfirst))
      · rcases List.mem_cons.mp hk with rfl | hrest
        · exact Or.inl (schedConsider_isSome (Or.inr hrunnable))
        · exact Or.inr ⟨k, hrest, hrunnable⟩

/-- The search as a fold over slots. -/
theorem schedPick_eq (s : Kernel) (c : ℕ) : ∃ cur, schedPick s c =
    ((List.range nenv).map (slotAfter cur)).foldl (schedConsider s) none := by
  refine ⟨(s.curenv c).elim 0 fun e => envx (s.envs e).id, ?_⟩
  rw [List.foldl_map, schedPick]
  cases s.curenv c <;> rfl

/-- `sched_yield` only picks a runnable environment. -/
theorem schedPick_runnable {e : Slot} (hpick : schedPick s c = some e) :
    (s.envs e).status = .runnable := by
  obtain ⟨cur, hfold⟩ := schedPick_eq s c
  rw [hfold] at hpick
  exact foldl_runnable _ (by simp) e hpick

/-- The search visits every slot. -/
theorem slotAfter_surjective (cur : ℕ) (j : Slot) : ∃ i < nenv, slotAfter cur i = j := by
  have hj : (j : ℕ) < 1024 := j.isLt
  refine ⟨(j + (1024 - cur % 1024)) % 1024, Nat.mod_lt _ (by decide), Fin.ext ?_⟩
  change (cur + (j + (1024 - cur % 1024)) % 1024) % 1024 = j
  omega

/-- It finds one when there is one. -/
theorem schedPick_isSome {e : Slot} (hrunnable : (s.envs e).status = .runnable) :
    (schedPick s c).isSome := by
  obtain ⟨cur, hfold⟩ := schedPick_eq s c
  obtain ⟨i, hi, rfl⟩ := slotAfter_surjective cur e
  rw [hfold]
  exact foldl_isSome _ (Or.inr ⟨_, List.mem_map.mpr ⟨i, List.mem_range.mpr hi, rfl⟩, hrunnable⟩)

/-- A single runnable environment is picked. -/
theorem schedPick_unique {e : Slot} (hrunnable : (s.envs e).status = .runnable)
    (honly : ∀ k, (s.envs k).status = .runnable → k = e) : schedPick s c = some e := by
  obtain ⟨best, hbest⟩ := Option.isSome_iff_exists.mp (schedPick_isSome (c := c) hrunnable)
  rw [hbest, honly best (schedPick_runnable hbest)]

end Pick

/-! ## Context switches -/

/-- The state after CPU `c` switched to `e`, whose directory is `dir`. -/
def switched (s : Kernel) (c : ℕ) (e : Slot) (dir : ℕ) : Kernel :=
  let old := suspendCurenv s c
  { s with
    envs := update old.envs e
      { s.envs e with status := .running, runs := (s.envs e).runs + 1, cpunum := c }
    cpus := update s.cpus c { s.cpus c with env := some e, cr3 := dir } }

theorem suspendCurenv_of_ne {s : Kernel} {c : ℕ} {e : Slot} (hne : s.curenv c ≠ some e) :
    (suspendCurenv s c).envs e = s.envs e := by
  unfold suspendCurenv
  split
  · rfl
  case h_2 old hcur =>
      split
      · have hother : e ≠ old := fun hsame => hne (hsame ▸ hcur)
        simp [Kernel.setStatus, update_of_ne hother]
      · rfl

theorem suspendCurenv_frame (s : Kernel) (c : ℕ) :
    (suspendCurenv s c).phys = s.phys ∧ (suspendCurenv s c).kernPgdir = s.kernPgdir ∧
      (suspendCurenv s c).envFreeList = s.envFreeList ∧ (suspendCurenv s c).cpus = s.cpus := by
  unfold suspendCurenv
  split
  · exact ⟨rfl, rfl, rfl, rfl⟩
  · split <;> exact ⟨rfl, rfl, rfl, rfl⟩

/-- `env_run` of another environment. -/
theorem envRun_switch {s : Kernel} {c : ℕ} {e : Slot} (hne : s.curenv c ≠ some e) :
    envRun s c e = (s.envs e).pgdir.map (switched s c e) := by
  obtain ⟨hphys, hkern, hlist, hcpus⟩ := suspendCurenv_frame s c
  have henv := suspendCurenv_of_ne hne
  rw [envRun, if_neg hne, switchTo]
  cases hdir : (s.envs e).pgdir with
  | none =>
      simp [Kernel.setEnv, Kernel.setCurenv, henv, hdir]
  | some dir =>
      simp [Kernel.setEnv, Kernel.setCurenv, Kernel.lcr3, switched, henv, hphys, hkern, hlist,
        hcpus, hdir]

/-- `env_run` of the current environment. -/
theorem envRun_current {s : Kernel} {c : ℕ} {e : Slot} (hcur : s.curenv c = some e) :
    envRun s c e = some (s.setEnv e { s.envs e with cpunum := c }) := by
  simp [envRun, hcur]

/-- The environments after a switch: the one that is left becomes runnable if
it was running. -/
theorem switched_envs (s : Kernel) {c : ℕ} {e : Slot} (hne : s.curenv c ≠ some e) (dir : ℕ)
    (k : Slot) : ∃ runs cpunum, (switched s c e dir).envs k =
      { s.envs k with
        status := if k = e then .running
          else if s.curenv c = some k ∧ (s.envs k).status = .running then .runnable
          else (s.envs k).status
        runs := runs
        cpunum := cpunum } := by
  by_cases hsame : k = e
  · subst hsame
    exact ⟨(s.envs k).runs + 1, c, by simp [switched]⟩
  · refine ⟨(s.envs k).runs, (s.envs k).cpunum, ?_⟩
    simp only [switched, update_of_ne hsame, if_neg hsame]
    unfold suspendCurenv
    split
    case h_1 hcur => simp [hcur]
    case h_2 old hcur =>
        by_cases hold : k = old
        · subst hold
          by_cases hrunning : (s.envs k).status = .running
          · simp [Kernel.setStatus, hcur, hrunning]
          · simp [hcur, hrunning]
        · have hother : some old ≠ some k := fun h => hold (Option.some.inj h).symm
          split
          · simp [Kernel.setStatus, update_of_ne hold, hcur, hother]
          · simp [hcur, hother]

theorem switched_cpus (s : Kernel) (c : ℕ) (e : Slot) (dir : ℕ) :
    (switched s c e dir).cpus = update s.cpus c { s.cpus c with env := some e, cr3 := dir } :=
  rfl

/-- The state of a CPU that found nothing to run. -/
def haltedState (s : Kernel) (c : ℕ) : Kernel :=
  ((s.setCurenv c none).lcr3 c s.kernPgdir).setCpuStatus c .halted

/-- What `sched_yield` does. -/
inductive Yielded (s : Kernel) (c : ℕ) : Kernel → Prop
  /-- the current environment goes on -/
  | keep (e : Slot) : s.curenv c = some e → (s.envs e).status = .running →
      Yielded s c (s.setEnv e { s.envs e with cpunum := c })
  /-- the current environment is picked although it was not running -/
  | again (e : Slot) : s.curenv c = some e → schedPick s c = some e →
      Yielded s c (s.setEnv e { s.envs e with cpunum := c })
  | switch (e : Slot) (dir : ℕ) : s.curenv c ≠ some e → schedPick s c = some e →
      (s.envs e).pgdir = some dir → Yielded s c (switched s c e dir)
  | halt : schedPick s c = none → Yielded s c (haltedState s c)

theorem schedYield_cases {s s' : Kernel} {c : ℕ} (hyield : schedYield s c = some s') :
    Yielded s c s' := by
  unfold schedYield at hyield
  split at hyield
  case h_1 e hkeep =>
      obtain ⟨hcur, hrunning⟩ := Option.filter_eq_some_iff.mp hkeep
      rw [keepsRunning, Bool.and_eq_true, decide_eq_true_eq] at hrunning
      rw [envRun_current hcur] at hyield
      cases hyield
      exact Yielded.keep e hcur hrunning.1
  case h_2 best hnot hpick =>
      by_cases hcur : s.curenv c = some best
      · rw [envRun_current hcur] at hyield
        cases hyield
        exact Yielded.again best hcur hpick
      · rw [envRun_switch hcur] at hyield
        obtain ⟨dir, hdir, rfl⟩ := Option.map_eq_some_iff.mp hyield
        exact Yielded.switch best dir hcur hpick hdir
  case h_3 _ hpick =>
      unfold schedHalt at hyield
      split at hyield
      · cases hyield
        exact Yielded.halt hpick
      · cases hyield

/-! ## Creating an environment -/

/-- The environment that `env_alloc` makes of the slot content `old`. -/
def newEnv (old : Env) (e : Slot) (parentId : Word) (dir : ℕ) : Env :=
  { old with
    pgdir := some dir
    id := nextEnvId old.id e
    parentId := parentId
    status := .runnable
    runs := 0
    tf := newTrapframe
    pgfaultUpcall := 0
    ipcRecving := false }

/-- The memory after `env_setup_vm` made `p` a page directory. -/
def setupDir (σ : Phys) (kernPgdir p : ℕ) : Phys :=
  (((pageAlloc σ true).2.incRef p).copyPage p kernPgdir).store p (pdx uvpt)
    (page2pa p ||| pteP ||| pteU)

/-- What `env_alloc` has done when it succeeds. -/
theorem envAlloc_ok {s s' : Kernel} {parentId : Word} {e : Slot}
    (halloc : envAlloc s parentId = .ok (e, s')) :
    ∃ p, s.envFreeList = some e ∧ s.phys.pageFreeList = some p ∧
      s' =
        { phys := setupDir s.phys s.kernPgdir p
          kernPgdir := s.kernPgdir
          envs := update s.envs e (newEnv (s.envs e) e parentId p)
          envFreeList := (s.envs e).link
          cpus := s.cpus } := by
  cases hlist : s.envFreeList with
  | none => simp [envAlloc, hlist] at halloc
  | some slot =>
      cases hpages : s.phys.pageFreeList with
      | none => simp [envAlloc, hlist, envSetupVm, pageAlloc, hpages] at halloc
      | some p =>
          simp only [envAlloc, hlist, envSetupVm, pageAlloc, hpages, if_true] at halloc
          cases halloc
          refine ⟨p, rfl, rfl, ?_⟩
          simp [Kernel.setEnv, Kernel.setPhys, newEnv, setupDir, pageAlloc, hpages]

/-- The codes that `env_alloc` fails with. -/
theorem envAlloc_error {s : Kernel} {parentId code : Word}
    (halloc : envAlloc s parentId = .error code) : IsError code := by
  unfold envAlloc at halloc
  split at halloc
  · cases halloc
    decide
  · split at halloc
    · cases halloc
      decide
    · cases halloc

/-! ## System calls that return -/

/-- A system call that was decoded. -/
structure Call where
  sys : Sys
  a1 : Word
  a2 : Word
  a3 : Word
  a4 : Word
  a5 : Word

/-- The calls that neither destroy an environment nor give up the CPU. -/
def plainCall (s : Kernel) (cur : Slot) (key : Word) (call : Call) : Option (Word × Kernel) :=
  match call.sys with
  | .cgetc => some (key, s)
  | .getenvid => some (sysGetenvid s cur, s)
  | .exofork => some (sysExofork s cur)
  | .pageAlloc => sysPageAlloc s cur call.a1 call.a2 call.a3
  | .pageMap => sysPageMap s cur call.a1 call.a2 call.a3 call.a4 call.a5
  | .pageUnmap => sysPageUnmap s cur call.a1 call.a2
  | .envSetStatus => some (sysEnvSetStatus s cur call.a1 call.a2)
  | .envSetPgfaultUpcall => some (sysEnvSetPgfaultUpcall s cur call.a1 call.a2)
  | .ipcTrySend => sysIpcTrySend s cur call.a1 call.a2 call.a3 call.a4
  | .ipcRecv => some (sysIpcRecv s cur call.a1)
  | .changePr => some (sysChangePr s cur call.a1)
  | .cputs => none
  | .envDestroy => none
  | .yield => none

/-- What a returning call does to the environments. -/
inductive PlainEffect (s : Kernel) (cur : Slot) (call : Call) (ret : Word) : Kernel → Prop
  /-- memory at most -/
  | memory (σ : Phys) : (call.sys = .ipcTrySend → ret ≠ 0 ∧ σ = s.phys) →
      (call.sys = .ipcRecv → ret ≠ 0) → (call.sys = .exofork → IsError ret) →
      PlainEffect s cur call ret (s.setPhys σ)
  | fork (e : Slot) (p : ℕ) : call.sys = .exofork → ¬ IsError ret →
      s.envFreeList = some e → s.phys.pageFreeList = some p →
      PlainEffect s cur call ret
        { phys := setupDir s.phys s.kernPgdir p
          kernPgdir := s.kernPgdir
          envs := update s.envs e
            { newEnv (s.envs e) e (s.envs cur).id p with
              tf := (update s.envs e (newEnv (s.envs e) e (s.envs cur).id p) cur).tf.setEax 0
              status := .notRunnable }
          envFreeList := (s.envs e).link
          cpus := s.cpus }
  | status (e : Slot) (status : EnvStatus) : call.sys = .envSetStatus →
      settableStatus call.a2 = some status → envid2env s cur call.a1 true = some e →
      PlainEffect s cur call ret (s.setStatus e status)
  | upcall (e : Slot) (func : Word) : call.sys = .envSetPgfaultUpcall →
      envid2env s cur call.a1 true = some e →
      PlainEffect s cur call ret (s.setEnv e { s.envs e with pgfaultUpcall := func })
  | priority (pr : Word) : call.sys = .changePr →
      PlainEffect s cur call ret (s.setEnv cur { s.envs cur with pr := pr })
  | receive : call.sys = .ipcRecv → ret = 0 →
      PlainEffect s cur call ret (s.setEnv cur { s.envs cur with
        ipcRecving := true, status := .notRunnable, ipcDstva := call.a1 })
  | deliver (e : Slot) (σ : Phys) (perm : Word) : call.sys = .ipcTrySend → ret = 0 →
      envid2env s cur call.a1 false = some e → (s.envs e).ipcRecving = true →
      PlainEffect s cur call ret
        (ipcDeliver ((s.setPhys σ).setEnv e { s.envs e with ipcPerm := perm }) cur e call.a2)

section Plain

variable {s s' : Kernel} {cur : Slot} {key ret : Word}

/-- A call that left the state alone. -/
theorem PlainEffect.unchanged {call : Call} (hsend : call.sys = .ipcTrySend → ret ≠ 0)
    (hrecv : call.sys = .ipcRecv → ret ≠ 0) (hfork : call.sys = .exofork → IsError ret) :
    PlainEffect s cur call ret s :=
  .memory s.phys (fun hcall => ⟨hsend hcall, rfl⟩) hrecv hfork

theorem sysExofork_effect {call : Call} (hcall : call.sys = .exofork)
    (hrun : sysExofork s cur = (ret, s')) : PlainEffect s cur call ret s' := by
  unfold sysExofork at hrun
  cases halloc : envAlloc s (s.envs cur).id with
  | error code =>
      rw [halloc] at hrun
      cases hrun
      exact .unchanged (by simp [hcall]) (by simp [hcall]) fun _ => envAlloc_error halloc
  | ok result =>
      obtain ⟨e, created⟩ := result
      rw [halloc] at hrun
      cases hrun
      obtain ⟨p, hlist, hpages, rfl⟩ := envAlloc_ok halloc
      have heffect : PlainEffect s cur call (newEnv (s.envs e) e (s.envs cur).id p).id _ :=
        .fork e p hcall (not_isError_nextEnvId _ e) hlist hpages
      simpa [Kernel.setEnv] using heffect

theorem sysPageAlloc_memory {envid va perm : Word}
    (hrun : sysPageAlloc s cur envid va perm = some (ret, s')) :
    ∃ σ, s' = s.setPhys σ := by
  unfold sysPageAlloc at hrun
  split at hrun
  · cases hrun
    exact ⟨s.phys, rfl⟩
  · split at hrun
    · cases hrun
      exact ⟨s.phys, rfl⟩
    · split at hrun
      · cases hrun
        exact ⟨s.phys, rfl⟩
      · split at hrun
        · cases hrun
          exact ⟨s.phys, rfl⟩
        · simp only [Option.bind_eq_bind, Option.bind_eq_some_iff] at hrun
          obtain ⟨pgdir, -, ⟨code, σ⟩, -, hrun⟩ := hrun
          split at hrun
          · cases hrun
            exact ⟨_, rfl⟩
          · cases hrun
            exact ⟨_, rfl⟩

theorem sysPageMap_memory {srcenvid srcva dstenvid dstva perm : Word}
    (hrun : sysPageMap s cur srcenvid srcva dstenvid dstva perm = some (ret, s')) :
    ∃ σ, s' = s.setPhys σ := by
  unfold sysPageMap at hrun
  split at hrun
  · cases hrun
    exact ⟨s.phys, rfl⟩
  · cases hrun
    exact ⟨s.phys, rfl⟩
  · split at hrun
    · cases hrun
      exact ⟨s.phys, rfl⟩
    · simp only [Option.bind_eq_bind, Option.bind_eq_some_iff] at hrun
      obtain ⟨srcdir, -, found, -, hrun⟩ := hrun
      split at hrun
      · cases hrun
        exact ⟨s.phys, rfl⟩
      · split at hrun
        · cases hrun
          exact ⟨s.phys, rfl⟩
        · split at hrun
          · cases hrun
            exact ⟨s.phys, rfl⟩
          · simp only [Option.bind_eq_some_iff] at hrun
            obtain ⟨dstdir, -, ⟨code, σ⟩, -, hrun⟩ := hrun
            cases hrun
            exact ⟨_, rfl⟩

theorem sysPageUnmap_memory {envid va : Word}
    (hrun : sysPageUnmap s cur envid va = some (ret, s')) : ∃ σ, s' = s.setPhys σ := by
  unfold sysPageUnmap at hrun
  split at hrun
  · cases hrun
    exact ⟨s.phys, rfl⟩
  · split at hrun
    · cases hrun
      exact ⟨s.phys, rfl⟩
    · simp only [Option.bind_eq_bind, Option.bind_eq_some_iff] at hrun
      obtain ⟨pgdir, -, σ, -, hrun⟩ := hrun
      cases hrun
      exact ⟨_, rfl⟩

/-- `sys_ipc_try_send` delivers, or it fails and changes nothing. -/
theorem sysIpcTrySend_effect {call : Call} (hcall : call.sys = .ipcTrySend)
    (hrun : sysIpcTrySend s cur call.a1 call.a2 call.a3 call.a4 = some (ret, s')) :
    PlainEffect s cur call ret s' := by
  have hfail : ∀ code : Word, code ≠ 0 → ret = code → s' = s →
      PlainEffect s cur call ret s' := by
    rintro code hcode rfl rfl
    exact .unchanged (fun _ => hcode) (by simp [hcall]) (by simp [hcall])
  have hbadEnv : (-eBadEnv : Word) ≠ 0 := by decide
  have hinval : (-eInval : Word) ≠ 0 := by decide
  have hnotRecv : (-eIpcNotRecv : Word) ≠ 0 := by decide
  unfold sysIpcTrySend at hrun
  split at hrun
  case h_1 =>
      cases hrun
      exact hfail _ hbadEnv rfl rfl
  case h_2 e hfound =>
      split at hrun
      case isTrue =>
          cases hrun
          exact hfail _ hnotRecv rfl rfl
      case isFalse hrecving =>
          rw [Bool.not_eq_false] at hrecving
          have hplain : PlainEffect s cur call 0 (ipcDeliver s cur e call.a2) := by
            have heffect : PlainEffect s cur call 0 _ :=
              .deliver e s.phys (s.envs e).ipcPerm hcall rfl hfound hrecving
            simpa [Kernel.setPhys, Kernel.setEnv, update_eq_self] using heffect
          split at hrun
          case isFalse =>
              cases hrun
              exact hplain
          case isTrue =>
              simp only [Option.bind_eq_bind, Option.bind_eq_some_iff] at hrun
              obtain ⟨srcdir, -, found, -, hrun⟩ := hrun
              split at hrun
              · cases hrun
                exact hfail _ hinval rfl rfl
              · split at hrun
                · cases hrun
                  exact hfail _ hinval rfl rfl
                · split at hrun
                  · cases hrun
                    exact hfail _ hinval rfl rfl
                  · split at hrun
                    · cases hrun
                      exact hfail _ hinval rfl rfl
                    · split at hrun
                      case isFalse =>
                          cases hrun
                          exact hplain
                      case isTrue =>
                          simp only [Option.bind_eq_some_iff] at hrun
                          obtain ⟨dstdir, -, ⟨code, σ⟩, hinsert, hrun⟩ := hrun
                          split at hrun
                          case isTrue hcode =>
                              cases hrun
                              rcases pageInsert_result hinsert with ⟨-, rfl, -⟩ | ⟨rfl, -⟩
                              · exact hfail _ hcode rfl rfl
                              · exact absurd rfl hcode
                          case isFalse =>
                              cases hrun
                              exact .deliver e σ call.a4 hcall rfl hfound hrecving

theorem sysIpcRecv_effect {call : Call} (hcall : call.sys = .ipcRecv)
    (hrun : sysIpcRecv s cur call.a1 = (ret, s')) : PlainEffect s cur call ret s' := by
  unfold sysIpcRecv at hrun
  split at hrun
  · cases hrun
    exact .unchanged (by simp [hcall]) (fun _ => by decide) (by simp [hcall])
  · cases hrun
    exact .receive hcall rfl

theorem sysEnvSetStatus_effect {call : Call} (hcall : call.sys = .envSetStatus)
    (hrun : sysEnvSetStatus s cur call.a1 call.a2 = (ret, s')) :
    PlainEffect s cur call ret s' := by
  unfold sysEnvSetStatus at hrun
  split at hrun
  · cases hrun
    exact .unchanged (by simp [hcall]) (by simp [hcall]) (by simp [hcall])
  case h_2 status hstatus =>
      split at hrun
      · cases hrun
        exact .unchanged (by simp [hcall]) (by simp [hcall]) (by simp [hcall])
      case h_2 e hfound =>
          cases hrun
          exact .status e status hcall hstatus hfound

theorem sysEnvSetPgfaultUpcall_effect {call : Call} (hcall : call.sys = .envSetPgfaultUpcall)
    (hrun : sysEnvSetPgfaultUpcall s cur call.a1 call.a2 = (ret, s')) :
    PlainEffect s cur call ret s' := by
  unfold sysEnvSetPgfaultUpcall at hrun
  split at hrun
  · cases hrun
    exact .unchanged (by simp [hcall]) (by simp [hcall]) (by simp [hcall])
  case h_2 e hfound =>
      cases hrun
      exact .upcall e call.a2 hcall hfound

/-- Every call that returns has one of the listed effects. -/
theorem plainCall_effect {call : Call} (hrun : plainCall s cur key call = some (ret, s')) :
    PlainEffect s cur call ret s' := by
  unfold plainCall at hrun
  cases hsys : call.sys with
  | cputs => simp [hsys] at hrun
  | envDestroy => simp [hsys] at hrun
  | yield => simp [hsys] at hrun
  | cgetc =>
      simp only [hsys] at hrun
      cases hrun
      exact .unchanged (by simp [hsys]) (by simp [hsys]) (by simp [hsys])
  | getenvid =>
      simp only [hsys] at hrun
      cases hrun
      exact .unchanged (by simp [hsys]) (by simp [hsys]) (by simp [hsys])
  | exofork =>
      simp only [hsys] at hrun
      exact sysExofork_effect hsys (Option.some.inj hrun)
  | pageAlloc =>
      simp only [hsys] at hrun
      obtain ⟨σ, rfl⟩ := sysPageAlloc_memory hrun
      exact .memory σ (by simp [hsys]) (by simp [hsys]) (by simp [hsys])
  | pageMap =>
      simp only [hsys] at hrun
      obtain ⟨σ, rfl⟩ := sysPageMap_memory hrun
      exact .memory σ (by simp [hsys]) (by simp [hsys]) (by simp [hsys])
  | pageUnmap =>
      simp only [hsys] at hrun
      obtain ⟨σ, rfl⟩ := sysPageUnmap_memory hrun
      exact .memory σ (by simp [hsys]) (by simp [hsys]) (by simp [hsys])
  | envSetStatus =>
      simp only [hsys] at hrun
      exact sysEnvSetStatus_effect hsys (Option.some.inj hrun)
  | envSetPgfaultUpcall =>
      simp only [hsys] at hrun
      exact sysEnvSetPgfaultUpcall_effect hsys (Option.some.inj hrun)
  | ipcTrySend =>
      simp only [hsys] at hrun
      exact sysIpcTrySend_effect hsys hrun
  | ipcRecv =>
      simp only [hsys] at hrun
      exact sysIpcRecv_effect hsys (Option.some.inj hrun)
  | changePr =>
      simp only [hsys] at hrun
      cases hrun
      exact .priority call.a1 hsys

end Plain

/-! ## Every system call -/

/-- The kernel with which a function ends. -/
def Exit.kernel {α : Type} : Exit α → Kernel
  | .ret _ s => s
  | .left s => s

/-- How `syscall` ends. -/
inductive SyscallEnd (s : Kernel) (c : ℕ) (cur : Slot) (key : Word) :
    Option Call → Exit Word → Prop
  | unknown : SyscallEnd s c cur key none (.ret (-eInval) s)
  | plain {call : Call} {ret : Word} {s' : Kernel} : plainCall s cur key call = some (ret, s') →
      SyscallEnd s c cur key (some call) (.ret ret s')
  | yield {call : Call} {s' : Kernel} : call.sys = .yield → schedYield s c = some s' →
      SyscallEnd s c cur key (some call) (.left s')
  /-- `sys_cputs` found nothing wrong, or `sys_env_destroy` nothing to destroy -/
  | nothing {call : Call} : call.sys = .cputs ∨ call.sys = .envDestroy →
      SyscallEnd s c cur key (some call) (.ret 0 s)
  | destroyed {call : Call} {envid : Word} {e : Slot} {s' : Kernel} :
      (call.sys = .cputs ∧ envid = (s.envs cur).id ∨ call.sys = .envDestroy ∧ envid = call.a1) →
      envid2env s cur envid true = some e → envDestroy s c e = some (.ret () s') →
      SyscallEnd s c cur key (some call) (.ret 0 s')
  | ended {call : Call} {envid : Word} {e : Slot} {s' : Kernel} :
      (call.sys = .cputs ∧ envid = (s.envs cur).id ∨ call.sys = .envDestroy ∧ envid = call.a1) →
      envid2env s cur envid true = some e → envDestroy s c e = some (.left s') →
      SyscallEnd s c cur key (some call) (.left s')

section Syscall

variable {s : Kernel} {c : ℕ} {cur : Slot} {key : Word}

theorem SyscallEnd.of_destroy (key : Word) (call : Call) {envid : Word} {e : Slot}
    {exit : Exit Unit}
    (hcall : call.sys = .cputs ∧ envid = (s.envs cur).id ∨
      call.sys = .envDestroy ∧ envid = call.a1)
    (hfound : envid2env s cur envid true = some e) (hdestroy : envDestroy s c e = some exit) :
    (∃ s', exit = .ret () s' ∧ SyscallEnd s c cur key (some call) (.ret 0 s')) ∨
      ∃ s', exit = .left s' ∧ SyscallEnd s c cur key (some call) (.left s') := by
  cases exit with
  | ret _ s' => exact Or.inl ⟨s', rfl, .destroyed hcall hfound hdestroy⟩
  | left s' => exact Or.inr ⟨s', rfl, .ended hcall hfound hdestroy⟩

theorem syscall_end {syscallno a1 a2 a3 a4 a5 : Word} {exit : Exit Word}
    (hrun : syscall s c cur key syscallno a1 a2 a3 a4 a5 = some exit) :
    SyscallEnd s c cur key ((Sys.decode syscallno).map (⟨·, a1, a2, a3, a4, a5⟩)) exit := by
  have hplain (sys : Sys) (result : Word × Kernel)
      (hresult : plainCall s cur key ⟨sys, a1, a2, a3, a4, a5⟩ = some result)
      (hexit : returns result = some exit) :
      SyscallEnd s c cur key (some ⟨sys, a1, a2, a3, a4, a5⟩) exit := by
    cases hexit
    exact .plain hresult
  unfold syscall at hrun
  cases hdecode : Sys.decode syscallno with
  | none =>
    rw [hdecode] at hrun
    cases hrun
    exact .unknown
  | some sys =>
    rw [hdecode] at hrun
    rw [Option.map_some]
    cases sys with
    | cgetc => exact hplain _ _ rfl hrun
    | getenvid => exact hplain _ _ rfl hrun
    | exofork => exact hplain _ _ rfl hrun
    | envSetStatus => exact hplain _ _ rfl hrun
    | envSetPgfaultUpcall => exact hplain _ _ rfl hrun
    | ipcRecv => exact hplain _ _ rfl hrun
    | changePr => exact hplain _ _ rfl hrun
    | pageAlloc =>
      obtain ⟨result, hresult, hexit⟩ := Option.bind_eq_some_iff.mp hrun
      exact hplain _ result hresult hexit
    | pageMap =>
      obtain ⟨result, hresult, hexit⟩ := Option.bind_eq_some_iff.mp hrun
      exact hplain _ result hresult hexit
    | pageUnmap =>
      obtain ⟨result, hresult, hexit⟩ := Option.bind_eq_some_iff.mp hrun
      exact hplain _ result hresult hexit
    | ipcTrySend =>
      obtain ⟨result, hresult, hexit⟩ := Option.bind_eq_some_iff.mp hrun
      exact hplain _ result hresult hexit
    | yield =>
      obtain ⟨next, hyield, hexit⟩ := Option.bind_eq_some_iff.mp hrun
      cases hexit
      exact .yield rfl hyield
    | cputs =>
      obtain ⟨checked, hcputs, hexit⟩ := Option.bind_eq_some_iff.mp hrun
      obtain ⟨e, hfound, hcheck⟩ := Option.bind_eq_some_iff.mp hcputs
      obtain ⟨dir, -, hcheck⟩ := Option.bind_eq_some_iff.mp hcheck
      obtain ⟨bad, -, hbad⟩ := Option.bind_eq_some_iff.mp hcheck
      cases bad with
      | none =>
        cases hbad
        cases hexit
        exact .nothing (Or.inl rfl)
      | some addr =>
        rcases SyscallEnd.of_destroy key ⟨.cputs, a1, a2, a3, a4, a5⟩
          (Or.inl ⟨rfl, rfl⟩) hfound hbad with ⟨s', rfl, hend⟩ | ⟨s', rfl, hend⟩
        · cases hexit
          exact hend
        · cases hexit
          exact hend
    | envDestroy =>
      obtain ⟨ended, hended, hexit⟩ := Option.bind_eq_some_iff.mp hrun
      unfold sysEnvDestroy at hended
      split at hended
      · cases hended
        cases hexit
        exact .nothing (Or.inr rfl)
      case h_2 e hfound =>
        obtain ⟨destroyed, hdestroy, hresult⟩ := Option.bind_eq_some_iff.mp hended
        rcases SyscallEnd.of_destroy key ⟨.envDestroy, a1, a2, a3, a4, a5⟩
          (Or.inr ⟨rfl, rfl⟩) hfound hdestroy with ⟨s', rfl, hend⟩ | ⟨s', rfl, hend⟩
        · cases hresult
          cases hexit
          exact hend
        · cases hresult
          cases hexit
          exact hend

end Syscall

end OsLabs.Jos
