import OsLabs.Jos.EnvTable

/-!
# Environments that a CPU does not run

What a kernel entry does to an environment that neither runs on the CPU nor
waits for a message: nothing, or the environment is freed.
-/

namespace OsLabs.Jos

open Function

/-- What an environment resumes with. -/
def Env.resumes (env : Env) : Option ℕ × Trapframe × Bool := (env.pgdir, env.tf, env.ipcRecving)

/-- CPU `c` has kept what environment `e` resumes with, unless it has freed it, and what the other
CPUs run. -/
structure LeftAlone (c : ℕ) (e : Slot) (s s' : Kernel) : Prop where
  env : (s'.envs e).pgdir = none ∨ (s'.envs e).resumes = (s.envs e).resumes
  others : ∀ k, k ≠ c → s'.curenv k = s.curenv k

namespace LeftAlone

variable {s s' s'' : Kernel} {c : ℕ} {e k cur : Slot}

theorem refl (c : ℕ) (e : Slot) (s : Kernel) : LeftAlone c e s s := ⟨Or.inr rfl, fun _ _ => rfl⟩

theorem trans (hfirst : LeftAlone c e s s') (hsecond : LeftAlone c e s' s'') :
    LeftAlone c e s s'' where
  env := by
    rcases hsecond.env with hfreed | hsame
    · exact Or.inl hfreed
    · rw [hsame]
      refine hfirst.env.imp (fun hfreed => ?_) id
      exact (congrArg Prod.fst hsame).trans hfreed
  others := fun j hj => (hsecond.others j hj).trans (hfirst.others j hj)

theorem of_resumes (henv : (s'.envs e).resumes = (s.envs e).resumes)
    (hcpus : ∀ j, j ≠ c → s'.cpus j = s.cpus j) : LeftAlone c e s s' :=
  ⟨Or.inr henv, fun j hj => congrArg CpuInfo.env (hcpus j hj)⟩

theorem setEnv {env : Env} (hsame : k = e → env.resumes = (s.envs e).resumes) :
    LeftAlone c e s (s.setEnv k env) := by
  refine of_resumes ?_ fun _ _ => rfl
  rw [Kernel.envs_setEnv]
  by_cases hk : e = k
  · rw [hk, update_self, hsame hk.symm, hk]
  · rw [update_of_ne hk]

theorem setTf (hne : cur ≠ e) (tf : Trapframe) : LeftAlone c e s (s.setTf cur tf) :=
  setEnv fun hsame => absurd hsame hne

theorem setPhys (σ : Phys) : LeftAlone c e s (s.setPhys σ) := of_resumes rfl fun _ _ => rfl

theorem setCurenv (cur : Option Slot) : LeftAlone c e s (s.setCurenv c cur) :=
  of_resumes rfl fun j hj => by rw [Kernel.cpus_setCurenv, update_of_ne hj]

theorem setCpuStatus (status : CpuStatus) : LeftAlone c e s (s.setCpuStatus c status) :=
  of_resumes rfl fun j hj => by rw [Kernel.cpus_setCpuStatus, update_of_ne hj]

theorem setCpunum (k : Slot) (cpunum : ℕ) :
    LeftAlone c e s (s.setEnv k { s.envs k with cpunum := cpunum }) :=
  setEnv fun hk => by rw [hk]; rfl

theorem switch (hne : s.curenv c ≠ some k) (dir : ℕ) : LeftAlone c e s (switched s c k dir) := by
  refine of_resumes ?_ fun j hj => ?_
  · obtain ⟨runs, cpunum, henv⟩ := switched_envs s hne dir e
    rw [henv]
    rfl
  · rw [switched_cpus, update_of_ne hj]

theorem envRun (hrun : Jos.envRun s c k = some s') : LeftAlone c e s s' := by
  by_cases hcur : s.curenv c = some k
  · rw [envRun_current hcur] at hrun
    cases hrun
    exact setCpunum k c
  · rw [envRun_switch hcur] at hrun
    obtain ⟨dir, -, rfl⟩ := Option.map_eq_some_iff.mp hrun
    exact switch hcur dir

theorem yield (hyield : schedYield s c = some s') : LeftAlone c e s s' := by
  cases schedYield_cases hyield with
  | keep k _ _ => exact setCpunum k c
  | again k _ _ => exact setCpunum k c
  | switch k dir hne _ _ => exact switch hne dir
  | halt _ =>
    refine of_resumes rfl fun j hj => ?_
    simp [haltedState, update_of_ne hj]

theorem envFree (hfree : Jos.envFree s c k = some s') : LeftAlone c e s s' := by
  refine ⟨?_, fun j _ => envFree_curenv hfree j⟩
  obtain ⟨dir, σ, pt, -, -, -, rfl⟩ := envFree_cases hfree
  dsimp only
  by_cases hk : e = k
  · rw [hk, update_self]
    exact Or.inl rfl
  · rw [update_of_ne hk]
    exact Or.inr rfl

/-- Either exit of `env_destroy`. -/
theorem envDestroy {exit : Exit Unit} (hrun : Jos.envDestroy s c k = some exit) :
    LeftAlone c e s exit.kernel := by
  unfold Jos.envDestroy at hrun
  split at hrun
  · cases hrun
    exact setEnv fun hk => by rw [hk]; rfl
  · obtain ⟨freed, hfree, hrest⟩ := Option.bind_eq_some_iff.mp hrun
    split at hrest
    · obtain ⟨next, hyield, hexit⟩ := Option.bind_eq_some_iff.mp hrest
      cases hexit
      exact (envFree hfree).trans ((setCurenv none).trans (yield hyield))
    · cases hrest
      exact envFree hfree

/-- A call that returns leaves alone who neither makes it nor waits for a message. -/
theorem plainCall {key ret : Word} {call : Call} (hne : cur ≠ e) (hlisted : s.envFreeList ≠ some e)
    (hrecving : (s.envs e).ipcRecving = false)
    (hrun : Jos.plainCall s cur key call = some (ret, s')) : LeftAlone c e s s' := by
  cases plainCall_effect hrun with
  | memory σ _ _ _ => exact setPhys σ
  | fork k p _ _ hhead _ =>
    have hk : e ≠ k := fun hsame => hlisted (hsame ▸ hhead)
    refine of_resumes ?_ fun _ _ => rfl
    dsimp only
    rw [update_of_ne hk]
  | status k status _ _ _ => exact setEnv fun hk => by rw [hk]; rfl
  | upcall k func _ _ => exact setEnv fun hk => by rw [hk]; rfl
  | priority pr _ => exact setEnv fun hk => absurd hk hne
  | receive _ _ => exact setEnv fun hk => absurd hk hne
  | deliver k σ perm _ _ _ hwaits =>
    have hk : k ≠ e := fun hsame => by
      rw [hsame, hrecving] at hwaits
      cases hwaits
    exact (setPhys σ).trans ((setEnv fun hsame => absurd hsame hk).trans
      (setEnv fun hsame => absurd hsame hk))

theorem userMemAssert {va len perm : Word} {exit : Exit Unit}
    (hrun : Jos.userMemAssert s c k va len perm = some exit) : LeftAlone c e s exit.kernel := by
  obtain ⟨dir, -, hrun⟩ := Option.bind_eq_some_iff.mp hrun
  obtain ⟨bad, -, hrun⟩ := Option.bind_eq_some_iff.mp hrun
  cases bad with
  | none =>
    cases hrun
    exact refl c e s
  | some _ => exact envDestroy hrun

theorem trapReturn (hrun : Jos.trapReturn s c = some s') : LeftAlone c e s s' := by
  unfold Jos.trapReturn at hrun
  split at hrun
  case h_1 k _ =>
    split at hrun
    · exact envRun hrun
    · exact yield hrun
  case h_2 => exact yield hrun

theorem pageFaultHandler (hne : cur ≠ e) {faultVa : Word} {exit : Exit Unit}
    (hrun : Jos.pageFaultHandler s c cur faultVa = some exit) :
    LeftAlone c e s exit.kernel := by
  unfold Jos.pageFaultHandler at hrun
  split at hrun
  · exact envDestroy hrun
  · obtain ⟨checked, hcheck, hrest⟩ := Option.bind_eq_some_iff.mp hrun
    have hchecked := userMemAssert (e := e) hcheck
    cases checked with
    | left next =>
      cases hrest
      exact hchecked
    | ret _ next =>
      dsimp only at hrest
      split at hrest
      · cases hrest
      · obtain ⟨σ, -, hrest⟩ := Option.bind_eq_some_iff.mp hrest
        obtain ⟨final, hresume, hexit⟩ := Option.bind_eq_some_iff.mp hrest
        cases hexit
        exact hchecked.trans ((setPhys σ).trans ((setTf hne _).trans (envRun hresume)))

section Bystander

variable (hne : cur ≠ e) (hlisted : s.envFreeList ≠ some e)
  (hrecving : (s.envs e).ipcRecving = false)

include hne hlisted hrecving

theorem syscall {key syscallno a1 a2 a3 a4 a5 : Word} {exit : Exit Word}
    (hrun : Jos.syscall s c cur key syscallno a1 a2 a3 a4 a5 = some exit) :
    LeftAlone c e s exit.kernel := by
  have hend := syscall_end hrun
  generalize (Sys.decode syscallno).map (⟨·, a1, a2, a3, a4, a5⟩ : Sys → Call) = call at hend
  cases hend with
  | unknown => exact refl c e s
  | plain hplain => exact plainCall hne hlisted hrecving hplain
  | yield _ hyield => exact yield hyield
  | nothing _ => exact refl c e s
  | destroyed _ _ hdestroy => exact envDestroy hdestroy
  | ended _ _ hdestroy => exact envDestroy hdestroy

theorem trapDispatch {tf : Trapframe} {faultVa key : Word}
    {exit : Exit Unit} (hrun : Jos.trapDispatch s c cur tf faultVa key = some exit) :
    LeftAlone c e s exit.kernel := by
  unfold Jos.trapDispatch at hrun
  split at hrun
  · exact pageFaultHandler hne hrun
  split at hrun
  · cases hrun
    exact refl c e s
  split at hrun
  · obtain ⟨result, hresult, hrest⟩ := Option.bind_eq_some_iff.mp hrun
    have hcalled := syscall hne hlisted hrecving hresult
    cases result with
    | left next =>
      cases hrest
      exact hcalled
    | ret eax next =>
      cases hrest
      exact hcalled.trans (setTf hne _)
  split at hrun
  · cases hrun
    exact refl c e s
  split at hrun
  · obtain ⟨next, hyield, hexit⟩ := Option.bind_eq_some_iff.mp hrun
    cases hexit
    exact yield hyield
  · exact envDestroy hrun

/-- A trap of the environment that CPU `c` runs. -/
theorem trapUser (hcur : s.curenv c = some cur) {tf : Trapframe} {faultVa key : Word}
    (hrun : Jos.trapUser s c tf faultVa key = some s') : LeftAlone c e s s' := by
  obtain ⟨k, hk, hrun⟩ := Option.bind_eq_some_iff.mp hrun
  obtain rfl := Option.some.inj (hcur.symm.trans hk)
  split at hrun
  · obtain ⟨freed, hfree, hyield⟩ := Option.bind_eq_some_iff.mp hrun
    exact (envFree hfree).trans ((setCurenv none).trans (yield hyield))
  · obtain ⟨exit, hdispatch, hrest⟩ := Option.bind_eq_some_iff.mp hrun
    have hsaved : LeftAlone c e s (s.setTf cur tf) := setTf hne tf
    have hrecving' : ((s.setTf cur tf).envs e).ipcRecving = false := by
      rw [Kernel.setTf, Kernel.envs_setEnv, update_of_ne hne.symm]
      exact hrecving
    have hdispatched :=
      @trapDispatch (s.setTf cur tf) c e cur hne hlisted hrecving' tf faultVa key exit hdispatch
    cases exit with
    | left next =>
      cases hrest
      exact hsaved.trans hdispatched
    | ret _ next => exact hsaved.trans (hdispatched.trans (trapReturn hrest))

end Bystander

end LeftAlone

end OsLabs.Jos
