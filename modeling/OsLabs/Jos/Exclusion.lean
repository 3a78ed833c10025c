import OsLabs.Jos.Receivers
import OsLabs.Jos.RoundRobin
import OsLabs.Jos.SoundMemory

/-!
# Environments on CPUs

A CPU in user mode runs its current environment on its own: no other CPU has
it, it is neither free nor waiting for a CPU, and its page directory, which the
CPU has loaded, is in use.
-/

namespace OsLabs.Jos

open Function
open OsLabs.Transition

/-! ## The property -/

/-- What a CPU in user mode can rely on. -/
structure RunsAlone (s : Kernel) : Prop where
  alone : ∀ c k e, s.curenv c = some e → s.curenv k = some e → c = k
  alive : ∀ c e, s.curenv c = some e → (s.envs e).status = .running ∨
    (s.envs e).status = .dying ∨ (s.envs e).status = .notRunnable
  loaded : ∀ c e, s.curenv c = some e → (s.envs e).pgdir = some (s.cpus c).cr3
  inUse : ∀ c e, s.curenv c = some e → ¬ FreePage s.phys (s.cpus c).cr3

/-- The part that is about scheduling. -/
structure Apart (s : Kernel) : Prop where
  alone : ∀ c k e, s.curenv c = some e → s.curenv k = some e → c = k
  alive : ∀ c e, s.curenv c = some e → (s.envs e).status = .running ∨
    (s.envs e).status = .dying ∨ (s.envs e).status = .notRunnable
  loaded : ∀ c e, s.curenv c = some e → (s.envs e).pgdir = some (s.cpus c).cr3

/-- No CPU has the environment. -/
def OffCpu (s : Kernel) (e : Slot) : Prop := ∀ k, s.curenv k ≠ some e

/-- The calls that leave the environments of the CPUs to the scheduler: none is made runnable, by
`sys_env_set_status` or by a message, and none is freed while another CPU has it. -/
structure LeavesCpus (s : Kernel) (cur : Slot) (call : Call) : Prop where
  status : call.sys = .envSetStatus → settableStatus call.a2 = some .runnable →
    ∀ e, envid2env s cur call.a1 true = some e → OffCpu s e
  send : call.sys = .ipcTrySend → ∀ e, envid2env s cur call.a1 false = some e →
    (s.envs e).ipcRecving = true → OffCpu s e
  destroy : call.sys = .envDestroy → ∀ e, envid2env s cur call.a1 true = some e → e ≠ cur →
    (s.envs e).status ≠ .running → OffCpu s e

/-! ## Steps -/

section Steps

variable {s s' : Kernel} {c : ℕ} {e : Slot}

theorem Apart.congr (hapart : Apart s) (hcpus : s'.cpus = s.cpus)
    (hstatus : ∀ k, (s'.envs k).status = (s.envs k).status) (hdirs : dirsOf s' = dirsOf s) :
    Apart s' := by
  have hcur : ∀ k, s'.curenv k = s.curenv k := fun k => by rw [Kernel.curenv, hcpus, Kernel.curenv]
  have hdir : ∀ k, (s'.envs k).pgdir = (s.envs k).pgdir := fun k => congrFun hdirs k
  exact
    { alone := fun k j e hk hj => hapart.alone k j e ((hcur k).symm.trans hk)
        ((hcur j).symm.trans hj)
      alive := fun k e hk => by
        rw [hstatus]
        exact hapart.alive k e ((hcur k).symm.trans hk)
      loaded := fun k e hk => by
        rw [hdir, hcpus]
        exact hapart.loaded k e ((hcur k).symm.trans hk) }

/-- A change of one environment that a CPU may have. -/
theorem Apart.setEnv (hapart : Apart s) {env : Env} (hdir : env.pgdir = (s.envs e).pgdir)
    (hstatus : (env.status = .running ∨ env.status = .dying ∨ env.status = .notRunnable) ∨
      OffCpu s e) : Apart (s.setEnv e env) where
  alone := hapart.alone
  alive := fun k f hk => by
    have hk' : s.curenv k = some f := hk
    by_cases hsame : f = e
    · subst hsame
      rw [Kernel.envs_setEnv, update_self]
      exact hstatus.resolve_right fun hoff => hoff k hk'
    · rw [Kernel.envs_setEnv, update_of_ne hsame]
      exact hapart.alive k f hk'
  loaded := fun k f hk => (field_setEnv Env.pgdir hdir f).trans (hapart.loaded k f hk)

/-- A runnable environment is on no CPU. -/
theorem Apart.off_of_runnable (hapart : Apart s) (hrunnable : (s.envs e).status = .runnable) :
    OffCpu s e := fun k hk => by
  have halive := hapart.alive k e hk
  rw [hrunnable] at halive
  simp at halive

theorem Apart.switched (hapart : Apart s) (hrunnable : (s.envs e).status = .runnable) {dir : ℕ}
    (hdir : (s.envs e).pgdir = some dir) : Apart (switched s c e dir) := by
  have hoff := hapart.off_of_runnable hrunnable
  have hcur := curenv_switched s c e dir
  -- an environment that another CPU has is neither the new one nor the one that is left
  have hother {k : ℕ} {f : Slot} (hk : k ≠ c) (hf : s.curenv k = some f) :
      f ≠ e ∧ ¬ (s.curenv c = some f ∧ (s.envs f).status = .running) :=
    ⟨fun hsame => hoff k (hsame ▸ hf), fun hold => hk (hapart.alone k c f hf hold.1)⟩
  exact
    { alone := fun k j f hk hj => by
        rw [hcur] at hk hj
        by_cases hkc : k = c
        · rw [if_pos hkc] at hk
          by_cases hjc : j = c
          · rw [hkc, hjc]
          · rw [if_neg hjc, ← hk] at hj
            exact absurd hj (hoff j)
        · rw [if_neg hkc] at hk
          by_cases hjc : j = c
          · rw [if_pos hjc, ← hk] at hj
            exact absurd hj.symm (by rw [hk]; exact fun h => (hother hkc hk).1 (Option.some.inj h))
          · rw [if_neg hjc] at hj
            exact hapart.alone k j f hk hj
      alive := fun k f hk => by
        obtain ⟨runs, cpunum, henv⟩ := switched_envs s (hoff c) dir f
        rw [hcur] at hk
        rw [henv]
        dsimp only
        by_cases hkc : k = c
        · rw [if_pos hkc] at hk
          rw [if_pos (Option.some.inj hk).symm]
          exact Or.inl rfl
        · rw [if_neg hkc] at hk
          rw [if_neg (hother hkc hk).1, if_neg (hother hkc hk).2]
          exact hapart.alive k f hk
      loaded := fun k f hk => by
        obtain ⟨runs, cpunum, henv⟩ := switched_envs s (hoff c) dir f
        rw [hcur] at hk
        rw [henv, switched_cpus]
        dsimp only
        by_cases hkc : k = c
        · rw [if_pos hkc] at hk
          rw [hkc, update_self, ← Option.some.inj hk, hdir]
        · rw [if_neg hkc] at hk
          rw [update_of_ne hkc]
          exact hapart.loaded k f hk }

/-- The CPUs that still have an environment keep what they rely on. -/
theorem Apart.of_kept (hapart : Apart s) (hkept : ∀ k f, s'.curenv k = some f →
    s.curenv k = some f ∧ s'.envs f = s.envs f ∧ (s'.cpus k).cr3 = (s.cpus k).cr3) : Apart s' where
  alone := fun k j f hk hj => hapart.alone k j f (hkept k f hk).1 (hkept j f hj).1
  alive := fun k f hk => by
    obtain ⟨hold, henv, -⟩ := hkept k f hk
    rw [henv]
    exact hapart.alive k f hold
  loaded := fun k f hk => by
    obtain ⟨hold, henv, hcr3⟩ := hkept k f hk
    rw [henv, hcr3]
    exact hapart.loaded k f hold

theorem Apart.yield (hapart : Apart s) (hrun : schedYield s c = some s') : Apart s' := by
  cases schedYield_cases hrun with
  | keep e _ _ =>
    exact hapart.congr rfl (fun k => field_setEnv Env.status (by rfl) k) (dirsOf_setEnv (by rfl))
  | again e _ _ =>
    exact hapart.congr rfl (fun k => field_setEnv Env.status (by rfl) k) (dirsOf_setEnv (by rfl))
  | switch e dir _ hpick hdir => exact hapart.switched (schedPick_runnable hpick) hdir
  | halt _ =>
    refine hapart.of_kept fun k f hk => ?_
    rw [curenv_haltedState] at hk
    by_cases hkc : k = c
    · rw [if_pos hkc] at hk
      cases hk
    · rw [if_neg hkc] at hk
      exact ⟨hk, rfl, by simp [haltedState, hkc]⟩

/-- `env_free` of an environment that no other CPU has. -/
theorem Apart.retire (hapart : Apart s) (hothers : ∀ k, k ≠ c → s.curenv k ≠ some e)
    (hrun : Jos.retire s c e = some s') : Apart s' := by
  have hcur := curenv_retire hrun
  obtain ⟨dir, σ, pt, -, -, -, rfl⟩ := retire_cases hrun
  refine hapart.of_kept fun k f hk => ?_
  rw [hcur] at hk
  by_cases hleft : k = c ∧ s.curenv c = some e
  · rw [if_pos hleft] at hk
    cases hk
  rw [if_neg hleft] at hk
  have hne : f ≠ e := by
    rintro rfl
    by_cases hkc : k = c
    · exact hleft ⟨hkc, hkc ▸ hk⟩
    · exact hothers k hkc hk
  refine ⟨hk, update_of_ne hne _ _, ?_⟩
  dsimp only
  by_cases hown : s.curenv c = some e
  · rw [if_pos hown, update_of_ne fun hkc => hleft ⟨hkc, hown⟩]
  · rw [if_neg hown]

/-- A call that leaves the environments of the CPUs alone. -/
theorem Apart.plain (hapart : Apart s) (htable : TableOk s) {cur : Slot} {call : Call}
    {key ret : Word} (hleaves : LeavesCpus s cur call)
    (hrun : plainCall s cur key call = some (ret, s')) : Apart s' := by
  cases plainCall_effect hrun with
  | memory σ _ _ _ => exact hapart.congr rfl (fun _ => rfl) rfl
  | fork e p _ _ hhead _ =>
    have hnone := htable.head_pgdir hhead
    refine hapart.of_kept fun k f hk => ⟨hk, update_of_ne ?_ _ _, rfl⟩
    rintro rfl
    cases hnone.symm.trans (hapart.loaded k f hk)
  | status e status hsys hsettable hfound =>
    refine hapart.setEnv rfl ?_
    cases status with
    | running => exact Or.inl (Or.inl rfl)
    | dying => exact Or.inl (Or.inr (Or.inl rfl))
    | notRunnable => exact Or.inl (Or.inr (Or.inr rfl))
    | runnable => exact Or.inr (hleaves.status hsys hsettable e hfound)
    | free =>
      unfold settableStatus at hsettable
      split at hsettable
      · cases hsettable
      · split at hsettable <;> cases hsettable
  | upcall e func _ _ =>
    exact hapart.congr rfl (fun k => field_setEnv Env.status (by rfl) k) (dirsOf_setEnv (by rfl))
  | priority pr _ =>
    exact hapart.congr rfl (fun k => field_setEnv Env.status (by rfl) k) (dirsOf_setEnv (by rfl))
  | receive _ _ => exact hapart.setEnv rfl (Or.inl (Or.inr (Or.inr rfl)))
  | deliver e σ perm hsys _ hfound hrecving =>
    have hoff := hleaves.send hsys e hfound hrecving
    have hmapped : Apart ((s.setPhys σ).setEnv e { s.envs e with ipcPerm := perm }) :=
      (hapart.congr rfl (fun _ => rfl) rfl : Apart (s.setPhys σ)).setEnv rfl (Or.inr hoff)
    exact hmapped.setEnv rfl (Or.inr hoff)

end Steps

/-! ## Runs -/

section Weaken

variable {P Q : ℕ → Kernel → Slot → Call → Prop}

theorem MayDestroy.weaken {c : ℕ} {s : Kernel} {cur e : Slot}
    (hsub : ∀ c s cur call, P c s cur call → Q c s cur call) (hmay : MayDestroy P c s cur e) :
    MayDestroy Q c s cur e := by
  refine hmay.imp id fun hcall => ?_
  obtain ⟨call, hsys, hcall, hfound⟩ := hcall
  exact ⟨call, hsys, hsub c s cur call hcall, hfound⟩

/-- An invariant under a condition is one under any stronger condition. -/
theorem SimpleRules.weaken {I : Kernel → Prop} (hrules : SimpleRules Q I)
    (hsub : ∀ c s cur call, P c s cur call → Q c s cur call) : SimpleRules P I :=
  { hrules with
    dying := fun c s cur e h hcur hmay => hrules.dying c s cur e h hcur (hmay.weaken hsub)
    retire := fun c s cur e s' h hcur hmay => hrules.retire c s cur e s' h hcur (hmay.weaken hsub)
    plain := fun c s cur key call ret s' h hcur hcall =>
      hrules.plain c s cur key call ret s' h hcur (hsub c s cur call hcall) }

end Weaken

/-- The environments of the CPUs stay apart when calls leave them alone. -/
theorem apart_rules : SimpleRules (fun _ => LeavesCpus) fun s => Apart s ∧ TableOk s where
  setTf := fun s e tf h =>
    ⟨h.1.congr rfl (fun k => field_setEnv Env.status (by rfl) k) (dirsOf_setEnv (by rfl)),
      (tableOk_rules fun _ => LeavesCpus).setTf s e tf h.2⟩
  setCpunum := fun c s e h hcur =>
    ⟨h.1.congr rfl (fun k => field_setEnv Env.status (by rfl) k) (dirsOf_setEnv (by rfl)),
      (tableOk_rules fun _ => LeavesCpus).setCpunum c s e h.2 hcur⟩
  started := fun c s h hhalted => by
    refine ⟨h.1.of_kept fun k f hk => ?_,
      (tableOk_rules fun _ => LeavesCpus).started c s h.2 hhalted⟩
    have hcpu : ((s.setCpuStatus c .started).cpus k).env = (s.cpus k).env ∧
        ((s.setCpuStatus c .started).cpus k).cr3 = (s.cpus k).cr3 := by
      by_cases hkc : k = c
      · rw [Kernel.cpus_setCpuStatus, hkc, update_self]
        exact ⟨rfl, rfl⟩
      · rw [Kernel.cpus_setCpuStatus, update_of_ne hkc]
        exact ⟨rfl, rfl⟩
    exact ⟨hcpu.1.symm.trans hk, rfl, hcpu.2⟩
  yield := fun c s s' h hrun =>
    ⟨h.1.yield hrun, (tableOk_rules fun _ => LeavesCpus).yield c s s' h.2 hrun⟩
  dying := fun c s cur e h hcur hmay hrunning hne =>
    ⟨h.1.setEnv rfl (Or.inl (Or.inr (Or.inl rfl))),
      (tableOk_rules fun _ => LeavesCpus).dying c s cur e h.2 hcur hmay hrunning hne⟩
  retire := fun c s cur e s' h hcur hmay hstatus hrun => by
    refine ⟨h.1.retire (fun k hk hke => ?_) hrun,
      (tableOk_rules fun _ => LeavesCpus).retire c s cur e s' h.2 hcur hmay hstatus hrun⟩
    by_cases hown : s.curenv c = some e
    · exact hk (h.1.alone k c e hke hown)
    · rcases hmay with rfl | ⟨call, hsys, hleaves, hfound⟩
      · exact hown hcur
      · refine hleaves.destroy hsys e hfound ?_ (hstatus.resolve_right hown) k hke
        rintro rfl
        exact hown hcur
  plain := fun c s cur key call ret s' h hcur hleaves hrun =>
    ⟨h.1.plain h.2 hleaves hrun,
      (tableOk_rules fun _ => LeavesCpus).plain c s cur key call ret s' h.2 hcur hleaves hrun⟩
  frame := fun s e dir va bytes σ h _ _ _ =>
    ⟨h.1.congr rfl (fun _ => rfl) rfl, h.2.of_slotPart (fun _ => rfl) rfl⟩
  store := fun c s va byte s' h hrun => by
    refine ⟨?_, (tableOk_rules fun _ => LeavesCpus).store c s va byte s' h.2 hrun⟩
    obtain ⟨σ, rfl⟩ := userStore_phys hrun
    exact h.1.congr rfl (fun _ => rfl) rfl
  mmu := fun s bits h =>
    ⟨h.1.congr rfl (fun _ => rfl) rfl, h.2.of_slotPart (fun _ => rfl) rfl⟩

section Boot

variable {m : Machine} {programs : List Program} {booted s : Kernel}

/-- A directory that a CPU has loaded is in use. -/
theorem Apart.runsAlone {m : Machine} {arena : Arena m} {Good : Word → Prop} {quiet : Set ℕ}
    {given : Slot → Set ℕ} (hapart : Apart s) (hsound : Sound arena Good quiet given s) :
    RunsAlone s :=
  { hapart with
    inUse := fun c e hcur =>
      hsound.memory.dir_busy (i := e) (hapart.loaded c e hcur) }

/-- After booting no CPU has an environment. -/
theorem Boots.apart (hsane : m.Sane) (hboots : Boots m programs booted) : Apart booted := by
  have hnone := (hboots.fresh hsane).curenv
  exact
    { alone := fun c k e hc => by
        rw [hnone] at hc
        cases hc
      alive := fun c e hc => by
        rw [hnone] at hc
        cases hc
      loaded := fun c e hc => by
        rw [hnone] at hc
        cases hc }

/-- In every run whose calls leave the CPUs and the addresses of pages alone, the CPUs run different
environments, which are alive and whose directories are in use. -/
theorem cpus_run_alone (hreach : ReachableUnder (CallsSatisfy fun _ s cur call =>
    LeavesCpus s cur call ∧ CleanCall (fun _ => True) ∅ s cur call) s) : RunsAlone s := by
  obtain ⟨m, programs, booted, hsane, huser, hboots, hrun⟩ := hreach
  have htable := (hboots.fresh hsane).table
  have hapart := (apart_rules.weaken fun _ _ _ _ hcall => hcall.1).runs (fun s h => h.2.ids)
    ⟨hboots.apart hsane, htable⟩ hrun
  obtain ⟨arena, given, hsound⟩ : ∃ (arena : Arena m) (given : Slot → Set ℕ),
      Sound arena (fun _ => True) ∅ given booted :=
    hboots.sound hsane (fun _ _ => trivial) huser ∅
  obtain ⟨given, hsound⟩ := sound_runs hsound htable
    (hrun.mono fun _ _ hcalls c s cur call hcall => (hcalls c s cur call hcall).2)
  exact hapart.1.runsAlone hsound

end Boot

theorem idlePrograms_inUser : ∀ program ∈ [idleProgram, idleProgram], program.InUser := by
  intro program hprogram seg hseg
  obtain rfl : program = idleProgram := by simpa using hprogram
  cases hseg

/-- The first environment on a CPU. -/
theorem first_runs_alone : ∃ running, running.curenv 0 = some firstSlot ∧ RunsAlone running := by
  obtain ⟨booted, hboots, running, hfirst⟩ := uniprocessor_boots
  have hboot : step booted (.enter 0 .boot) = some running := by
    rw [step, enter, if_pos ⟨hfirst.waiting, hfirst.idle⟩, hfirst.yield]
  refine ⟨running, hfirst.cur, cpus_run_alone ⟨uniprocessor, _, booted, uniprocessor_sane,
    idlePrograms_inUser, hboots, Runs.refl.tail (fun _ _ _ _ hcall => ?_) hboot⟩⟩
  cases hcall

/-- An environment can make itself runnable and go on. -/
theorem runnable_on_cpu : ¬ ∀ s, Reachable s → RunsAlone s := by
  intro hall
  obtain ⟨booted, hboots, running, hfirst⟩ := uniprocessor_boots
  obtain ⟨s, hhogged, hrun, -⟩ := hfirst.hogged
  have halone := hall s ⟨uniprocessor, _, booted, uniprocessor_sane, idlePrograms_inUser, hboots,
    hrun⟩
  have halive := halone.alive 0 firstSlot hhogged.cur
  rw [hhogged.first] at halive
  simp at halive

end OsLabs.Jos
