import OsLabs.Jos.EnvFree

/-!
# Environments in used slots

`env_alloc` gives a slot of the table to a new environment.  It resets the
fields it knows of; the others are what the last environment in the slot left
there.
-/

namespace OsLabs.Jos

open Function
open OsLabs.IntrusiveList
open OsLabs.Transition

/-- An environment without its name and the place of its page directory. -/
def Env.anonymous (env : Env) : Env := { env with id := 0, pgdir := none }

/-- The fields of a slot that `env_alloc` does not set, apart from the link of
the free list. -/
structure Leftover where
  cpunum : ℕ
  ipcDstva : Word
  ipcValue : Word
  ipcFrom : Word
  ipcPerm : Word
  pr : Word
  deriving DecidableEq

def Env.leftover (env : Env) : Leftover :=
  ⟨env.cpunum, env.ipcDstva, env.ipcValue, env.ipcFrom, env.ipcPerm, env.pr⟩

/-- Two states that differ only in what freed environments left in their
slots. -/
structure SameButFreed (s t : Kernel) : Prop where
  phys : t.phys = s.phys
  kern : t.kernPgdir = s.kernPgdir
  list : t.envFreeList = s.envFreeList
  cpus : t.cpus = s.cpus
  free : ∀ e, (t.envs e).status = .free ↔ (s.envs e).status = .free
  live : ∀ e, (s.envs e).status ≠ .free → t.envs e = s.envs e
  link : ∀ e, (t.envs e).link = (s.envs e).link

/-- The new environments in the slots `e` and `e'` are the same. -/
def NewAlike (e e' : Slot) (s t : Kernel) : Prop :=
  (t.envs e').anonymous = (s.envs e).anonymous

section Reuse

variable {s s' t t' : Kernel} {e e' cur : Slot} {parentId : Word}

/-- What does not depend on the last environment does not tell new ones apart. -/
theorem newEnv_anonymous_iff {old old' : Env} (hlink : old'.link = old.link) (p p' : ℕ) :
    (newEnv old' e parentId p').anonymous = (newEnv old e parentId p).anonymous ↔
      old'.leftover = old.leftover := by
  simp only [Env.anonymous, newEnv, Env.leftover, Env.mk.injEq, Leftover.mk.injEq, hlink]
  tauto

/-- Copying the registers of the parent does not, either. -/
theorem forkEnv_anonymous_iff {old old' : Env} (hlink : old'.link = old.link) (p p' : ℕ)
    (tf : Trapframe) :
    ({ newEnv old' e parentId p' with tf := tf, status := .notRunnable } : Env).anonymous =
        ({ newEnv old e parentId p with tf := tf, status := .notRunnable } : Env).anonymous ↔
      old'.leftover = old.leftover := by
  simp only [Env.anonymous, newEnv, Env.leftover, Env.mk.injEq, Leftover.mk.injEq, hlink]
  tauto

/-- `env_alloc` takes the same slot and the same page in both states. -/
theorem SameButFreed.envAlloc (hsame : SameButFreed s t)
    (hs : envAlloc s parentId = .ok (e, s')) (ht : envAlloc t parentId = .ok (e', t')) :
    e' = e ∧ ∃ p, s'.envs = update s.envs e (newEnv (s.envs e) e parentId p) ∧
      t'.envs = update t.envs e (newEnv (t.envs e) e parentId p) := by
  obtain ⟨p, hlist, hpage, rfl⟩ := envAlloc_ok hs
  obtain ⟨p', hlist', hpage', rfl⟩ := envAlloc_ok ht
  rw [hsame.list, hlist] at hlist'
  rw [hsame.phys, hpage] at hpage'
  cases hlist'
  cases hpage'
  exact ⟨rfl, p, rfl, rfl⟩

/-- Whether `env_alloc` succeeds does not depend on the parent. -/
theorem envAlloc_parent (halloc : envAlloc s parentId = .ok (e, s')) (other : Word) :
    ∃ s'', envAlloc s other = .ok (e, s'') := by
  obtain ⟨p, hlist, hpage, -⟩ := envAlloc_ok halloc
  simp [envAlloc, hlist, envSetupVm, pageAlloc, hpage]

theorem sysExofork_eq (halloc : envAlloc s (s.envs cur).id = .ok (e, s')) :
    (sysExofork s cur).2 = s'.setEnv e
      { s'.envs e with tf := (s'.envs cur).tf.setEax 0, status := .notRunnable } := by
  rw [sysExofork, halloc]

/-- `sys_exofork` by the same parent. -/
theorem SameButFreed.exofork_alike_iff (hsame : SameButFreed s t)
    (hcur : (s.envs cur).status ≠ .free) (hs : Jos.envAlloc s parentId = .ok (e, s')) :
    NewAlike e e (sysExofork s cur).2 (sysExofork t cur).2 ↔
      (t.envs e).leftover = (s.envs e).leftover := by
  have hlive := hsame.live cur hcur
  obtain ⟨forked, hfork⟩ := envAlloc_parent hs (s.envs cur).id
  obtain ⟨p, hlist, hpage, -⟩ := envAlloc_ok hfork
  obtain ⟨forked', hfork'⟩ : ∃ forked', Jos.envAlloc t (s.envs cur).id = .ok (e, forked') := by
    simp [Jos.envAlloc, hsame.list, hlist, envSetupVm, pageAlloc, hsame.phys, hpage]
  obtain ⟨-, q, henvs, henvs'⟩ := hsame.envAlloc hfork hfork'
  have hparent : (forked'.envs cur).tf = (forked.envs cur).tf := by
    rw [henvs, henvs']
    by_cases hslot : cur = e
    · rw [← hslot, update_self, update_self, hlive]
    · rw [update_of_ne hslot, update_of_ne hslot, hlive]
  rw [← hlive] at hfork'
  rw [NewAlike, sysExofork_eq hfork, sysExofork_eq hfork', Kernel.envs_setEnv,
    Kernel.envs_setEnv, hparent, henvs, henvs', update_self, update_self, update_self, update_self,
    forkEnv_anonymous_iff (hsame.link e)]

end Reuse

/-! ## Two runs -/

section Histories

variable {s s' t t' : Kernel} {cur e : Slot}

/-- The kernel after `env_free` of the caller of `sys_env_destroy`. -/
def freedCaller (s : Kernel) (cur : Slot) (σ : Phys) : Kernel where
  phys := σ
  kernPgdir := s.kernPgdir
  envs := update s.envs cur { s.envs cur with
    tf := callFrame exitCall, pgdir := none, status := .free, link := s.envFreeList }
  envFreeList := some cur
  cpus := update s.cpus 0 { s.cpus 0 with env := none, cr3 := s.kernPgdir }

/-- What a program leaves that ends while `e` waits for the CPU. -/
theorem exit_switched {dir pt next : ℕ} {σ : Phys} (hstarted : (s.cpus 0).status = .started)
    (hcur : s.curenv 0 = some cur) (hrunning : (s.envs cur).status = .running)
    (hdir : (s.envs cur).pgdir = some dir) (hfree : freeTables s.phys dir userPdes = some σ)
    (hpage : σ.pa2page (page2pa dir) = some pt) (hne : e ≠ cur)
    (honly : ∀ k, k ≠ cur → ((s.envs k).status = .runnable ↔ k = e))
    (hnext : (s.envs e).pgdir = some next) :
    step s (.enter 0 (callEntry exitCall)) =
      some (switched (freedCaller s cur (pageDecref σ pt)) 0 e next) := by
  have hdir' : ((s.setTf cur (callFrame exitCall)).envs cur).pgdir = some dir := by
    simpa [Kernel.setTf] using hdir
  obtain ⟨freed, hdone, -⟩ := envFree_of_tables (c := 0) hdir' hfree hpage
  have hgone : freed.setCurenv 0 none = freedCaller s cur (pageDecref σ pt) := by
    obtain ⟨dir', σ', pt', hd, ht, hp, heq⟩ := envFree_cases hdone
    obtain rfl := Option.some.inj (hdir'.symm.trans hd)
    obtain rfl := Option.some.inj (hfree.symm.trans ht)
    obtain rfl := Option.some.inj (hpage.symm.trans hp)
    rw [heq, if_pos (show (s.setTf cur (callFrame exitCall)).curenv 0 = some cur from hcur)]
    simp [Kernel.setCurenv, Kernel.setTf, Kernel.setEnv, freedCaller]
  have halive : (s.envs cur).status ≠ .dying := by simp [hrunning]
  rw [step_exit hstarted hcur halive hdone, hgone]
  have hnone : ∀ k, (freedCaller s cur (pageDecref σ pt)).curenv 0 ≠ some k := fun k => by
    simp [Kernel.curenv, freedCaller]
  refine schedYield_switch (fun k hk => absurd hk (hnone k)) (schedPick_unique ?_ fun k hk => ?_)
    (hnone e) ?_
  · simpa [freedCaller, update_of_ne hne] using (honly e hne).mpr rfl
  · by_cases hsame : k = cur
    · simp [freedCaller, hsame] at hk
    · simp only [freedCaller, update_of_ne hsame] at hk
      exact (honly k hsame).mp hk
  · simpa [freedCaller, update_of_ne hne] using hnext

/-- Two runs that were alike but for the environment that ends are alike but for what it left. -/
theorem sameButFreed_exit {env : Env} (σ : Phys) (next : ℕ) (hne : e ≠ cur) :
    SameButFreed (switched (freedCaller s cur σ) 0 e next)
      (switched (freedCaller (s.setEnv cur env) cur σ) 0 e next) := by
  have hnone : ∀ u : Kernel, ∀ k, (freedCaller u cur σ).curenv 0 ≠ some k := fun u k => by
    simp [Kernel.curenv, freedCaller]
  have hother : ∀ k, k ≠ cur → (switched (freedCaller (s.setEnv cur env) cur σ) 0 e next).envs k =
      (switched (freedCaller s cur σ) 0 e next).envs k := fun k hk => by
    simp [switched, suspendCurenv, Kernel.curenv, freedCaller, update_apply, hk, hne]
  have hcur : ∀ u : Kernel, (switched (freedCaller u cur σ) 0 e next).envs cur =
      { u.envs cur with
        tf := callFrame exitCall, pgdir := none, status := .free, link := u.envFreeList } :=
    fun u => by
      simp [switched, suspendCurenv, Kernel.curenv, freedCaller, update_apply, hne.symm]
  exact
    { phys := rfl
      kern := rfl
      list := rfl
      cpus := rfl
      free := fun k => by
        by_cases hk : k = cur
        · rw [hk, hcur, hcur]
        · rw [hother k hk]
      live := fun k hlive => by
        by_cases hk : k = cur
        · rw [hk, hcur] at hlive
          exact absurd rfl hlive
        · exact hother k hk
      link := fun k => by
        by_cases hk : k = cur
        · rw [hk, hcur, hcur]
          rfl
        · rw [hother k hk] }

/-- `sys_change_pr`, exactly. -/
theorem step_changePr (hstarted : (s.cpus 0).status = .started) (hcur : s.curenv 0 = some cur)
    (hrunning : (s.envs cur).status = .running) (pr : Word) :
    ∃ tf, step s (.enter 0 (callEntry ⟨.changePr, pr, 0, 0, 0, 0⟩)) =
      some (s.setEnv cur { s.envs cur with tf := tf, pr := pr, cpunum := 0 }) := by
  have halive : (s.envs cur).status ≠ .dying := by simp [hrunning]
  obtain ⟨frame, hframe⟩ : ∃ frame, frame = callFrame ⟨.changePr, pr, 0, 0, 0, 0⟩ := ⟨_, rfl⟩
  obtain ⟨after, hafter⟩ : ∃ after, after = (s.setTf cur frame).setEnv cur
      { (s.setTf cur frame).envs cur with pr := pr } := ⟨_, rfl⟩
  have hcall : plainCall (s.setTf cur frame) cur 0 ⟨.changePr, pr, 0, 0, 0, 0⟩ = some (0, after) := by
    rw [hafter]
    rfl
  have henv : after.setTf cur ((after.envs cur).tf.setEax 0) =
      s.setEnv cur { s.envs cur with tf := frame.setEax 0, pr := pr } := by
    rw [hafter]
    simp [Kernel.setTf, Kernel.setEnv]
  rw [hframe] at hcall
  refine ⟨frame.setEax 0, ?_⟩
  have hsame : ∀ env, (s.setEnv cur env).curenv 0 = some cur := fun _ => hcur
  rw [step_call hstarted hcur halive hcall, henv, trapReturn, hsame]
  dsimp only
  rw [Kernel.envs_setEnv, update_self, if_pos hrunning, envRun_current (hsame _)]
  simp [Kernel.setEnv]

/-- An environment that gave itself a priority ends in one run and an environment that did not in
the other; the kernel is alike but for the priority in the free slot. -/
theorem two_histories : ∃ booted s t p,
    Boots uniprocessor [idleProgram, idleProgram] booted ∧
    Runs step (fun _ _ => True) booted s ∧ Runs step (fun _ _ => True) booted t ∧
    SameButFreed s t ∧ (s.envs secondSlot).status = .running ∧
    s.envFreeList = some firstSlot ∧ s.phys.pageFreeList = some p ∧
    (s.envs firstSlot).pr = 0 ∧ (t.envs firstSlot).pr = 7 := by
  obtain ⟨booted, hboots, hidle⟩ := uniprocessor_idle
  obtain ⟨running, hboot, hacting⟩ := hidle.acts (by decide)
  have hne : secondSlot ≠ firstSlot := by decide
  obtain ⟨dir, hfirst⟩ := hidle.env firstSlot (by decide)
  obtain ⟨next, hsecond⟩ := hidle.env secondSlot (by decide)
  have hphys : running.phys = booted.phys := by
    have hsame := congrArg Kernel.phys hacting.rest
    exact hsame
  have hdir : (running.envs firstSlot).pgdir = some dir := by
    rw [pgdir_of_rest hacting.rest, Kernel.setStatus, Kernel.envs_setEnv, update_self, hfirst]
    rfl
  have hnext : (running.envs secondSlot).pgdir = some next := by
    rw [pgdir_of_rest hacting.rest, Kernel.setStatus, Kernel.envs_setEnv, update_of_ne hne, hsecond]
    rfl
  have hrunning : (running.envs firstSlot).status = .running :=
    (status_of_rest hacting.rest firstSlot).trans hacting.running
  have honly : ∀ k, k ≠ firstSlot →
      ((running.envs k).status = .runnable ↔ k = secondSlot) := fun k hk => by
    rw [status_of_rest hacting.rest, Kernel.setStatus, Kernel.envs_setEnv, update_of_ne hk]
    by_cases hsame : k = secondSlot
    · rw [hsame, hsecond]
      simp [idleEnv, newEnv]
    · have hlarge : 2 ≤ (k : ℕ) := by
        have h0 : (k : ℕ) ≠ 0 := fun h => hk (Fin.ext h)
        have h1 : (k : ℕ) ≠ 1 := fun h => hsame (Fin.ext h)
        omega
      rw [hidle.unused k hlarge]
      simp [Env.zero, hsame]
  have hpr : (running.envs firstSlot).pr = 0 := by
    rw [pr_of_rest hacting.rest, Kernel.setStatus, Kernel.envs_setEnv, update_self, hfirst]
    rfl
  -- the memory that the end of the first environment leaves
  obtain ⟨pool, base, given, free, -, -, hspaces⟩ := hidle.memory
  have hdirs : dirsOf booted firstSlot = some dir := by
    rw [dirsOf, hfirst]
    rfl
  obtain ⟨τ, free', htables, hpage, hoff⟩ :=
    hspaces.accounts.takenOff hspaces.paged.exclusive hdirs
  obtain ⟨p, hfree⟩ : ∃ p, (pageDecref τ dir).pageFreeList = some p := by
    have hmem := (hoff.freed hspaces.accounts hspaces.paged.exclusive hdirs).directory
    cases hlist : (pageDecref τ dir).pageFreeList with
    | none =>
      have hthreads := hoff.threads
      rw [hlist, threads_none_iff] at hthreads
      rw [hthreads] at hmem
      cases hmem
    | some p => exact ⟨p, rfl⟩
  rw [← hphys] at htables
  obtain ⟨tf, hchange⟩ := step_changePr hacting.started hacting.onCpu hrunning 7
  have hexit := exit_switched hacting.started hacting.onCpu hrunning hdir htables hpage hne honly
    hnext
  have hexit' := exit_switched (s := running.setEnv firstSlot
      { running.envs firstSlot with tf := tf, pr := 7, cpunum := 0 }) (e := secondSlot)
    (by simpa using hacting.started) hacting.onCpu (by simpa using hrunning)
    (by simpa using hdir) htables hpage hne
    (fun k hk => by simpa [update_of_ne hk] using honly k hk) (by simpa [update_of_ne hne] using hnext)
  have hrun : Runs step (fun _ _ => True) booted running := Runs.refl.tail trivial hboot
  refine ⟨booted, _, _, p, hboots, hrun.tail trivial hexit,
    (hrun.tail trivial hchange).tail trivial hexit', sameButFreed_exit _ next hne, ?_, rfl, hfree,
    ?_, ?_⟩
  · simp [switched]
  · simp [switched, suspendCurenv, Kernel.curenv, freedCaller, update_apply, hne.symm, hpr]
  · simp [switched, suspendCurenv, Kernel.curenv, freedCaller, update_apply, hne.symm]

end Histories

/-! ## New environments -/

/-- New environments in two states that differ only in what freed environments
left behind are the same exactly when the slot that they get was left alike. -/
theorem new_env_alike_iff {s s' t t' : Kernel} {e e' cur : Slot} {parentId : Word}
    (hsame : SameButFreed s t) (hcur : (s.envs cur).status ≠ .free)
    (hs : envAlloc s parentId = .ok (e, s')) (ht : envAlloc t parentId = .ok (e', t')) :
    NewAlike e e' s' t' ∧ NewAlike e e' (sysExofork s cur).2 (sysExofork t cur).2 ↔
      (t.envs e).leftover = (s.envs e).leftover := by
  obtain ⟨rfl, p, henvs, henvs'⟩ := hsame.envAlloc hs ht
  rw [hsame.exofork_alike_iff hcur hs, NewAlike, henvs, henvs', update_self, update_self,
    newEnv_anonymous_iff (hsame.link e'), and_self]

/-- `env_alloc` in the two histories. -/
theorem two_histories_alloc : ∃ booted s s' t t',
    Boots uniprocessor [idleProgram, idleProgram] booted ∧
    Runs step (fun _ _ => True) booted s ∧ Runs step (fun _ _ => True) booted t ∧
    SameButFreed s t ∧ (s.envs secondSlot).status ≠ .free ∧
    envAlloc s 0 = .ok (firstSlot, s') ∧ envAlloc t 0 = .ok (firstSlot, t') ∧
    (s.envs firstSlot).pr = 0 ∧ (t.envs firstSlot).pr = 7 := by
  obtain ⟨booted, s, t, p, hboots, hs, ht, hsame, hrunning, hlist, hpage, hpr, hpr'⟩ := two_histories
  have halloc : ∀ u : Kernel, u.envFreeList = some firstSlot → u.phys.pageFreeList = some p →
      ∃ u', envAlloc u 0 = .ok (firstSlot, u') := fun u hlist hpage => by
    simp [envAlloc, hlist, envSetupVm, pageAlloc, hpage]
  obtain ⟨s', hs'⟩ := halloc s hlist hpage
  obtain ⟨t', ht'⟩ := halloc t (hsame.list.trans hlist) (by rw [hsame.phys, hpage])
  exact ⟨booted, s, s', t, t', hboots, hs, ht, hsame, by simp [hrunning], hs', ht', hpr, hpr'⟩

theorem reused_slot_iff : ∃ s s' t t', SameButFreed s t ∧
    (NewAlike firstSlot firstSlot s' t' ∧
        NewAlike firstSlot firstSlot (sysExofork s secondSlot).2 (sysExofork t secondSlot).2 ↔
      (t.envs firstSlot).leftover = (s.envs firstSlot).leftover) := by
  obtain ⟨-, s, s', t, t', -, -, -, hsame, hlive, hs, ht, -, -⟩ := two_histories_alloc
  exact ⟨s, s', t, t', hsame, new_env_alike_iff hsame hlive hs ht⟩

/-- The new environment has the priority that the environment before it gave itself. -/
theorem reused_slot_keeps_pr : ∃ booted s s' t t',
    Boots uniprocessor [idleProgram, idleProgram] booted ∧
    Runs step (fun _ _ => True) booted s ∧ Runs step (fun _ _ => True) booted t ∧
    SameButFreed s t ∧ (s.envs secondSlot).status ≠ .free ∧
    envAlloc s 0 = .ok (firstSlot, s') ∧ envAlloc t 0 = .ok (firstSlot, t') ∧
    ¬ NewAlike firstSlot firstSlot s' t' ∧
    ¬ NewAlike firstSlot firstSlot (sysExofork s secondSlot).2 (sysExofork t secondSlot).2 := by
  obtain ⟨booted, s, s', t, t', hboots, hruns, hruns', hsame, hlive, hs, ht, hpr, hpr'⟩ :=
    two_histories_alloc
  have hdiffer : (t.envs firstSlot).leftover ≠ (s.envs firstSlot).leftover := fun hleft => by
    have hprs := congrArg Leftover.pr hleft
    rw [Env.leftover, Env.leftover, hpr, hpr'] at hprs
    cases hprs
  refine ⟨booted, s, s', t, t', hboots, hruns, hruns', hsame, hlive, hs, ht, fun halike => ?_,
    fun halike => hdiffer ((hsame.exofork_alike_iff hlive hs).mp halike)⟩
  obtain ⟨-, p, henvs, henvs'⟩ := hsame.envAlloc hs ht
  rw [NewAlike, henvs, henvs', update_self, update_self,
    newEnv_anonymous_iff (hsame.link firstSlot)] at halike
  exact hdiffer halike

end OsLabs.Jos
