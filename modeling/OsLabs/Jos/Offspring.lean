import OsLabs.Jos.Receivers
import OsLabs.Jos.Scripts

/-!
# An environment and its child

On one CPU an environment forks, lets its child run until the child waits for a
message, and makes it runnable itself.
-/

namespace OsLabs.Jos

open Function
open OsLabs.IntrusiveList
open OsLabs.Transition

/-- `sys_exofork`. -/
def forkCall : Call := ⟨.exofork, 0, 0, 0, 0, 0⟩

/-- The id of the first environment in the second slot. -/
def childId : Word := nextEnvId 0 secondSlot

/-- `sys_env_set_status` of the child to `ENV_RUNNABLE`. -/
def wakeCall : Call := ⟨.envSetStatus, childId, EnvStatus.runnable.code, 0, 0, 0⟩

/-- Only the first environment exists, and there is a page for another directory. -/
structure Lone (t : Kernel) (p : ℕ) : Prop where
  firstDir : (t.envs firstSlot).pgdir.isSome
  others : ∀ k, k ≠ firstSlot → (t.envs k).status = .free
  unborn : (t.envs secondSlot).id = 0
  pr : ∀ k, (t.envs k).pr = 0
  head : t.envFreeList = some secondSlot
  page : t.phys.pageFreeList = some p

/-- The environment in the second slot is a child of the first one. -/
def IsChild (t : Kernel) : Prop :=
  (t.envs secondSlot).id = childId ∧ (t.envs secondSlot).parentId = (t.envs firstSlot).id

/-- The kernel after the fork. -/
def forked (t : Kernel) (p : ℕ) : Kernel :=
  { phys := setupDir t.phys t.kernPgdir p
    kernPgdir := t.kernPgdir
    envs := update t.envs secondSlot
      { newEnv (t.envs secondSlot) secondSlot (t.envs firstSlot).id p with
        tf := (t.envs firstSlot).tf.setEax 0
        status := .notRunnable }
    envFreeList := (t.envs secondSlot).link
    cpus := t.cpus }

section Family

variable {s t : Kernel} {p : ℕ} {a b : EnvStatus}

theorem envs_forked (t : Kernel) (p : ℕ) {k : Slot} (hk : k ≠ secondSlot) :
    (forked t p).envs k = t.envs k := update_of_ne hk _ _

theorem child_forked (t : Kernel) (p : ℕ) : (forked t p).envs secondSlot =
    { newEnv (t.envs secondSlot) secondSlot (t.envs firstSlot).id p with
      tf := (t.envs firstSlot).tf.setEax 0
      status := .notRunnable } := by
  rw [forked]
  dsimp only
  rw [update_self]

theorem Lone.fork (hlone : Lone t p) :
    plainCall t firstSlot 0 forkCall = some (childId, forked t p) := by
  change some (sysExofork t firstSlot) = _
  rw [sysExofork_forked hlone.head hlone.page, update_of_ne first_ne_second, hlone.unborn]
  rfl

theorem Lone.two (hlone : Lone t p) (hfirst : (t.envs firstSlot).status = a) :
    Two (forked t p) a .notRunnable where
  first := by rw [envs_forked t p first_ne_second, hfirst]
  second := by rw [child_forked]
  others := fun k hk hk' => by rw [envs_forked t p hk', hlone.others k hk]
  firstDir := by
    rw [envs_forked t p first_ne_second]
    exact hlone.firstDir
  secondDir := by
    rw [child_forked]
    rfl
  pr := fun k => by
    by_cases hk : k = secondSlot
    · rw [hk, child_forked]
      exact hlone.pr secondSlot
    · rw [envs_forked t p hk, hlone.pr]

theorem Lone.isChild (hlone : Lone t p) : IsChild (forked t p) := by
  rw [IsChild, child_forked, envs_forked t p first_ne_second, newEnv, hlone.unborn]
  exact ⟨rfl, rfl⟩

theorem IsChild.setEnv (hchild : IsChild t) {e : Slot} {env : Env} (hid : env.id = (t.envs e).id)
    (hparent : env.parentId = (t.envs e).parentId) : IsChild (t.setEnv e env) := by
  rw [IsChild, field_setEnv Env.id hid, field_setEnv Env.parentId hparent, field_setEnv Env.id hid]
  exact hchild

theorem IsChild.goesOn (hchild : IsChild t) : IsChild (secondGoesOn t) :=
  (hchild.setEnv (by rfl) (by rfl)).setEnv (by rfl) (by rfl)

theorem IsChild.waits (hchild : IsChild t) (dstva : Word) : IsChild (firstGoesOn t dstva) :=
  (hchild.setEnv (by rfl) (by rfl)).setEnv (by rfl) (by rfl)

theorem recving_firstGoesOn (t : Kernel) (dstva : Word) :
    ((firstGoesOn t dstva).envs secondSlot).ipcRecving = true := by
  rw [firstGoesOn, Kernel.setStatus, Kernel.envs_setEnv, update_of_ne first_ne_second.symm,
    secondWaits, Kernel.envs_setEnv, update_self]

/-- The parent finds its child. -/
theorem IsChild.found (hchild : IsChild t) (halive : (t.envs secondSlot).status ≠ .free) :
    envid2env t firstSlot childId true = some secondSlot := by
  have hslot : envx childId = secondSlot := envx_nextEnvId 0 secondSlot
  have hnonzero : childId ≠ 0 := by decide
  rw [envid2env, if_neg hnonzero, hslot]
  dsimp only
  rw [if_neg fun h => h.elim halive fun hid => hid hchild.1, if_neg fun h => h.2.2 hchild.2]

/-- The parent makes its child runnable, whatever the child waits for. -/
theorem IsChild.wake (hchild : IsChild t) (halive : (t.envs secondSlot).status ≠ .free) :
    plainCall t firstSlot 0 wakeCall = some (0, t.setStatus secondSlot .runnable) := by
  change some (sysEnvSetStatus t firstSlot childId EnvStatus.runnable.code) = _
  have hsettable : settableStatus EnvStatus.runnable.code = some .runnable := rfl
  rw [sysEnvSetStatus, hsettable]
  dsimp only
  rw [hchild.found halive]

/-- The first entry on a machine with one idle environment. -/
theorem Idle.begins {m : Machine} {spare : ℕ} {booted : Kernel} (hidle : Idle m 1 (spare + 1) booted)
    (hncpu : 0 < m.ncpu) :
    ∃ running p, step booted (.enter 0 .boot) = some running ∧
      Acting running firstSlot (booted.setStatus firstSlot .running) ∧
      Lone (booted.setStatus firstSlot .running) p := by
  obtain ⟨dir, hfirst⟩ := hidle.env firstSlot (by decide)
  have hunused (k : Slot) (hk : k ≠ firstSlot) :
      booted.envs k = { Env.zero with link := slotLink (k + 1) } :=
    hidle.unused k (Nat.one_le_iff_ne_zero.mpr fun h => hk (Fin.ext h))
  have hcpu := hidle.cpus 0
  rw [if_pos hncpu] at hcpu
  have hnone : booted.curenv 0 = none := by rw [Kernel.curenv, hcpu]
  have hstarted : (booted.cpus 0).status = .started := by rw [hcpu]
  have hnext : NextIs booted firstSlot := by
    refine ⟨fun k => ?_, by rw [hfirst]; rfl⟩
    by_cases hk : k = firstSlot
    · rw [hk, hfirst]
      exact iff_of_true rfl rfl
    · rw [hunused k hk]
      exact iff_of_false (fun hrunnable => by cases hrunnable) hk
  obtain ⟨running, hyield, hacting⟩ := schedYield_next rfl hstarted
    (fun k hk => by rw [hnone] at hk; cases hk) hnext (by simp [hnone])
  obtain ⟨pool, base, given, free, -, hspare, hspaces⟩ := hidle.memory
  cases free with
  | nil => exact absurd hspare (Nat.not_succ_le_zero _)
  | cons p rest =>
    refine ⟨running, p, by rw [step, enter, if_pos ⟨hstarted, hnone⟩, hyield], hacting, ?_⟩
    have hother {k : Slot} (hk : k ≠ firstSlot) :
        (booted.setStatus firstSlot .running).envs k =
          { Env.zero with link := slotLink (k + 1) } := by
      rw [Kernel.setStatus, Kernel.envs_setEnv, update_of_ne hk, hunused k hk]
    exact
      { firstDir := by
          rw [Kernel.setStatus, Kernel.envs_setEnv, update_self, hfirst]
          rfl
        others := fun k hk => by
          rw [hother hk]
          rfl
        unborn := by
          rw [hother first_ne_second.symm]
          rfl
        pr := fun k => by
          by_cases hk : k = firstSlot
          · rw [hk, Kernel.setStatus, Kernel.envs_setEnv, update_self, hfirst]
            rfl
          · rw [hother hk]
            rfl
        head := hidle.head
        page := hspaces.paged.threads.head_eq }

end Family

/-! ## The child waits for a message -/

theorem lone_inUser : ∀ program ∈ [idleProgram], program.InUser := by
  intro program hprogram seg hseg
  obtain rfl := List.mem_singleton.mp hprogram
  cases hseg

/-- A child that waits for a message is made runnable by its parent. -/
theorem receiver_woken : ∃ s, Reachable s ∧ (s.envs secondSlot).ipcRecving = true ∧
    (s.envs secondSlot).status = .runnable := by
  have hfree : uniprocessor.initialFree.length = 15813 := smallMachine_free
  obtain ⟨booted, hboots, hidle⟩ : ∃ booted, Boots uniprocessor (List.replicate 1 idleProgram)
      booted ∧ Idle uniprocessor 1 8 booted :=
    uniprocessor_sane.boots_idle (by decide) (by omega)
  obtain ⟨s₁, p, hboot, hacting, hlone⟩ := hidle.begins (by decide)
  obtain ⟨t, ht⟩ : ∃ t, t = booted.setStatus firstSlot .running := ⟨_, rfl⟩
  rw [← ht] at hacting hlone
  -- the parent forks and lets the child run
  have htwo := hlone.two hacting.running
  have hchild := hlone.isChild
  obtain ⟨s₂, hfork, hacting⟩ := hacting.call hlone.fork htwo.first
  obtain ⟨t₁, ht₁⟩ : ∃ t₁, t₁ = forked t p := ⟨_, rfl⟩
  rw [← ht₁] at htwo hchild hacting
  have hawake := htwo.second_status .runnable
  obtain ⟨s₃, hwake, hacting⟩ := hacting.call
    (hchild.wake (by rw [htwo.second]; decide)) hawake.first
  have hchild₂ : IsChild (t₁.setStatus secondSlot .runnable) :=
    hchild.setEnv (by rfl) (by rfl)
  obtain ⟨t₂, ht₂⟩ : ∃ t₂, t₂ = t₁.setStatus secondSlot .runnable := ⟨_, rfl⟩
  rw [← ht₂] at hawake hacting hchild₂
  obtain ⟨s₄, htick, hacting⟩ := hawake.tick hacting
  -- the child waits, and the parent goes on
  obtain ⟨s₅, hrecv, hacting⟩ := hawake.goesOn.recv hacting utop fun h =>
    absurd h (BitVec.lt_irrefl utop)
  have hwaits := hawake.goesOn.firstGoesOn utop
  have hchild₃ := hchild₂.goesOn.waits utop
  have hrecving := recving_firstGoesOn (secondGoesOn t₂) utop
  obtain ⟨t₃, ht₃⟩ : ∃ t₃, t₃ = firstGoesOn (secondGoesOn t₂) utop := ⟨_, rfl⟩
  rw [← ht₃] at hacting hwaits hchild₃ hrecving
  have hwoken := hwaits.second_status .runnable
  obtain ⟨s₆, hwake', hacting⟩ := hacting.call
    (hchild₃.wake (by rw [hwaits.second]; decide)) hwoken.first
  have hrun : Runs step (fun _ _ => True) booted s₆ :=
    (((((Runs.refl.tail trivial hboot).tail trivial hfork).tail trivial hwake).tail trivial
      htick).tail trivial hrecv).tail trivial hwake'
  refine ⟨s₆, ⟨uniprocessor, _, booted, uniprocessor_sane, lone_inUser, hboots, hrun⟩, ?_,
    (status_of_rest hacting.rest secondSlot).trans hwoken.second⟩
  have hsame := congrArg Env.ipcRecving (envs_of_rest hacting.rest secondSlot)
  have hset : (s₆.envs secondSlot).ipcRecving =
      ((t₃.setStatus secondSlot .runnable).envs secondSlot).ipcRecving := hsame
  rw [hset, Kernel.setStatus, Kernel.envs_setEnv, update_self, hrecving]

end OsLabs.Jos
