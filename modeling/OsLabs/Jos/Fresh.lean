import OsLabs.Jos.EnvTable
import OsLabs.Jos.MemInit

/-!
# The environments after booting

`env_init` and `env_create`: the free list of environments, and what is true
of every environment and CPU before the first call of `sched_yield`.
-/

namespace OsLabs.Jos

open Function
open OsLabs.IntrusiveList

/-- No environment has run yet. -/
structure Fresh (s : Kernel) : Prop where
  table : TableOk s
  status : ∀ e, (s.envs e).status = .free ∧ (s.envs e).pgdir = none ∨
    (s.envs e).status = .runnable ∧ (s.envs e).pgdir ≠ none
  recving : ∀ e, (s.envs e).ipcRecving = false
  curenv : ∀ c, s.curenv c = none
  cpu : ∀ c, (s.cpus c).status ≠ .halted ∧ (s.cpus c).cr3 = s.kernPgdir

/-! ## `env_init` -/

theorem slotDown_lt (k : ℕ) : nenv - 1 - k < nenv :=
  Nat.lt_of_le_of_lt (Nat.sub_le _ _) (by decide)

/-- The slot that the loop reaches after `k` others. -/
def slotDown (k : ℕ) : Slot := ⟨nenv - 1 - k, slotDown_lt k⟩

theorem envInit_succ (k : ℕ) : envInit (k + 1) =
    (update (envInit k).1 (slotDown k)
      { (envInit k).1 (slotDown k) with id := 0, link := (envInit k).2 }, some (slotDown k)) :=
  rfl

theorem envInit_env (count : ℕ) (e : Slot) :
    ∃ link, (envInit count).1 e = { Env.zero with link := link } := by
  induction count with
  | zero => exact ⟨none, rfl⟩
  | succ k ih =>
      obtain ⟨link, hlink⟩ := ih
      rw [envInit_succ]
      dsimp only
      by_cases hsame : e = slotDown k
      · subst hsame
        exact ⟨(envInit k).2, by rw [update_self, hlink]; rfl⟩
      · exact ⟨link, by rw [update_of_ne hsame, hlink]⟩

/-- The list holds the slots that the loop has reached. -/
theorem envInit_threads {count : ℕ} (hcount : count ≤ nenv) :
    ∃ slots, Threads (fun e => ((envInit count).1 e).link) (envInit count).2 slots ∧
      ∀ e : Slot, e ∈ slots ↔ nenv - count ≤ e := by
  induction count with
  | zero =>
      refine ⟨[], Threads.nil, fun e => ?_⟩
      have hslot := e.isLt
      simp only [List.not_mem_nil, false_iff]
      omega
  | succ k ih =>
      obtain ⟨slots, hthreads, hmem⟩ := ih (by omega)
      have hvalue : (slotDown k : ℕ) = nenv - 1 - k := rfl
      have hfresh : slotDown k ∉ slots := by
        rw [hmem]
        omega
      rw [envInit_succ]
      dsimp only
      refine ⟨slotDown k :: slots, (hthreads.push hfresh).congr fun e _ => ?_, fun e => ?_⟩
      · by_cases hsame : e = slotDown k
        · subst hsame
          rw [update_self, update_self]
        · rw [update_of_ne hsame, update_of_ne hsame]
      · rw [List.mem_cons, hmem e, Fin.ext_iff]
        omega

theorem initialKernel_env (m : Machine) (σ : Phys) (e : Slot) :
    ∃ link, (initialKernel m σ).envs e = { Env.zero with link := link } := by
  simp only [initialKernel]
  exact envInit_env nenv e

theorem initialKernel_fresh (m : Machine) (σ : Phys) : Fresh (initialKernel m σ) where
  table := by
    obtain ⟨slots, hthreads, hmem⟩ := envInit_threads (Nat.le_refl nenv)
    refine ⟨fun e => ?_, slots, by simpa only [initialKernel] using hthreads, fun e => ?_⟩
    · obtain ⟨link, henv⟩ := initialKernel_env m σ e
      exact Or.inl (by rw [henv]; rfl)
    · obtain ⟨link, henv⟩ := initialKernel_env m σ e
      rw [hmem e, henv]
      exact ⟨fun _ => rfl, fun _ => by omega⟩
  status := fun e => by
    obtain ⟨link, henv⟩ := initialKernel_env m σ e
    exact Or.inl (by rw [henv]; exact ⟨rfl, rfl⟩)
  recving := fun e => by
    obtain ⟨link, henv⟩ := initialKernel_env m σ e
    rw [henv]
    rfl
  curenv := fun _ => rfl
  cpu := fun c => by
    refine ⟨?_, rfl⟩
    change (if c < m.ncpu then CpuStatus.started else CpuStatus.unused) ≠ .halted
    split <;> decide

/-! ## `env_create` -/

/-- What `env_create` has done when it returns. -/
theorem envCreate_ok {s s' : Kernel} {program : Program} (hcreate : envCreate s program = some s') :
    ∃ e p σ, s.envFreeList = some e ∧ s.phys.pageFreeList = some p ∧
      loadIcode (setupDir s.phys s.kernPgdir p) p program = some σ ∧
      s' =
        { phys := σ
          kernPgdir := s.kernPgdir
          envs := update s.envs e { newEnv (s.envs e) e 0 p with
            tf := { newTrapframe with eip := program.entry } }
          envFreeList := (s.envs e).link
          cpus := s.cpus } := by
  unfold envCreate at hcreate
  split at hcreate
  · cases hcreate
  case h_2 e created halloc =>
      obtain ⟨p, hlist, hpages, rfl⟩ := envAlloc_ok halloc
      simp only [update_self, Option.bind_eq_bind, Option.bind_eq_some_iff] at hcreate
      obtain ⟨dir, hdir, σ, hload, hdone⟩ := hcreate
      have hsame : p = dir := Option.some.inj hdir
      subst hsame
      refine ⟨e, p, σ, hlist, hpages, hload, (Option.some.inj hdone).symm.trans ?_⟩
      simp [Kernel.setPhys, Kernel.setTf, Kernel.setEnv, newEnv]

theorem Fresh.envCreate {s s' : Kernel} {program : Program} (hfresh : Fresh s)
    (hcreate : envCreate s program = some s') : Fresh s' := by
  obtain ⟨e, p, σ, hlist, -, -, rfl⟩ := envCreate_ok hcreate
  refine
    { table := hfresh.table.pop hlist (by rfl) (envx_nextEnvId _ e) rfl rfl
      status := fun k => ?_
      recving := fun k => ?_
      curenv := hfresh.curenv
      cpu := hfresh.cpu }
  · by_cases hk : k = e
    · subst hk
      refine Or.inr ?_
      dsimp only
      rw [update_self]
      exact ⟨rfl, by simp [newEnv]⟩
    · dsimp only
      rw [update_of_ne hk]
      exact hfresh.status k
  · by_cases hk : k = e
    · subst hk
      dsimp only
      rw [update_self]
      rfl
    · dsimp only
      rw [update_of_ne hk]
      exact hfresh.recving k

theorem Fresh.envCreates {s s' : Kernel} {programs : List Program} (hfresh : Fresh s)
    (hcreate : envCreates s programs = some s') : Fresh s' := by
  induction programs generalizing s with
  | nil =>
      cases hcreate
      exact hfresh
  | cons program programs ih =>
      obtain ⟨next, hfirst, hrest⟩ := Option.bind_eq_some_iff.mp hcreate
      exact ih (hfresh.envCreate hfirst) hrest

/-- Booting leaves a fresh environment table. -/
theorem Boots.fresh {m : Machine} {programs : List Program} {s : Kernel}
    (hboots : Boots m programs s) (hsane : m.Sane) : Fresh s := by
  obtain ⟨σ, free, -, hcreate⟩ := hboots.layout hsane
  exact (initialKernel_fresh m σ).envCreates hcreate

end OsLabs.Jos
