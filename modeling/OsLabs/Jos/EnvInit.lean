import OsLabs.Jos.Fresh

/-!
# `env_init` on arbitrary memory

`boot_alloc` does not initialise the memory of `envs[]`.  Here `env_init` runs
on whatever it holds; a status is then any word, and not one of the five.
-/

namespace OsLabs.Jos

open Function
open OsLabs.IntrusiveList

/-- What the memory of `envs[]` holds.  The statuses are kept apart from the other fields. -/
structure EnvRam where
  envs : Slot → Env
  status : Slot → Word

/-- The first `count` iterations of the loop of `env_init`, which counts down. -/
def envInitRam (ram : EnvRam) : ℕ → EnvRam × Option Slot
  | 0 => (ram, none)
  | k + 1 =>
      let (ram, freeList) := envInitRam ram k
      let i := slotDown k
      ({ ram with envs := update ram.envs i { ram.envs i with id := 0, link := freeList } }, some i)

/-- The environments of the kernel are those in memory. -/
def EnvRam.Shows (ram : EnvRam) (s : Kernel) : Prop :=
  ∀ e, (s.envs e).status.code = ram.status e ∧ (s.envs e).id = (ram.envs e).id

/-- What `env_init` is to leave: all environments are free and on the list in their order, and
neither `sched_yield` nor `envid2env` finds one. -/
structure EnvInitFrees (ram : EnvRam) (freeList : Option Slot) : Prop where
  free : ∀ e, ram.status e = EnvStatus.free.code
  ids : ∀ e, (ram.envs e).id = 0
  list : Threads (fun e => (ram.envs e).link) freeList (List.finRange nenv)
  pick : ∀ s, ram.Shows s → ∀ c, schedPick s c = none
  lookup : ∀ s, ram.Shows s → ∀ cur envid checkperm, envid ≠ 0 →
    envid2env s cur envid checkperm = none

/-- The memory of `envs[]` before `env_init`, when nothing has been allocated. -/
def EnvRam.Frees (ram : EnvRam) : Prop :=
  EnvInitFrees (envInitRam ram nenv).1 (envInitRam ram nenv).2

theorem envInitRam_status (ram : EnvRam) (count : ℕ) :
    (envInitRam ram count).1.status = ram.status := by
  induction count with
  | zero => rfl
  | succ k ih => exact ih

theorem finRange_drop {n i : ℕ} (hi : i < n) :
    (List.finRange n).drop i = ⟨i, hi⟩ :: (List.finRange n).drop (i + 1) := by
  have hbound : i < (List.finRange n).length := by rwa [List.length_finRange]
  rw [List.drop_eq_getElem_cons hbound, List.getElem_finRange]
  rfl

/-- The slots from `nenv - count` on, in order. -/
theorem envInitRam_list (ram : EnvRam) {count : ℕ} (hcount : count ≤ nenv) :
    Threads (fun e => ((envInitRam ram count).1.envs e).link) (envInitRam ram count).2
        ((List.finRange nenv).drop (nenv - count)) ∧
      ∀ e : Slot, nenv - count ≤ e → ((envInitRam ram count).1.envs e).id = 0 := by
  induction count with
  | zero =>
    have hnil : (List.finRange nenv).drop nenv = [] :=
      List.drop_eq_nil_of_le (List.length_finRange).le
    rw [Nat.sub_zero, hnil]
    exact ⟨Threads.nil, fun e he => absurd e.isLt (Nat.not_lt.mpr he)⟩
  | succ k ih =>
    obtain ⟨hthreads, hids⟩ := ih (Nat.le_of_succ_le hcount)
    have hslot : (slotDown k : ℕ) = nenv - (k + 1) := by
      change nenv - 1 - k = nenv - (k + 1)
      rw [Nat.sub_sub, Nat.add_comm]
    have hstep : envInitRam ram (k + 1) = ({ (envInitRam ram k).1 with
        envs := update (envInitRam ram k).1.envs (slotDown k)
          { (envInitRam ram k).1.envs (slotDown k) with id := 0, link := (envInitRam ram k).2 } },
        some (slotDown k)) := rfl
    have hdrop : (List.finRange nenv).drop (nenv - (k + 1)) =
        slotDown k :: (List.finRange nenv).drop (nenv - k) := by
      have hnext : (slotDown k : ℕ) + 1 = nenv - k := by omega
      rw [← hslot, ← hnext]
      exact finRange_drop (slotDown k).isLt
    have hfresh : slotDown k ∉ (List.finRange nenv).drop (nenv - k) := by
      have hnodup := (List.nodup_finRange nenv).sublist (List.drop_sublist (nenv - (k + 1)) _)
      rw [hdrop] at hnodup
      exact (List.nodup_cons.mp hnodup).1
    rw [hstep, hdrop]
    dsimp only
    refine ⟨(hthreads.push hfresh).congr fun e _ => ?_, fun e he => ?_⟩
    · by_cases hsame : e = slotDown k
      · rw [hsame, update_self, update_self]
      · rw [update_of_ne hsame, update_of_ne hsame]
    · by_cases hsame : e = slotDown k
      · rw [hsame, update_self]
      · rw [update_of_ne hsame]
        refine hids e ?_
        have hne : (e : ℕ) ≠ slotDown k := fun h => hsame (Fin.ext h)
        omega

/-- Nothing runnable is found where nothing is runnable. -/
theorem schedPick_none {s : Kernel} (hnone : ∀ e, (s.envs e).status ≠ .runnable) (c : ℕ) :
    schedPick s c = none := by
  have hfold (slots : List ℕ) (cur : ℕ) :
      slots.foldl (fun runenv i => schedConsider s runenv (slotAfter cur i)) none = none := by
    induction slots with
    | nil => rfl
    | cons i slots ih =>
      rw [List.foldl_cons, schedConsider, if_neg (hnone _)]
      exact ih
  exact hfold _ _

/-- `env_init` sets ids and links, so that it frees the environments just when the memory of all
statuses was zero. -/
theorem env_init_frees_iff (ram : EnvRam) : ram.Frees ↔ ∀ e, ram.status e = 0 := by
  have hstatus := envInitRam_status ram nenv
  constructor
  · intro hfrees e
    exact (congrFun hstatus e).symm.trans (hfrees.free e)
  · intro hzero
    obtain ⟨hlist, hids⟩ := envInitRam_list ram (Nat.le_refl nenv)
    rw [Nat.sub_self, List.drop_zero] at hlist
    have hfree : ∀ e, (envInitRam ram nenv).1.status e = EnvStatus.free.code := fun e =>
      (congrFun hstatus e).trans (hzero e)
    refine ⟨hfree, fun e => hids e (Nat.zero_le _), hlist, fun s hshows c => ?_, ?_⟩
    · refine schedPick_none (fun e hrunnable => ?_) c
      have hcode := (hshows e).1
      rw [hrunnable, hfree e] at hcode
      exact absurd hcode (by decide)
    · intro s hshows cur envid checkperm hne
      have hid : (s.envs (envx envid)).id = 0 := by
        rw [(hshows (envx envid)).2]
        exact hids _ (Nat.zero_le _)
      rw [envid2env, if_neg hne]
      exact if_pos (Or.inr (by rw [hid]; exact hne.symm))

/-- Memory full of twos: after `env_init` every environment is runnable. -/
theorem env_init_keeps_status : ¬ ∀ ram : EnvRam, ram.Frees := by
  intro hall
  have hfree := (hall ⟨fun _ => Env.zero, fun _ => EnvStatus.runnable.code⟩).free (slotDown 0)
  rw [envInitRam_status] at hfree
  exact absurd hfree (by decide)

end OsLabs.Jos
