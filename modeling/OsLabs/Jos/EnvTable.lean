import OsLabs.Jos.System

/-!
# The environment table

Two facts that hold in every reachable state, whatever the calls are: an
environment id names its own slot, and the free list of environments holds
exactly the slots without an address space.
-/

namespace OsLabs.Jos

open Function
open OsLabs.IntrusiveList

/-- Changing one environment without changing a field changes the field
nowhere. -/
theorem field_update {α : Type*} (field : Env → α) {envs : Slot → Env} {e : Slot} {env : Env}
    (hsame : field env = field (envs e)) (k : Slot) :
    field (update envs e env k) = field (envs k) := by
  by_cases hk : k = e
  · rw [hk, update_self, hsame]
  · rw [update_of_ne hk]

theorem field_setEnv {α : Type*} (field : Env → α) {s : Kernel} {e : Slot} {env : Env}
    (hsame : field env = field (s.envs e)) (k : Slot) :
    field ((s.setEnv e env).envs k) = field (s.envs k) :=
  field_update field hsame k

/-- A user store changes memory only. -/
theorem userStore_phys {s s' : Kernel} {c : ℕ} {va : Word} {byte : BitVec 8}
    (hstore : userStore s c va byte = some s') : ∃ σ, s' = s.setPhys σ := by
  unfold userStore at hstore
  simp only [Option.bind_eq_bind, Option.bind_eq_some_iff] at hstore
  obtain ⟨cur, -, hstore⟩ := hstore
  split at hstore
  · simp only [Option.bind_eq_some_iff] at hstore
    obtain ⟨page, -, hstore⟩ := hstore
    cases hstore
    exact ⟨_, rfl⟩
  · cases hstore

/-- `retire`, with `env_free` taken apart. -/
theorem retire_cases {s s' : Kernel} {c : ℕ} {e : Slot} (hretire : retire s c e = some s') :
    ∃ pgdir σ pt, (s.envs e).pgdir = some pgdir ∧
      freeTables s.phys pgdir userPdes = some σ ∧ σ.pa2page (page2pa pgdir) = some pt ∧
      s' =
        { phys := pageDecref σ pt
          kernPgdir := s.kernPgdir
          envs := update s.envs e
            { s.envs e with pgdir := none, status := .free, link := s.envFreeList }
          envFreeList := some e
          cpus := if s.curenv c = some e then
              update s.cpus c { s.cpus c with env := none, cr3 := s.kernPgdir }
            else s.cpus } := by
  unfold retire at hretire
  simp only [Option.bind_eq_bind, Option.bind_eq_some_iff] at hretire
  obtain ⟨freed, hfree, hdone⟩ := hretire
  have hcurenv := envFree_curenv hfree c
  obtain ⟨pgdir, σ, pt, hdir, htables, hpt, rfl⟩ := envFree_cases hfree
  refine ⟨pgdir, σ, pt, hdir, htables, hpt, ?_⟩
  rw [hcurenv] at hdone
  cases hdone
  by_cases hcur : s.curenv c = some e
  · rw [if_pos hcur, if_pos hcur, if_pos hcur]
    simp [Kernel.setCurenv]
  · rw [if_neg hcur, if_neg hcur, if_neg hcur]

/-! ## Ids -/

/-- The id of a new environment names its slot. -/
theorem envx_nextEnvId (old : Word) (e : Slot) : envx (nextEnvId old e) = e := by
  have hslot : (BitVec.ofNat 32 e &&& 1023#32).toNat = e := by
    have he : (e : ℕ) < 1024 := e.isLt
    rw [BitVec.toNat_and, show (1023#32).toNat = 2 ^ 10 - 1 by decide,
      Nat.and_two_pow_sub_one_eq_mod, BitVec.toNat_ofNat]
    omega
  have hgeneration : ∀ w : Word,
      (if (w &&& ~~~1023#32).sle 0#32 then 0x1000#32 else w &&& ~~~1023#32) &&& 1023#32 = 0 := by
    intro w
    split
    · decide
    · rw [BitVec.and_assoc, show ~~~1023#32 &&& 1023#32 = 0 by decide]
      simp
  apply Fin.ext
  change (nextEnvId old e &&& 1023#32).toNat = e
  rw [nextEnvId, BitVec.and_or_distrib_right]
  have hzero := hgeneration (old + 0x1000)
  rw [BitVec.ofNat_eq_ofNat] at hzero
  simp only [BitVec.ofNat_eq_ofNat]
  rw [hzero, BitVec.ofNat_eq_ofNat, BitVec.zero_or, hslot]

/-! ## The invariant -/

/-- The fields of an environment that the table is about. -/
def Env.slotPart (env : Env) : Option Slot × Option ℕ × Word := (env.link, env.pgdir, env.id)

structure TableOk (s : Kernel) : Prop where
  ids : IdsMatch s
  free : ∃ slots, Threads (fun e => (s.envs e).link) s.envFreeList slots ∧
    ∀ e, e ∈ slots ↔ (s.envs e).pgdir = none

namespace TableOk

variable {s s' : Kernel}

/-- A change of other fields. -/
theorem of_slotPart (hok : TableOk s)
    (hsame : ∀ k, (s'.envs k).slotPart = (s.envs k).slotPart)
    (hlist : s'.envFreeList = s.envFreeList) : TableOk s' := by
  have hparts : ∀ k, (s'.envs k).link = (s.envs k).link ∧
      (s'.envs k).pgdir = (s.envs k).pgdir ∧ (s'.envs k).id = (s.envs k).id := fun k => by
    have hk := hsame k
    simp only [Env.slotPart, Prod.mk.injEq] at hk
    exact hk
  obtain ⟨slots, hthreads, hmem⟩ := hok.free
  refine ⟨fun e => by rw [(hparts e).2.2]; exact hok.ids e, slots, ?_, fun e => by
    rw [(hparts e).2.1]; exact hmem e⟩
  rw [hlist]
  exact hthreads.congr fun e _ => (hparts e).1

/-- The first free environment has no address space. -/
theorem head_pgdir (hok : TableOk s) {e : Slot} (hhead : s.envFreeList = some e) :
    (s.envs e).pgdir = none := by
  obtain ⟨slots, hthreads, hmem⟩ := hok.free
  rw [hhead] at hthreads
  cases hthreads with
  | cons hrest => exact (hmem e).mp List.mem_cons_self

/-- Taking the first free slot. -/
theorem pop (hok : TableOk s) {e : Slot} (hhead : s.envFreeList = some e) {env : Env} {dir : ℕ}
    (hdir : env.pgdir = some dir) (hid : envx env.id = e)
    (henvs : s'.envs = update s.envs e env) (hlist : s'.envFreeList = (s.envs e).link) :
    TableOk s' := by
  obtain ⟨slots, hthreads, hmem⟩ := hok.free
  rw [hhead] at hthreads
  cases hthreads with
  | @cons _ rest hrest =>
      have hnodup := (List.nodup_cons.mp (Threads.cons hrest).nodup).1
      refine ⟨fun k => ?_, rest, ?_, fun k => ?_⟩
      · rw [henvs]
        by_cases hk : k = e
        · subst hk
          rw [update_self]
          exact Or.inr hid
        · rw [update_of_ne hk]
          exact hok.ids k
      · rw [hlist]
        refine hrest.congr fun k hk => ?_
        have hne : k ≠ e := fun hsame => hnodup (hsame ▸ hk)
        rw [henvs, update_of_ne hne]
      · rw [henvs]
        by_cases hk : k = e
        · subst hk
          rw [update_self, hdir]
          exact ⟨fun h => absurd h hnodup, fun h => by cases h⟩
        · rw [update_of_ne hk, ← hmem k, List.mem_cons]
          exact ⟨fun h => Or.inr h, fun h => h.resolve_left hk⟩

/-- Giving a slot back. -/
theorem push (hok : TableOk s) {e : Slot} {dir : ℕ} (hdir : (s.envs e).pgdir = some dir)
    {env : Env} (hnone : env.pgdir = none) (hid : env.id = (s.envs e).id)
    (hlink : env.link = s.envFreeList) (henvs : s'.envs = update s.envs e env)
    (hlist : s'.envFreeList = some e) : TableOk s' := by
  obtain ⟨slots, hthreads, hmem⟩ := hok.free
  have hfresh : e ∉ slots := fun h => by
    rw [hmem e, hdir] at h
    cases h
  refine ⟨fun k => ?_, e :: slots, ?_, fun k => ?_⟩
  · rw [henvs, field_update Env.id hid]
    exact hok.ids k
  · rw [hlist]
    refine (hthreads.push hfresh).congr fun k _ => ?_
    by_cases hk : k = e
    · subst hk
      rw [henvs, update_self, update_self, hlink]
    · rw [henvs, update_of_ne hk, update_of_ne hk]
  · rw [henvs, List.mem_cons]
    by_cases hk : k = e
    · subst hk
      rw [update_self]
      exact ⟨fun _ => hnone, fun _ => Or.inl rfl⟩
    · rw [update_of_ne hk, ← hmem k]
      exact ⟨fun h => h.resolve_left hk, Or.inr⟩

end TableOk

/-- `sched_yield` does not change the table. -/
theorem Yielded.slotPart {s s' : Kernel} {c : ℕ} (hyielded : Yielded s c s') :
    (∀ k, (s'.envs k).slotPart = (s.envs k).slotPart) ∧ s'.envFreeList = s.envFreeList := by
  cases hyielded with
  | keep e _ _ => exact ⟨fun k => field_setEnv Env.slotPart (by rfl) k, rfl⟩
  | again e _ _ => exact ⟨fun k => field_setEnv Env.slotPart (by rfl) k, rfl⟩
  | switch e dir hne _ _ =>
      refine ⟨fun k => ?_, rfl⟩
      obtain ⟨runs, cpunum, henv⟩ := switched_envs s hne dir k
      rw [henv]
      rfl
  | halt _ => exact ⟨fun k => rfl, rfl⟩

theorem tableOk_rules (P : ℕ → Kernel → Slot → Call → Prop) : SimpleRules P TableOk where
  setTf := fun s e tf hok => hok.of_slotPart (fun k => field_setEnv Env.slotPart (by rfl) k) rfl
  setCpunum := fun c s e hok _ =>
    hok.of_slotPart (fun k => field_setEnv Env.slotPart (by rfl) k) rfl
  started := fun c s hok _ => hok.of_slotPart (fun _ => rfl) rfl
  yield := fun c s s' hok hyield =>
    hok.of_slotPart (schedYield_cases hyield).slotPart.1 (schedYield_cases hyield).slotPart.2
  dying := fun c s cur e hok _ _ _ _ =>
    hok.of_slotPart (fun k => field_setEnv Env.slotPart (by rfl) k) rfl
  retire := fun c s cur e s' hok _ _ _ hretire => by
    obtain ⟨pgdir, σ, pt, hdir, -, -, rfl⟩ := retire_cases hretire
    exact hok.push hdir (by rfl) (by rfl) (by rfl) rfl rfl
  plain := fun c s cur key call ret s' hok _ _ hcall => by
    cases plainCall_effect hcall with
    | memory σ _ _ _ => exact hok.of_slotPart (fun _ => rfl) rfl
    | fork e p _ _ hhead _ => exact hok.pop hhead rfl (envx_nextEnvId _ e) rfl rfl
    | status e status _ _ _ => exact hok.of_slotPart (fun k => field_setEnv Env.slotPart (by rfl) k) rfl
    | upcall e func _ _ => exact hok.of_slotPart (fun k => field_setEnv Env.slotPart (by rfl) k) rfl
    | priority pr _ => exact hok.of_slotPart (fun k => field_setEnv Env.slotPart (by rfl) k) rfl
    | receive _ _ => exact hok.of_slotPart (fun k => field_setEnv Env.slotPart (by rfl) k) rfl
    | deliver e σ perm _ _ _ _ =>
        refine hok.of_slotPart (fun k => ?_) rfl
        rw [ipcDeliver, field_setEnv Env.slotPart (by rfl) k]
        exact field_setEnv Env.slotPart (by rfl) k
  frame := fun s e dir va bytes σ hok _ _ _ => hok.of_slotPart (fun _ => rfl) rfl
  store := fun c s va byte s' hok hstore => by
    obtain ⟨σ, rfl⟩ := userStore_phys hstore
    exact hok.of_slotPart (fun _ => rfl) rfl
  mmu := fun s bits hok => hok.of_slotPart (fun _ => rfl) rfl

end OsLabs.Jos
