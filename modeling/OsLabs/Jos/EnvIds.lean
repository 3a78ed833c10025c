import OsLabs.Jos.Fresh

/-!
# Environment ids

The id of an environment packs its slot and the generation of the slot.  Runs
of `env_alloc` and `env_free` are followed with the number of times each slot
has been allocated, which determines its id.
-/

namespace OsLabs.Jos.EnvIds

open Function
open OsLabs.Transition

/-! ## Sequences of calls -/

inductive Event
  | alloc (parentId : Word)
  | free (c : ℕ) (e : Slot)
  /-- whatever happens to memory in between -/
  | memory (σ : Phys)

def step (s : Kernel) : Event → Option Kernel
  | .alloc parentId =>
      match envAlloc s parentId with
      | .ok (_, created) => some created
      | .error _ => some s
  | .free c e => envFree s c e
  | .memory σ => some (s.setPhys σ)

/-- The number of allocations of each slot. -/
def noteAlloc (s : Kernel) (event : Event) (_ : Kernel) (count : Slot → ℕ) : Slot → ℕ :=
  match event with
  | .alloc parentId =>
      match envAlloc s parentId with
      | .ok (e, _) => update count e (count e + 1)
      | .error _ => count
  | _ => count

/-- Sequences of calls, with the numbers of allocations before and after. -/
abbrev Calls : Kernel × (Slot → ℕ) → Kernel × (Slot → ℕ) → Prop :=
  Runs (ghosted step noteAlloc) fun _ _ => True

/-- Ids of environments that are not free are positive, name their slot, and
occur once. -/
structure IdsUnique (s : Kernel) : Prop where
  positive : ∀ e, (s.envs e).status ≠ .free → 0 < (s.envs e).id.toInt
  index : ∀ e, (s.envs e).status ≠ .free → envx (s.envs e).id = e
  unique : ∀ e e', (s.envs e).status ≠ .free → (s.envs e').status ≠ .free →
    (s.envs e).id = (s.envs e').id → e = e'

/-- After so many allocations the ids of a slot repeat. -/
def generations : ℕ := 524287

/-! ## The ids of a slot -/

/-- The id of slot `e` after `count` allocations. -/
def idAfter (e : Slot) : ℕ → Word
  | 0 => 0
  | count + 1 => nextEnvId (idAfter e count) e

/-- The generation after `gen`. -/
def nextGeneration (gen : ℕ) : ℕ := if gen + 1 < 524288 then gen + 1 else 1

/-- Masking the slot out. -/
theorem toNat_and_not_slot (w : Word) : (w &&& ~~~1023#32).toNat = w.toNat / 1024 * 1024 := by
  have hsplit : w &&& 1023#32 ||| w &&& ~~~1023#32 = w := by
    rw [← BitVec.and_or_distrib_left, show 1023#32 ||| ~~~1023#32 = BitVec.allOnes 32 by decide,
      BitVec.and_allOnes]
  have hdisjoint : w &&& 1023#32 &&& (w &&& ~~~1023#32) = 0#32 := by
    rw [BitVec.and_assoc, BitVec.and_comm w (~~~1023#32), ← BitVec.and_assoc (1023#32),
      show 1023#32 &&& ~~~1023#32 = 0#32 by decide]
    simp
  rw [← BitVec.add_eq_or_of_and_eq_zero _ _ hdisjoint] at hsplit
  have hsum := congrArg BitVec.toNat hsplit
  have hslot : (w &&& 1023#32).toNat = w.toNat % 1024 := by
    rw [BitVec.toNat_and, show (1023#32).toNat = 2 ^ 10 - 1 by decide,
      Nat.and_two_pow_sub_one_eq_mod]
  have hmasked : (w &&& ~~~1023#32).toNat ≤ w.toNat := by
    rw [BitVec.toNat_and]
    exact Nat.and_le_left
  have hbound := w.isLt
  rw [BitVec.toNat_add, hslot] at hsum
  omega

/-- Putting the slot in. -/
theorem toNat_or_slot {w : Word} {gen : ℕ} (hw : w.toNat = gen * 4096) (e : Slot) :
    (w ||| BitVec.ofNat 32 e).toNat = gen * 4096 + e := by
  have he : (e : ℕ) < 1024 := e.isLt
  rw [BitVec.toNat_or, BitVec.toNat_ofNat, Nat.mod_eq_of_lt (by omega), hw, Nat.mul_comm,
    show 4096 = 2 ^ 12 by decide, Nat.two_pow_add_eq_or_of_lt (by omega)]

/-- `env_alloc` counts the generation up, and starts again when it would become
negative. -/
theorem toNat_nextEnvId {old : Word} {e : Slot} {gen : ℕ} (hgen : gen < 524288)
    (hold : old.toNat = gen * 4096 + e ∨ old.toNat = gen * 4096) :
    (nextEnvId old e).toNat = nextGeneration gen * 4096 + e := by
  have he : (e : ℕ) < 1024 := e.isLt
  have hsum : (old + 0x1000#32).toNat = (old.toNat + 4096) % 2 ^ 32 := by
    rw [BitVec.toNat_add]
    rfl
  have hmasked : (old + 0x1000#32 &&& ~~~1023#32).toNat = (gen + 1) * 4096 := by
    rw [toNat_and_not_slot, hsum]
    omega
  unfold nextEnvId nextGeneration
  apply toNat_or_slot
  have hsigned : (old + 0x1000#32 &&& ~~~1023#32).sle 0#32 = decide (524288 ≤ gen + 1) := by
    rw [BitVec.sle_eq_decide, BitVec.toInt_eq_toNat_cond, hmasked]
    simp only [BitVec.toInt_zero, decide_eq_decide]
    split <;> omega
  by_cases hlast : gen + 1 < 524288
  · rw [if_pos hlast, if_neg]
    · exact hmasked
    · change ¬ (old + 0x1000#32 &&& ~~~1023#32).sle 0#32 = true
      rw [hsigned, decide_eq_true_eq]
      omega
  · rw [if_neg hlast, if_pos]
    · rfl
    · change (old + 0x1000#32 &&& ~~~1023#32).sle 0#32 = true
      rw [hsigned, decide_eq_true_eq]
      omega

/-- The generation of a slot after `count` allocations. -/
def generationAfter (count : ℕ) : ℕ := if count = 0 then 0 else (count - 1) % generations + 1

theorem nextGeneration_after (count : ℕ) :
    nextGeneration (generationAfter count) = generationAfter (count + 1) := by
  unfold nextGeneration generationAfter generations
  rw [if_neg (Nat.succ_ne_zero count), Nat.add_sub_cancel]
  split <;> split <;> omega

theorem generationAfter_lt (count : ℕ) : generationAfter count < 524288 := by
  unfold generationAfter generations
  split <;> omega

/-- The ids of a slot, as numbers. -/
theorem toNat_idAfter (e : Slot) (count : ℕ) :
    (idAfter e (count + 1)).toNat = generationAfter (count + 1) * 4096 + e := by
  induction count with
  | zero =>
    have hfirst := toNat_nextEnvId (e := e) (generationAfter_lt 0) (Or.inr (rfl : (0#32).toNat = _))
    rw [nextGeneration_after] at hfirst
    exact hfirst
  | succ count ih =>
    have hnext := toNat_nextEnvId (generationAfter_lt (count + 1)) (Or.inl ih)
    rw [nextGeneration_after] at hnext
    exact hnext

/-- Ids of different generations differ. -/
theorem idAfter_ne (e : Slot) {first later : ℕ} (hfirst : 0 < first) (hlater : first < later)
    (hsoon : later < first + generations) : idAfter e later ≠ idAfter e first := by
  obtain ⟨first, rfl⟩ := Nat.exists_eq_add_one_of_ne_zero hfirst.ne'
  obtain ⟨later, rfl⟩ := Nat.exists_eq_add_one_of_ne_zero (hfirst.trans hlater).ne'
  intro hsame
  have hnumbers := congrArg BitVec.toNat hsame
  rw [toNat_idAfter, toNat_idAfter] at hnumbers
  unfold generationAfter generations at hnumbers
  rw [if_neg (Nat.succ_ne_zero _), if_neg (Nat.succ_ne_zero _)] at hnumbers
  unfold generations at hsoon
  omega

/-- An id is positive and names its slot. -/
theorem idAfter_index (e : Slot) {count : ℕ} (hcount : 0 < count) :
    0 < (idAfter e count).toInt ∧ envx (idAfter e count) = e := by
  obtain ⟨count, rfl⟩ := Nat.exists_eq_add_one_of_ne_zero hcount.ne'
  refine ⟨?_, envx_nextEnvId _ e⟩
  have he : (e : ℕ) < 1024 := e.isLt
  have hbound := generationAfter_lt (count + 1)
  have hpositive : 0 < generationAfter (count + 1) := by
    unfold generationAfter
    rw [if_neg (Nat.succ_ne_zero count)]
    exact Nat.succ_pos _
  rw [BitVec.toInt_eq_toNat_cond, toNat_idAfter]
  split <;> omega

/-! ## The invariant -/

/-- The id of a slot is determined by the number of its allocations. -/
structure Dated (s : Kernel) (count : Slot → ℕ) : Prop where
  table : TableOk s
  status_iff : ∀ e, (s.envs e).status = .free ↔ (s.envs e).pgdir = none
  id_eq : ∀ e, (s.envs e).id = idAfter e (count e)
  used : ∀ e, (s.envs e).pgdir ≠ none → 0 < count e

section Runs

variable {s s' : Kernel} {count count' : Slot → ℕ}

theorem dated_start (m : Machine) (σ : Phys) : Dated (initialKernel m σ) fun _ => 0 where
  table := (initialKernel_fresh m σ).table
  status_iff := by
    intro e
    obtain ⟨link, henv⟩ := initialKernel_env m σ e
    rw [henv]
    exact ⟨fun _ => rfl, fun _ => rfl⟩
  id_eq := by
    intro e
    obtain ⟨link, henv⟩ := initialKernel_env m σ e
    rw [henv]
    rfl
  used := by
    intro e hdir
    obtain ⟨link, henv⟩ := initialKernel_env m σ e
    rw [henv] at hdir
    exact absurd rfl hdir

/-- `env_alloc` gives the next id to the first free slot. -/
theorem Dated.alloc (hdated : Dated s count) {parentId : Word} {e : Slot}
    (halloc : envAlloc s parentId = .ok (e, s')) :
    Dated s' (update count e (count e + 1)) := by
  obtain ⟨p, hlist, -, rfl⟩ := envAlloc_ok halloc
  refine ⟨hdated.table.pop hlist rfl (envx_nextEnvId _ e) rfl rfl, ?_, ?_, ?_⟩ <;> intro k <;>
    by_cases hk : k = e
  · subst hk
    simp [newEnv]
  · simpa [update_of_ne hk] using hdated.status_iff k
  · subst hk
    simp [newEnv, hdated.id_eq, idAfter]
  · simpa [update_of_ne hk] using hdated.id_eq k
  · subst hk
    simp
  · simpa [update_of_ne hk] using hdated.used k

theorem Dated.free (hdated : Dated s count) {c : ℕ} {e : Slot}
    (hfree : envFree s c e = some s') : Dated s' count := by
  obtain ⟨pgdir, σ, pt, hdir, -, -, rfl⟩ := envFree_cases hfree
  refine ⟨hdated.table.push hdir (by rfl) (by rfl) (by rfl) rfl rfl, ?_, ?_, ?_⟩ <;> intro k <;>
    by_cases hk : k = e
  · subst hk
    simp
  · simpa [update_of_ne hk] using hdated.status_iff k
  · subst hk
    simpa using hdated.id_eq k
  · simpa [update_of_ne hk] using hdated.id_eq k
  · subst hk
    simp
  · simpa [update_of_ne hk] using hdated.used k

theorem Dated.setPhys (hdated : Dated s count) (σ : Phys) : Dated (s.setPhys σ) count :=
  ⟨hdated.table.of_slotPart (fun _ => rfl) rfl, hdated.status_iff, hdated.id_eq, hdated.used⟩

theorem Dated.step (hdated : Dated s count) {event : Event} {after : Kernel × (Slot → ℕ)}
    (hstep : ghosted step noteAlloc (s, count) event = some after) :
    Dated after.1 after.2 ∧ ∀ e, count e ≤ after.2 e := by
  obtain ⟨final, hfinal, rfl⟩ := Option.map_eq_some_iff.mp hstep
  cases event with
  | alloc parentId =>
    dsimp only [EnvIds.step] at hfinal
    cases halloc : envAlloc s parentId with
    | error code =>
      rw [halloc] at hfinal
      cases hfinal
      simp only [noteAlloc, halloc]
      exact ⟨hdated, fun _ => le_rfl⟩
    | ok result =>
      obtain ⟨e, created⟩ := result
      rw [halloc] at hfinal
      cases hfinal
      simp only [noteAlloc, halloc]
      refine ⟨hdated.alloc halloc, fun k => ?_⟩
      by_cases hk : k = e
      · subst hk
        simp
      · simp [update_of_ne hk]
  | free c e => exact ⟨hdated.free hfinal, fun _ => le_rfl⟩
  | memory σ =>
    cases hfinal
    exact ⟨hdated.setPhys σ, fun _ => le_rfl⟩

theorem runs_dated {m : Machine} {σ : Phys}
    (hcalls : Calls (initialKernel m σ, fun _ => 0) (s, count)) : Dated s count := by
  refine hcalls.invariant (I := fun pair => Dated pair.1 pair.2) (dated_start m σ) ?_
  intro before event after hdated _ hstep
  exact (hdated.step hstep).1

theorem Dated.idsUnique (hdated : Dated s count) : IdsUnique s := by
  have hid : ∀ e, (s.envs e).status ≠ .free →
      0 < (s.envs e).id.toInt ∧ envx (s.envs e).id = e := by
    intro e hstatus
    rw [hdated.id_eq e]
    exact idAfter_index e (hdated.used e fun hdir => hstatus ((hdated.status_iff e).mpr hdir))
  refine ⟨fun e hstatus => (hid e hstatus).1, fun e hstatus => (hid e hstatus).2, ?_⟩
  intro e e' hstatus hstatus' hsame
  rw [← (hid e hstatus).2, hsame, (hid e' hstatus').2]

/-! ## Stale ids -/

/-- Slot `e` was freed after `first` allocations. -/
structure Retired (e : Slot) (first : ℕ) (s : Kernel) (count : Slot → ℕ) : Prop where
  dated : Dated s count
  le_count : first ≤ count e
  still_free : count e = first → (s.envs e).status = .free

theorem Retired.step {e : Slot} {first : ℕ} (hretired : Retired e first s count) {event : Event}
    {after : Kernel × (Slot → ℕ)}
    (hstep : ghosted EnvIds.step noteAlloc (s, count) event = some after) :
    Retired e first after.1 after.2 := by
  obtain ⟨hdated, hgrows⟩ := hretired.dated.step hstep
  refine ⟨hdated, hretired.le_count.trans (hgrows e), fun hsame => ?_⟩
  have hbefore : count e = first := by
    have hle := hretired.le_count
    have hgrow := hgrows e
    omega
  have hfree := hretired.still_free hbefore
  obtain ⟨final, hfinal, rfl⟩ := Option.map_eq_some_iff.mp hstep
  cases event with
  | alloc parentId =>
    dsimp only [EnvIds.step] at hfinal
    cases halloc : envAlloc s parentId with
    | error code =>
      rw [halloc] at hfinal
      cases hfinal
      exact hfree
    | ok result =>
      obtain ⟨k, created⟩ := result
      rw [halloc] at hfinal
      cases hfinal
      simp only [noteAlloc, halloc] at hsame
      have hk : e ≠ k := by
        rintro rfl
        rw [update_self] at hsame
        omega
      obtain ⟨p, -, -, rfl⟩ := envAlloc_ok halloc
      simpa [update_of_ne hk] using hfree
  | free c k =>
    obtain ⟨pgdir, σ', pt, -, -, -, rfl⟩ := envFree_cases hfinal
    by_cases hk : e = k
    · subst hk
      simp
    · simpa [update_of_ne hk] using hfree
  | memory σ' =>
    cases hfinal
    exact hfree

/-- The id of a freed environment is refused until its slot has been allocated
often enough. -/
theorem Retired.refused {e : Slot} {first : ℕ} (hretired : Retired e first s count)
    (hfirst : 0 < first) (hsoon : count e < first + generations) (cur : Slot) (check : Bool) :
    envid2env s cur (idAfter e first) check = none := by
  obtain ⟨hpositive, hindex⟩ := idAfter_index e hfirst
  have hne : idAfter e first ≠ 0 := by
    intro hzero
    rw [hzero] at hpositive
    exact absurd hpositive (by decide)
  have hstale : (s.envs e).status = .free ∨ (s.envs e).id ≠ idAfter e first := by
    rcases hretired.le_count.eq_or_lt with hsame | hlater
    · exact Or.inl (hretired.still_free hsame.symm)
    · right
      rw [hretired.dated.id_eq e]
      exact idAfter_ne e hfirst hlater hsoon
  rw [envid2env, if_neg hne]
  dsimp only
  rw [hindex, if_pos hstale]

end Runs

end OsLabs.Jos.EnvIds
