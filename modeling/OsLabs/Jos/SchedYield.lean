import OsLabs.Jos.RoundRobin

/-!
# The choice of `sched_yield`

The scan of `sched_yield` keeps a running minimum under strict comparison.
Whatever the environment table holds, it ends with the runnable environment of
least signed `pr` that comes first in circular order, and the current
environment goes on when it is strictly before all of them.
-/

namespace OsLabs.Jos

open OsLabs.Turns

/-! ## What is to be chosen -/

/-- The signed priority of an environment. -/
def priority (s : Kernel) (e : Slot) : ℤ := (s.envs e).pr.toInt

/-- The place of a slot in circular order, from the one behind the current environment on, or from
slot 0. -/
def place (s : Kernel) (c : ℕ) (k : Slot) : ℕ :=
  match s.curenv c with
  | some e => turns e k
  | none => k

/-- The current environment is running, and everything runnable has a greater `pr`. -/
structure GoesOn (s : Kernel) (c : ℕ) (e : Slot) : Prop where
  current : s.curenv c = some e
  running : (s.envs e).status = .running
  before : ∀ k, Runnable s k → priority s e < priority s k

/-- The runnable environment of least `pr`, the first in circular order among those. -/
structure FirstLeast (s : Kernel) (c : ℕ) (e : Slot) : Prop where
  runnable : Runnable s e
  least : ∀ k, Runnable s k → priority s e ≤ priority s k
  first : ∀ k, Runnable s k → priority s k = priority s e → place s c e ≤ place s c k

/-- The environment that is to run on the CPU; `none` when it is to halt. -/
inductive Chosen (s : Kernel) (c : ℕ) : Option Slot → Prop
  | current {e : Slot} : GoesOn s c e → Chosen s c (some e)
  | least {e : Slot} : (∀ k, ¬ GoesOn s c k) → FirstLeast s c e → Chosen s c (some e)
  | halt : (∀ k, ¬ GoesOn s c k) → (∀ k, ¬ Runnable s k) → Chosen s c none

def runOrHalt (s : Kernel) (c : ℕ) : Option Slot → Option Kernel
  | some e => envRun s c e
  | none => schedHalt s c

/-! ## The scan -/

section Scan

variable {s : Kernel} {c : ℕ}

/-- What the scan has found in the slots looked at so far. -/
inductive ScanFound (s : Kernel) (slots : List Slot) : Option Slot → Prop
  | nothing : (∀ k ∈ slots, ¬ Runnable s k) → ScanFound s slots none
  | found {e : Slot} {before after : List Slot} : Runnable s e → slots = before ++ e :: after →
      (∀ k ∈ before, Runnable s k → priority s e < priority s k) →
      (∀ k ∈ after, Runnable s k → priority s e ≤ priority s k) → ScanFound s slots (some e)

theorem ScanFound.least {slots : List Slot} {e : Slot} (hfound : ScanFound s slots (some e))
    {k : Slot} (hk : k ∈ slots) (hrunnable : Runnable s k) : priority s e ≤ priority s k := by
  cases hfound with
  | found _ hslots hbefore hafter =>
    rw [hslots, List.mem_append, List.mem_cons] at hk
    rcases hk with hk | rfl | hk
    · exact (hbefore k hk hrunnable).le
    · exact le_rfl
    · exact hafter k hk hrunnable

/-- One more slot that does not take the place of what was found. -/
theorem ScanFound.keep {slots : List Slot} {found : Option Slot} (hfound : ScanFound s slots found)
    {j : Slot} (hj : Runnable s j → ∃ e, found = some e ∧ priority s e ≤ priority s j) :
    ScanFound s (slots ++ [j]) found := by
  cases hfound with
  | nothing hnone =>
    refine ScanFound.nothing fun k hk hrunnable => ?_
    rw [List.mem_append, List.mem_singleton] at hk
    rcases hk with hk | rfl
    · exact hnone k hk hrunnable
    · obtain ⟨e, he, -⟩ := hj hrunnable
      cases he
  | @found e before after he hslots hbefore hafter =>
    refine @ScanFound.found s _ e before (after ++ [j]) he ?_ hbefore
      fun k hk hrunnable => ?_
    · rw [hslots, List.append_assoc, List.cons_append]
    · rw [List.mem_append, List.mem_singleton] at hk
      rcases hk with hk | rfl
      · exact hafter k hk hrunnable
      · obtain ⟨e', he', hle⟩ := hj hrunnable
        cases he'
        exact hle

/-- One more slot that takes the place of what was found. -/
theorem ScanFound.take {slots : List Slot} {j : Slot} (hj : Runnable s j)
    (hless : ∀ k ∈ slots, Runnable s k → priority s j < priority s k) :
    ScanFound s (slots ++ [j]) (some j) :=
  ScanFound.found hj rfl hless fun _ hk => absurd hk List.not_mem_nil

/-- One iteration. -/
theorem ScanFound.consider {slots : List Slot} {found : Option Slot}
    (hfound : ScanFound s slots found) (j : Slot) :
    ScanFound s (slots ++ [j]) (schedConsider s found j) := by
  by_cases hj : Runnable s j
  · cases found with
    | none =>
      have htake : schedConsider s none j = some j := if_pos hj
      rw [htake]
      cases hfound with
      | nothing hnone =>
        exact ScanFound.take hj fun k hk hrunnable => absurd hrunnable (hnone k hk)
    | some e =>
      have hstep : schedConsider s (some e) j =
          if (s.envs j).pr.slt (s.envs e).pr then some j else some e := if_pos hj
      rw [hstep]
      by_cases hless : (s.envs j).pr.slt (s.envs e).pr = true
      · rw [if_pos hless]
        rw [BitVec.slt_iff_toInt_lt] at hless
        exact ScanFound.take hj fun k hk hrunnable => hless.trans_le (hfound.least hk hrunnable)
      · rw [if_neg hless]
        rw [BitVec.slt_iff_toInt_lt, not_lt] at hless
        exact hfound.keep fun _ => ⟨e, rfl, hless⟩
  · have hskip : schedConsider s found j = found := if_neg hj
    rw [hskip]
    exact hfound.keep fun hrunnable => absurd hrunnable hj

theorem ScanFound.scan (rest : List Slot) {slots : List Slot} {found : Option Slot}
    (hfound : ScanFound s slots found) :
    ScanFound s (slots ++ rest) (rest.foldl (schedConsider s) found) := by
  induction rest generalizing slots found with
  | nil => rwa [List.append_nil]
  | cons j rest ih =>
    rw [List.foldl_cons, List.append_cons]
    exact ih (hfound.consider j)

/-- The slots in the order of the scan. -/
def scanOrder (s : Kernel) (c : ℕ) : List Slot :=
  (List.range nenv).map (slotAfter (searchStart s c))

theorem schedPick_found (s : Kernel) (c : ℕ) : ScanFound s (scanOrder s c) (schedPick s c) := by
  have hstart : ScanFound s [] none := ScanFound.nothing fun _ hk => absurd hk List.not_mem_nil
  have hscan := hstart.scan (scanOrder s c)
  rw [List.nil_append, scanOrder, List.foldl_map] at hscan
  exact hscan

theorem mem_scanOrder (s : Kernel) (c : ℕ) (k : Slot) : k ∈ scanOrder s c := by
  obtain ⟨i, hi, hslot⟩ := slotAfter_surjective (searchStart s c) k
  exact List.mem_map.mpr ⟨i, List.mem_range.mpr hi, hslot⟩

/-- The table is sound for the current environment: its id names its slot, and it is running or
blocked. -/
structure CurrentOk (s : Kernel) (c : ℕ) : Prop where
  id : ∀ e, s.curenv c = some e → (envx (s.envs e).id : ℕ) = e
  status : ∀ e, s.curenv c = some e →
    (s.envs e).status = .running ∨ (s.envs e).status = .notRunnable

/-- The place of a runnable environment is its index in the scan. -/
theorem CurrentOk.place_slotAfter (hok : CurrentOk s c) {i : ℕ} (hi : i < nenv)
    (hrunnable : Runnable s (slotAfter (searchStart s c) i)) :
    place s c (slotAfter (searchStart s c) i) = i := by
  rw [place]
  cases hcur : s.curenv c with
  | none =>
    have hzero : searchStart s c = 0 := by rw [searchStart, hcur]
    rw [hzero]
    exact val_slotAfter hi
  | some e =>
    have hstart : searchStart s c = e := by
      rw [searchStart, hcur]
      exact hok.id e hcur
    rw [hstart] at hrunnable ⊢
    have hpos : 0 < i := Nat.pos_of_ne_zero fun hzero => by
      rw [hzero, slotAfter_zero, Runnable] at hrunnable
      rcases hok.status e hcur with hstatus | hstatus <;> cases hstatus.symm.trans hrunnable
    exact turns_slotAfter e hpos hi

/-- The scan picks the first of the least. -/
theorem CurrentOk.pick_some (hok : CurrentOk s c) {e : Slot} (hpick : schedPick s c = some e) :
    FirstLeast s c e := by
  have hfound := schedPick_found s c
  rw [hpick] at hfound
  have hleast (k : Slot) (hk : Runnable s k) := hfound.least (mem_scanOrder s c k) hk
  obtain ⟨before, after, horder, he, hbefore⟩ : ∃ before after,
      scanOrder s c = before ++ e :: after ∧ Runnable s e ∧
        ∀ k ∈ before, Runnable s k → priority s e < priority s k := by
    cases hfound with
    | found he horder hbefore _ => exact ⟨_, _, horder, he, hbefore⟩
  refine ⟨he, hleast, fun k hk hsame => ?_⟩
  -- the environment found has index `before.length`, and those before it a greater `pr`
  have hlen : before.length < nenv := by
    have hcount := congrArg List.length horder
    rw [scanOrder, List.length_map, List.length_range, List.length_append,
      List.length_cons] at hcount
    omega
  have hentry (i : ℕ) (hi : i < nenv) :
      (scanOrder s c)[i]? = some (slotAfter (searchStart s c) i) := by
    rw [scanOrder, List.getElem?_map, List.getElem?_range hi]
    rfl
  have heq : slotAfter (searchStart s c) before.length = e := by
    have hat := hentry before.length hlen
    rw [horder, List.getElem?_append_right le_rfl, Nat.sub_self, List.getElem?_cons_zero] at hat
    exact (Option.some.inj hat).symm
  obtain ⟨j, hj, rfl⟩ := slotAfter_surjective (searchStart s c) k
  have hle : before.length ≤ j := Nat.le_of_not_lt fun hlt => by
    have hat := hentry j hj
    rw [horder, List.getElem?_append_left hlt] at hat
    have hgreater := hbefore _ (List.mem_of_getElem? hat) hk
    rw [hsame] at hgreater
    exact lt_irrefl _ hgreater
  rw [hok.place_slotAfter hj hk, ← heq, hok.place_slotAfter hlen (heq ▸ he)]
  exact hle

theorem pick_none (hpick : schedPick s c = none) (k : Slot) : ¬ Runnable s k := by
  have hfound := schedPick_found s c
  rw [hpick] at hfound
  cases hfound with
  | nothing hnone => exact hnone k (mem_scanOrder s c k)

/-- The current environment goes on just when `sched_yield` keeps it. -/
theorem goesOn_iff {e : Slot} : GoesOn s c e ↔
    (s.curenv c).filter (keepsRunning s c) = some e := by
  rw [Option.filter_eq_some_iff, keepsRunning, Bool.and_eq_true, decide_eq_true_eq]
  cases hpick : schedPick s c with
  | none =>
    constructor
    · rintro ⟨hcur, hrunning, -⟩
      exact ⟨hcur, hrunning, rfl⟩
    · rintro ⟨hcur, hrunning, -⟩
      exact ⟨hcur, hrunning, fun k hk => absurd hk (pick_none hpick k)⟩
  | some best =>
    have hfound := schedPick_found s c
    rw [hpick] at hfound
    dsimp only
    rw [BitVec.slt_iff_toInt_lt]
    constructor
    · rintro ⟨hcur, hrunning, hbefore⟩
      exact ⟨hcur, hrunning, hbefore best (schedPick_runnable hpick)⟩
    · rintro ⟨hcur, hrunning, hless⟩
      exact ⟨hcur, hrunning, fun k hk =>
        hless.trans_le (hfound.least (mem_scanOrder s c k) hk)⟩

end Scan

/-! ## The decision -/

section Decision

variable {s : Kernel} {c : ℕ}

theorem place_injective (s : Kernel) (c : ℕ) {i j : Slot} (hplace : place s c i = place s c j) :
    i = j := by
  unfold place at hplace
  split at hplace
  case h_1 e _ => exact Turns.turns_injective hplace
  case h_2 => exact Fin.ext hplace

theorem FirstLeast.unique {e k : Slot} (he : FirstLeast s c e) (hk : FirstLeast s c k) : e = k := by
  have hsame : priority s e = priority s k :=
    le_antisymm (he.least k hk.runnable) (hk.least e he.runnable)
  exact place_injective s c
    (le_antisymm (he.first k hk.runnable hsame.symm) (hk.first e he.runnable hsame))

/-- There is always a choice. -/
theorem CurrentOk.chosen (hok : CurrentOk s c) : ∃ target, Chosen s c target := by
  by_cases hgoes : ∃ e, GoesOn s c e
  · obtain ⟨e, he⟩ := hgoes
    exact ⟨some e, Chosen.current he⟩
  · have hnone := not_exists.mp hgoes
    cases hpick : schedPick s c with
    | none => exact ⟨none, Chosen.halt hnone (pick_none hpick)⟩
    | some e => exact ⟨some e, Chosen.least hnone (hok.pick_some hpick)⟩

/-- Where the current environment does not go on, the scan decides. -/
theorem schedYield_scan (hnone : ∀ k, ¬ GoesOn s c k) :
    schedYield s c = runOrHalt s c (schedPick s c) := by
  have hfilter : (s.curenv c).filter (keepsRunning s c) = none := by
    by_contra hsome
    obtain ⟨e, he⟩ := Option.ne_none_iff_exists'.mp hsome
    exact hnone e (goesOn_iff.mpr he)
  rw [schedYield, hfilter]
  cases schedPick s c <;> rfl

theorem CurrentOk.runs (hok : CurrentOk s c) {target : Option Slot} (hchosen : Chosen s c target) :
    schedYield s c = runOrHalt s c target := by
  cases hchosen with
  | current hgoes =>
    rw [schedYield, goesOn_iff.mp hgoes]
    rfl
  | least hnone hfirst =>
    rw [schedYield_scan hnone]
    obtain ⟨best, hbest⟩ := Option.isSome_iff_exists.mp (schedPick_isSome hfirst.runnable)
    rw [hbest, (hok.pick_some hbest).unique hfirst]
  | halt hnone hidle =>
    rw [schedYield_scan hnone]
    cases hpick : schedPick s c with
    | none => rfl
    | some best => exact absurd (schedPick_runnable hpick) (hidle best)

end Decision

/-! ## A CPU with a rival -/

theorem zero_lt_nenv : 0 < nenv := by decide

/-- Slot 0 runs on CPU 0 with priority 1, and slot 1 is runnable with priority -1. -/
def rivals : Kernel where
  phys := { npages := 0, pages := fun _ => ⟨none, 0⟩, pageFreeList := none, mem := fun _ _ => 0,
            mmuBits := fun _ _ => 0 }
  kernPgdir := 0
  envs := fun e =>
    if (e : ℕ) = 0 then { Env.zero with id := 0x1000, status := .running, pr := 1 }
    else if (e : ℕ) = 1 then { Env.zero with id := 0x1001, status := .runnable, pr := -1 }
    else Env.zero
  envFreeList := none
  cpus := fun c => ⟨.started, if c = 0 then some ⟨0, zero_lt_nenv⟩ else none, 0⟩

end OsLabs.Jos
