import OsLabs.Core.Turns
import OsLabs.Jos.Entries
import OsLabs.Jos.IdleEnvs
import OsLabs.Jos.Receivers

/-!
# Round-robin scheduling

The search of `sched_yield` visits all slots in circular order, and with equal
priorities it ends with the first runnable one.  It should start just behind
the environment that the CPU was last running.  It starts at the current
environment, and at slot 0 when there is none; where that makes no difference,
no environment that stays runnable is passed over `NENV` times.
-/

namespace OsLabs.Jos

open Function
open OsLabs.Transition
open OsLabs.Turns

def Runnable (s : Kernel) (e : Slot) : Prop := (s.envs e).status = .runnable

instance (s : Kernel) (e : Slot) : Decidable (Runnable s e) :=
  inferInstanceAs (Decidable (_ = _))

/-! ## Used slots -/

/-- A slot without an id was never used. -/
def Named (s : Kernel) : Prop :=
  ∀ e, (s.envs e).id = 0 → (s.envs e).status = .free ∧ ∀ c, s.curenv c ≠ some e

theorem nextEnvId_ne_zero (old : Word) (e : Slot) : nextEnvId old e ≠ 0 := by
  intro hzero
  have hgeneration := (BitVec.or_eq_zero_iff.mp hzero).1
  split at hgeneration
  case isTrue => exact absurd hgeneration (by decide)
  case isFalse hpositive =>
    rw [hgeneration] at hpositive
    exact hpositive (by decide)

namespace Named

variable {s s' : Kernel} {c : ℕ} {cur e : Slot}

theorem of_curenv (hnamed : Named s) (hcur : s.curenv c = some e) : (s.envs e).id ≠ 0 :=
  fun hzero => (hnamed e hzero).2 c hcur

theorem of_live (hnamed : Named s) (hlive : (s.envs e).status ≠ .free) : (s.envs e).id ≠ 0 :=
  fun hzero => hlive (hnamed e hzero).1

theorem of_found (hnamed : Named s) (hcur : s.curenv c = some cur) {envid : Word}
    {checkperm : Bool} (hfound : envid2env s cur envid checkperm = some e) :
    (s.envs e).id ≠ 0 := by
  unfold envid2env at hfound
  split at hfound
  · cases hfound
    exact hnamed.of_curenv hcur
  case isFalse hid =>
    dsimp only at hfound
    split at hfound
    · cases hfound
    case isFalse hgood =>
      split at hfound
      · cases hfound
      · cases hfound
        exact hnamed.of_live fun hfree => hgood (Or.inl hfree)

/-- A change of environments that have an id. -/
theorem change (hnamed : Named s) (hid : ∀ k, (s'.envs k).id = 0 → (s.envs k).id = 0)
    (hstatus : ∀ k, (s.envs k).id = 0 → (s'.envs k).status = (s.envs k).status)
    (hcpus : ∀ k, (s.envs k).id = 0 → ∀ c, s'.curenv c = some k → s.curenv c = some k) :
    Named s' := by
  intro k hzero
  obtain ⟨hfree, hcur⟩ := hnamed k (hid k hzero)
  exact ⟨(hstatus k (hid k hzero)).trans hfree, fun c hc => hcur c (hcpus k (hid k hzero) c hc)⟩

theorem setEnv (hnamed : Named s) {env : Env} (hold : (s.envs e).id ≠ 0) (hnew : env.id ≠ 0) :
    Named (s.setEnv e env) := by
  have hother : ∀ k, (s.envs k).id = 0 → k ≠ e := fun k hzero hsame => hold (hsame ▸ hzero)
  refine hnamed.change (fun k hzero => ?_) (fun k hzero => ?_) fun k _ c hcur => hcur
  · by_cases hk : k = e
    · subst hk
      rw [Kernel.envs_setEnv, update_self] at hzero
      exact absurd hzero hnew
    · rwa [Kernel.envs_setEnv, update_of_ne hk] at hzero
  · rw [Kernel.envs_setEnv, update_of_ne (hother k hzero)]

theorem yield (hnamed : Named s) (hyielded : Yielded s c s') : Named s' := by
  cases hyielded with
  | keep e hcur _ => exact hnamed.setEnv (hnamed.of_curenv hcur) (hnamed.of_curenv hcur)
  | again e hcur _ => exact hnamed.setEnv (hnamed.of_curenv hcur) (hnamed.of_curenv hcur)
  | switch e dir hne hpick _ =>
    have hid : (s.envs e).id ≠ 0 := hnamed.of_live (by rw [schedPick_runnable hpick]; decide)
    refine hnamed.change (fun k hzero => ?_) (fun k hzero => ?_) fun k hzero j hj => ?_
    · obtain ⟨runs, cpunum, henv⟩ := switched_envs s hne dir k
      rwa [henv] at hzero
    · obtain ⟨runs, cpunum, henv⟩ := switched_envs s hne dir k
      have hother : k ≠ e := fun hsame => hid (hsame ▸ hzero)
      rw [henv, if_neg hother, if_neg fun hrunning => hnamed.of_curenv hrunning.1 hzero]
    · rw [curenv_switched] at hj
      split at hj
      · cases hj
        exact absurd hzero hid
      · exact hj
  | halt _ =>
    refine hnamed.change (fun k hzero => hzero) (fun k _ => rfl) fun k _ j hj => ?_
    rw [curenv_haltedState] at hj
    split at hj
    · cases hj
    · exact hj

end Named

theorem named_rules (P : ℕ → Kernel → Slot → Call → Prop) : SimpleRules P Named where
  setTf := fun s e tf hnamed => by
    refine hnamed.change (fun k hzero => ?_) (fun k _ => field_setEnv Env.status (by rfl) k)
      fun k _ c hcur => hcur
    rwa [Kernel.setTf, field_setEnv Env.id (by rfl) k] at hzero
  setCpunum := fun c s e hnamed hcur =>
    hnamed.setEnv (hnamed.of_curenv hcur) (hnamed.of_curenv hcur)
  started := fun c s hnamed _ => by
    refine hnamed.change (fun k hzero => hzero) (fun k _ => rfl) fun k _ j hj => ?_
    by_cases hsame : j = c
    · subst hsame
      simpa [Kernel.curenv] using hj
    · simpa [Kernel.curenv, update_of_ne hsame] using hj
  yield := fun c s s' hnamed hyield => hnamed.yield (schedYield_cases hyield)
  dying := fun c s cur e hnamed _ _ hrunning _ => by
    have hid : (s.envs e).id ≠ 0 := hnamed.of_live (by rw [hrunning]; decide)
    exact hnamed.setEnv hid hid
  retire := fun c s cur e s' hnamed _ _ _ hretire => by
    have hcur := curenv_retire hretire
    obtain ⟨pgdir, σ, pt, -, -, -, rfl⟩ := retire_cases hretire
    intro k hzero
    dsimp only at hzero ⊢
    rw [field_update Env.id (by rfl) k] at hzero
    obtain ⟨hfree, hnone⟩ := hnamed k hzero
    refine ⟨?_, fun j => ?_⟩
    · by_cases hk : k = e
      · rw [hk, update_self]
      · rw [update_of_ne hk, hfree]
    · rw [hcur]
      split
      · simp
      · exact hnone j
  plain := fun c s cur key call ret s' hnamed hcur _ hcall => by
    have hself := hnamed.of_curenv hcur
    cases plainCall_effect hcall with
    | memory σ _ _ _ => exact hnamed
    | fork e p _ _ _ _ =>
      intro k hzero
      by_cases hk : k = e
      · subst hk
        dsimp only at hzero
        rw [update_self] at hzero
        exact absurd hzero (nextEnvId_ne_zero _ k)
      · dsimp only at hzero ⊢
        rw [update_of_ne hk] at hzero ⊢
        exact hnamed k hzero
    | status e status _ _ hfound =>
      exact hnamed.setEnv (hnamed.of_found hcur hfound) (hnamed.of_found hcur hfound)
    | upcall e func _ hfound =>
      exact hnamed.setEnv (hnamed.of_found hcur hfound) (hnamed.of_found hcur hfound)
    | priority pr _ => exact hnamed.setEnv hself hself
    | receive _ _ => exact hnamed.setEnv hself hself
    | deliver e σ perm _ _ hfound _ =>
      have hid := hnamed.of_found hcur hfound
      have hphys : Named (s.setPhys σ) := hnamed
      have hperm : Named ((s.setPhys σ).setEnv e { s.envs e with ipcPerm := perm }) :=
        hphys.setEnv hid hid
      refine hperm.setEnv ?_ ?_ <;> simpa using hid
  frame := fun s e dir va bytes σ hnamed _ _ _ => hnamed
  store := fun c s va byte s' hnamed hstore => by
    obtain ⟨σ, rfl⟩ := userStore_phys hstore
    exact hnamed
  mmu := fun s bits hnamed => hnamed

theorem envCreates_named {s s' : Kernel} {programs : List Program} (hnamed : Named s)
    (hcreate : envCreates s programs = some s') : Named s' := by
  induction programs generalizing s with
  | nil =>
    cases hcreate
    exact hnamed
  | cons program programs ih =>
    obtain ⟨next, hfirst, hrest⟩ := Option.bind_eq_some_iff.mp hcreate
    refine ih ?_ hrest
    obtain ⟨e, p, σ, -, -, -, rfl⟩ := envCreate_ok hfirst
    intro k hzero
    by_cases hk : k = e
    · subst hk
      dsimp only at hzero
      rw [update_self] at hzero
      exact absurd hzero (nextEnvId_ne_zero _ k)
    · dsimp only at hzero ⊢
      rw [update_of_ne hk] at hzero ⊢
      exact hnamed k hzero

theorem Boots.named {m : Machine} {programs : List Program} {s : Kernel}
    (hboots : Boots m programs s) : Named s := by
  obtain ⟨tested, mapped, installed, mmio, mmio', σ, -, -, -, -, hcreate⟩ := hboots
  refine envCreates_named (fun e _ => ⟨?_, fun c => by simp [Kernel.curenv, initialKernel]⟩)
    hcreate
  obtain ⟨link, henv⟩ := initialKernel_env m σ e
  rw [henv]
  rfl

/-! ## The search -/

/-- Where the search of `sched_yield` on CPU `c` starts. -/
def searchStart (s : Kernel) (c : ℕ) : ℕ :=
  match s.curenv c with
  | some e => envx (s.envs e).id
  | none => 0

/-- The environments that want to run have the same `pr`. -/
def EqualPr (s : Kernel) : Prop :=
  ∀ e k, (Runnable s e ∨ (s.envs e).status = .running) →
    (Runnable s k ∨ (s.envs k).status = .running) → (s.envs e).pr = (s.envs k).pr

section Search

variable {s s' : Kernel} {c : ℕ} {e : Slot}

theorem not_slt_self (w : Word) : ¬ w.slt w := by
  rw [BitVec.slt_iff_toInt_lt]
  exact lt_irrefl _

/-- With equal priorities the search keeps what it found first. -/
theorem foldl_schedConsider (hequal : EqualPr s) (slots : List Slot) :
    ∀ best, Runnable s best → slots.foldl (schedConsider s) (some best) = some best := by
  induction slots with
  | nil => exact fun best _ => rfl
  | cons j slots ih =>
    intro best hbest
    have hkeep : schedConsider s (some best) j = some best := by
      unfold schedConsider
      split
      case isTrue hj =>
        dsimp only
        rw [hequal j best (Or.inl hj) (Or.inl hbest), if_neg (not_slt_self _)]
      case isFalse => rfl
    rw [List.foldl_cons, hkeep]
    exact ih best hbest

theorem foldl_schedConsider_none (hequal : EqualPr s) (slots : List Slot) :
    slots.foldl (schedConsider s) none = slots.find? fun j => decide (Runnable s j) := by
  induction slots with
  | nil => rfl
  | cons j slots ih =>
    rw [List.foldl_cons, List.find?_cons]
    by_cases hj : Runnable s j
    · have htake : schedConsider s none j = some j := if_pos hj
      rw [htake, foldl_schedConsider hequal slots j hj, decide_eq_true hj]
    · have hskip : schedConsider s none j = none := if_neg hj
      rw [hskip, ih, decide_eq_false hj]

/-- The search ends with the first runnable environment in circular order. -/
theorem schedPick_first (hequal : EqualPr s) (hpick : schedPick s c = some e) :
    ∃ i < nenv, slotAfter (searchStart s c) i = e ∧
      ∀ j < i, ¬ Runnable s (slotAfter (searchStart s c) j) := by
  have hfold : schedPick s c = ((List.range nenv).map (slotAfter (searchStart s c))).foldl
      (schedConsider s) none := by
    rw [List.foldl_map]
    rfl
  rw [hfold, foldl_schedConsider_none hequal, List.find?_map, Option.map_eq_some_iff] at hpick
  obtain ⟨i, hfound, hslot⟩ := hpick
  rw [List.find?_range_eq_some] at hfound
  obtain ⟨-, hrange, hbefore⟩ := hfound
  refine ⟨i, List.mem_range.mp hrange, hslot, fun j hj => ?_⟩
  simpa using hbefore j hj

/-- What a decision runs was picked, or nobody else wants to run. -/
theorem schedYield_served (hequal : EqualPr s) (hyield : schedYield s c = some s')
    (hserved : s'.curenv c = some e) :
    schedPick s c = some e ∨ ∀ k, ¬ Runnable s k := by
  unfold schedYield at hyield
  split at hyield
  case h_1 cur hkeep =>
    obtain ⟨hcur, hkeeps⟩ := Option.filter_eq_some_iff.mp hkeep
    rw [keepsRunning, Bool.and_eq_true, decide_eq_true_eq] at hkeeps
    right
    intro k hk
    obtain ⟨best, hbest⟩ := Option.isSome_iff_exists.mp (schedPick_isSome (c := c) hk)
    rw [hbest, hequal cur best (Or.inr hkeeps.1) (Or.inl (schedPick_runnable hbest))] at hkeeps
    exact not_slt_self _ hkeeps.2
  case h_2 best _ hpick =>
    left
    rw [hpick]
    by_cases hcur : s.curenv c = some best
    · rw [envRun_current hcur] at hyield
      cases hyield
      exact hcur.symm.trans hserved
    · rw [envRun_switch hcur] at hyield
      obtain ⟨dir, -, rfl⟩ := Option.map_eq_some_iff.mp hyield
      rw [curenv_switched, if_pos rfl] at hserved
      exact hserved
  case h_3 =>
    unfold schedHalt at hyield
    split at hyield
    · cases hyield
      have hnone := curenv_haltedState s c c
      rw [if_pos rfl] at hnone
      cases hnone.symm.trans hserved
    · cases hyield

end Search

/-! ## The history of one CPU -/

/-- Whom a CPU served, and how often it passed each environment over since the
environment became runnable or was served. -/
structure History where
  last : Option Slot
  waited : Slot → ℕ

/-- Nothing was decided yet. -/
def History.empty : History := ⟨none, fun _ => 0⟩

/-- The environment that a decision of CPU `c` runs. -/
def servedBy (c : ℕ) (operation : Operation) (s' : Kernel) : Option Slot :=
  match operation with
  | .decide k => if k = c then s'.curenv c else none
  | _ => none

/-- The history after an operation. -/
def noteServed (c : ℕ) (s : Kernel) (operation : Operation) (s' : Kernel) (history : History) :
    History :=
  match servedBy c operation s' with
  | some served =>
      { last := some served
        waited := fun e =>
          if Runnable s e ∧ Runnable s' e ∧ e ≠ served then history.waited e + 1 else 0 }
  | none =>
      { history with
        waited := fun e => if Runnable s e ∧ Runnable s' e then history.waited e else 0 }

/-- Starting at the current environment, or at slot 0, the search finds what it
would find starting just behind the environment last served. -/
def StartsBehind (c : ℕ) (s : Kernel) (last : Option Slot) : Prop :=
  match s.curenv c with
  | some cur => Runnable s cur → ∀ e, Runnable s e → e = cur
  | none => ∀ served, last = some served →
      (∀ e, Runnable s e → served < e) ∨ ∀ e, Runnable s e → e ≤ served

/-- The condition on the decisions of CPU `c`; `start` is the condition on
where they start. -/
def DecidesUnder (start : Kernel → Option Slot → Prop) (c : ℕ) (s : Kernel)
    (history : History) : Operation → Prop
  | .decide k => k = c → EqualPr s ∧ start s history.last
  | _ => True

section History

variable {s s' : Kernel} {c : ℕ} {e : Slot} {history : History}

theorem turns_slotAfter (k : Slot) {i : ℕ} (hpos : 0 < i) (hi : i < nenv) :
    turns k (slotAfter k i) = i := by
  have hk : (k : ℕ) < 1024 := k.isLt
  have hbound : i < 1024 := hi
  change ((k + i) % 1024 + (1024 - 1 - k)) % 1024 + 1 = i
  omega

theorem slotAfter_zero (k : Slot) : slotAfter k 0 = k :=
  Fin.ext (Nat.mod_eq_of_lt k.isLt)

theorem val_slotAfter {i : ℕ} (hi : i < nenv) : (slotAfter 0 i : ℕ) = i := by
  change (0 + i) % nenv = i
  rw [Nat.zero_add, Nat.mod_eq_of_lt hi]

theorem searchStart_current (htable : TableOk s) (hnamed : Named s)
    (hcur : s.curenv c = some e) : searchStart s c = e := by
  rw [searchStart, hcur]
  exact congrArg Fin.val ((htable.ids e).resolve_left (hnamed.of_curenv hcur))

/-- The search finds the first runnable environment behind the one last
served. -/
theorem StartsBehind.first (hstart : StartsBehind c s history.last) (htable : TableOk s)
    (hnamed : Named s) (hequal : EqualPr s)
    (hcurrent : ∀ k, s.curenv c = some k → history.last = some k)
    (hpick : schedPick s c = some e) :
    ∀ served, history.last = some served → ∀ other, Runnable s other →
      turns served e ≤ turns served other := by
  intro served hlast other hother
  obtain ⟨i, hi, rfl, hbefore⟩ := schedPick_first hequal hpick
  obtain ⟨j, hj, rfl⟩ := slotAfter_surjective (searchStart s c) other
  have hle : i ≤ j := Nat.le_of_not_lt fun hlt => hbefore j hlt hother
  have hpicked := schedPick_runnable hpick
  unfold StartsBehind at hstart
  cases hcur : s.curenv c with
  | some cur =>
    have hsame : cur = served := Option.some.inj ((hcurrent cur hcur).symm.trans hlast)
    subst hsame
    rw [hcur] at hstart
    rw [searchStart_current htable hnamed hcur] at hother hpicked ⊢
    by_cases hrunnable : Runnable s cur
    · rw [hstart hrunnable _ hpicked, hstart hrunnable _ hother]
    · have hpos : 0 < i := Nat.pos_of_ne_zero fun hzero => hrunnable (by
        rw [hzero, slotAfter_zero] at hpicked
        exact hpicked)
      rw [turns_slotAfter cur hpos hi, turns_slotAfter cur (hpos.trans_le hle) hj]
      exact hle
  | none =>
    rw [hcur] at hstart
    have hzero : searchStart s c = 0 := by rw [searchStart, hcur]
    rw [hzero] at hother hpicked ⊢
    have hvaluei := val_slotAfter hi
    have hvaluej := val_slotAfter hj
    rcases hstart served hlast with hbehind | hahead
    · rw [turns_of_lt (hbehind _ hpicked), turns_of_lt (hbehind _ hother)]
      omega
    · rw [turns_of_le (hahead _ hpicked), turns_of_le (hahead _ hother)]
      omega

/-- The invariant of the history. -/
structure Rotates (c : ℕ) (s : Kernel) (history : History) : Prop where
  table : TableOk s
  named : Named s
  current : ∀ e, s.curenv c = some e → history.last = some e
  waiting : Waiting (Runnable s) history.last history.waited

/-- Only a decision of CPU `c` gives it an environment. -/
theorem operate_curenv {operation : Operation} (hstep : operate s operation = some s')
    (hserved : servedBy c operation s' = none) (hcur : s'.curenv c = some e) :
    s.curenv c = some e := by
  cases operation with
  | setTf k tf =>
    cases hstep
    exact hcur
  | resume k cur =>
    obtain ⟨-, hdone⟩ := Option.ite_none_right_eq_some.mp hstep
    cases hdone
    exact hcur
  | wake k =>
    obtain ⟨-, hdone⟩ := Option.ite_none_right_eq_some.mp hstep
    cases hdone
    by_cases hk : c = k
    · subst hk
      simpa [Kernel.curenv] using hcur
    · simpa [Kernel.curenv, update_of_ne hk] using hcur
  | decide k =>
    by_cases hk : k = c
    · rw [servedBy, if_pos hk, hcur] at hserved
      cases hserved
    · have hother : c ≠ k := fun hsame => hk hsame.symm
      cases schedYield_cases hstep with
      | keep _ _ _ => exact hcur
      | again _ _ _ => exact hcur
      | switch _ _ _ _ _ => rwa [curenv_switched, if_neg hother] at hcur
      | halt _ => rwa [curenv_haltedState, if_neg hother] at hcur
  | mark k other =>
    obtain ⟨-, hdone⟩ := Option.ite_none_right_eq_some.mp hstep
    cases hdone
    exact hcur
  | retire k other =>
    obtain ⟨-, hretire⟩ := Option.ite_none_right_eq_some.mp hstep
    rw [curenv_retire hretire] at hcur
    split at hcur
    · cases hcur
    · exact hcur
  | call k cur key call =>
    obtain ⟨-, hdone⟩ := Option.ite_none_right_eq_some.mp hstep
    obtain ⟨⟨ret, after⟩, hcall, rfl⟩ := Option.map_eq_some_iff.mp hdone
    cases plainCall_effect hcall with
    | memory _ _ _ _ => exact hcur
    | fork _ _ _ _ _ _ => exact hcur
    | status _ _ _ _ _ => exact hcur
    | upcall _ _ _ _ => exact hcur
    | priority _ _ => exact hcur
    | receive _ _ => exact hcur
    | deliver _ _ _ _ _ _ _ => exact hcur
  | frame k va bytes =>
    obtain ⟨dir, -, hdone⟩ := Option.bind_eq_some_iff.mp hstep
    obtain ⟨-, hstores⟩ := Option.ite_none_right_eq_some.mp hdone
    obtain ⟨σ, -, rfl⟩ := Option.map_eq_some_iff.mp hstores
    exact hcur
  | store k va byte =>
    obtain ⟨σ, rfl⟩ := userStore_phys hstep
    exact hcur
  | mmu bits =>
    cases hstep
    exact hcur

/-- One operation. -/
theorem Rotates.operate (hrotates : Rotates c s history) {operation : Operation}
    {P : ℕ → Kernel → Slot → Call → Prop} (hallowed : Allowed P s operation)
    (hdecides : DecidesUnder (StartsBehind c) c s history operation)
    (hstep : Jos.operate s operation = some s') :
    Rotates c s' (noteServed c s operation s' history) := by
  have htable := (tableOk_rules P).operate hrotates.table hallowed hstep
  have hnamed := (named_rules P).operate hrotates.named hallowed hstep
  cases hserved : servedBy c operation s' with
  | none =>
    rw [noteServed, hserved]
    refine ⟨htable, hnamed, fun e hcur =>
      hrotates.current e (operate_curenv hstep hserved hcur), hrotates.waiting.change ?_ ?_⟩
    · exact fun e hready hready' => if_pos ⟨hready, hready'⟩
    · exact fun e hnot => if_neg hnot
  | some served =>
    have hdecision : operation = .decide c ∧ s'.curenv c = some served := by
      cases operation with
      | decide k =>
        by_cases hk : k = c
        · rw [servedBy, if_pos hk] at hserved
          exact ⟨congrArg Operation.decide hk, hserved⟩
        · rw [servedBy, if_neg hk] at hserved
          cases hserved
      | _ => cases hserved
    obtain ⟨rfl, hcur⟩ := hdecision
    obtain ⟨hequal, hstart⟩ := hdecides rfl
    rw [noteServed, hserved]
    refine ⟨htable, hnamed, fun e he => he.symm.trans hcur ▸ rfl, hrotates.waiting.serve ?_ ?_ ?_⟩
    · intro last hlast other hother
      rcases schedYield_served hequal hstep hcur with hpick | hnobody
      · exact hstart.first hrotates.table hrotates.named hequal hrotates.current hpick last hlast
          other hother
      · exact absurd hother (hnobody other)
    · exact fun e hready hready' hne => if_pos ⟨hready, hready', hne⟩
    · exact fun e hnot => if_neg hnot

end History

/-- `history` is a history of CPU `c` that leads from `booted` to `s`.  All
priorities are equal whenever it decides, and `start` holds of the environment
it served last. -/
def SchedulingRun (start : Kernel → Option Slot → Prop) (c : ℕ) (booted s : Kernel)
    (history : History) : Prop :=
  Runs (ghosted operate (noteServed c))
    (fun pair operation => Allowed (fun _ _ _ _ => True) pair.1 operation ∧
      DecidesUnder start c pair.1 pair.2 operation)
    (booted, History.empty) (s, history)

/-- As long as the search of CPU `c` starts behind the environment that it was
last running, no environment that stays runnable is passed over `NENV` times. -/
theorem runnable_is_served {m : Machine} {programs : List Program} {booted s : Kernel}
    {history : History} (hsane : m.Sane) (hboots : Boots m programs booted) (c : ℕ)
    (hrun : SchedulingRun (StartsBehind c) c booted s history) (e : Slot) :
    history.waited e < nenv := by
  have hfresh := hboots.fresh hsane
  have hidle : ∀ e, booted.curenv c = some e → History.empty.last = some e := fun e hcur => by
    rw [hfresh.curenv c] at hcur
    cases hcur
  have hstart : Rotates c booted History.empty :=
    ⟨hfresh.table, hboots.named, hidle, Waiting.start _⟩
  have hrotates := hrun.invariant (I := fun pair => Rotates c pair.1 pair.2) hstart
    fun before operation after hinv hok hstep => by
      obtain ⟨final, hfinal, rfl⟩ := Option.map_eq_some_iff.mp hstep
      exact hinv.operate hok.1 hok.2 hfinal
  exact hrotates.waiting.lt e

/-! ## A program that is always picked -/

/-- A machine with one CPU. -/
def uniprocessor : Machine := { smallMachine with ncpu := 1 }

theorem uniprocessor_sane : uniprocessor.Sane :=
  { smallMachine_sane with
    ncpu_pos := by decide
    ncpu_le := by decide }

/-- The first environment runs although it is runnable, and so is the second. -/
structure Hogged (s : Kernel) : Prop where
  started : (s.cpus 0).status = .started
  cur : s.curenv 0 = some firstSlot
  slot : envx (s.envs firstSlot).id = firstSlot
  first : Runnable s firstSlot
  second : Runnable s secondSlot
  equal : EqualPr s

section Hog

variable {s s' : Kernel} {history : History}

theorem EqualPr.congr (hequal : EqualPr s)
    (hstatus : ∀ e, (s'.envs e).status = (s.envs e).status)
    (hpr : ∀ e, (s'.envs e).pr = (s.envs e).pr) : EqualPr s' := by
  intro e k he hk
  unfold Runnable at he hk
  rw [hstatus] at he hk
  rw [hpr, hpr]
  exact hequal e k he hk

theorem Hogged.congr (hhogged : Hogged s) (hcpus : s'.cpus = s.cpus)
    (hid : ∀ e, (s'.envs e).id = (s.envs e).id)
    (hstatus : ∀ e, (s'.envs e).status = (s.envs e).status)
    (hpr : ∀ e, (s'.envs e).pr = (s.envs e).pr) : Hogged s' where
  started := by rw [hcpus, hhogged.started]
  cur := by
    rw [Kernel.curenv, hcpus]
    exact hhogged.cur
  slot := by rw [hid, hhogged.slot]
  first := (hstatus firstSlot).trans hhogged.first
  second := (hstatus secondSlot).trans hhogged.second
  equal := hhogged.equal.congr hstatus hpr

theorem Hogged.setEnv (hhogged : Hogged s) {e : Slot} {env : Env}
    (hid : env.id = (s.envs e).id) (hstatus : env.status = (s.envs e).status)
    (hpr : env.pr = (s.envs e).pr) : Hogged (s.setEnv e env) :=
  hhogged.congr rfl (field_setEnv Env.id hid) (field_setEnv Env.status hstatus)
    (field_setEnv Env.pr hpr)

/-- The search does not get past a runnable environment at its start. -/
theorem schedPick_start {c : ℕ} {e : Slot} (hequal : EqualPr s)
    (hstart : slotAfter (searchStart s c) 0 = e) (hrunnable : Runnable s e) :
    schedPick s c = some e := by
  obtain ⟨best, hbest⟩ := Option.isSome_iff_exists.mp (schedPick_isSome (c := c) hrunnable)
  obtain ⟨i, -, hslot, hbefore⟩ := schedPick_first hequal hbest
  have hzero : i = 0 := by
    by_contra hpos
    exact hbefore 0 (Nat.pos_of_ne_zero hpos) (hstart ▸ hrunnable)
  rw [hbest, ← hslot, hzero, hstart]

theorem Hogged.decide (hhogged : Hogged s) : ∃ s', schedYield s 0 = some s' ∧ Hogged s' := by
  have hsearch : slotAfter (searchStart s 0) 0 = firstSlot := by
    rw [searchStart, hhogged.cur]
    dsimp only
    rw [hhogged.slot, slotAfter_zero]
  have hletsGo : LetsGo s 0 := fun cur hcur => by
    rw [← Option.some.inj (hhogged.cur.symm.trans hcur), hhogged.first]
    decide
  exact ⟨_, schedYield_again hletsGo (schedPick_start hhogged.equal hsearch hhogged.first)
    hhogged.cur, hhogged.setEnv (by rfl) (by rfl) (by rfl)⟩

/-- An operation that is no decision of CPU `c` passes nobody over. -/
theorem noteServed_kept {c : ℕ} {operation : Operation} {e : Slot}
    (hserved : servedBy c operation s' = none) (he : Runnable s e) (he' : Runnable s' e) :
    (noteServed c s operation s' history).waited e = history.waited e := by
  rw [noteServed, hserved]
  exact if_pos ⟨he, he'⟩

/-- A decision for another environment does. -/
theorem noteServed_passed {c : ℕ} {served e : Slot} (hcur : s'.curenv c = some served)
    (he : Runnable s e) (he' : Runnable s' e) (hne : e ≠ served) :
    (noteServed c s (.decide c) s' history).waited e = history.waited e + 1 := by
  have hserved : servedBy c (.decide c) s' = some served := by
    rw [servedBy, if_pos rfl, hcur]
  rw [noteServed, hserved]
  exact if_pos ⟨he, he', hne⟩

theorem SchedulingRun.perform {start : Kernel → Option Slot → Prop} {c : ℕ} {booted : Kernel}
    {operation : Operation} (hrun : SchedulingRun start c booted s history)
    (hstep : operate s operation = some s')
    (hallowed : Allowed (fun _ _ _ _ => True) s operation)
    (hdecides : DecidesUnder start c s history operation) :
    SchedulingRun start c booted s' (noteServed c s operation s' history) :=
  hrun.noted ⟨hallowed, hdecides⟩ hstep

/-- The history of a run in which the second environment was passed over `n`
times. -/
def Starved (booted s : Kernel) (n : ℕ) : Prop :=
  Runs step (fun _ _ => True) booted s ∧
    ∃ history, SchedulingRun (fun _ _ => True) 0 booted s history ∧
      history.waited secondSlot = n

/-- The timer interrupts the first environment, and it is picked again. -/
theorem Hogged.tick {booted : Kernel} {n : ℕ} (hhogged : Hogged s) (hstarved : Starved booted s n) :
    ∃ s', Hogged s' ∧ Starved booted s' (n + 1) := by
  obtain ⟨hrun, history, hhistory, hwaited⟩ := hstarved
  have halive : (s.envs firstSlot).status ≠ .dying := by
    rw [hhogged.first]
    decide
  have hsaved : Hogged (s.setTf firstSlot timerFrame) := hhogged.setEnv (by rfl) (by rfl) (by rfl)
  obtain ⟨s', hdecide, hagain⟩ := hsaved.decide
  have hstep := (step_timer hhogged.started hhogged.cur halive).trans hdecide
  have hfirst : operate s (.setTf firstSlot timerFrame) = some (s.setTf firstSlot timerFrame) := rfl
  have hsecond : operate (s.setTf firstSlot timerFrame) (.decide 0) = some s' := hdecide
  refine ⟨s', hagain, hrun.tail trivial hstep, _,
    (hhistory.perform hfirst trivial trivial).perform hsecond trivial
      fun _ => ⟨hsaved.equal, trivial⟩, ?_⟩
  rw [noteServed_passed hagain.cur hsaved.second hagain.second (by decide),
    noteServed_kept rfl hhogged.second hsaved.second, hwaited]

theorem Hogged.ticks {booted : Kernel} {n : ℕ} (hhogged : Hogged s)
    (hstarved : Starved booted s n) (count : ℕ) :
    ∃ s', Hogged s' ∧ Starved booted s' (n + count) := by
  induction count with
  | zero => exact ⟨s, hhogged, hstarved⟩
  | succ count ih =>
    obtain ⟨next, hnext, hrest⟩ := ih
    exact hnext.tick hrest

/-- `sys_env_set_status` of the caller itself. -/
def makeSelfRunnable : Call := ⟨.envSetStatus, 0, EnvStatus.runnable.code, 0, 0, 0⟩

/-- The first decision on a machine with two idle environments. -/
structure FirstDecision (booted running : Kernel) : Prop where
  idle : booted.curenv 0 = none
  waiting : (booted.cpus 0).status = .started
  equal : EqualPr booted
  second : Runnable booted secondSlot
  yield : schedYield booted 0 = some running
  cur : running.curenv 0 = some firstSlot
  started : (running.cpus 0).status = .started
  slot : envx (running.envs firstSlot).id = firstSlot
  pr : ∀ e, (running.envs e).pr = 0
  status : ∀ e, (running.envs e).status =
    if e = firstSlot then .running else (booted.envs e).status

theorem Idle.decides {m : Machine} {spare : ℕ} {booted : Kernel} (hidle : Idle m 2 spare booted)
    (hncpu : 0 < m.ncpu) : ∃ running, FirstDecision booted running := by
  obtain ⟨dir, hfirst⟩ := hidle.env firstSlot (by decide)
  obtain ⟨dir', hsecond⟩ := hidle.env secondSlot (by decide)
  have hcpu := hidle.cpus 0
  rw [if_pos hncpu] at hcpu
  have hnone : booted.curenv 0 = none := by rw [Kernel.curenv, hcpu]
  have hpr : ∀ e, (booted.envs e).pr = 0 := fun e => by
    rcases Nat.lt_or_ge e 2 with hlt | hge
    · obtain ⟨edir, henv⟩ := hidle.env e hlt
      rw [henv]
      rfl
    · rw [hidle.unused e hge]
      rfl
  have hequal : EqualPr booted := fun e k _ _ => (hpr e).trans (hpr k).symm
  have hne : booted.curenv 0 ≠ some firstSlot := by simp [hnone]
  have hrunnable : Runnable booted firstSlot := by
    rw [Runnable, hfirst]
    rfl
  have hsearch : slotAfter (searchStart booted 0) 0 = firstSlot := by
    rw [searchStart, hnone]
    rfl
  have hpgdir : (booted.envs firstSlot).pgdir = some dir := by
    rw [hfirst]
    rfl
  have hfields : ∀ e, ((switched booted 0 firstSlot dir).envs e).id = (booted.envs e).id ∧
      ((switched booted 0 firstSlot dir).envs e).pr = (booted.envs e).pr ∧
      ((switched booted 0 firstSlot dir).envs e).status =
        if e = firstSlot then .running else (booted.envs e).status := fun e => by
    obtain ⟨runs, cpunum, henv⟩ := switched_envs booted hne dir e
    rw [henv, hnone]
    simp
  exact ⟨switched booted 0 firstSlot dir,
    { idle := hnone
      waiting := by rw [hcpu]
      equal := hequal
      second := by
        rw [Runnable, hsecond]
        rfl
      yield := schedYield_switch (fun cur hcur => by simp [hnone] at hcur)
        (schedPick_start hequal hsearch hrunnable) hne hpgdir
      cur := by rw [curenv_switched, if_pos rfl]
      started := by rw [switched_cpus, update_self, hcpu]
      slot := by
        rw [(hfields firstSlot).1, hfirst]
        exact envx_nextEnvId _ firstSlot
      pr := fun e => by rw [(hfields e).2.1, hpr]
      status := fun e => (hfields e).2.2 }⟩

/-- After it, the first environment makes itself runnable while it runs. -/
theorem FirstDecision.hogged {booted running : Kernel} (hfirst : FirstDecision booted running) :
    ∃ s, Hogged s ∧ Starved booted s 2 := by
  have hequal' : EqualPr running := fun e k _ _ => by
    rw [hfirst.pr, hfirst.pr]
  have hother : Runnable running secondSlot := by
    rw [Runnable, hfirst.status, if_neg (by decide)]
    exact hfirst.second
  have halive : (running.envs firstSlot).status ≠ .dying := by
    rw [hfirst.status, if_pos rfl]
    decide
  -- it makes itself runnable
  obtain ⟨saved, hsaved⟩ : ∃ saved, saved = running.setTf firstSlot (callFrame makeSelfRunnable) :=
    ⟨_, rfl⟩
  have hsavedEqual : EqualPr saved := hsaved ▸ hequal'.congr
    (fun e => field_setEnv Env.status (by rfl) e) fun e => field_setEnv Env.pr (by rfl) e
  have hcall : plainCall saved firstSlot 0 makeSelfRunnable =
      some (0, saved.setStatus firstSlot .runnable) := rfl
  have hhogged : Hogged (saved.setStatus firstSlot .runnable) := by
    have hstatus : ∀ e, ((saved.setStatus firstSlot .runnable).envs e).status =
        if e = firstSlot then .runnable else (running.envs e).status := fun e => by
      by_cases he : e = firstSlot
      · rw [he, if_pos rfl]
        simp [Kernel.setStatus]
      · rw [if_neg he]
        simp [Kernel.setStatus, Kernel.setTf, hsaved, update_of_ne he]
    have hid : ((saved.setStatus firstSlot .runnable).envs firstSlot).id =
        (running.envs firstSlot).id := by
      simp [Kernel.setStatus, Kernel.setTf, hsaved]
    refine
      { started := by rw [hsaved]; exact hfirst.started
        cur := by rw [hsaved]; exact hfirst.cur
        slot := by rw [hid, hfirst.slot]
        first := (hstatus firstSlot).trans (if_pos rfl)
        second := (hstatus secondSlot).trans ((if_neg (by decide)).trans hother)
        equal := fun e k _ _ => ?_ }
    have hprs : ∀ e, ((saved.setStatus firstSlot .runnable).envs e).pr = 0 := fun e => by
      rw [Kernel.setStatus, field_setEnv Env.pr (by rfl), hsaved, Kernel.setTf,
        field_setEnv Env.pr (by rfl), hfirst.pr]
    rw [hprs, hprs]
  obtain ⟨asked, hasked⟩ : ∃ asked, asked = saved.setStatus firstSlot .runnable := ⟨_, rfl⟩
  rw [← hasked] at hcall hhogged
  -- and is picked again
  have hresumed : Hogged (asked.setTf firstSlot ((asked.envs firstSlot).tf.setEax 0)) :=
    hhogged.setEnv (by rfl) (by rfl) (by rfl)
  obtain ⟨s, hdecide, hagain⟩ := hresumed.decide
  have hboot : step booted (.enter 0 .boot) = some running := by
    rw [step, enter, if_pos ⟨hfirst.waiting, hfirst.idle⟩, hfirst.yield]
  have hreturn : step running (.enter 0 (callEntry makeSelfRunnable)) = some s := by
    rw [step_call hfirst.started hfirst.cur halive (hsaved ▸ hcall), trapReturn, hresumed.cur]
    dsimp only
    rw [if_neg (by rw [hresumed.first]; decide), hdecide]
  have hsecondSaved : Runnable saved secondSlot := by
    rw [hsaved, Runnable, Kernel.setTf, field_setEnv Env.status (by rfl)]
    exact hother
  have hfirstDecision : operate booted (.decide 0) = some running := hfirst.yield
  have hsave : operate running (.setTf firstSlot (callFrame makeSelfRunnable)) = some saved :=
    congrArg some hsaved.symm
  have hask : operate saved (.call 0 firstSlot 0 makeSelfRunnable) = some asked := by
    rw [operate, if_pos (hsaved ▸ hfirst.cur), hcall]
    rfl
  have hanswer : operate asked (.setTf firstSlot ((asked.envs firstSlot).tf.setEax 0)) =
      some (asked.setTf firstSlot ((asked.envs firstSlot).tf.setEax 0)) := rfl
  have hsecondDecision : operate (asked.setTf firstSlot ((asked.envs firstSlot).tf.setEax 0))
      (.decide 0) = some s := hdecide
  have hstart : SchedulingRun (fun _ _ => True) 0 booted booted History.empty := Runs.refl
  have hoperations := ((((hstart.perform hfirstDecision trivial
    fun _ => ⟨hfirst.equal, trivial⟩).perform hsave trivial trivial).perform hask trivial
      trivial).perform hanswer trivial trivial).perform hsecondDecision trivial
        fun _ => ⟨hresumed.equal, trivial⟩
  refine ⟨s, hagain, (Runs.refl.tail trivial hboot).tail trivial hreturn, _, hoperations, ?_⟩
  rw [noteServed_passed hagain.cur hresumed.second hagain.second (by decide),
    noteServed_kept rfl hhogged.second hresumed.second,
    noteServed_kept rfl hsecondSaved hhogged.second, noteServed_kept rfl hother hsecondSaved,
    noteServed_passed hfirst.cur hfirst.second hother (by decide)]
  rfl

end Hog

theorem uniprocessor_boots : ∃ booted, Boots uniprocessor [idleProgram, idleProgram] booted ∧
    ∃ running, FirstDecision booted running := by
  have hfree : uniprocessor.initialFree.length = 15813 := smallMachine_free
  obtain ⟨booted, hboots, hidle⟩ : ∃ booted, Boots uniprocessor (List.replicate 2 idleProgram)
      booted ∧ Idle uniprocessor 2 0 booted :=
    uniprocessor_sane.boots_idle (by decide) (by omega)
  exact ⟨booted, hboots, hidle.decides (by decide)⟩

theorem idle_is_served : ∃ booted s history,
    SchedulingRun (StartsBehind 0) 0 booted s history ∧ history.last = some firstSlot ∧
      history.waited secondSlot < nenv := by
  obtain ⟨booted, hboots, running, hfirst⟩ := uniprocessor_boots
  have hstart : SchedulingRun (StartsBehind 0) 0 booted booted History.empty := Runs.refl
  have hbehind : StartsBehind 0 booted History.empty.last := by
    rw [StartsBehind, hfirst.idle]
    exact fun served hserved => by cases hserved
  have hdecide : operate booted (.decide 0) = some running := hfirst.yield
  have hrun := hstart.perform hdecide trivial fun _ => ⟨hfirst.equal, hbehind⟩
  have hserved : servedBy 0 (.decide 0) running = some firstSlot := by
    rw [servedBy, if_pos rfl, hfirst.cur]
  exact ⟨booted, running, _, hrun, by rw [noteServed, hserved],
    runnable_is_served uniprocessor_sane hboots 0 hrun secondSlot⟩

/-- On one CPU with two environments of equal priority, the second can stay
runnable forever without being run: the first makes itself runnable, and the
search starts at the current environment. -/
theorem runnable_can_starve : ∃ booted s history,
    Boots uniprocessor [idleProgram, idleProgram] booted ∧ Runs step (fun _ _ => True) booted s ∧
      SchedulingRun (fun _ _ => True) 0 booted s history ∧
      ¬ history.waited secondSlot < nenv := by
  obtain ⟨booted, hboots, running, hfirst⟩ := uniprocessor_boots
  obtain ⟨s, hhogged, hstarved⟩ := hfirst.hogged
  obtain ⟨s', -, hrun, history, hhistory, hwaited⟩ := hhogged.ticks hstarved nenv
  exact ⟨booted, s', history, hboots, hrun, hhistory, by omega⟩

end OsLabs.Jos
