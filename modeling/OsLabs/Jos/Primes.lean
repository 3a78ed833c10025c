import OsLabs.Core.Eratosthenes
import OsLabs.Core.Rendezvous
import OsLabs.Core.Transition

/-!
# The concurrent prime sieve

`user/primes.c`: a generator and a chain of environments, each of which prints
the first number that it receives and passes on those that it does not divide.
They use `ipc_send` and `ipc_recv` only, so that each of them owns a mailbox.
-/

namespace OsLabs.Jos

open Function
open OsLabs.Eratosthenes
open OsLabs.Rendezvous

/-- Where an environment is in `primeproc`. -/
inductive PrimeProc
  /-- in the first `ipc_recv` -/
  | top
  /-- `p` has been printed -/
  | forking (p : ℕ)
  /-- in the `ipc_recv` of the loop -/
  | filtering (p id : ℕ)
  /-- in `ipc_send(id, i, 0, 0)` -/
  | sending (p id i : ℕ)
  | panicked

/-- The generator, which is about to send `i`, and the environments of the chain in the order of
their creation. -/
structure Primes where
  i : ℕ
  born : ℕ
  procs : ℕ → PrimeProc
  boxes : ℕ → Mailbox ℕ
  printed : List ℕ

inductive PrimesEvent
  /-- the `ipc_send` of `umain` succeeds -/
  | generate
  /-- `sys_ipc_recv` -/
  | recv (k : ℕ)
  /-- `ipc_recv` returns -/
  | back (k : ℕ)
  | fork (k : ℕ)
  | forkFails (k : ℕ)
  /-- the `ipc_send` of a filter succeeds -/
  | pass (k : ℕ)
  /-- it finds no receiver -/
  | sendFails (k : ℕ)

namespace Primes

/-- After the `fork` of `umain`. -/
def start : Primes := ⟨2, 1, fun _ => .top, fun _ => Mailbox.empty, []⟩

def setProc (s : Primes) (k : ℕ) (proc : PrimeProc) : Primes :=
  { s with procs := update s.procs k proc }

def setBox (s : Primes) (k : ℕ) (box : Mailbox ℕ) : Primes :=
  { s with boxes := update s.boxes k box }

@[simp]
theorem procs_setProc (s : Primes) (k : ℕ) (proc : PrimeProc) :
    (s.setProc k proc).procs = update s.procs k proc := rfl

@[simp]
theorem boxes_setProc (s : Primes) (k : ℕ) (proc : PrimeProc) :
    (s.setProc k proc).boxes = s.boxes := rfl

@[simp]
theorem procs_setBox (s : Primes) (k : ℕ) (box : Mailbox ℕ) :
    (s.setBox k box).procs = s.procs := rfl

@[simp]
theorem boxes_setBox (s : Primes) (k : ℕ) (box : Mailbox ℕ) :
    (s.setBox k box).boxes = update s.boxes k box := rfl

/-- `ipc_send` of `value` to environment `id`, unless it has to go on trying. -/
def ipcSend (s : Primes) (id value : ℕ) : Option Primes :=
  match s.procs id, (s.boxes id).slip with
  | .panicked, _ => none
  | _, .asked => some (s.setBox id ((s.boxes id).post value))
  | _, _ => none

/-- `ipc_recv` returns `m` to environment `k`. -/
def received (s : Primes) (k m : ℕ) : Option Primes :=
  match s.procs k with
  | .top => some { s.setProc k (.forking m) with printed := s.printed ++ [m] }
  | .filtering p id =>
      some (if m % p ≠ 0 then s.setProc k (.sending p id m) else s)
  | _ => none

def waits (s : Primes) (k : ℕ) : Bool :=
  match s.procs k with
  | .top => true
  | .filtering _ _ => true
  | _ => false

/-- The counter of `umain` is an `int`. -/
def step (s : Primes) : PrimesEvent → Option Primes
  | .generate =>
      if s.i + 1 < 2 ^ 31 then (s.ipcSend 0 s.i).map fun s' => { s' with i := s.i + 1 } else none
  | .recv k =>
      match (s.boxes k).slip with
      | .shut => if k < s.born ∧ s.waits k then some (s.setBox k (s.boxes k).ask) else none
      | _ => none
  | .back k =>
      match (s.boxes k).slip with
      | .full m => if k < s.born then (s.setBox k ((s.boxes k).take m)).received k m else none
      | _ => none
  | .fork k =>
      match s.procs k with
      | .forking p =>
          if k < s.born then
            some { (s.setProc k (.filtering p s.born)).setProc s.born .top with born := s.born + 1 }
          else none
      | _ => none
  | .forkFails k =>
      match s.procs k with
      | .forking _ => if k < s.born then some (s.setProc k .panicked) else none
      | _ => none
  | .pass k =>
      match s.procs k with
      | .sending p id i =>
          if k < s.born then (s.ipcSend id i).map fun s' => s'.setProc k (.filtering p id) else none
      | _ => none
  | .sendFails k =>
      match s.procs k with
      | .sending _ id _ =>
          match s.procs id with
          | .panicked => if k < s.born then some (s.setProc k .panicked) else none
          | _ => none
      | _ => none

end Primes

/-! ## The invariant -/

/-- What environment `k` has taken and passed on. -/
def ProcOk (born k : ℕ) (proc : PrimeProc) (taken passed : List ℕ) : Prop :=
  match proc with
  | .top => taken = [] ∧ k + 1 = born
  | .forking p => taken = [p] ∧ k + 1 = born
  | .filtering p id => id = k + 1 ∧ k + 1 < born ∧ (∃ rest, taken = p :: rest) ∧
      passed = sifted taken
  | .sending p id i => id = k + 1 ∧ k + 1 < born ∧ (∃ rest, taken = p :: rest) ∧
      passed ++ [i] = sifted taken
  | .panicked => taken ≠ [] ∧ passed <+: sifted taken

structure SieveOk (s : Primes) : Prop where
  first : 2 ≤ s.i
  alive : 0 < s.born
  orderly : ∀ k, (s.boxes k).Orderly
  generated : (s.boxes 0).posted = List.range' 2 (s.i - 2)
  unborn : ∀ k, s.born ≤ k → (s.boxes k).posted = []
  proc : ∀ k < s.born, ProcOk s.born k (s.procs k) (s.boxes k).taken (s.boxes (k + 1)).posted
  printed : ∀ k, s.printed[k]? = (s.boxes k).taken.head?

namespace SieveOk

variable {s s' : Primes} {k : ℕ}

/-- An environment that does not exist yet has taken nothing. -/
theorem unborn_taken (h : SieveOk s) (hk : s.born ≤ k) : (s.boxes k).taken = [] := by
  have hposted := (h.orderly k).conserves
  rw [h.unborn k hk] at hposted
  exact (List.append_eq_nil_iff.mp hposted.symm).1

/-- Every environment passes on what it does not divide. -/
theorem passes (h : SieveOk s) (k : ℕ) :
    (s.boxes (k + 1)).posted <+: sifted (s.boxes k).taken := by
  by_cases hk : k < s.born
  · have hproc := h.proc k hk
    cases hcase : s.procs k with
    | top =>
      rw [hcase] at hproc
      rw [h.unborn (k + 1) hproc.2.ge]
      exact List.nil_prefix
    | forking p =>
      rw [hcase] at hproc
      rw [h.unborn (k + 1) hproc.2.ge]
      exact List.nil_prefix
    | filtering p id =>
      rw [hcase] at hproc
      rw [hproc.2.2.2]
    | sending p id i =>
      rw [hcase] at hproc
      rw [← hproc.2.2.2]
      exact List.prefix_append _ _
    | panicked =>
      rw [hcase] at hproc
      exact hproc.2
  · rw [h.unborn (k + 1) (by omega)]
    exact List.nil_prefix

/-- The numbers that reach environment `k`. -/
theorem flows (h : SieveOk s) (k : ℕ) :
    (s.boxes k).posted <+: sifted^[k] (List.range' 2 (s.i - 2)) := by
  induction k with
  | zero =>
    rw [h.generated]
    exact List.prefix_rfl
  | succ k ih =>
    rw [iterate_succ_apply']
    calc (s.boxes (k + 1)).posted <+: sifted (s.boxes k).taken := h.passes k
      _ <+: sifted (s.boxes k).posted := sifted_mono (h.orderly k).taken_initial
      _ <+: sifted (sifted^[k] (List.range' 2 (s.i - 2))) := sifted_mono ih

/-- The first number that an environment takes is its prime. -/
theorem head_prime (h : SieveOk s) {p : ℕ} {rest : List ℕ}
    (htaken : (s.boxes k).taken = p :: rest) : p = Nat.nth Nat.Prime k := by
  have hgiven := (h.orderly k).taken_initial.trans (h.flows k)
  rw [htaken] at hgiven
  exact kept_prime hgiven

/-- What has been printed. -/
theorem printed_eq (h : SieveOk s) :
    s.printed = (List.range s.printed.length).map (Nat.nth Nat.Prime) := by
  apply List.ext_getElem?
  intro k
  by_cases hk : k < s.printed.length
  · rw [List.getElem?_map, List.getElem?_range hk, Option.map_some]
    have hsome : s.printed[k]? ≠ none := by
      rw [ne_eq, List.getElem?_eq_none_iff]
      exact Nat.not_le.mpr hk
    rw [h.printed k] at hsome ⊢
    cases htaken : (s.boxes k).taken with
    | nil => exact absurd (by rw [htaken]; rfl) hsome
    | cons p rest => rw [List.head?_cons, h.head_prime htaken]
  · rw [List.getElem?_eq_none (Nat.le_of_not_lt hk), List.getElem?_eq_none]
    rw [List.length_map, List.length_range]
    exact Nat.le_of_not_lt hk

theorem start : SieveOk Primes.start where
  first := le_rfl
  alive := Nat.one_pos
  orderly := fun _ => Mailbox.Orderly.empty
  generated := rfl
  unborn := fun _ _ => rfl
  proc := fun k hk => by
    have hzero : k = 0 := Nat.lt_one_iff.mp hk
    rw [hzero]
    exact ⟨rfl, rfl⟩
  printed := fun _ => rfl

/-! ### Steps -/

/-- A step of environment `k`, which may post a number for the next one. -/
theorem changed (h : SieveOk s) (hi : s'.i = s.i) (hborn : s'.born = s.born)
    (horderly : ∀ j, (s'.boxes j).Orderly) (hprocs : ∀ j, j ≠ k → s'.procs j = s.procs j)
    (htaken : ∀ j, j ≠ k → (s'.boxes j).taken = (s.boxes j).taken)
    (hposted : ∀ j, (j = k + 1 → s.born ≤ k + 1) → (s'.boxes j).posted = (s.boxes j).posted)
    (hproc : ProcOk s.born k (s'.procs k) (s'.boxes k).taken (s'.boxes (k + 1)).posted)
    (hprinted : ∀ j, s'.printed[j]? = (s'.boxes j).taken.head?) : SieveOk s' where
  first := by rw [hi]; exact h.first
  alive := by rw [hborn]; exact h.alive
  orderly := horderly
  generated := by
    rw [hi, hposted 0 fun hbad => absurd hbad (Nat.succ_ne_zero k).symm]
    exact h.generated
  unborn := fun j hj => by
    rw [hborn] at hj
    rw [hposted j fun hjk => hjk ▸ hj]
    exact h.unborn j hj
  proc := fun j hj => by
    rw [hborn] at hj ⊢
    by_cases hjk : j = k
    · rw [hjk]
      exact hproc
    · rw [hprocs j hjk, htaken j hjk,
        hposted (j + 1) fun hbad => absurd (Nat.succ.inj hbad) hjk]
      exact h.proc j hj
  printed := hprinted

/-- A step of environment `k` that leaves the mailboxes alone. -/
theorem setProc (h : SieveOk s) {proc : PrimeProc}
    (hproc : ProcOk s.born k proc (s.boxes k).taken (s.boxes (k + 1)).posted) :
    SieveOk (s.setProc k proc) :=
  h.changed (k := k) rfl rfl h.orderly (fun _ hj => update_of_ne hj _ _) (fun _ _ => rfl)
    (fun _ _ => rfl) (by rw [Primes.procs_setProc, update_self]; exact hproc) h.printed

/-- `sys_ipc_recv`. -/
theorem recv (h : SieveOk s) (hk : k < s.born) (hshut : (s.boxes k).slip = .shut) :
    SieveOk (s.setBox k (s.boxes k).ask) := by
  have hbox (j : ℕ) : ((s.setBox k (s.boxes k).ask).boxes j).Orderly ∧
      ((s.setBox k (s.boxes k).ask).boxes j).taken = (s.boxes j).taken ∧
      ((s.setBox k (s.boxes k).ask).boxes j).posted = (s.boxes j).posted := by
    rw [Primes.boxes_setBox]
    by_cases hj : j = k
    · subst hj
      rw [update_self]
      exact ⟨(h.orderly j).ask hshut, rfl, rfl⟩
    · rw [update_of_ne hj]
      exact ⟨h.orderly j, rfl, rfl⟩
  refine h.changed (k := k) rfl rfl (fun j => (hbox j).1) (fun _ _ => rfl) (fun j _ => (hbox j).2.1)
    (fun j _ => (hbox j).2.2) ?_ fun j => ?_
  · rw [(hbox k).2.1, (hbox (k + 1)).2.2]
    exact h.proc k hk
  · rw [(hbox j).2.1]
    exact h.printed j

/-- The first `ipc_recv`. -/
theorem printed_concat (h : SieveOk s) (hk : k < s.born) (hempty : (s.boxes k).taken = [])
    (hlast : k + 1 = s.born) (m j : ℕ) :
    (s.printed ++ [m])[j]? = (if j = k then [m] else (s.boxes j).taken).head? := by
  have hlength : s.printed.length = k := by
    apply le_antisymm
    · rw [← List.getElem?_eq_none_iff, h.printed, hempty]
      rfl
    · by_contra hlt
      rw [Nat.not_le] at hlt
      have hnone := List.getElem?_eq_none_iff.mpr (le_refl s.printed.length)
      rw [h.printed, List.head?_eq_none_iff] at hnone
      -- an environment before the last one has taken its prime
      have hproc := h.proc s.printed.length (hlt.trans hk)
      cases hcase : s.procs s.printed.length with
      | top =>
        rw [hcase] at hproc
        exact absurd (hproc.2.trans hlast.symm) (by omega)
      | forking p =>
        rw [hcase] at hproc
        exact absurd (hproc.2.trans hlast.symm) (by omega)
      | filtering p id =>
        rw [hcase] at hproc
        obtain ⟨rest, hrest⟩ := hproc.2.2.1
        rw [hrest] at hnone
        cases hnone
      | sending p id i =>
        rw [hcase] at hproc
        obtain ⟨rest, hrest⟩ := hproc.2.2.1
        rw [hrest] at hnone
        cases hnone
      | panicked =>
        rw [hcase] at hproc
        exact hproc.1 hnone
  rcases Nat.lt_trichotomy j k with hlt | rfl | hgt
  · rw [List.getElem?_append_left (by omega), if_neg hlt.ne, h.printed]
  · rw [List.getElem?_append_right (by omega), if_pos rfl, hlength, Nat.sub_self]
    rfl
  · rw [List.getElem?_eq_none (by rw [List.length_append, List.length_singleton]; omega),
      if_neg hgt.ne', h.unborn_taken (by omega)]
    rfl

/-- `ipc_recv` returns. -/
theorem back (h : SieveOk s) (hk : k < s.born) {m : ℕ} (hfull : (s.boxes k).slip = .full m)
    (hrun : (s.setBox k ((s.boxes k).take m)).received k m = some s') : SieveOk s' := by
  have hself : (update s.boxes k ((s.boxes k).take m) k).taken = (s.boxes k).taken ++ [m] := by
    rw [update_self]
    rfl
  have hother (j : ℕ) (hj : j ≠ k) : update s.boxes k ((s.boxes k).take m) j = s.boxes j :=
    update_of_ne hj _ _
  have horderly (j : ℕ) : (update s.boxes k ((s.boxes k).take m) j).Orderly := by
    by_cases hj : j = k
    · rw [hj, update_self]
      exact (h.orderly k).take hfull
    · rw [hother j hj]
      exact h.orderly j
  have hposted (j : ℕ) : (update s.boxes k ((s.boxes k).take m) j).posted = (s.boxes j).posted := by
    by_cases hj : j = k
    · rw [hj, update_self]
      rfl
    · rw [hother j hj]
  have hproc := h.proc k hk
  rw [Primes.received, Primes.setBox] at hrun
  dsimp only at hrun
  cases hcase : s.procs k with
  | top =>
    rw [hcase] at hproc hrun
    cases hrun
    obtain ⟨hempty, hlast⟩ := hproc
    refine h.changed (k := k) rfl rfl horderly (fun j hj => update_of_ne hj _ _)
      (fun j hj => by dsimp only [Primes.setProc]; rw [hother j hj]) (fun j _ => hposted j) ?_
      fun j => ?_
    · dsimp only [Primes.setProc]
      rw [update_self, hself, hempty]
      exact ⟨rfl, hlast⟩
    · dsimp only [Primes.setProc]
      rw [h.printed_concat hk hempty hlast]
      by_cases hj : j = k
      · rw [if_pos hj, hj, hself, hempty]
        rfl
      · rw [if_neg hj, hother j hj]
  | filtering p id =>
    rw [hcase] at hproc hrun
    obtain ⟨hid, hnext, ⟨rest, htaken⟩, hpassed⟩ := hproc
    have hsifted := sifted_concat p rest m
    rw [← htaken, ← hpassed] at hsifted
    have hprinted (j : ℕ) : s.printed[j]? =
        (update s.boxes k ((s.boxes k).take m) j).taken.head? := by
      rw [h.printed]
      by_cases hj : j = k
      · rw [hj, hself, htaken]
        rfl
      · rw [hother j hj]
    have hkept (proc : PrimeProc) (hok : ProcOk s.born k proc ((s.boxes k).taken ++ [m])
        (s.boxes (k + 1)).posted) :
        SieveOk { s with
          procs := update s.procs k proc
          boxes := update s.boxes k ((s.boxes k).take m) } := by
      refine h.changed (k := k) rfl rfl horderly (fun j hj => update_of_ne hj _ _)
        (fun j hj => by dsimp only; rw [hother j hj]) (fun j _ => hposted j) ?_ hprinted
      dsimp only
      rw [update_self, hself, hposted]
      exact hok
    dsimp only at hrun
    by_cases hm : m % p ≠ 0
    · rw [if_pos hm] at hrun hsifted
      cases hrun
      refine hkept _ ⟨hid, hnext, ⟨rest ++ [m], ?_⟩, hsifted.symm⟩
      rw [htaken, List.cons_append]
    · rw [if_neg hm] at hrun hsifted
      cases hrun
      have hsame : update s.procs k (.filtering p id) = s.procs := by
        rw [← hcase, update_eq_self]
      have hdone := hkept (.filtering p id) ⟨hid, hnext, ⟨rest ++ [m], by
        rw [htaken, List.cons_append]⟩, by rw [hsifted, List.append_nil]⟩
      rw [hsame] at hdone
      exact hdone
  | forking p =>
    rw [hcase] at hrun
    cases hrun
  | sending p id i =>
    rw [hcase] at hrun
    cases hrun
  | panicked =>
    rw [hcase] at hrun
    cases hrun

/-- An environment after the last one. -/
theorem fork (h : SieveOk s) (hk : k < s.born) {p : ℕ} (hcase : s.procs k = .forking p) :
    SieveOk { (s.setProc k (.filtering p s.born)).setProc s.born .top with
      born := s.born + 1 } := by
  have hproc := h.proc k hk
  rw [hcase] at hproc
  obtain ⟨htaken, hlast⟩ := hproc
  exact
    { first := h.first
      alive := Nat.succ_pos _
      orderly := h.orderly
      generated := h.generated
      unborn := fun j hj => h.unborn j (Nat.le_of_succ_le hj)
      proc := fun j hj => by
        have hlt : j < s.born + 1 := hj
        dsimp only [Primes.setProc]
        by_cases hborn : j = s.born
        · rw [hborn, update_self]
          exact ⟨h.unborn_taken le_rfl, rfl⟩
        · rw [update_of_ne hborn]
          by_cases hjk : j = k
          · rw [hjk, update_self, htaken, h.unborn (k + 1) hlast.ge]
            exact ⟨hlast.symm, by omega, ⟨[], rfl⟩, rfl⟩
          · rw [update_of_ne hjk]
            have hold := h.proc j (by omega)
            cases hother : s.procs j with
            | top =>
              rw [hother] at hold
              exact absurd (Nat.succ.inj (hold.2.trans hlast.symm)) hjk
            | forking q =>
              rw [hother] at hold
              exact absurd (Nat.succ.inj (hold.2.trans hlast.symm)) hjk
            | filtering q id =>
              rw [hother] at hold
              exact ⟨hold.1, Nat.lt_succ_of_lt hold.2.1, hold.2.2⟩
            | sending q id i =>
              rw [hother] at hold
              exact ⟨hold.1, Nat.lt_succ_of_lt hold.2.1, hold.2.2⟩
            | panicked =>
              rw [hother] at hold
              exact hold
      printed := h.printed }

/-- What a successful `ipc_send` does. -/
theorem ipcSend_some {id value : ℕ} (hsend : s.ipcSend id value = some s') :
    (s.boxes id).slip = .asked ∧ s' = s.setBox id ((s.boxes id).post value) := by
  rw [Primes.ipcSend] at hsend
  split at hsend
  · cases hsend
  case h_2 hasked _ =>
    cases hsend
    exact ⟨hasked, rfl⟩
  · cases hsend

/-- A mailbox for which something has been posted. -/
theorem posted (h : SieveOk s) {id : ℕ} (hasked : (s.boxes id).slip = .asked) (value j : ℕ) :
    (update s.boxes id ((s.boxes id).post value) j).Orderly ∧
      (update s.boxes id ((s.boxes id).post value) j).taken = (s.boxes j).taken ∧
      (update s.boxes id ((s.boxes id).post value) j).posted =
        (s.boxes j).posted ++ if j = id then [value] else [] := by
  by_cases hj : j = id
  · subst hj
    rw [update_self, if_pos rfl]
    exact ⟨(h.orderly j).post value hasked, rfl, rfl⟩
  · rw [update_of_ne hj, if_neg hj, List.append_nil]
    exact ⟨h.orderly j, rfl, rfl⟩

/-- A filter passes a number on. -/
theorem pass (h : SieveOk s) (hk : k < s.born) {p id i : ℕ} (hcase : s.procs k = .sending p id i)
    (hasked : (s.boxes id).slip = .asked) :
    SieveOk ((s.setBox id ((s.boxes id).post i)).setProc k (.filtering p id)) := by
  have hproc := h.proc k hk
  rw [hcase] at hproc
  obtain ⟨rfl, hnext, htaken, hpassed⟩ := hproc
  have hbox := h.posted hasked i
  refine h.changed (k := k) rfl rfl (fun j => (hbox j).1) (fun j hj => update_of_ne hj _ _)
    (fun j _ => (hbox j).2.1) (fun j hj => ?_) ?_ fun j => ?_
  · have hne : j ≠ k + 1 := fun hsame => absurd (hj hsame) (Nat.not_le.mpr hnext)
    dsimp only [Primes.setProc, Primes.setBox]
    rw [(hbox j).2.2, if_neg hne, List.append_nil]
  · dsimp only [Primes.setProc, Primes.setBox]
    rw [update_self, (hbox k).2.1, (hbox (k + 1)).2.2, if_pos rfl]
    exact ⟨rfl, hnext, htaken, hpassed⟩
  · dsimp only [Primes.setProc, Primes.setBox]
    rw [(hbox j).2.1, h.printed]

/-- The generator sends its number. -/
theorem generate (h : SieveOk s) (hasked : (s.boxes 0).slip = .asked) :
    SieveOk { s.setBox 0 ((s.boxes 0).post s.i) with i := s.i + 1 } := by
  have hbox := h.posted hasked s.i
  have hrange : List.range' 2 (s.i + 1 - 2) = List.range' 2 (s.i - 2) ++ [s.i] := by
    have hfirst := h.first
    rw [show s.i + 1 - 2 = s.i - 2 + 1 by omega, List.range'_concat, Nat.one_mul,
      Nat.add_sub_cancel' hfirst]
  exact
    { first := Nat.le_succ_of_le h.first
      alive := h.alive
      orderly := fun j => (hbox j).1
      generated := by
        dsimp only [Primes.setBox]
        rw [(hbox 0).2.2, if_pos rfl, h.generated, hrange]
      unborn := fun j hj => by
        have hne : j ≠ 0 := (lt_of_lt_of_le h.alive hj).ne'
        dsimp only [Primes.setBox]
        rw [(hbox j).2.2, if_neg hne, List.append_nil]
        exact h.unborn j hj
      proc := fun j hj => by
        dsimp only [Primes.setBox]
        rw [(hbox j).2.1, (hbox (j + 1)).2.2, if_neg (Nat.succ_ne_zero j), List.append_nil]
        exact h.proc j hj
      printed := fun j => by
        dsimp only [Primes.setBox]
        rw [(hbox j).2.1, h.printed] }

/-- What every step does. -/
theorem step (h : SieveOk s) {event : PrimesEvent} (hstep : s.step event = some s') :
    SieveOk s' := by
  cases event with
  | generate =>
    rw [Primes.step] at hstep
    split at hstep
    case isTrue =>
      obtain ⟨next, hsend, hnext⟩ := Option.map_eq_some_iff.mp hstep
      obtain ⟨hasked, rfl⟩ := ipcSend_some hsend
      cases hnext
      exact h.generate hasked
    case isFalse => cases hstep
  | recv k =>
    rw [Primes.step] at hstep
    split at hstep
    case h_1 hshut =>
      split at hstep
      case isTrue hguard =>
        cases hstep
        exact h.recv hguard.1 hshut
      case isFalse => cases hstep
    case h_2 => cases hstep
  | back k =>
    rw [Primes.step] at hstep
    split at hstep
    case h_1 m hfull =>
      split at hstep
      case isTrue hk => exact h.back hk hfull hstep
      case isFalse => cases hstep
    case h_2 => cases hstep
  | fork k =>
    rw [Primes.step] at hstep
    split at hstep
    case h_1 p hcase =>
      split at hstep
      case isTrue hk =>
        cases hstep
        exact h.fork hk hcase
      case isFalse => cases hstep
    case h_2 => cases hstep
  | forkFails k =>
    rw [Primes.step] at hstep
    split at hstep
    case h_1 p hcase =>
      split at hstep
      case isTrue hk =>
        cases hstep
        have hproc := h.proc k hk
        rw [hcase] at hproc
        refine h.setProc ⟨?_, h.passes k⟩
        rw [hproc.1]
        exact List.cons_ne_nil _ _
      case isFalse => cases hstep
    case h_2 => cases hstep
  | pass k =>
    rw [Primes.step] at hstep
    split at hstep
    case h_1 p id i hcase =>
      split at hstep
      case isTrue hk =>
        obtain ⟨next, hsend, hnext⟩ := Option.map_eq_some_iff.mp hstep
        obtain ⟨hasked, rfl⟩ := ipcSend_some hsend
        cases hnext
        exact h.pass hk hcase hasked
      case isFalse => cases hstep
    case h_2 => cases hstep
  | sendFails k =>
    rw [Primes.step] at hstep
    split at hstep
    case h_1 p id i hcase =>
      split at hstep
      case h_1 =>
        split at hstep
        case isTrue hk =>
          cases hstep
          have hproc := h.proc k hk
          rw [hcase] at hproc
          obtain ⟨rest, htaken⟩ := hproc.2.2.1
          refine h.setProc ⟨?_, h.passes k⟩
          rw [htaken]
          exact List.cons_ne_nil _ _
        case isFalse => cases hstep
      case h_2 => cases hstep
    case h_2 => cases hstep

/-- A filter that neither sends nor has panicked can receive or fork, or it waits for a message. -/
theorem enabled (hk : k < s.born) (hpanic : s.procs k ≠ .panicked)
    (hsending : ∀ p id i, s.procs k ≠ .sending p id i) (hasked : (s.boxes k).slip ≠ .asked) :
    (s.step (.recv k)).isSome ∨ (s.step (.back k)).isSome ∨ (s.step (.fork k)).isSome := by
  have hreceives (hwaits : s.waits k = true)
      (hreturns : ∀ m, ((s.setBox k ((s.boxes k).take m)).received k m).isSome) :
      (s.step (.recv k)).isSome ∨ (s.step (.back k)).isSome ∨ (s.step (.fork k)).isSome := by
    cases hslip : (s.boxes k).slip with
    | shut =>
      refine Or.inl ?_
      rw [Primes.step, hslip]
      dsimp only
      rw [if_pos ⟨hk, hwaits⟩]
      rfl
    | asked => exact absurd hslip hasked
    | full m =>
      refine Or.inr (Or.inl ?_)
      rw [Primes.step, hslip]
      dsimp only
      rw [if_pos hk]
      exact hreturns m
  cases hcase : s.procs k with
  | top =>
    refine hreceives (by rw [Primes.waits, hcase]) fun m => ?_
    rw [Primes.received, Primes.procs_setBox, hcase]
    rfl
  | filtering p id =>
    refine hreceives (by rw [Primes.waits, hcase]) fun m => ?_
    rw [Primes.received, Primes.procs_setBox, hcase]
    rfl
  | forking p =>
    refine Or.inr (Or.inr ?_)
    rw [Primes.step, hcase]
    dsimp only
    rw [if_pos hk]
    rfl
  | sending p id i => exact absurd hcase (hsending p id i)
  | panicked => exact absurd hcase hpanic

/-- An environment that waits can be sent a number. -/
theorem ipcSend_asked {id : ℕ} (hpanic : s.procs id ≠ .panicked)
    (hasked : (s.boxes id).slip = .asked) (value : ℕ) : (s.ipcSend id value).isSome := by
  rw [Primes.ipcSend, hasked]
  split
  · contradiction
  · rfl
  · contradiction

end SieveOk

/-! ## Runs -/

section Runs

variable {s : Primes}

theorem sieveOk_of_run (hrun : Transition.Runs Primes.step (fun _ _ => True) Primes.start s) :
    SieveOk s :=
  hrun.invariant SieveOk.start fun _ _ _ h _ hstep => h.step hstep

/-- In whatever order the environments run, and also when a `fork` fails, the numbers printed are
the first prime numbers, in order. -/
theorem primes_printed (hrun : Transition.Runs Primes.step (fun _ _ => True) Primes.start s) :
    s.printed = (List.range s.printed.length).map (Nat.nth Nat.Prime) :=
  (sieveOk_of_run hrun).printed_eq

/-- Two environments have printed their primes. -/
theorem two_primes_printed : ∃ s : Primes, s.printed = [2, 3] ∧
    s.printed = (List.range s.printed.length).map (Nat.nth Nat.Prime) := by
  obtain ⟨s, hexecute, hprinted⟩ : ∃ s, Transition.execute Primes.step Primes.start
      [.recv 0, .generate, .back 0, .fork 0, .recv 0, .generate, .back 0, .recv 1, .pass 0,
        .back 1] = some s ∧ s.printed = [2, 3] := ⟨_, rfl, rfl⟩
  exact ⟨s, hprinted, primes_printed (Transition.Runs.of_execute (fun _ _ _ => trivial) hexecute)⟩

end Runs

end OsLabs.Jos
