import OsLabs.Core.Transition
import OsLabs.Jos.Env

/-!
# The big kernel lock

Each CPU by itself, at the points of the kernel's control flow that matter for
`kernel_lock`: `i386_init`, `mp_main`, `trap` and the functions it ends in, and
`spin_lock` and `spin_unlock` access by access.  Where the control flow depends
on the data of the kernel, any branch may be taken.
-/

namespace OsLabs.Jos.KernelLock

open Function
open OsLabs.Transition

/-! ## Control flow -/

/-- A point in the code that a CPU executes. -/
inductive Point
  /-- `i386_init`, before `lock_kernel` -/
  | bootInit
  /-- `boot_aps`, before the next CPU is started -/
  | bootAps
  /-- `boot_aps`, waiting for `cpu` to say that it is up -/
  | bootWait (cpu : ℕ)
  /-- a CPU that nobody has started -/
  | unstarted
  /-- `mp_main`, before it sets `cpu_status` -/
  | mpMain
  /-- `mp_main`, before `lock_kernel` -/
  | mpStarted
  | user
  /-- the `hlt` of `sched_halt` -/
  | idle
  /-- `trap`, before it sets `cpu_status` -/
  | trap (fromUser : Bool)
  /-- `trap`, before the test of `tf_cs` -/
  | trapMode (fromUser : Bool)
  /-- `trap`, before the test for a zombie -/
  | trapZombie
  | trapDispatch
  | pageFaultHandler
  | monitor
  | syscall
  | envDestroy
  /-- `trap`, after `trap_dispatch` -/
  | trapEnd
  | schedYield
  | envRun
  | schedHalt
  /-- `spin_lock`, before the test of `holding`; it returns to `next` -/
  | spinLock (next : Point)
  /-- the loop of `spin_lock` -/
  | spinning (next : Point)
  /-- `spin_lock`, before it records its CPU -/
  | recording (next : Point)
  /-- `spin_unlock`, before the test of `holding` -/
  | spinUnlock (next : Point)
  /-- `spin_unlock`, before the last exchange -/
  | releasing (next : Point)
  /-- the panics of `spin_lock` and `spin_unlock` -/
  | panicked
  deriving DecidableEq

/-- Where the code goes on without touching the lock or `cpu_status`. -/
def Point.successors : Point → List Point
  | bootInit => [spinLock bootAps]
  | bootAps => [schedYield]
  | mpStarted => [spinLock schedYield]
  | user => [trap true]
  | idle => [trap false]
  | trapMode true => [spinLock trapZombie]
  | trapMode false => [trapDispatch]
  | trapZombie => [schedYield, trapDispatch]
  | trapDispatch => [pageFaultHandler, monitor, syscall, envDestroy, schedYield, trapEnd]
  | pageFaultHandler => [envDestroy, envRun]
  | monitor => [monitor]
  | syscall => [envDestroy, schedYield, trapEnd]
  | envDestroy => [schedYield, trapEnd]
  | trapEnd => [envRun, schedYield]
  | schedYield => [envRun, schedHalt]
  | envRun => [spinUnlock user]
  | schedHalt => [monitor]
  | _ => []

/-- `struct spinlock`, the state of the CPUs, and for each CPU whether it is
between a `lock_kernel` that returned and the return of `unlock_kernel`. -/
structure State where
  locked : Bool
  cpu : Option ℕ
  status : ℕ → CpuStatus
  point : ℕ → Point
  entered : ℕ → Bool

/-- CPU `boot` enters `i386_init`. -/
def start (boot : ℕ) : State where
  locked := false
  cpu := none
  status := update (fun _ => .unused) boot .started
  point := update (fun _ => .unstarted) boot .bootInit
  entered := fun _ => false

def State.goto (s : State) (c : ℕ) (p : Point) : State := { s with point := update s.point c p }

def State.setStatus (s : State) (c : ℕ) (status : CpuStatus) : State :=
  { s with status := update s.status c status }

/-- `holding` of `kern/spinlock.c`, on CPU `c`. -/
def State.holding (s : State) (c : ℕ) : Bool := s.locked && s.cpu == some c

/-- One access of CPU `cpu`; `target` is the branch it takes where it has a
choice. -/
structure Event where
  cpu : ℕ
  target : Point

def step (s : State) (event : Event) : Option State :=
  let c := event.cpu
  match s.point c with
  | .spinLock next =>
      if s.holding c then some (s.goto c .panicked) else some (s.goto c (.spinning next))
  | .spinning next =>
      -- `xchg(&lk->locked, 1)`
      if s.locked then some s else some ({ s with locked := true }.goto c (.recording next))
  | .recording next =>
      some ({ s with cpu := some c, entered := update s.entered c true }.goto c next)
  | .spinUnlock next =>
      if s.holding c then some ({ s with cpu := none }.goto c (.releasing next))
      else some (s.goto c .panicked)
  | .releasing next =>
      some ({ s with locked := false, entered := update s.entered c false }.goto c next)
  | .bootWait ap => if s.status ap = .started then some (s.goto c .bootAps) else none
  | .mpMain => some ((s.setStatus c .started).goto c .mpStarted)
  | .trap fromUser =>
      -- `xchg(&thiscpu->cpu_status, CPU_STARTED)`
      some ((s.setStatus c .started).goto c
        (if s.status c = .halted then .spinLock (.trapMode fromUser) else .trapMode fromUser))
  | p =>
      match p, event.target with
      | .bootAps, .bootWait ap =>
          -- `lapic_startap`
          if s.point ap = .unstarted then some ((s.goto ap .mpMain).goto c (.bootWait ap))
          else none
      | .schedHalt, .spinUnlock .idle =>
          some ((s.setStatus c .halted).goto c (.spinUnlock .idle))
      | _, target => if target ∈ p.successors then some (s.goto c target) else none

/-! ## What is claimed -/

/-- Kernel code that must hold the lock. -/
def Point.needsLock : Point → Bool
  | trapZombie | trapDispatch | pageFaultHandler | monitor | syscall | envDestroy | trapEnd
  | schedYield | envRun | schedHalt => true
  | _ => false

/-- The lock discipline. -/
structure Disciplined (s : State) : Prop where
  exclusive : ∀ c c', s.entered c = true → s.entered c' = true → c = c'
  held : ∀ c, (s.point c).needsLock = true → s.entered c = true ∧ s.holding c = true
  lock_free : ∀ c next, s.point c = .spinLock next → s.holding c = false
  unlock_held : ∀ c next, s.point c = .spinUnlock next → s.holding c = true
  no_panic : ∀ c, s.point c ≠ .panicked

/-! ## The invariant -/

/-- The CPU at this point has exchanged `locked` for 1 and not yet for 0. -/
def Point.owns : Point → Bool
  | bootAps | bootWait _ | trapMode false | trapZombie | trapDispatch | pageFaultHandler
  | monitor | syscall | envDestroy | trapEnd | schedYield | envRun | schedHalt
  | recording _ | spinUnlock _ | releasing _ => true
  | _ => false

/-- The CPU at this point is the one in `lk->cpu`. -/
def Point.recorded : Point → Bool
  | recording _ | releasing _ => false
  | p => p.owns

/-- The CPU at this point is between `lock_kernel` and `unlock_kernel`. -/
def Point.inside : Point → Bool
  | recording _ => false
  | p => p.owns

/-- The CPU at this point has set its status to halted. -/
def Point.halts : Point → Bool
  | idle | trap false | spinUnlock idle | releasing idle => true
  | _ => false

/-- The lock operations that occur. -/
def Point.Shaped : Point → Prop
  | spinLock next | spinning next | recording next =>
      next ∈ [bootAps, schedYield, trapMode false, trapZombie]
  | spinUnlock next | releasing next => next ∈ [user, idle]
  | panicked => False
  | _ => True

/-- Two points at which the CPU stands in the same relation to the lock. -/
def Point.Alike (p q : Point) : Prop :=
  p.owns = q.owns ∧ p.recorded = q.recorded ∧ p.inside = q.inside ∧ p.halts = q.halts

/-- CPU `c` and the lock agree on whether `c` owns it. -/
structure OwnedAt (s : State) (owner : Option ℕ) (c : ℕ) : Prop where
  owner_iff : owner = some c ↔ (s.point c).owns = true
  cpu_iff : s.cpu = some c ↔ (s.point c).recorded = true
  entered_eq : s.entered c = (s.point c).inside
  halted_iff : s.status c = .halted ↔ (s.point c).halts = true
  shaped : (s.point c).Shaped

structure Owned (s : State) (owner : Option ℕ) : Prop where
  locked_eq : s.locked = owner.isSome
  cpus : ∀ c, OwnedAt s owner c

section Classes

variable {p target : Point}

theorem Point.owns_of_recorded (hrecorded : p.recorded = true) : p.owns = true := by
  cases p <;> first | exact hrecorded | cases hrecorded

theorem Point.owns_of_inside (hinside : p.inside = true) : p.owns = true := by
  cases p <;> first | exact hinside | cases hinside

/-- Code that must hold the lock runs with the lock recorded. -/
theorem Point.recorded_of_needsLock (hneeds : p.needsLock = true) :
    p.recorded = true ∧ p.inside = true := by
  cases p <;> first | exact ⟨rfl, rfl⟩ | cases hneeds

/-- Ordinary control flow changes nothing about the lock. -/
theorem Point.successors_alike (htarget : target ∈ p.successors) :
    target.Alike p ∧ target.Shaped := by
  cases p <;>
    simp only [Point.successors, List.mem_cons, List.not_mem_nil, or_false] at htarget
  case trapMode fromUser =>
    cases fromUser <;> simp only [List.mem_cons, List.not_mem_nil, or_false] at htarget <;>
      subst htarget <;> simp [Point.Alike, Point.Shaped, Point.owns, Point.recorded,
        Point.inside, Point.halts]
  all_goals
    rcases htarget with rfl | rfl | rfl | rfl | rfl | rfl <;>
      simp [Point.Alike, Point.Shaped, Point.owns, Point.recorded, Point.inside, Point.halts]

end Classes

section Steps

variable {s s' : State} {owner owner' : Option ℕ} {c : ℕ}

theorem point_goto (s : State) (c : ℕ) (p : Point) : (s.goto c p).point c = p := by
  simp [State.goto]

theorem point_goto_of_ne (s : State) {c k : ℕ} (p : Point) (hk : k ≠ c) :
    (s.goto c p).point k = s.point k := by
  simp [State.goto, hk]

/-- An access of CPU `c` concerns the other CPUs through the owner and the
recorded CPU only. -/
theorem Owned.change (howned : Owned s owner) (hlocked : s'.locked = owner'.isSome)
    (hself : OwnedAt s' owner' c)
    (hother : ∀ k, k ≠ c → s'.point k = s.point k ∧ s'.entered k = s.entered k ∧
      s'.status k = s.status k)
    (howner : ∀ k, k ≠ c → (owner' = some k ↔ owner = some k))
    (hcpu : ∀ k, k ≠ c → (s'.cpu = some k ↔ s.cpu = some k)) : Owned s' owner' := by
  refine ⟨hlocked, fun k => ?_⟩
  by_cases hk : k = c
  · rw [hk]
    exact hself
  · obtain ⟨hpoint, hentered, hstatus⟩ := hother k hk
    have hbefore := howned.cpus k
    constructor
    · rw [howner k hk, hpoint]
      exact hbefore.owner_iff
    · rw [hcpu k hk, hpoint]
      exact hbefore.cpu_iff
    · rw [hentered, hpoint]
      exact hbefore.entered_eq
    · rw [hstatus, hpoint]
      exact hbefore.halted_iff
    · rw [hpoint]
      exact hbefore.shaped

/-- What holds at a point holds at a similar one. -/
theorem OwnedAt.goto (hat : OwnedAt s owner c) {p : Point} (halike : p.Alike (s.point c))
    (hshaped : p.Shaped) : OwnedAt (s.goto c p) owner c := by
  obtain ⟨howns, hrecorded, hinside, hhalts⟩ := halike
  constructor <;> rw [point_goto]
  · rw [howns]
    exact hat.owner_iff
  · rw [hrecorded]
    exact hat.cpu_iff
  · rw [hinside]
    exact hat.entered_eq
  · rw [hhalts]
    exact hat.halted_iff
  · exact hshaped

/-- Going on at a similar point. -/
theorem Owned.goto (howned : Owned s owner) {p : Point} (halike : p.Alike (s.point c))
    (hshaped : p.Shaped) : Owned (s.goto c p) owner := by
  refine howned.change (c := c) ?_ ?_ ?_ ?_ ?_
  · exact howned.locked_eq
  · exact (howned.cpus c).goto halike hshaped
  · intro k hk
    exact ⟨point_goto_of_ne s p hk, rfl, rfl⟩
  · intro k _
    rfl
  · intro k _
    rfl

/-- A CPU that sets its status and goes on. -/
theorem Owned.setStatus (howned : Owned s owner) {p : Point} {status : CpuStatus}
    (howns : p.owns = (s.point c).owns) (hrecorded : p.recorded = (s.point c).recorded)
    (hinside : p.inside = (s.point c).inside) (hhalts : status = .halted ↔ p.halts = true)
    (hshaped : p.Shaped) : Owned ((s.setStatus c status).goto c p) owner := by
  have hat := howned.cpus c
  refine howned.change (c := c) ?_ ?_ ?_ ?_ ?_
  · exact howned.locked_eq
  · constructor <;> rw [point_goto]
    · rw [howns]
      exact hat.owner_iff
    · rw [hrecorded]
      exact hat.cpu_iff
    · rw [hinside]
      exact hat.entered_eq
    · simpa [State.goto, State.setStatus] using hhalts
    · exact hshaped
  · intro k hk
    exact ⟨point_goto_of_ne _ p hk, rfl, by simp [State.goto, State.setStatus, hk]⟩
  · intro k _
    rfl
  · intro k _
    rfl

/-- The exchange of `spin_lock` takes the lock. -/
theorem Owned.take (howned : Owned s owner) (hlocked : s.locked = false) {next : Point}
    (hpoint : s.point c = .spinning next) :
    Owned ({ s with locked := true }.goto c (.recording next)) (some c) := by
  have hat := howned.cpus c
  have hnone : owner = none := by
    have hisSome := howned.locked_eq
    rw [hlocked] at hisSome
    exact Option.isSome_eq_false_iff.mp hisSome.symm |> Option.isNone_iff_eq_none.mp
  refine howned.change (c := c) ?_ ?_ ?_ ?_ ?_
  · rfl
  · constructor <;> rw [point_goto]
    · exact ⟨fun _ => rfl, fun _ => rfl⟩
    · have hcpu := hat.cpu_iff
      rw [hpoint] at hcpu
      exact hcpu
    · have hentered := hat.entered_eq
      rw [hpoint] at hentered
      exact hentered
    · have hhalted := hat.halted_iff
      rw [hpoint] at hhalted
      exact hhalted
    · have hshaped := hat.shaped
      rw [hpoint] at hshaped
      exact hshaped
  · intro k hk
    exact ⟨point_goto_of_ne _ _ hk, rfl, rfl⟩
  · intro k hk
    rw [hnone]
    simpa using Ne.symm hk
  · intro k _
    rfl

/-- The points to which `lock_kernel` returns. -/
theorem Point.locked_next {next : Point}
    (hnext : next ∈ [bootAps, schedYield, trapMode false, trapZombie]) :
    next.recorded = true ∧ next.halts = false ∧ next.Shaped := by
  simp only [List.mem_cons, List.not_mem_nil, or_false] at hnext
  rcases hnext with rfl | rfl | rfl | rfl <;> exact ⟨rfl, rfl, trivial⟩

/-- The points to which `unlock_kernel` returns. -/
theorem Point.unlocked_next {next : Point} (hnext : next ∈ [user, idle]) :
    next.owns = false ∧ next.recorded = false ∧ next.inside = false ∧ next.Shaped ∧
      next.halts = (releasing next).halts ∧ (spinUnlock next).halts = (releasing next).halts := by
  simp only [List.mem_cons, List.not_mem_nil, or_false] at hnext
  rcases hnext with rfl | rfl <;> exact ⟨rfl, rfl, rfl, trivial, rfl, rfl⟩

theorem Point.inside_of_recorded {p : Point} (hrecorded : p.recorded = true) :
    p.inside = true := by
  cases p <;> first | exact hrecorded | cases hrecorded

/-- `spin_lock` records its CPU and returns. -/
theorem Owned.record (howned : Owned s owner) {next : Point}
    (hpoint : s.point c = .recording next) :
    Owned ({ s with cpu := some c, entered := update s.entered c true }.goto c next) owner := by
  have hat := howned.cpus c
  have hshaped := hat.shaped
  rw [hpoint] at hshaped
  obtain ⟨hrecorded, hhalts, hnext⟩ := Point.locked_next hshaped
  have howner : owner = some c := by
    rw [hat.owner_iff, hpoint]
    rfl
  refine howned.change (c := c) ?_ ?_ ?_ ?_ ?_
  · exact howned.locked_eq
  · constructor <;> rw [point_goto]
    · exact ⟨fun _ => Point.owns_of_recorded hrecorded, fun _ => howner⟩
    · exact ⟨fun _ => hrecorded, fun _ => rfl⟩
    · rw [Point.inside_of_recorded hrecorded]
      exact update_self c true s.entered
    · have hhalted := hat.halted_iff
      rw [hpoint] at hhalted
      rw [hhalts]
      exact hhalted
    · exact hnext
  · intro k hk
    exact ⟨point_goto_of_ne _ _ hk, by simp [State.goto, hk], rfl⟩
  · intro k _
    rfl
  · intro k hk
    -- nobody else was recorded, because nobody else owns the lock
    have hnot : s.cpu ≠ some k := by
      intro hcpu
      have howns := Point.owns_of_recorded ((howned.cpus k).cpu_iff.mp hcpu)
      rw [← (howned.cpus k).owner_iff, howner] at howns
      exact hk (Option.some.inj howns).symm
    simpa [State.goto, hnot] using Ne.symm hk

/-- `spin_unlock` forgets the CPU. -/
theorem Owned.forget (howned : Owned s owner) {next : Point}
    (hpoint : s.point c = .spinUnlock next) :
    Owned ({ s with cpu := none }.goto c (.releasing next)) owner := by
  have hat := howned.cpus c
  have hshaped := hat.shaped
  rw [hpoint] at hshaped
  have hnext := Point.unlocked_next hshaped
  have hcpu : s.cpu = some c := by
    rw [hat.cpu_iff, hpoint]
    rfl
  refine howned.change (c := c) ?_ ?_ ?_ ?_ ?_
  · exact howned.locked_eq
  · constructor <;> rw [point_goto]
    · have howner := hat.owner_iff
      rw [hpoint] at howner
      exact howner
    · simp [State.goto, Point.recorded]
    · have hentered := hat.entered_eq
      rw [hpoint] at hentered
      exact hentered
    · have hhalted := hat.halted_iff
      rw [hpoint, hnext.2.2.2.2.2] at hhalted
      exact hhalted
    · exact hshaped
  · intro k hk
    exact ⟨point_goto_of_ne _ _ hk, rfl, rfl⟩
  · intro k _
    rfl
  · intro k hk
    rw [hcpu]
    simpa [State.goto] using Ne.symm hk

/-- The exchange of `spin_unlock` releases the lock. -/
theorem Owned.release (howned : Owned s owner) {next : Point}
    (hpoint : s.point c = .releasing next) :
    Owned ({ s with locked := false, entered := update s.entered c false }.goto c next)
      none := by
  have hat := howned.cpus c
  have hshaped := hat.shaped
  rw [hpoint] at hshaped
  have hnext := Point.unlocked_next hshaped
  have howner : owner = some c := by
    rw [hat.owner_iff, hpoint]
    rfl
  refine howned.change (c := c) ?_ ?_ ?_ ?_ ?_
  · rfl
  · constructor <;> rw [point_goto]
    · simp [hnext.1]
    · have hcpu := hat.cpu_iff
      rw [hpoint] at hcpu
      rw [hnext.2.1]
      exact hcpu
    · rw [hnext.2.2.1]
      exact update_self c false s.entered
    · have hhalted := hat.halted_iff
      rw [hpoint] at hhalted
      rw [hnext.2.2.2.2.1]
      exact hhalted
    · exact hnext.2.2.2.1
  · intro k hk
    exact ⟨point_goto_of_ne _ _ hk, by simp [State.goto, hk], rfl⟩
  · intro k hk
    rw [howner]
    simpa using Ne.symm hk
  · intro k _
    rfl

/-! ## The discipline follows -/

/-- A CPU holds the lock when the lock has recorded it. -/
theorem Owned.holding_iff (howned : Owned s owner) :
    s.holding c = true ↔ (s.point c).recorded = true := by
  have hat := howned.cpus c
  rw [State.holding, Bool.and_eq_true, beq_iff_eq, hat.cpu_iff]
  constructor
  · rintro ⟨-, hrecorded⟩
    exact hrecorded
  · intro hrecorded
    refine ⟨?_, hrecorded⟩
    rw [howned.locked_eq, hat.owner_iff.mpr (Point.owns_of_recorded hrecorded)]
    rfl

theorem Owned.disciplined (howned : Owned s owner) : Disciplined s where
  exclusive := by
    intro c c' hc hc'
    rw [(howned.cpus _).entered_eq] at hc hc'
    have hfirst := (howned.cpus c).owner_iff.mpr (Point.owns_of_inside hc)
    rw [(howned.cpus c').owner_iff.mpr (Point.owns_of_inside hc')] at hfirst
    exact (Option.some.inj hfirst).symm
  held := by
    intro c hneeds
    obtain ⟨hrecorded, hinside⟩ := Point.recorded_of_needsLock hneeds
    exact ⟨(howned.cpus c).entered_eq.trans hinside, howned.holding_iff.mpr hrecorded⟩
  lock_free := by
    intro c next hpoint
    rw [← Bool.not_eq_true, howned.holding_iff, hpoint]
    simp [Point.recorded, Point.owns]
  unlock_held := by
    intro c next hpoint
    rw [howned.holding_iff, hpoint]
    rfl
  no_panic := by
    intro c hpoint
    have hshaped := (howned.cpus c).shaped
    rw [hpoint] at hshaped
    exact hshaped

theorem owned_start (boot : ℕ) : Owned (start boot) none := by
  refine ⟨rfl, fun c => ?_⟩
  by_cases hc : c = boot
  · subst hc
    constructor <;> simp [start, Point.owns, Point.recorded, Point.inside, Point.halts,
      Point.Shaped]
  · constructor <;> simp [start, hc, Point.owns, Point.recorded, Point.inside, Point.halts,
      Point.Shaped]

/-- Every access keeps the invariant. -/
theorem Owned.step (howned : Owned s owner) {event : Event}
    (hstep : step s event = some s') : ∃ owner', Owned s' owner' := by
  obtain ⟨c, target⟩ := event
  have hat := howned.cpus c
  have hdisciplined := howned.disciplined
  unfold KernelLock.step at hstep
  dsimp only at hstep
  split at hstep
  case h_1 next hpoint =>
    rw [hdisciplined.lock_free c next hpoint] at hstep
    cases hstep
    have hshaped := hat.shaped
    rw [hpoint] at hshaped
    refine ⟨owner, howned.goto ?_ hshaped⟩
    rw [hpoint]
    exact ⟨rfl, rfl, rfl, rfl⟩
  case h_2 next hpoint =>
    split at hstep
    case isTrue =>
      cases hstep
      exact ⟨owner, howned⟩
    case isFalse hlocked =>
      cases hstep
      exact ⟨some c, howned.take (Bool.not_eq_true _ ▸ hlocked) hpoint⟩
  case h_3 next hpoint =>
    cases hstep
    exact ⟨owner, howned.record hpoint⟩
  case h_4 next hpoint =>
    rw [if_pos (hdisciplined.unlock_held c next hpoint)] at hstep
    cases hstep
    exact ⟨owner, howned.forget hpoint⟩
  case h_5 next hpoint =>
    cases hstep
    exact ⟨none, howned.release hpoint⟩
  case h_6 ap hpoint =>
    split at hstep
    case isTrue =>
      cases hstep
      refine ⟨owner, howned.goto ?_ trivial⟩
      rw [hpoint]
      exact ⟨rfl, rfl, rfl, rfl⟩
    case isFalse => cases hstep
  case h_7 hpoint =>
    cases hstep
    refine ⟨owner, howned.setStatus ?_ ?_ ?_ ?_ trivial⟩
    all_goals first | (rw [hpoint]; rfl) | simp [Point.halts]
  case h_8 fromUser hpoint =>
    cases hstep
    -- only a CPU that was halted comes from kernel mode
    have hhalted := hat.halted_iff
    rw [hpoint] at hhalted
    cases fromUser with
    | true =>
      rw [if_neg (by rw [hhalted]; decide)]
      refine ⟨owner, howned.setStatus ?_ ?_ ?_ ?_ trivial⟩
      all_goals first | (rw [hpoint]; rfl) | simp [Point.halts]
    | false =>
      rw [if_pos (hhalted.mpr rfl)]
      refine ⟨owner, howned.setStatus ?_ ?_ ?_ ?_ ?_⟩
      all_goals first | (rw [hpoint]; rfl) | simp [Point.halts, Point.Shaped]
  case h_9 =>
    split at hstep
    case h_1 ap hpoint =>
      split at hstep
      case isTrue hap =>
        cases hstep
        have hne : c ≠ ap := by
          rintro rfl
          rw [hpoint] at hap
          cases hap
        have hstarted : Owned (s.goto ap .mpMain) owner := by
          refine howned.goto (p := .mpMain) ?_ trivial
          rw [hap]
          exact ⟨rfl, rfl, rfl, rfl⟩
        refine ⟨owner, hstarted.goto (p := .bootWait ap) ?_ trivial⟩
        rw [point_goto_of_ne s _ hne, hpoint]
        exact ⟨rfl, rfl, rfl, rfl⟩
      case isFalse => cases hstep
    case h_2 hpoint =>
      cases hstep
      refine ⟨owner, howned.setStatus ?_ ?_ ?_ ?_ ?_⟩
      all_goals first | (rw [hpoint]; rfl) | simp [Point.halts, Point.Shaped]
    case h_3 =>
      split at hstep
      case isTrue htarget =>
        cases hstep
        obtain ⟨halike, hshaped⟩ := Point.successors_alike htarget
        exact ⟨owner, howned.goto halike hshaped⟩
      case isFalse => cases hstep

/-- In every state that the CPUs can reach, the kernel lock is used properly. -/
theorem lock_disciplined (boot : ℕ) (s : State)
    (hrun : Runs step (fun _ _ => True) (start boot) s) : Disciplined s := by
  have hinv : ∃ owner, Owned s owner := by
    refine hrun.invariant (I := fun s => ∃ owner, Owned s owner) ⟨none, owned_start boot⟩ ?_
    rintro before event after ⟨owner, howned⟩ - hstep
    exact howned.step hstep
  obtain ⟨owner, howned⟩ := hinv
  exact howned.disciplined

end Steps

/-- CPU 0 boots, starts CPU 1 and goes to user mode; CPU 1 finds nothing to
run, halts, and is woken by its timer. -/
def startAndWake : List Event :=
  let boot := [.spinLock .bootAps, .spinning .bootAps, .recording .bootAps, .bootAps, .bootWait 1]
  let run := [.bootAps, .schedYield, .envRun, .spinUnlock .user, .releasing .user, .user]
  let halt := [.spinLock .schedYield, .spinning .schedYield, .recording .schedYield, .schedYield,
    .schedHalt, .spinUnlock .idle, .releasing .idle, .idle]
  let wake := [.trap false, .spinLock (.trapMode false), .spinning (.trapMode false),
    .recording (.trapMode false), .trapMode false, .trapDispatch]
  boot.map (Event.mk 0) ++ [⟨1, .mpStarted⟩] ++ run.map (Event.mk 0) ++
    (halt ++ wake).map (Event.mk 1)

theorem startAndWake_disciplined :
    ∃ s, execute step (start 0) startAndWake = some s ∧ s.point 0 = .user ∧
      s.point 1 = .trapDispatch ∧ Disciplined s := by
  have hpoints : ((execute step (start 0) startAndWake).map fun s => (s.point 0, s.point 1)) =
      some (.user, .trapDispatch) := by
    decide
  obtain ⟨s, hexecute, hfinal⟩ := Option.map_eq_some_iff.mp hpoints
  obtain ⟨hfirst, hsecond⟩ := Prod.mk.inj hfinal
  exact ⟨s, hexecute, hfirst, hsecond,
    lock_disciplined 0 s (Runs.of_execute (fun _ _ _ => trivial) hexecute)⟩

end OsLabs.Jos.KernelLock
