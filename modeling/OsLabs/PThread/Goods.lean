import Mathlib.Tactic.Ring
import OsLabs.Core.Transition

/-!
# The producer and the customer

`OSLab2-PThread/main.c`: two threads change a counter under a mutex, each
sleeps on its own condition variable when the counter reaches its limit, and
each signals the other at one value of the counter.  A step is what a thread
does between two points at which the other one can be seen.
-/

namespace OsLabs.PThread

open Function
open OsLabs.Transition

/-- The initial stock and its limit, `TOTAL`. -/
def initialGoods : ℤ := 2
def total : ℤ := 10

inductive Thread
  | producer
  | customer
  deriving DecidableEq

def Thread.other : Thread → Thread
  | producer => customer
  | customer => producer

/-- The loop of a thread: the change it makes to `goods`, the value at which
it waits, and the value at which it signals the other thread. -/
structure Loop where
  change : ℤ
  limit : ℤ
  wake : ℤ

def producer : Loop := ⟨1, total, 1⟩
def customer : Loop := ⟨-1, 0, total - 1⟩

def Thread.loop : Thread → Loop
  | producer => PThread.producer
  | customer => PThread.customer

/-- Where a thread is in its loop. -/
inductive Pc
  /-- before `pthread_mutex_lock` -/
  | outside
  /-- before the change of `goods` -/
  | locked
  /-- before the test for the limit -/
  | changed
  /-- blocked in `pthread_cond_wait` -/
  | waiting
  /-- in `pthread_cond_wait`, woken, without the mutex -/
  | woken
  /-- before the test for the signal -/
  | tested
  /-- before `pthread_mutex_unlock` -/
  | leaving
  deriving DecidableEq

/-- Between these points a thread owns the mutex. -/
def Pc.critical : Pc → Bool
  | outside | waiting | woken => false
  | locked | changed | tested | leaving => true

structure State where
  goods : ℤ
  mutex : Option Thread
  pc : Thread → Pc

def start : State := ⟨initialGoods, none, fun _ => .outside⟩

def State.goto (s : State) (t : Thread) (pc : Pc) : State := { s with pc := update s.pc t pc }

/-- `pthread_cond_signal` on the condition variable of `t`, on which no other
thread waits. -/
def State.signal (s : State) (t : Thread) : State :=
  if s.pc t = .waiting then s.goto t .woken else s

inductive Event
  | run (t : Thread)
  /-- `pthread_cond_wait` returns without a signal -/
  | spurious (t : Thread)

def step (s : State) : Event → Option State
  | .spurious t => if s.pc t = .waiting then some (s.goto t .woken) else none
  | .run t =>
      match s.pc t with
      | .outside =>
          if s.mutex = none then some ({ s with mutex := some t }.goto t .locked) else none
      | .locked => some ({ s with goods := s.goods + t.loop.change }.goto t .changed)
      | .changed =>
          if s.goods = t.loop.limit then some ({ s with mutex := none }.goto t .waiting)
          else some (s.goto t .tested)
      | .waiting => none
      | .woken =>
          if s.mutex = none then some ({ s with mutex := some t }.goto t .tested) else none
      | .tested =>
          if s.goods = t.loop.wake then some ((s.signal t.other).goto t .leaving)
          else some (s.goto t .leaving)
      | .leaving => some ({ s with mutex := none }.goto t .outside)

/-- Both threads are blocked, and nothing is about to wake them. -/
def Deadlocked (s : State) : Prop := ∀ t, s.pc t = .waiting

/-- The stock is within its limits whenever it can be looked at, and the threads
are not deadlocked. -/
def Safe (s : State) : Prop :=
  (s.mutex = none → 0 ≤ s.goods ∧ s.goods ≤ total) ∧ ¬ Deadlocked s

/-- How many more of its changes a thread may make. -/
def slack (t : Thread) (goods : ℤ) : ℤ := (t.loop.limit - goods) * t.loop.change

/-! ## Two threads -/

theorem Thread.eq_or_other (t k : Thread) : k = t ∨ k = t.other := by
  cases t <;> cases k <;> simp [Thread.other]

@[simp] theorem Thread.other_ne (t : Thread) : t.other ≠ t := by
  cases t <;> simp [Thread.other]

@[simp] theorem Thread.other_other (t : Thread) : t.other.other = t := by
  cases t <;> rfl

@[simp] theorem slack_other (t : Thread) (goods : ℤ) :
    slack t.other goods = total - slack t goods := by
  cases t <;> simp [slack, Thread.other, Thread.loop, producer, customer]

@[simp] theorem slack_change (t : Thread) (goods : ℤ) :
    slack t (goods + t.loop.change) = slack t goods - 1 := by
  cases t <;> simp only [slack, Thread.loop, producer, customer] <;> ring

theorem limit_iff (t : Thread) (goods : ℤ) : goods = t.loop.limit ↔ slack t goods = 0 := by
  cases t <;> simp only [slack, Thread.loop, producer, customer] <;> omega

/-- A thread signals when the other one may make exactly one change. -/
theorem wake_iff (t : Thread) (goods : ℤ) :
    goods = t.loop.wake ↔ slack t.other goods = 1 := by
  cases t <;> simp only [slack, Thread.other, Thread.loop, producer, customer] <;> omega

@[simp] theorem goto_goods (s : State) (t : Thread) (pc : Pc) : (s.goto t pc).goods = s.goods :=
  rfl

@[simp] theorem goto_mutex (s : State) (t : Thread) (pc : Pc) : (s.goto t pc).mutex = s.mutex :=
  rfl

@[simp] theorem goto_self (s : State) (t : Thread) (pc : Pc) : (s.goto t pc).pc t = pc := by
  simp [State.goto]

@[simp] theorem goto_other (s : State) (t : Thread) (pc : Pc) :
    (s.goto t pc).pc t.other = s.pc t.other := by
  simp [State.goto]

@[simp] theorem signal_goods (s : State) (t : Thread) : (s.signal t).goods = s.goods := by
  unfold State.signal
  split <;> rfl

@[simp] theorem signal_mutex (s : State) (t : Thread) : (s.signal t).mutex = s.mutex := by
  unfold State.signal
  split <;> rfl

@[simp] theorem signal_self (s : State) (t : Thread) :
    (s.signal t.other).pc t.other =
      if s.pc t.other = .waiting then .woken else s.pc t.other := by
  unfold State.signal
  split <;> simp

@[simp] theorem signal_other (s : State) (t : Thread) :
    (s.signal t.other).pc t = s.pc t := by
  unfold State.signal
  split
  · simpa using goto_other s t.other .woken
  · rfl

/-! ## The invariants -/

/-- The mutex belongs to the thread that is in its critical section. -/
def OwnsMutex (s : State) (t : Thread) : Prop := s.mutex = some t ↔ (s.pc t).critical = true

def Exclusive (s : State) : Prop := ∀ t, OwnsMutex s t

/-- A thread waits at its limit, until the other one has made a change and is
about to signal. -/
def WatchedOver (s : State) (t : Thread) : Prop :=
  s.pc t = .waiting → slack t s.goods = 0 ∨
    slack t s.goods = 1 ∧ (s.pc t.other = .changed ∨ s.pc t.other = .tested)

def Watched (s : State) : Prop := ∀ t, WatchedOver s t

/-- The goods are within the limit of `t`, and not at it when `t` is about to
change them. -/
def Within (s : State) (t : Thread) : Prop :=
  0 ≤ slack t s.goods ∧ (s.pc t ≠ .changed → s.pc t ≠ .waiting → 1 ≤ slack t s.goods)

def Bounded (s : State) : Prop := ∀ t, Within s t

/-- What holds of a thread and of the other one holds of both. -/
theorem forall_thread {P : Thread → Prop} (t : Thread) (hself : P t) (hother : P t.other) :
    ∀ k, P k := by
  intro k
  rcases t.eq_or_other k with rfl | rfl
  · exact hself
  · exact hother

/-- No wait returns without a signal. -/
def NoSpurious (_ : State) : Event → Prop
  | .run _ => True
  | .spurious _ => False

/-! ## What a step does -/

/-- The effects of a step of thread `t`. -/
inductive Moved (s : State) (t : Thread) : State → Prop
  | lock (pc : Pc) : s.mutex = none →
      s.pc t = .outside ∧ pc = .locked ∨ s.pc t = .woken ∧ pc = .tested →
      Moved s t ({ s with mutex := some t }.goto t pc)
  | change : s.pc t = .locked →
      Moved s t ({ s with goods := s.goods + t.loop.change }.goto t .changed)
  | sleep : s.pc t = .changed → slack t s.goods = 0 →
      Moved s t ({ s with mutex := none }.goto t .waiting)
  | pass : s.pc t = .changed → slack t s.goods ≠ 0 → Moved s t (s.goto t .tested)
  | signal : s.pc t = .tested → slack t.other s.goods = 1 →
      Moved s t ((s.signal t.other).goto t .leaving)
  | quiet : s.pc t = .tested → slack t.other s.goods ≠ 1 → Moved s t (s.goto t .leaving)
  | unlock : s.pc t = .leaving → Moved s t ({ s with mutex := none }.goto t .outside)

variable {s s' : State} {t : Thread}

theorem run_cases (hstep : step s (.run t) = some s') : Moved s t s' := by
  simp only [step] at hstep
  cases hpc : s.pc t <;> simp only [hpc] at hstep
  case outside =>
    split at hstep
    case isTrue hfree =>
      cases hstep
      exact .lock .locked hfree (Or.inl ⟨hpc, rfl⟩)
    case isFalse => cases hstep
  case locked =>
    cases hstep
    exact .change hpc
  case changed =>
    split at hstep
    case isTrue hlimit =>
      cases hstep
      exact .sleep hpc ((limit_iff t s.goods).mp hlimit)
    case isFalse hlimit =>
      cases hstep
      exact .pass hpc fun hzero => hlimit ((limit_iff t s.goods).mpr hzero)
  case waiting => cases hstep
  case woken =>
    split at hstep
    case isTrue hfree =>
      cases hstep
      exact .lock .tested hfree (Or.inr ⟨hpc, rfl⟩)
    case isFalse => cases hstep
  case tested =>
    split at hstep
    case isTrue hwake =>
      cases hstep
      exact .signal hpc ((wake_iff t s.goods).mp hwake)
    case isFalse hwake =>
      cases hstep
      exact .quiet hpc fun hone => hwake ((wake_iff t s.goods).mpr hone)
  case leaving =>
    cases hstep
    exact .unlock hpc

theorem spurious_cases (hstep : step s (.spurious t) = some s') :
    s.pc t = .waiting ∧ s' = s.goto t .woken := by
  simp only [step] at hstep
  split at hstep
  case isTrue hwaiting =>
    cases hstep
    exact ⟨hwaiting, rfl⟩
  case isFalse => cases hstep

/-! ## Every step keeps the invariants -/

/-- The mutex excludes the other thread. -/
theorem Exclusive.other_outside (hexclusive : Exclusive s)
    (hcritical : (s.pc t).critical = true) : (s.pc t.other).critical = false := by
  have howner := (hexclusive t).mpr hcritical
  by_contra hother
  rw [Bool.not_eq_false] at hother
  have hsame := (hexclusive t.other).mpr hother
  rw [howner] at hsame
  exact t.other_ne (Option.some.inj hsame).symm

/-- A thread outside its critical section does not own the mutex. -/
theorem Exclusive.not_owner (hexclusive : Exclusive s) (houtside : (s.pc t).critical = false) :
    s.mutex ≠ some t := by
  intro howner
  rw [(hexclusive t).mp howner] at houtside
  cases houtside

theorem Exclusive.moved (hexclusive : Exclusive s) (hmoved : Moved s t s') : Exclusive s' := by
  have hother : s.mutex = some t.other ↔ (s.pc t.other).critical = true := hexclusive t.other
  cases hmoved with
  | lock pc hfree hpc =>
    have hpc' : pc.critical = true := by rcases hpc with ⟨-, rfl⟩ | ⟨-, rfl⟩ <;> rfl
    refine forall_thread (P := OwnsMutex _) t ?_ ?_
    · simp [OwnsMutex, hpc']
    · rw [hfree] at hother
      simpa [OwnsMutex, t.other_ne.symm] using hother
  | change hpc =>
    have howner := (hexclusive t).mpr (by rw [hpc]; rfl)
    refine forall_thread (P := OwnsMutex _) t ?_ ?_
    · simp [OwnsMutex, howner, Pc.critical]
    · simpa [OwnsMutex] using hother
  | sleep hpc hzero =>
    have houtside := hexclusive.other_outside (t := t) (by rw [hpc]; rfl)
    refine forall_thread (P := OwnsMutex _) t ?_ ?_
    · simp [OwnsMutex, Pc.critical]
    · simp [OwnsMutex, houtside]
  | pass hpc hzero =>
    have howner := (hexclusive t).mpr (by rw [hpc]; rfl)
    refine forall_thread (P := OwnsMutex _) t ?_ ?_
    · simp [OwnsMutex, howner, Pc.critical]
    · simpa [OwnsMutex] using hother
  | signal hpc hone =>
    have howner := (hexclusive t).mpr (by rw [hpc]; rfl)
    have houtside := hexclusive.other_outside (t := t) (by rw [hpc]; rfl)
    refine forall_thread (P := OwnsMutex _) t ?_ ?_
    · simp [OwnsMutex, howner, Pc.critical]
    · simp only [OwnsMutex, goto_mutex, signal_mutex, goto_other, signal_self, howner]
      split
      · simp [Pc.critical, t.other_ne.symm]
      · rw [houtside]
        simp [t.other_ne.symm]
  | quiet hpc hone =>
    have howner := (hexclusive t).mpr (by rw [hpc]; rfl)
    refine forall_thread (P := OwnsMutex _) t ?_ ?_
    · simp [OwnsMutex, howner, Pc.critical]
    · simpa [OwnsMutex] using hother
  | unlock hpc =>
    have houtside := hexclusive.other_outside (t := t) (by rw [hpc]; rfl)
    refine forall_thread (P := OwnsMutex _) t ?_ ?_
    · simp [OwnsMutex, Pc.critical]
    · simp [OwnsMutex, houtside]

theorem Exclusive.step (hexclusive : Exclusive s) {event : Event}
    (hstep : step s event = some s') : Exclusive s' := by
  cases event with
  | run t => exact hexclusive.moved (run_cases hstep)
  | spurious t =>
    obtain ⟨hwaiting, rfl⟩ := spurious_cases hstep
    refine forall_thread (P := OwnsMutex _) t ?_ ?_
    · simpa [OwnsMutex, hwaiting, Pc.critical] using hexclusive t
    · simpa [OwnsMutex] using hexclusive t.other

theorem Watched.moved (hwatched : Watched s) (hmoved : Moved s t s') : Watched s' := by
  have hother := hwatched t.other
  cases hmoved with
  | lock pc hfree hpc =>
    -- nobody is between a change and the signal while the mutex is free
    have houtside : (s.pc t).critical = false := by
      rcases hpc with ⟨hpc, -⟩ | ⟨hpc, -⟩ <;> rw [hpc] <;> rfl
    have hbusy : s.pc t ≠ .changed ∧ s.pc t ≠ .tested := by
      constructor <;> (intro h; rw [h] at houtside; cases houtside)
    refine forall_thread (P := WatchedOver _) t ?_ ?_
    · intro hwaiting
      rcases hpc with ⟨-, rfl⟩ | ⟨-, rfl⟩ <;> simp at hwaiting
    · intro hwaiting
      rw [goto_other] at hwaiting
      rcases hother hwaiting with hzero | ⟨-, hbetween⟩
      · exact Or.inl hzero
      · rw [Thread.other_other] at hbetween
        rcases hbetween with h | h
        · exact absurd h hbusy.1
        · exact absurd h hbusy.2
  | change hpc =>
    refine forall_thread (P := WatchedOver _) t ?_ ?_
    · intro hwaiting
      simp at hwaiting
    · intro hwaiting
      rw [goto_other] at hwaiting
      rcases hother hwaiting with hzero | ⟨-, hbetween⟩
      · right
        simp only [slack_other, goto_goods, slack_change] at hzero ⊢
        refine ⟨by omega, Or.inl ?_⟩
        rw [Thread.other_other, goto_self]
      · rw [Thread.other_other, hpc] at hbetween
        simp at hbetween
  | sleep hpc hzero =>
    refine forall_thread (P := WatchedOver _) t ?_ ?_
    · intro _
      exact Or.inl hzero
    · intro hwaiting
      rw [goto_other] at hwaiting
      rcases hother hwaiting with h | ⟨h, -⟩
      · exact Or.inl h
      · rw [slack_other, hzero] at h
        exact absurd h (by decide)
  | pass hpc hzero =>
    refine forall_thread (P := WatchedOver _) t ?_ ?_
    · intro hwaiting
      simp at hwaiting
    · intro hwaiting
      rw [goto_other] at hwaiting
      rcases hother hwaiting with h | ⟨h, -⟩
      · exact Or.inl h
      · exact Or.inr ⟨h, Or.inr (by rw [Thread.other_other, goto_self])⟩
  | signal hpc hone =>
    refine forall_thread (P := WatchedOver _) t ?_ ?_
    · intro hwaiting
      simp at hwaiting
    · intro hwaiting
      rw [goto_other, signal_self] at hwaiting
      split at hwaiting
      · cases hwaiting
      · contradiction
  | quiet hpc hone =>
    refine forall_thread (P := WatchedOver _) t ?_ ?_
    · intro hwaiting
      simp at hwaiting
    · intro hwaiting
      rw [goto_other] at hwaiting
      rcases hother hwaiting with h | ⟨h, -⟩
      · exact Or.inl h
      · exact absurd h hone
  | unlock hpc =>
    refine forall_thread (P := WatchedOver _) t ?_ ?_
    · intro hwaiting
      simp at hwaiting
    · intro hwaiting
      rw [goto_other] at hwaiting
      rcases hother hwaiting with h | ⟨-, hbetween⟩
      · exact Or.inl h
      · rw [Thread.other_other, hpc] at hbetween
        simp at hbetween

theorem Watched.step (hwatched : Watched s) {event : Event} (hstep : step s event = some s') : Watched s' := by
  cases event with
  | run t => exact hwatched.moved (run_cases hstep)
  | spurious t =>
    obtain ⟨hwaiting, rfl⟩ := spurious_cases hstep
    refine forall_thread (P := WatchedOver _) t ?_ ?_
    · intro h
      simp at h
    · intro h
      rw [goto_other] at h
      rcases hwatched t.other h with hzero | ⟨-, hbetween⟩
      · exact Or.inl hzero
      · rw [Thread.other_other, hwaiting] at hbetween
        simp at hbetween

theorem Bounded.moved (hbounded : Bounded s) (hmoved : Moved s t s') : Bounded s' := by
  have hself := hbounded t
  have hother := hbounded t.other
  cases hmoved with
  | lock pc hfree hpc =>
    have hbefore : s.pc t ≠ .changed ∧ s.pc t ≠ .waiting := by
      rcases hpc with ⟨hpc, -⟩ | ⟨hpc, -⟩ <;> rw [hpc] <;> decide
    refine forall_thread (P := Within _) t ?_ ?_
    · exact ⟨hself.1, fun _ _ => hself.2 hbefore.1 hbefore.2⟩
    · simpa [Within] using hother
  | change hpc =>
    have hroom := hself.2 (by rw [hpc]; decide) (by rw [hpc]; decide)
    refine forall_thread (P := Within _) t ?_ ?_
    · simp [Within]
      omega
    · simp only [Within, slack_other, goto_goods, slack_change, goto_other] at hother ⊢
      exact ⟨by omega, fun h₁ h₂ => by
        have := hother.2 h₁ h₂
        omega⟩
  | sleep hpc hzero =>
    refine forall_thread (P := Within _) t ?_ ?_
    · exact ⟨hself.1, fun _ h => by simp at h⟩
    · simpa [Within] using hother
  | pass hpc hzero =>
    have hpositive : 1 ≤ slack t s.goods := by
      have hnonneg := hself.1
      omega
    refine forall_thread (P := Within _) t ?_ ?_
    · exact ⟨hself.1, fun _ _ => hpositive⟩
    · simpa [Within] using hother
  | signal hpc hone =>
    have hroom := hself.2 (by rw [hpc]; decide) (by rw [hpc]; decide)
    refine forall_thread (P := Within _) t ?_ ?_
    · simpa [Within] using ⟨hself.1, hroom⟩
    · refine ⟨?_, fun _ _ => ?_⟩ <;> rw [goto_goods, signal_goods, hone]
      exact zero_le_one
  | quiet hpc hone =>
    have hroom := hself.2 (by rw [hpc]; decide) (by rw [hpc]; decide)
    refine forall_thread (P := Within _) t ?_ ?_
    · exact ⟨hself.1, fun _ _ => hroom⟩
    · simpa [Within] using hother
  | unlock hpc =>
    have hroom := hself.2 (by rw [hpc]; decide) (by rw [hpc]; decide)
    refine forall_thread (P := Within _) t ?_ ?_
    · exact ⟨hself.1, fun _ _ => hroom⟩
    · simpa [Within] using hother

/-! ## Runs -/

/-- At most one thread is in its critical section. -/
theorem runs_exclusive {ok : State → Event → Prop} (hrun : Runs step ok start s) :
    Exclusive s := by
  refine hrun.invariant (I := Exclusive) ?_ fun before event after hinv _ => hinv.step
  intro t
  simp [OwnsMutex, start, Pc.critical]

theorem runs_watched {ok : State → Event → Prop} (hrun : Runs step ok start s) : Watched s := by
  refine hrun.invariant (I := Watched) ?_ fun before event after hinv _ => hinv.step
  intro t hwaiting
  simp [start] at hwaiting

theorem runs_bounded (hrun : Runs step NoSpurious start s) : Bounded s := by
  refine hrun.invariant (I := Bounded) ?_ ?_
  · intro t
    cases t <;> simp [Within, start, slack, Thread.loop, producer, customer, initialGoods, total]
  · intro before event after hinv hok hstep
    cases event with
    | run t => exact hinv.moved (run_cases hstep)
    | spurious t => exact hok.elim

/-- The threads are never both blocked for good, however they are woken. -/
theorem runs_not_deadlocked {ok : State → Event → Prop} (hrun : Runs step ok start s) :
    ¬ Deadlocked s := by
  intro hdead
  have hproducer := runs_watched hrun .producer (hdead .producer)
  have hcustomer := runs_watched hrun .customer (hdead .customer)
  have hsum : slack .customer s.goods = 10 - slack .producer s.goods :=
    slack_other .producer s.goods
  omega

/-- While no wait returns without a signal, the exchange is safe. -/
theorem goods_bounded (hrun : Runs step NoSpurious start s) : Safe s := by
  refine ⟨fun _ => ?_, runs_not_deadlocked hrun⟩
  have hproducer := (runs_bounded hrun .producer).1
  have hcustomer := (runs_bounded hrun .customer).1
  simp only [slack, Thread.loop, producer, customer] at hproducer hcustomer
  omega

/-- The producer makes goods until there are ten, and waits. -/
def fill : List Event :=
  (List.replicate 7 (List.replicate 5 (.run .producer))).flatten ++
    List.replicate 3 (.run .producer)

theorem fill_safe : ∃ s, execute step start fill = some s ∧ s.goods = 10 ∧ Safe s := by
  have hresult : (execute step start fill).map State.goods = some 10 := by
    decide
  obtain ⟨s, hexecute, hgoods⟩ := Option.map_eq_some_iff.mp hresult
  refine ⟨s, hexecute, hgoods, goods_bounded (Runs.of_execute ?_ hexecute)⟩
  intro before event hevent
  simp only [fill, List.mem_append, List.mem_flatten, List.mem_replicate] at hevent
  rcases hevent with ⟨round, ⟨-, rfl⟩, hmem⟩ | ⟨-, rfl⟩
  · rw [(List.mem_replicate.mp hmem).2]
    trivial
  · trivial

/-- Then it wakes up without a signal and makes the eleventh, because its `if`
does not look again. -/
def overfull : List Event :=
  fill ++ [.spurious .producer] ++ List.replicate 8 (.run .producer)

theorem overfull_unsafe : ¬ ∀ s, Runs step (fun _ _ => True) start s → Safe s := by
  intro hclaim
  have hresult : (execute step start overfull).map (fun s => (s.goods, s.mutex)) =
      some (11, none) := by
    decide
  obtain ⟨s, hexecute, hfinal⟩ := Option.map_eq_some_iff.mp hresult
  obtain ⟨hgoods, hmutex⟩ := Prod.mk.inj hfinal
  have hbound := ((hclaim s (Runs.of_execute (fun _ _ _ => trivial) hexecute)).1 hmutex).2
  rw [hgoods] at hbound
  exact absurd hbound (by decide)

end OsLabs.PThread
