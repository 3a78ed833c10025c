import OsLabs.Core.Rings
import OsLabs.Jos.Syscall

/-!
# The console input

The interrupt routines put the characters that arrive into a ring buffer, from
which `cons_getc` takes them.  The buffer is full and looks empty when as many
characters are unread as it has bytes.
-/

namespace OsLabs.Jos

open OsLabs.Ring (next)

/-! ## `kern/console.c` -/

def consBufSize : ℕ := 512

/-- The variable `cons`. -/
structure ConsInput where
  buf : Vector (BitVec 8) consBufSize
  rpos : Word
  wpos : Word

namespace ConsInput

def start : ConsInput := ⟨Vector.replicate consBufSize 0, 0, 0⟩

/-- A position after it has been incremented. -/
def wrap (pos : Word) : Word := if pos = BitVec.ofNat 32 consBufSize then 0 else pos

/-- The body of the loop of `cons_intr`; no result where it would write outside `buf`. -/
def store (cons : ConsInput) (c : BitVec 8) : Option ConsInput :=
  if c = 0 then some cons
  else if hpos : cons.wpos.toNat < consBufSize then
    some { cons with buf := cons.buf.set cons.wpos.toNat c hpos, wpos := wrap (cons.wpos + 1) }
  else none

/-- `cons_intr`, for the characters that `proc` returns before it returns -1. -/
def intr (cons : ConsInput) (batch : List (BitVec 8)) : Option ConsInput := batch.foldlM store cons

/-- `cons_getc`, for the characters that the serial port and the keyboard have for it; no result
where it would read outside `buf`. -/
def getc (cons : ConsInput) (serial kbd : List (BitVec 8)) :
    Option (BitVec 8 × ConsInput) := do
  let cons ← cons.intr serial
  let cons ← cons.intr kbd
  if cons.rpos ≠ cons.wpos then
    let c ← cons.buf[cons.rpos.toNat]?
    return (c, { cons with rpos := wrap (cons.rpos + 1) })
  else
    return (0, cons)

end ConsInput

/-- An interrupt with the characters that have arrived, or a call of `cons_getc` with those that
it finds. -/
inductive ConsEvent
  | intr (batch : List (BitVec 8))
  | getc (serial kbd : List (BitVec 8))

/-- The results of the calls of `cons_getc` so far, and the buffer. -/
abbrev InputState := List (BitVec 8) × ConsInput

def InputState.step (state : InputState) : ConsEvent → Option InputState
  | .intr batch => (state.2.intr batch).map fun cons => (state.1, cons)
  | .getc serial kbd => (state.2.getc serial kbd).map fun (c, cons) => (state.1 ++ [c], cons)

/-- A run from the start. -/
def inputRun (events : List ConsEvent) : Option InputState :=
  events.foldlM InputState.step ([], ConsInput.start)

/-! ## Characters -/

namespace ConsEvent

/-- The characters that an event brings. -/
def received : ConsEvent → List (BitVec 8)
  | .intr batch => batch.filter (· ≠ 0)
  | .getc serial kbd => serial.filter (· ≠ 0) ++ kbd.filter (· ≠ 0)

/-- How many characters are unread after an event that finds `unread`, when none is lost. -/
def unreadAfter (unread : ℕ) (event : ConsEvent) : ℕ :=
  match event with
  | .intr _ => unread + event.received.length
  | .getc _ _ => unread + event.received.length - 1

end ConsEvent

/-- At most `bound` characters are ever unread. -/
def UnreadWithin (bound : ℕ) (events : List ConsEvent) : Prop :=
  ∀ before event after, events = before ++ event :: after →
    before.foldl ConsEvent.unreadAfter 0 + event.received.length ≤ bound

/-- The positions are those of bytes of the buffer; `cons_getc` has returned the characters that
arrived, in their order, except for some that are unread; and it has just returned 0 only if none
is. -/
def InputFaithful (events : List ConsEvent) : Prop :=
  ∃ results cons unread, inputRun events = some (results, cons) ∧
    cons.rpos.toNat < consBufSize ∧ cons.wpos.toNat < consBufSize ∧
    events.flatMap ConsEvent.received = results.filter (· ≠ 0) ++ unread ∧
    ∀ before serial kbd, events = before ++ [.getc serial kbd] →
      results.getLast? = some 0 → unread = []

section Input

variable {cons cons' : ConsInput} {queue : List (BitVec 8)} {pos : Word}

/-- The buffer holds the unread characters. -/
abbrev ConsInput.Holds (cons : ConsInput) (queue : List (BitVec 8)) : Prop :=
  Ring.Holds cons.buf cons.rpos.toNat cons.wpos.toNat queue

theorem toNat_wrap (hpos : pos.toNat < consBufSize) :
    (ConsInput.wrap (pos + 1)).toNat = next consBufSize pos.toNat := by
  have hsize : consBufSize = 512 := rfl
  have hsucc : (pos + 1).toNat = pos.toNat + 1 := by
    rw [BitVec.toNat_add, show (1 : Word).toNat = 1 from rfl]
    omega
  have hend : pos + 1 = BitVec.ofNat 32 consBufSize ↔ pos.toNat + 1 = consBufSize := by
    rw [BitVec.toNat_eq, hsucc]
    rfl
  rw [ConsInput.wrap, next, apply_ite BitVec.toNat, hsucc]
  exact if_congr hend rfl rfl

theorem store_of_ne {c : BitVec 8} (hc : c ≠ 0) (hpos : cons.wpos.toNat < consBufSize) :
    cons.store c = some { cons with
      buf := cons.buf.set cons.wpos.toNat c hpos, wpos := ConsInput.wrap (cons.wpos + 1) } := by
  rw [ConsInput.store, if_neg hc, dif_pos hpos]

/-- Whatever arrives, the positions stay within the buffer; every character moves `wpos`. -/
theorem intr_wpos (hpos : cons.wpos.toNat < consBufSize) (batch : List (BitVec 8)) :
    ∃ cons', cons.intr batch = some cons' ∧ cons'.rpos = cons.rpos ∧
      cons'.wpos.toNat < consBufSize ∧
      cons'.wpos.toNat = (next consBufSize)^[(batch.filter (· ≠ 0)).length] cons.wpos.toNat := by
  induction batch generalizing cons with
  | nil => exact ⟨cons, rfl, rfl, hpos, rfl⟩
  | cons c batch ih =>
    rw [ConsInput.intr, List.foldlM_cons]
    by_cases hc : c = 0
    · rw [ConsInput.store, if_pos hc, List.filter_cons_of_neg (by simpa using hc)]
      exact ih hpos
    · have hnext := toNat_wrap hpos
      rw [store_of_ne hc hpos, List.filter_cons_of_pos (by simpa using hc), List.length_cons,
        Function.iterate_succ_apply, ← hnext]
      exact @ih { cons with
        buf := cons.buf.set cons.wpos.toNat c hpos, wpos := ConsInput.wrap (cons.wpos + 1) }
        (hnext ▸ Ring.next_lt hpos)

/-- Characters that fit are queued. -/
theorem ConsInput.Holds.intr (hholds : cons.Holds queue) {batch : List (BitVec 8)}
    (hroom : queue.length + (batch.filter (· ≠ 0)).length < consBufSize) :
    ∃ cons', cons.intr batch = some cons' ∧ cons'.Holds (queue ++ batch.filter (· ≠ 0)) := by
  induction batch generalizing cons queue with
  | nil => exact ⟨cons, rfl, (List.append_nil queue).symm ▸ hholds⟩
  | cons c batch ih =>
    rw [ConsInput.intr, List.foldlM_cons]
    by_cases hc : c = 0
    · rw [List.filter_cons_of_neg (by simpa using hc)] at hroom ⊢
      rw [ConsInput.store, if_pos hc]
      exact ih hholds hroom
    · rw [List.filter_cons_of_pos (by simpa using hc)] at hroom ⊢
      rw [List.length_cons] at hroom
      have hput := Ring.Holds.put hholds (by omega) c
      rw [← toNat_wrap hholds.wpos_lt] at hput
      obtain ⟨cons', hintr, hholds'⟩ := @ih { cons with
        buf := cons.buf.set cons.wpos.toNat c hholds.wpos_lt,
        wpos := ConsInput.wrap (cons.wpos + 1) } _ hput (by
          rw [List.length_append, List.length_singleton]
          omega)
      rw [List.append_assoc, List.singleton_append] at hholds'
      rw [store_of_ne hc hholds.wpos_lt]
      exact ⟨cons', hintr, hholds'⟩

theorem ConsEvent.received_ne {event : ConsEvent} {c : BitVec 8} (hc : c ∈ event.received) :
    c ≠ 0 := by
  cases event with
  | intr batch => simpa using (List.mem_filter.mp hc).2
  | getc serial kbd =>
    rw [ConsEvent.received, ← List.filter_append] at hc
    simpa using (List.mem_filter.mp hc).2

/-- `cons_getc` queues what it finds and then takes the first character. -/
theorem ConsInput.Holds.getc (hholds : cons.Holds queue) {serial kbd : List (BitVec 8)}
    (hne : ∀ c ∈ queue, c ≠ 0)
    (hroom : queue.length + (ConsEvent.getc serial kbd).received.length < consBufSize) :
    ∃ c cons' rest, cons.getc serial kbd = some (c, cons') ∧ cons'.Holds rest ∧
      queue ++ (ConsEvent.getc serial kbd).received = [c].filter (· ≠ 0) ++ rest ∧
      (c = 0 → rest = []) := by
  rw [ConsEvent.received, List.length_append] at hroom
  obtain ⟨mid, hmid, hholds⟩ := @ConsInput.Holds.intr _ _ hholds serial (by omega)
  obtain ⟨mid', hmid', hholds⟩ := @ConsInput.Holds.intr _ _ hholds kbd (by
    rw [List.length_append]
    omega)
  rw [ConsInput.getc, hmid, Option.bind_eq_bind, Option.bind_some, hmid', Option.bind_some]
  rw [List.append_assoc] at hholds
  rw [ConsEvent.received]
  obtain ⟨all, hall⟩ : ∃ all, queue ++ (serial.filter (· ≠ 0) ++ kbd.filter (· ≠ 0)) = all :=
    ⟨_, rfl⟩
  rw [hall] at hholds ⊢
  have hsame : mid'.rpos = mid'.wpos ↔ all = [] := by
    rw [← hholds.same_iff, BitVec.toNat_eq]
  cases all with
  | nil =>
    rw [if_neg (not_not_intro (hsame.mpr rfl))]
    exact ⟨0, mid', [], rfl, hholds, rfl, fun _ => rfl⟩
  | cons c rest =>
    have hc : c ≠ 0 := by
      have hmem : c ∈ queue ++ (serial.filter (· ≠ 0) ++ kbd.filter (· ≠ 0)) :=
        hall ▸ List.mem_cons_self
      rcases List.mem_append.mp hmem with hold | hnew
      · exact hne c hold
      · exact @ConsEvent.received_ne (.getc serial kbd) c hnew
    obtain ⟨hread, hrest⟩ := hholds.get
    rw [← toNat_wrap hholds.rpos_lt] at hrest
    rw [if_pos fun hpos => List.cons_ne_nil c rest (hsame.mp hpos), hread]
    refine ⟨c, _, rest, rfl, hrest, ?_, fun hzero => absurd hzero hc⟩
    rw [List.filter_cons_of_pos (by simpa using hc)]
    rfl

/-- An event that brings no more than fits. -/
theorem ConsInput.Holds.step (hholds : cons.Holds queue) (hne : ∀ c ∈ queue, c ≠ 0)
    (results : List (BitVec 8)) {event : ConsEvent}
    (hroom : queue.length + event.received.length < consBufSize) :
    ∃ out cons' rest, InputState.step (results, cons) event = some (results ++ out, cons') ∧
      cons'.Holds rest ∧ queue ++ event.received = out.filter (· ≠ 0) ++ rest ∧
      rest.length = event.unreadAfter queue.length ∧
      ∀ serial kbd, event = .getc serial kbd → (results ++ out).getLast? = some 0 → rest = [] := by
  cases event with
  | intr batch =>
    obtain ⟨cons', hintr, hholds'⟩ := hholds.intr hroom
    refine ⟨[], cons', _, ?_, hholds', rfl, List.length_append, fun _ _ h => nomatch h⟩
    rw [InputState.step, hintr, List.append_nil]
    rfl
  | getc serial kbd =>
    obtain ⟨c, cons', rest, hgetc, hholds', hqueue, hzero⟩ := hholds.getc hne hroom
    refine ⟨[c], cons', rest, ?_, hholds', hqueue, ?_, fun _ _ _ hlast => hzero ?_⟩
    · rw [InputState.step, hgetc]
      rfl
    · have hlength := congrArg List.length hqueue
      rw [List.length_append, List.length_append] at hlength
      rw [ConsEvent.unreadAfter]
      by_cases hc : c = 0
      · rw [hzero hc, List.filter_cons_of_neg (by simpa using hc)] at hlength
        rw [hzero hc, hlength]
        rfl
      · rw [List.filter_cons_of_pos (by simpa using hc)] at hlength
        rw [hlength, Nat.add_comm]
        rfl
    · rw [List.getLast?_concat] at hlast
      exact Option.some.inj hlast

theorem inputRun_snoc (events : List ConsEvent) (event : ConsEvent) :
    inputRun (events ++ [event]) = (inputRun events).bind (·.step event) := by
  rw [inputRun, List.foldlM_append]
  exact congrArg _ (funext fun _ => bind_pure _)

/-- A run in which the unread characters always fit. -/
theorem inputRun_holds {events : List ConsEvent} (hwithin : UnreadWithin (consBufSize - 1) events) :
    ∃ results cons unread, inputRun events = some (results, cons) ∧ cons.Holds unread ∧
      events.flatMap ConsEvent.received = results.filter (· ≠ 0) ++ unread ∧
      unread.length = events.foldl ConsEvent.unreadAfter 0 ∧
      ∀ before serial kbd, events = before ++ [.getc serial kbd] →
        results.getLast? = some 0 → unread = [] := by
  induction events using List.reverseRecOn with
  | nil =>
    refine ⟨[], .start, [], rfl, Ring.Holds.empty _ (show 0 < consBufSize by decide), rfl, rfl,
      fun before _ _ h => absurd h.symm ?_⟩
    exact List.append_ne_nil_of_right_ne_nil before (List.cons_ne_nil _ _)
  | append_singleton events event ih =>
    obtain ⟨results, cons, unread, hrun, hholds, hreceived, hlength, -⟩ := ih fun before e after h =>
      hwithin before e (after ++ [event]) (by rw [h, List.append_assoc, List.cons_append])
    have hroom := hwithin events event [] rfl
    rw [← hlength] at hroom
    have hne : ∀ c ∈ unread, c ≠ 0 := fun c hc => by
      have hmem : c ∈ events.flatMap ConsEvent.received := hreceived ▸ List.mem_append_right _ hc
      obtain ⟨e, -, hfrom⟩ := List.mem_flatMap.mp hmem
      exact ConsEvent.received_ne hfrom
    obtain ⟨out, cons', rest, hstep, hholds', hqueue, hcount, hzero⟩ :=
      @ConsInput.Holds.step cons unread hholds hne results event (by
        rw [show consBufSize = 512 from rfl] at hroom ⊢
        omega)
    refine ⟨results ++ out, cons', rest, ?_, hholds', ?_, ?_, ?_⟩
    · rw [inputRun_snoc, hrun]
      exact hstep
    · rw [List.flatMap_append, hreceived, List.filter_append, List.append_assoc, List.append_assoc,
        ← hqueue]
      simp
    · rw [List.foldl_append, hcount, hlength]
      rfl
    · intro before serial kbd hsame
      exact hzero serial kbd (List.append_inj_right' hsame rfl |> List.singleton_inj.mp)

/-- The positions are those of bytes of the buffer. -/
structure ConsInput.Within (cons : ConsInput) : Prop where
  rpos_lt : cons.rpos.toNat < consBufSize
  wpos_lt : cons.wpos.toNat < consBufSize

theorem ConsInput.Within.intr (hwithin : cons.Within) (batch : List (BitVec 8)) :
    ∃ cons', cons.intr batch = some cons' ∧ cons'.Within := by
  obtain ⟨cons', hintr, hrpos, hwpos, -⟩ := intr_wpos hwithin.wpos_lt batch
  exact ⟨cons', hintr, hrpos ▸ hwithin.rpos_lt, hwpos⟩

theorem ConsInput.Within.getc (hwithin : cons.Within) (serial kbd : List (BitVec 8)) :
    ∃ c cons', cons.getc serial kbd = some (c, cons') ∧ cons'.Within := by
  obtain ⟨mid, hmid, hwithin⟩ := hwithin.intr serial
  obtain ⟨mid', hmid', hwithin⟩ := hwithin.intr kbd
  rw [ConsInput.getc, hmid, Option.bind_eq_bind, Option.bind_some, hmid', Option.bind_some]
  by_cases hsame : mid'.rpos = mid'.wpos
  · rw [if_neg (not_not_intro hsame)]
    exact ⟨0, mid', rfl, hwithin⟩
  · rw [if_pos hsame, Vector.getElem?_eq_getElem hwithin.rpos_lt]
    refine ⟨_, _, rfl, ?_, hwithin.wpos_lt⟩
    show (ConsInput.wrap (mid'.rpos + 1)).toNat < consBufSize
    rw [toNat_wrap hwithin.rpos_lt]
    exact Ring.next_lt hwithin.rpos_lt

/-- No run, however much arrives, leaves the buffer. -/
theorem inputRun_within (events : List ConsEvent) :
    ∃ results cons, inputRun events = some (results, cons) ∧ cons.Within := by
  induction events using List.reverseRecOn with
  | nil => exact ⟨[], .start, rfl, by decide, by decide⟩
  | append_singleton events event ih =>
    obtain ⟨results, cons, hrun, hwithin⟩ := ih
    rw [inputRun_snoc, hrun, Option.bind_some]
    cases event with
    | intr batch =>
      obtain ⟨cons', hintr, hwithin'⟩ := hwithin.intr batch
      refine ⟨results, cons', ?_, hwithin'⟩
      rw [InputState.step, hintr]
      rfl
    | getc serial kbd =>
      obtain ⟨c, cons', hgetc, hwithin'⟩ := hwithin.getc serial kbd
      refine ⟨results ++ [c], cons', ?_, hwithin'⟩
      rw [InputState.step, hgetc]
      rfl

/-- The console input is faithful in every run in which at most 511 characters are unread. -/
theorem input_faithful {events : List ConsEvent} (hwithin : UnreadWithin (consBufSize - 1) events) :
    InputFaithful events := by
  obtain ⟨results, cons, unread, hrun, hholds, hreceived, -, hempty⟩ := inputRun_holds hwithin
  exact ⟨results, cons, unread, hrun, hholds.rpos_lt, hholds.wpos_lt, hreceived, hempty⟩

theorem unreadWithin_pair {bound : ℕ} {first second : ConsEvent}
    (hfirst : first.received.length ≤ bound)
    (hsecond : first.unreadAfter 0 + second.received.length ≤ bound) :
    UnreadWithin bound [first, second] := by
  intro before event after h
  match before, h with
  | [], h =>
    obtain ⟨hevent, -⟩ := List.cons.inj h
    rw [← hevent, List.foldl_nil, Nat.zero_add]
    exact hfirst
  | [_], h =>
    obtain ⟨hbefore, h⟩ := List.cons.inj h
    obtain ⟨hevent, -⟩ := List.cons.inj h
    rw [← hevent, ← hbefore]
    exact hsecond
  | _ :: _ :: before, h =>
    obtain ⟨-, h⟩ := List.cons.inj h
    obtain ⟨-, h⟩ := List.cons.inj h
    exact absurd h.symm (List.append_ne_nil_of_right_ne_nil before (List.cons_ne_nil _ _))

end Input

/-- Two characters, one of which is read. -/
theorem input_faithful_two : InputFaithful [.intr [0x61, 0, 0x62], .getc [] []] :=
  input_faithful (unreadWithin_pair (by decide) (by decide))

/-- As many characters as the buffer has bytes: `cons_getc` returns 0, and all of them are lost. -/
theorem full_input_lost :
    ¬ ∀ events : List ConsEvent, UnreadWithin consBufSize events → InputFaithful events := by
  intro hall
  obtain ⟨batch, hbatch⟩ : ∃ batch, batch = List.replicate consBufSize (0x61 : BitVec 8) := ⟨_, rfl⟩
  have hlength : batch.length = consBufSize := hbatch ▸ List.length_replicate
  have hreceived : (ConsEvent.intr batch).received = batch := by
    rw [ConsEvent.received, hbatch, List.filter_replicate]
    rfl
  have hpair : UnreadWithin consBufSize [.intr batch, .getc [] []] :=
    unreadWithin_pair (by rw [hreceived, hlength])
      (by rw [ConsEvent.unreadAfter, hreceived, hlength]; decide)
  -- `wpos` has gone all the way round
  obtain ⟨cons', hintr, hrpos, -, hwpos⟩ :=
    @intr_wpos ConsInput.start (show 0 < consBufSize by decide) batch
  have hcount : (batch.filter (· ≠ 0)).length = consBufSize := by
    rw [← hlength]
    exact congrArg List.length hreceived
  rw [hcount, show ConsInput.start.wpos.toNat = 0 from rfl,
    Ring.iterate_next (show 0 < consBufSize by decide) _ le_rfl, Ring.place_self] at hwpos
  have hsame : cons'.rpos = cons'.wpos := hrpos.trans (BitVec.eq_of_toNat_eq hwpos).symm
  have hgetc : cons'.getc [] [] = some (0, cons') := if_neg (not_not_intro hsame)
  have hrun : inputRun [.intr batch, .getc [] []] = some ([0], cons') := by
    have hfirst : inputRun [.intr batch] = some ([], cons') := by
      rw [← List.nil_append [ConsEvent.intr batch], inputRun_snoc]
      exact Option.map_eq_some_iff.mpr ⟨cons', hintr, rfl⟩
    rw [← List.singleton_append, inputRun_snoc, hfirst]
    exact Option.map_eq_some_iff.mpr ⟨_, hgetc, rfl⟩
  obtain ⟨results, cons, unread, hresult, -, -, hall, hempty⟩ := hall _ hpair
  obtain ⟨rfl, rfl⟩ := Prod.mk.inj (Option.some.inj (hrun.symm.trans hresult))
  rw [hempty [.intr batch] [] [] rfl rfl, List.flatMap_cons, hreceived] at hall
  have hnone := congrArg List.length hall
  rw [List.length_append, hlength] at hnone
  exact absurd hnone (by decide)

end OsLabs.Jos
