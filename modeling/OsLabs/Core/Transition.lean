import Mathlib.Logic.Relation

/-!
# Runs of a labelled transition system

A system is a partial step function: a label may be impossible in a state, or
stop the system.  `Runs` are the states reached through steps that satisfy a
condition, and an invariant of the steps is an invariant of the runs.  A ghost
component records what happened without influencing it.
-/

namespace OsLabs.Transition

variable {State Label Ghost : Type*}

/-- One step whose state before and label satisfy `ok`. -/
def Steps (step : State → Label → Option State) (ok : State → Label → Prop)
    (before after : State) : Prop :=
  ∃ label, ok before label ∧ step before label = some after

/-- The states reached from `start` through steps that satisfy `ok`. -/
def Runs (step : State → Label → Option State) (ok : State → Label → Prop)
    (start : State) : State → Prop :=
  Relation.ReflTransGen (Steps step ok) start

variable {step : State → Label → Option State} {ok ok' : State → Label → Prop}
variable {start state : State}

theorem Runs.refl : Runs step ok start start :=
  Relation.ReflTransGen.refl

theorem Runs.tail {after : State} {label : Label} (hrun : Runs step ok start state)
    (hok : ok state label) (hstep : step state label = some after) :
    Runs step ok start after :=
  Relation.ReflTransGen.tail hrun ⟨label, hok, hstep⟩

theorem Runs.trans {after : State} (hrun : Runs step ok start state)
    (hrest : Runs step ok state after) : Runs step ok start after :=
  Relation.ReflTransGen.trans hrun hrest

/-- What holds at the start and survives every step holds throughout. -/
theorem Runs.invariant {I : State → Prop} (hrun : Runs step ok start state) (hstart : I start)
    (hkeep : ∀ before label after, I before → ok before label →
      step before label = some after → I after) : I state := by
  induction hrun with
  | refl => exact hstart
  | tail _ hlast ih =>
      obtain ⟨label, hok, hstep⟩ := hlast
      exact hkeep _ label _ ih hok hstep

/-- A weaker condition admits more runs. -/
theorem Runs.mono (hrun : Runs step ok start state)
    (hweaken : ∀ before label, ok before label → ok' before label) :
    Runs step ok' start state :=
  Relation.ReflTransGen.mono
    (fun before _ ⟨label, hok, hstep⟩ => ⟨label, hweaken before label hok, hstep⟩) _ _ hrun

/-- Every step of the run from `state` along `labels` satisfies `P`. -/
def Along (step : State → Label → Option State) (P : State → Label → Prop) :
    State → List Label → Prop
  | _, [] => True
  | state, label :: labels =>
      P state label ∧ ∀ after, step state label = some after → Along step P after labels

/-- Two conditions that agree as long as an invariant holds, which the steps that meet them keep,
hold along the same runs. -/
theorem along_iff_of_invariant {P Q : State → Label → Prop} {I : State → Prop}
    (hsame : ∀ state label, I state → (P state label ↔ Q state label))
    (hkeep : ∀ state label after, I state → Q state label → step state label = some after → I after)
    {state : State} (hstart : I state) (labels : List Label) :
    Along step P state labels ↔ Along step Q state labels := by
  induction labels generalizing state with
  | nil => exact Iff.rfl
  | cons label labels ih =>
    rw [Along, Along, hsame state label hstart]
    exact and_congr_right fun hok =>
      forall₂_congr fun after hstep => ih (hkeep state label after hstart hok hstep)

theorem along_congr {P Q : State → Label → Prop}
    (hsame : ∀ state label, P state label ↔ Q state label) (state : State) (labels : List Label) :
    Along step P state labels ↔ Along step Q state labels :=
  @along_iff_of_invariant _ _ step P Q (fun _ => True) (fun state label _ => hsame state label)
    (fun _ _ _ _ _ _ => trivial) state trivial labels

/-- The state after the labels of a list, if none of them is impossible. -/
def execute (step : State → Label → Option State) (state : State) (labels : List Label) :
    Option State :=
  labels.foldlM step state

theorem execute_concat {labels : List Label} {label : Label} {after : State}
    (hexecute : execute step start labels = some state) (hstep : step state label = some after) :
    execute step start (labels ++ [label]) = some after := by
  rw [execute] at hexecute ⊢
  rw [List.foldlM_append, hexecute, Option.bind_eq_bind, Option.bind_some, List.foldlM_cons, hstep]
  rfl

theorem Along.last {P : State → Label → Prop} {labels : List Label} {label : Label}
    (halong : Along step P start (labels ++ [label]))
    (hexecute : execute step start labels = some state) : P state label := by
  induction labels generalizing start with
  | nil =>
    cases hexecute
    exact halong.1
  | cons first labels ih =>
    rw [execute, List.foldlM_cons] at hexecute
    obtain ⟨next, hnext, hrest⟩ := Option.bind_eq_some_iff.mp hexecute
    exact ih (halong.2 next hnext) hrest

/-- Executing labels gives a run. -/
theorem Runs.of_execute {labels : List Label} {after : State}
    (hok : ∀ before, ∀ label ∈ labels, ok before label)
    (hexecute : execute step start labels = some after) : Runs step ok start after := by
  induction labels generalizing start with
  | nil =>
      cases hexecute
      exact Runs.refl
  | cons label labels ih =>
      rw [execute, List.foldlM_cons] at hexecute
      obtain ⟨next, hnext, hrest⟩ := Option.bind_eq_some_iff.mp hexecute
      have hfirst : Runs step ok start next :=
        Runs.refl.tail (hok start label List.mem_cons_self) hnext
      apply hfirst.trans
      apply ih _ hrest
      intro before label hlabel
      exact hok before label (List.mem_cons_of_mem _ hlabel)

/-- The system with a ghost component that `note` updates after every step. -/
def ghosted (step : State → Label → Option State) (note : State → Label → State → Ghost → Ghost)
    (pair : State × Ghost) (label : Label) : Option (State × Ghost) :=
  (step pair.1 label).map fun after => (after, note pair.1 label after pair.2)

/-- A step of the system, noted. -/
theorem Runs.noted {note : State → Label → State → Ghost → Ghost}
    {ok : State × Ghost → Label → Prop} {start : State × Ghost} {ghost : Ghost} {label : Label}
    {after : State} (hrun : Runs (Transition.ghosted step note) ok start (state, ghost))
    (hok : ok (state, ghost) label) (hstep : step state label = some after) :
    Runs (Transition.ghosted step note) ok start (after, note state label after ghost) :=
  hrun.tail hok (by simp [Transition.ghosted, hstep])

/-- The ghost component does not restrict the system. -/
theorem Runs.ghosted (note : State → Label → State → Ghost → Ghost) (ghost : Ghost)
    (hrun : Runs step ok start state) :
    ∃ final, Runs (ghosted step note) (fun pair label => ok pair.1 label)
      (start, ghost) (state, final) := by
  induction hrun with
  | refl => exact ⟨ghost, Runs.refl⟩
  | @tail before after _ hlast ih =>
      obtain ⟨label, hok, hstep⟩ := hlast
      obtain ⟨final, hghost⟩ := ih
      refine ⟨note before label after final, hghost.tail hok ?_⟩
      simp [Transition.ghosted, hstep]

end OsLabs.Transition
