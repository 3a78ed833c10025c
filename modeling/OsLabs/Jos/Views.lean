import OsLabs.Jos.Exclusion
import OsLabs.Jos.Scripts

/-!
# Address spaces across kernel entries

An environment that a CPU has before and after a kernel entry keeps its address
space, except for what the system call of that entry edits.
-/

namespace OsLabs.Jos

open Function
open OsLabs.Transition

/-- An invariant of the runs, whatever its ghost component is. -/
theorem KernelRules.simple {Ghost : Type} {P : ℕ → Kernel → Slot → Call → Prop}
    {note : Kernel → Slot → Call → Ghost → Ghost} {I : Kernel → Ghost → Prop}
    (hrules : KernelRules P note I fun _ => I) : SimpleRules P fun s => ∃ g, I s g where
  setTf := fun s e tf h => h.imp fun g hg => hrules.setTf s g e tf hg
  setCpunum := fun c s e h hcur => h.imp fun g hg => hrules.setCpunum c s g e hg hcur
  started := fun c s h hhalted => h.imp fun g hg => hrules.started c s g hg hhalted
  yield := fun c s s' h hrun => h.imp fun g hg => hrules.yield c s g s' hg hrun
  dying := fun c s cur e h hcur hmay hrunning hne =>
    h.imp fun g hg => hrules.dying c s g cur e hg hcur hmay hrunning hne
  retire := fun c s cur e s' h hcur hmay hstatus hrun =>
    h.imp fun g hg => hrules.retire c s g cur e s' hg hcur hmay hstatus hrun
  plain := fun c s cur key call ret s' h hcur hcall hrun => by
    obtain ⟨g, hg⟩ := h
    exact ⟨note s cur call g, hrules.plain c s g cur key call ret s' hg hcur hcall hrun⟩
  frame := fun s e dir va bytes σ h hdir hva hrun =>
    h.imp fun g hg => hrules.frame s g e dir va bytes σ hg hdir hva hrun
  store := fun c s va byte s' h hrun => h.imp fun g hg => hrules.store c s g va byte s' hg hrun
  mmu := fun s bits h => h.imp fun g hg => hrules.mmu s g bits hg

/-- Calls that leave the CPUs alone and memory sound. -/
def SteadyCall (s : Kernel) (cur : Slot) (call : Call) : Prop :=
  LeavesCpus s cur call ∧ CleanCall (fun _ => True) ∅ s cur call

/-- What holds between kernel entries. -/
structure Settled {m : Machine} (arena : Arena m) (s : Kernel) : Prop where
  sound : ∃ given, Sound arena (fun _ => True) ∅ given s
  table : TableOk s
  apart : Apart s

section Settled

variable {m : Machine} {arena : Arena m} {programs : List Program} {s : Kernel}

theorem settled_rules (arena : Arena m) :
    SimpleRules (fun _ => SteadyCall) (Settled arena) := by
  have hsound : SimpleRules (fun _ => SteadyCall) fun s =>
      ∃ given, Sound arena (fun _ => True) ∅ given s ∧ TableOk s :=
    SimpleRules.weaken given_rules.simple fun _ _ _ _ hcall => hcall.2
  have hapart : SimpleRules (fun _ => SteadyCall) fun s => Apart s ∧ TableOk s :=
    apart_rules.weaken fun _ _ _ _ hcall => hcall.1
  have hsame : Settled arena = fun s =>
      (∃ given, Sound arena (fun _ => True) ∅ given s ∧ TableOk s) ∧ Apart s ∧ TableOk s := by
    funext s
    refine propext ⟨fun h => ?_, fun h => ?_⟩
    · obtain ⟨given, hgiven⟩ := h.sound
      exact ⟨⟨given, hgiven, h.table⟩, h.apart, h.table⟩
    · obtain ⟨⟨given, hgiven, htable⟩, hapart', -⟩ := h
      exact ⟨⟨given, hgiven⟩, htable, hapart'⟩
  rw [hsame]
  exact hsound.and hapart

/-- After booting. -/
theorem Boots.settled (hsane : m.Sane) (huser : ∀ program ∈ programs, program.InUser)
    (hboots : Boots m programs s) : ∃ arena : Arena m, Settled arena s := by
  obtain ⟨arena, given, hsound⟩ : ∃ (arena : Arena m) (given : Slot → Set ℕ),
      Sound arena (fun _ => True) ∅ given s :=
    hboots.sound hsane (fun _ _ => trivial) huser ∅
  exact ⟨arena, ⟨given, hsound⟩, (hboots.fresh hsane).table, hboots.apart hsane⟩

end Settled

/-! ## One entry -/

/-- What an entry that began in `start` has left of the address spaces of the environments on the
CPUs. -/
structure ViewsKept (start s : Kernel) (edit : Option (Slot × Word)) : Prop where
  dirs : ∀ k e, start.curenv k = some e → s.curenv k = some e → dirsOf s e = dirsOf start e
  views : ∀ k e, start.curenv k = some e → s.curenv k = some e →
    ViewKept edit (dirsOf start) (dirsOf s) start.phys s.phys e

/-- What the call of an entry edits. -/
def noteEdits (s : Kernel) (cur : Slot) (call : Call) (edit : Option (Slot × Word)) :
    Option (Slot × Word) :=
  (edits s cur call).or edit

/-- Before the operation of an entry. -/
structure Entered (start s : Kernel) (edit : Option (Slot × Word)) : Prop where
  cpus : s.cpus = start.cpus
  edit : edit = none
  dirs : dirsOf s = dirsOf start
  views : ∀ e, ViewKept none (dirsOf start) (dirsOf s) start.phys s.phys e

/-- While a CPU is in the kernel. -/
structure Handled (start s : Kernel) (edit : Option (Slot × Word)) : Prop where
  kept : ViewsKept start s edit
  gone : ∀ k e, start.curenv k = some e → s.curenv k ≠ some e → (s.envs e).status = .free

section Entry

variable {m : Machine} {arena : Arena m} {start s s' : Kernel} {edit : Option (Slot × Word)}
variable {c : ℕ} {cur e : Slot}

theorem Entered.curenv (hentered : Entered start s edit) (k : ℕ) : s.curenv k = start.curenv k := by
  rw [Kernel.curenv, hentered.cpus, Kernel.curenv]

theorem Entered.refl (start : Kernel) : Entered start start none :=
  ⟨rfl, rfl, rfl, fun _ => ViewKept.refl none⟩

theorem Entered.viewsKept (hentered : Entered start s edit) : ViewsKept start s edit where
  dirs := fun _ e _ _ => congrFun hentered.dirs e
  views := fun _ e _ _ => (hentered.views e).weaken edit

theorem Entered.handled (hentered : Entered start s edit) : Handled start s edit where
  kept := hentered.viewsKept
  gone := fun k _ hk hs => absurd ((hentered.curenv k).trans hk) hs

/-- A change of memory that leaves the mappings alone. -/
theorem Entered.memory (hentered : Entered start s edit) {σ : Phys}
    (hsame : SameMappings (dirsOf s) (dirsOf s) s.phys σ) : Entered start (s.setPhys σ) edit :=
  ⟨hentered.cpus, hentered.edit, hentered.dirs, fun e => (hentered.views e).trans (hsame e)⟩

theorem Entered.congr (hentered : Entered start s edit) (hcpus : s'.cpus = s.cpus)
    (hphys : s'.phys = s.phys) (hdirs : dirsOf s' = dirsOf s) : Entered start s' edit where
  cpus := hcpus.trans hentered.cpus
  edit := hentered.edit
  dirs := hdirs.trans hentered.dirs
  views := by
    rw [hphys, hdirs]
    exact hentered.views

theorem ViewsKept.congr (hkept : ViewsKept start s edit) (hcur : ∀ k, s'.curenv k = s.curenv k)
    (hphys : s'.phys = s.phys) (hdirs : dirsOf s' = dirsOf s) : ViewsKept start s' edit where
  dirs := fun k e hk hs => by
    rw [hdirs]
    exact hkept.dirs k e hk ((hcur k).symm.trans hs)
  views := fun k e hk hs => by
    rw [hphys, hdirs]
    exact hkept.views k e hk ((hcur k).symm.trans hs)

theorem Handled.congr (hhandled : Handled start s edit) (hcur : ∀ k, s'.curenv k = s.curenv k)
    (hphys : s'.phys = s.phys) (hdirs : dirsOf s' = dirsOf s)
    (hstatus : ∀ e, (s.envs e).status = .free → (s'.envs e).status = .free) :
    Handled start s' edit where
  kept := hhandled.kept.congr hcur hphys hdirs
  gone := fun k e hk hs => hstatus e (hhandled.gone k e hk (hcur k ▸ hs))

/-- The decision what to run next. -/
theorem Handled.yield (hhandled : Handled start s edit) (hrun : schedYield s c = some s') :
    ViewsKept start s' edit := by
  obtain ⟨-, hphys, hdirs⟩ := (schedYield_cases hrun).memory
  -- a CPU does not return to an environment that it has left
  have hback : ∀ k e, start.curenv k = some e → s'.curenv k = some e → s.curenv k = some e := by
    intro k e hk hs
    by_contra hleft
    have hfree := hhandled.gone k e hk hleft
    cases schedYield_cases hrun with
    | keep => exact hleft hs
    | again => exact hleft hs
    | switch f dir _ hpick _ =>
      rw [curenv_switched] at hs
      by_cases hkc : k = c
      · rw [if_pos hkc] at hs
        have hrunnable := schedPick_runnable hpick
        rw [Option.some.inj hs, hfree] at hrunnable
        cases hrunnable
      · exact hleft (by rwa [if_neg hkc] at hs)
    | halt =>
      rw [curenv_haltedState] at hs
      by_cases hkc : k = c
      · rw [if_pos hkc] at hs
        cases hs
      · exact hleft (by rwa [if_neg hkc] at hs)
  exact
    { dirs := fun k e hk hs => by
        rw [hdirs]
        exact hhandled.kept.dirs k e hk (hback k e hk hs)
      views := fun k e hk hs => by
        rw [hphys, hdirs]
        exact hhandled.kept.views k e hk (hback k e hk hs) }

/-- `env_free`. -/
theorem Entered.retire (hentered : Entered start s edit) (hsettled : Settled arena s)
    (hafter : Settled arena s') (hrun : Jos.retire s c e = some s') : Handled start s' edit := by
  obtain ⟨given, hsound⟩ := hsettled.sound
  obtain ⟨-, hdirs, hviews⟩ := hsound.retire hrun
  have hcur := curenv_retire hrun
  -- no CPU has the environment that is gone
  have hother {k : ℕ} {f : Slot} (hs : s'.curenv k = some f) : f ≠ e := fun hsame => by
    have hloaded : dirsOf s' f = some (s'.cpus k).cr3 := hafter.apart.loaded k f hs
    rw [hdirs, hsame, update_self] at hloaded
    cases hloaded
  refine ⟨⟨fun k f _ hs => ?_, fun k f _ hs => ?_⟩, fun k f hk hs => ?_⟩
  · rw [hdirs, update_of_ne (hother hs), hentered.dirs]
  · exact ((hentered.views f).trans (hviews f (hother hs))).weaken edit
  · rw [hcur] at hs
    split at hs
    case isTrue hleft =>
      have hsame : f = e := Option.some.inj
        (((hentered.curenv k).trans hk).symm.trans (hleft.1 ▸ hleft.2))
      obtain ⟨dir, σ, pt, -, -, -, rfl⟩ := retire_cases hrun
      rw [hsame]
      dsimp only
      rw [update_self]
    case isFalse => exact absurd ((hentered.curenv k).trans hk) hs

/-- Calls keep the directories of the environments that have one. -/
theorem plainCall_dirs {key ret : Word} {call : Call} (htable : TableOk s)
    (hrun : plainCall s cur key call = some (ret, s')) {dir : ℕ} (hdir : dirsOf s e = some dir) :
    dirsOf s' e = dirsOf s e := by
  cases plainCall_memory hrun with
  | same _ _ _ hdirs => rw [hdirs]
  | refused _ _ _ _ _ _ hdirs => rw [hdirs]
  | mapped _ _ _ _ hdirs => rw [hdirs]
  | unmapped _ _ _ _ _ _ _ hdirs => rw [hdirs]
  | forked f p _ _ hhead _ _ hdirs =>
    have hne : e ≠ f := fun hsame => by
      have hnone : dirsOf s f = none := htable.head_pgdir hhead
      rw [hsame, hnone] at hdir
      cases hdir
    rw [hdirs, update_of_ne hne]

/-- A system call. -/
theorem Entered.plain (hentered : Entered start s edit) (hsettled : Settled arena s)
    {key ret : Word} {call : Call} (hcall : SteadyCall s cur call)
    (hrun : plainCall s cur key call = some (ret, s')) :
    Handled start s' (noteEdits s cur call edit) := by
  obtain ⟨given, hsound⟩ := hsettled.sound
  obtain ⟨-, hviews⟩ := hsound.afterCall hsettled.table hcall.2 hrun
  have hcur (k : ℕ) : s'.curenv k = s.curenv k := by
    rw [Kernel.curenv, plainCall_cpus hrun, Kernel.curenv]
  rw [noteEdits, hentered.edit, Option.or_none]
  refine ⟨⟨fun k f _ hs => ?_, fun k f _ hs => (hentered.views f).trans (hviews f)⟩,
    fun k f hk hs => ?_⟩
  · rw [hcur] at hs
    rw [plainCall_dirs hsettled.table hrun (hsettled.apart.loaded k f hs), hentered.dirs]
  · rw [hcur, hentered.curenv] at hs
    exact absurd hk hs

/-- What an entry that began in `start` does to the address spaces of the environments that the
CPUs have. -/
theorem views_rules (arena : Arena m) (start : Kernel) :
    EntryRules (fun _ => SteadyCall) noteEdits
      (fun s edit => Settled arena s ∧ Entered start s edit)
      (fun _ s edit => Settled arena s ∧ Handled start s edit)
      (fun s edit => Settled arena s ∧ ViewsKept start s edit) where
  enter := fun _ _ _ h => ⟨h.1, h.2.handled⟩
  setTf := fun s _ e tf h =>
    ⟨(settled_rules arena).setTf s e tf h.1, h.2.congr rfl rfl (dirsOf_setEnv (by rfl))⟩
  setTfMid := fun _ s _ e tf h => by
    refine ⟨(settled_rules arena).setTf s e tf h.1, h.2.congr (fun _ => rfl) rfl
      (dirsOf_setEnv (by rfl)) fun k hk => ?_⟩
    exact (field_setEnv Env.status (by rfl) k).trans hk
  setCpunum := fun c s _ e h hcur => ⟨(settled_rules arena).setCpunum c s e h.1 hcur,
    h.2.viewsKept.congr (fun _ => rfl) rfl (dirsOf_setEnv (by rfl))⟩
  resume := fun c s _ e h hcur _ => ⟨(settled_rules arena).setCpunum c s e h.1 hcur,
    h.2.kept.congr (fun _ => rfl) rfl (dirsOf_setEnv (by rfl))⟩
  started := fun c s _ h hhalted => by
    refine ⟨(settled_rules arena).started c s h.1 hhalted,
      h.2.handled.congr (fun k => ?_) rfl rfl fun _ hk => hk⟩
    rw [Kernel.curenv, Kernel.cpus_setCpuStatus, Kernel.curenv]
    by_cases hk : k = c
    · rw [hk, update_self]
    · rw [update_of_ne hk]
  yield := fun c s _ s' h hrun => ⟨(settled_rules arena).yield c s s' h.1 hrun, h.2.yield hrun⟩
  dying := fun c s _ cur e h hcur hmay hrunning hne => by
    refine ⟨(settled_rules arena).dying c s cur e h.1 hcur hmay hrunning hne,
      h.2.handled.congr (fun _ => rfl) rfl (dirsOf_setEnv (by rfl)) fun k hk => ?_⟩
    have hother : k ≠ e := fun hsame => by
      rw [hsame, hrunning] at hk
      cases hk
    rw [Kernel.setStatus, Kernel.envs_setEnv, update_of_ne hother, hk]
  retire := fun c s _ cur e s' h hcur hmay hstatus hrun =>
    have hafter := (settled_rules arena).retire c s cur e s' h.1 hcur hmay hstatus hrun
    ⟨hafter, h.2.retire h.1 hafter hrun⟩
  plain := fun c s _ cur key call ret s' h hcur hcall hrun =>
    ⟨(settled_rules arena).plain c s cur key call ret s' h.1 hcur hcall hrun,
      h.2.plain h.1 hcall hrun⟩
  other := fun s cur call edit hsys => by
    have hunmap : call.sys ≠ .pageUnmap := by
      rcases hsys with h | h | h <;> rw [h] <;> decide
    have hmap : call.sys ≠ .pageAlloc ∧ call.sys ≠ .pageMap ∧ call.sys ≠ .ipcTrySend := by
      rcases hsys with h | h | h <;> rw [h] <;> decide
    rw [noteEdits, edits, if_neg hunmap, mapRequest_none hmap]
    rfl
  frame := fun s _ e dir va bytes σ h hdir hva hrun => by
    obtain ⟨given, hsound⟩ := h.1.sound
    exact ⟨(settled_rules arena).frame s e dir va bytes σ h.1 hdir hva hrun,
      h.2.memory (hsound.memory.kernelStores (i := e) hdir hva hrun).2⟩
  store := fun c s _ va byte s' h hrun => by
    obtain ⟨given, hsound⟩ := h.1.sound
    have hafter := (settled_rules arena).store c s va byte s' h.1 hrun
    refine ⟨hafter, ?_⟩
    unfold Jos.userStore at hrun
    simp only [Option.bind_eq_bind, Option.bind_eq_some_iff] at hrun
    obtain ⟨cur, -, hrun⟩ := hrun
    split at hrun
    case isTrue hown =>
      simp only [Option.bind_eq_some_iff] at hrun
      obtain ⟨page, hreach, hrun⟩ := hrun
      cases hrun
      exact (h.2.memory (hsound.memory.userStore (i := cur) hown.2 hreach byte).2).viewsKept
    case isFalse => cases hrun
  mmu := fun s _ bits h => by
    obtain ⟨given, hsound⟩ := h.1.sound
    exact ⟨(settled_rules arena).mmu s bits h.1,
      (h.2.memory (hsound.memory.setMmuBits bits).2).viewsKept⟩

/-- An environment that a CPU has before and after a step keeps its address space, except for what
the call of the step edits. -/
theorem Settled.step (hsettled : Settled arena s) {event : Event}
    (hcalls : CallsSatisfy (fun _ => SteadyCall) s event) (hstep : Jos.step s event = some s') :
    Settled arena s' ∧ ViewsKept s s' (noteCalls noteEdits s event s' none) :=
  (views_rules arena s).step (fun _ _ h => h.1.table.ids) ⟨hsettled, Entered.refl s⟩ hcalls hstep

end Entry

end OsLabs.Jos
