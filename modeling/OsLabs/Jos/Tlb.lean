import OsLabs.Jos.Offspring
import OsLabs.Jos.Views

/-!
# Translation lookaside buffers

A CPU may use every translation that its MMU has loaded since the last `lcr3`,
or the last `invlpg` of the page.  `tlb_invalidate` flushes the CPU that edits
a page table, and no other; as long as no call edits the address space of an
environment that another CPU has, programs store where the page tables say.
-/

namespace OsLabs.Jos

open Function
open OsLabs.Transition

/-! ## The hardware -/

/-- What the MMU has read for a page: both entries, without the flags that it sets itself. -/
structure Translation where
  pde : Word
  pte : Word
  deriving DecidableEq

/-- Both entries have all the flags. -/
def Translation.Permits (t : Translation) (need : Word) : Prop :=
  t.pde &&& need = need ∧ t.pte &&& need = need

instance Translation.permitsDecidable (t : Translation) (need : Word) :
    Decidable (t.Permits need) :=
  inferInstanceAs (Decidable (_ ∧ _))

/-- The MMU walks the page tables.  It keeps nothing for a page that is not present. -/
def walk (σ : Phys) (dir : ℕ) (va : Word) : Option Translation :=
  match entryPage (σ.mem dir (pdx va)) with
  | none => none
  | some table =>
      if σ.mem table (ptx va) &&& pteP = 0 then none
      else some ⟨σ.mem dir (pdx va), σ.mem table (ptx va)⟩

/-- The translations that each CPU may use, by page number. -/
abbrev Tlb := ℕ → ℕ → List Translation

def Tlb.cold : Tlb := fun _ _ => []

def Tlb.set (tlb : Tlb) (c : ℕ) (va : Word) (translations : List Translation) : Tlb :=
  update tlb c (update (tlb c) (pgnum va) translations)

def invlpg (tlb : Tlb) (c : ℕ) (va : Word) : Tlb := tlb.set c va []

/-- `tlb_invalidate` on CPU `c`. -/
def tlbInvalidate (s : Kernel) (c pgdir : ℕ) (va : Word) (tlb : Tlb) : Tlb :=
  match s.curenv c with
  | none => invlpg tlb c va
  | some cur => if (s.envs cur).pgdir = some pgdir then invlpg tlb c va else tlb

/-! ## Kernel entries -/

/-- The `tlb_invalidate` of a system call: `page_remove` makes it when the page is mapped, for
`sys_page_unmap` and for the calls that insert a page. -/
def callInvalidates (c : ℕ) (s : Kernel) (cur : Slot) (call : Call) (tlb : Tlb) : Tlb :=
  match edits s cur call with
  | none => tlb
  | some (e, va) =>
      match (s.envs e).pgdir with
      | none => tlb
      | some pgdir => if (walk s.phys pgdir va).isSome then tlbInvalidate s c pgdir va tlb else tlb

/-- The TLBs after an entry.  A CPU that has got another environment, or has lost its own, has
executed `lcr3`. -/
def noteTlb (s : Kernel) (event : Event) (s' : Kernel) (tlb : Tlb) : Tlb :=
  let flushed := match callOf s event with
    | none => tlb
    | some (c, before, cur, call) => callInvalidates c before cur call tlb
  fun k n => if s'.curenv k = s.curenv k then flushed k n else []

/-- What can happen on a machine with TLBs. -/
inductive TlbEvent
  | enter (c : ℕ) (entry : Entry)
  /-- the MMU of a CPU loads a translation -/
  | walk (c : ℕ) (va : Word)
  /-- the program on a CPU stores through a translation -/
  | store (c : ℕ) (va : Word) (t : Translation) (byte : BitVec 8)
  | mmu (bits : ℕ → ℕ → Word)

/-- A store of the program that runs on CPU `c`, through its TLB. -/
def tlbStore (s : Kernel) (tlb : Tlb) (c : ℕ) (va : Word) (t : Translation) (byte : BitVec 8) :
    Option Kernel := do
  let cur ← s.curenv c
  if (s.cpus c).status = .started ∧ (s.envs cur).pgdir = some (s.cpus c).cr3 ∧
      t ∈ tlb c (pgnum va) ∧ t.Permits (pteP ||| pteU ||| pteW) then
    return s.setPhys (s.phys.storeByte (pgnum t.pte) (pgoff va) byte)
  else none

def tlbStep (pair : Kernel × Tlb) : TlbEvent → Option (Kernel × Tlb)
  | .enter c entry =>
      (enter pair.1 c entry).map fun s' => (s', noteTlb pair.1 (.enter c entry) s' pair.2)
  | .walk c va =>
      (Jos.walk pair.1.phys (pair.1.cpus c).cr3 va).map fun t =>
        (pair.1, pair.2.set c va (t :: pair.2 c (pgnum va)))
  | .store c va t byte => (tlbStore pair.1 pair.2 c va t byte).map fun s' => (s', pair.2)
  | .mmu bits => some (pair.1.setPhys (pair.1.phys.setMmuBits bits), pair.2)

/-- A condition on the system calls of an event. -/
def TlbEvent.CallsSatisfy (P : ℕ → Kernel → Slot → Call → Prop) (s : Kernel) : TlbEvent → Prop
  | .enter c entry => Jos.CallsSatisfy P s (.enter c entry)
  | _ => True

/-- A call that edits no address space of an environment that another CPU has. -/
def EditsHere (c : ℕ) (s : Kernel) (cur : Slot) (call : Call) : Prop :=
  ∀ e va, edits s cur call = some (e, va) → ∀ k, k ≠ c → s.curenv k ≠ some e

/-- The translations below `UTOP` are those of the page tables, and no other is for writing. -/
structure FreshTlb (s : Kernel) (tlb : Tlb) : Prop where
  low : ∀ k e, s.curenv k = some e → ∀ va < utop, ∀ t ∈ tlb k (pgnum va),
    walk s.phys (s.cpus k).cr3 va = some t
  high : ∀ k e, s.curenv k = some e → ∀ va, utop ≤ va → ∀ t ∈ tlb k (pgnum va),
    ¬ t.Permits (pteP ||| pteU ||| pteW)

/-! ## Walks -/

section Walks

variable {ι : Type*} {dirs dirs' : ι → Option ℕ} {σ σ' : Phys} {i : ι} {dir : ℕ} {va w : Word}
variable {t : Translation}

theorem walk_eq_some : walk σ dir va = some t ↔ ∃ table,
    entryPage (σ.mem dir (pdx va)) = some table ∧ σ.mem table (ptx va) &&& pteP ≠ 0 ∧
      t = ⟨σ.mem dir (pdx va), σ.mem table (ptx va)⟩ := by
  rw [walk]
  cases entryPage (σ.mem dir (pdx va)) with
  | none => simp
  | some table =>
    dsimp only
    by_cases hpresent : σ.mem table (ptx va) &&& pteP = 0
    · rw [if_pos hpresent]
      simp [hpresent]
    · rw [if_neg hpresent, Option.some.injEq]
      refine ⟨fun h => ⟨table, rfl, hpresent, h.symm⟩, fun h => ?_⟩
      obtain ⟨other, hsame, -, rfl⟩ := h
      rw [Option.some.inj hsame]

/-- A walk depends on the page number only. -/
theorem walk_congr (hpage : pgnum va = pgnum w) : walk σ dir va = walk σ dir w := by
  have hpdx : pdx va = pdx w := by
    rw [pgnum_eq, pgnum_eq] at hpage
    rw [pdx_eq, pdx_eq]
    omega
  have hptx : ptx va = ptx w := by
    rw [pgnum_eq, pgnum_eq] at hpage
    rw [ptx_eq, ptx_eq]
    omega
  rw [walk, walk, hpdx, hptx]

/-- A store that the translation permits is one that the page tables permit. -/
theorem mmuPage_of_walk {need : Word} (hneed : (pteA ||| pteD) &&& need = 0)
    (hwalk : walk σ dir va = some t) (hpermits : t.Permits need) :
    mmuPage σ dir va need = some (pgnum t.pte) := by
  obtain ⟨table, htable, -, rfl⟩ := walk_eq_some.mp hwalk
  have hnumber : pgnum (σ.mem dir (pdx va)) = table := (entryPage_eq_some.mp htable).2
  have hflags : σ.load dir (pdx va) &&& need = need ∧ σ.load table (ptx va) &&& need = need := by
    rw [load_and _ _ _ hneed, load_and _ _ _ hneed]
    exact hpermits
  rw [mmuPage, pgnum_load, hnumber, if_pos hflags, pgnum_load]

/-- What the walk of a space finds. -/
theorem walk_space (hdir : dirs i = some dir) (va : Word) :
    walk σ dir va = some t ↔ tableSlot σ dirs (.pde i (pdx va)) ≠ none ∧
      wordAt σ dirs (.pde i (pdx va)) = t.pde ∧ entryAt σ dirs i va = t.pte ∧
      t.pte &&& pteP ≠ 0 := by
  rw [walk_eq_some, tableSlot, entryAt, pteKey, wordAt_pde hdir]
  have hentry {table : ℕ} (htable : entryPage (σ.mem dir (pdx va)) = some table) :
      wordAt σ dirs (.pte i (pdx va) (ptx va)) = σ.mem table (ptx va) :=
    wordAt_pte (by rw [tableSlot, wordAt_pde hdir, htable]) (ptx va)
  constructor
  · intro h
    obtain ⟨table, htable, hpresent, rfl⟩ := h
    exact ⟨by rw [htable]; simp, rfl, hentry htable, hpresent⟩
  · intro h
    obtain ⟨hne, hpde, hpte, hpresent⟩ := h
    obtain ⟨table, htable⟩ := Option.ne_none_iff_exists'.mp hne
    rw [hentry htable] at hpte
    refine ⟨table, htable, hpte.symm ▸ hpresent, ?_⟩
    cases t
    rw [Translation.mk.injEq]
    exact ⟨hpde.symm, hpte.symm⟩

/-- A space that is kept translates as before, except what has been edited. -/
theorem ViewKept.walk {edit : Option (ι × Word)} (hkept : ViewKept edit dirs dirs' σ σ' i)
    (hdir : dirs i = some dir) (hdir' : dirs' i = some dir) (hva : va < utop)
    (hwalk : Jos.walk σ dir va = some t)
    (hedit : ∀ w, edit = some (i, w) → pgnum va ≠ pgnum w) : Jos.walk σ' dir va = some t := by
  obtain ⟨hne, hpde, hpte, hpresent⟩ := (walk_space hdir va).mp hwalk
  have hpdx := pdx_lt_userPdes hva
  have hentry : entryAt σ' dirs' i va = entryAt σ dirs i va :=
    (hkept.entries va hva).resolve_right fun hedited => by
      obtain ⟨w, hw, hpage⟩ := hedited
      exact hedit w hw hpage
  refine (walk_space hdir' va).mpr ⟨?_, ?_, hentry.trans hpte, hpresent⟩
  · rw [hkept.table hpdx hne]
    exact hne
  · rw [hkept.tables _ hpdx hne, hpde]

end Walks

/-! ## Steps -/

section Steps

variable {m : Machine} {arena : Arena m} {s s' : Kernel} {tlb tlb' : Tlb}

/-- The directory that a CPU has loaded is that of its environment. -/
theorem Settled.loaded (hsettled : Settled arena s) {k : ℕ} {e : Slot}
    (hcur : s.curenv k = some e) : dirsOf s e = some (s.cpus k).cr3 :=
  hsettled.apart.loaded k e hcur

/-- What user code of a CPU can write through a walk lies below `UTOP`. -/
theorem Settled.walk_high (hsettled : Settled arena s) {k : ℕ} {e : Slot}
    (hcur : s.curenv k = some e) {va : Word} (hva : utop ≤ va) {t : Translation}
    (hwalk : walk s.phys (s.cpus k).cr3 va = some t) : ¬ t.Permits (pteP ||| pteU ||| pteW) := by
  intro hpermits
  obtain ⟨given, hsound⟩ := hsettled.sound
  obtain ⟨free, leak, hspaces, -⟩ := hsound.memory
  have hlow := hspaces.user_write arena.image (hsettled.loaded hcur)
    (mmuPage_of_walk (by decide) hwalk hpermits)
  exact absurd hva (BitVec.not_le.mpr hlow)

/-- A step keeps TLBs fresh that it flushes where it changes a translation in use. -/
theorem FreshTlb.step (hfresh : FreshTlb s tlb) (hsettled : Settled arena s)
    (hsettled' : Settled arena s') {edit : Option (Slot × Word)} (hkept : ViewsKept s s' edit)
    (hsub : ∀ k n, ∀ t ∈ tlb' k n, s'.curenv k = s.curenv k ∧ t ∈ tlb k n)
    (hflush : ∀ k e va, s.curenv k = some e → edit = some (e, va) → va < utop →
      ∀ t ∈ tlb' k (pgnum va), walk s.phys (s.cpus k).cr3 va ≠ some t) : FreshTlb s' tlb' where
  low := fun k e hcur' va hva t ht => by
    obtain ⟨hcpu, hold⟩ := hsub k _ t ht
    have hcur : s.curenv k = some e := hcpu.symm.trans hcur'
    have hwalk := hfresh.low k e hcur va hva t hold
    have hdir : dirsOf s' e = some (s.cpus k).cr3 :=
      (hkept.dirs k e hcur hcur').trans (hsettled.loaded hcur)
    have hcr3 : (s'.cpus k).cr3 = (s.cpus k).cr3 :=
      Option.some.inj ((hsettled'.loaded hcur').symm.trans hdir)
    rw [hcr3]
    refine (hkept.views k e hcur hcur').walk (hsettled.loaded hcur) hdir hva hwalk
      fun w hedit hpage => ?_
    have hw : w < utop := by
      rw [pgnum_eq, pgnum_eq] at hpage
      have htop : utop.toNat = 4005560320 := by decide
      rw [BitVec.lt_def, htop] at hva ⊢
      omega
    rw [hpage] at ht
    exact hflush k e w hcur hedit hw t ht ((walk_congr hpage).symm.trans hwalk)
  high := fun k e hcur' va hva t ht => by
    obtain ⟨hcpu, hold⟩ := hsub k _ t ht
    exact hfresh.high k e (hcpu.symm.trans hcur') va hva t hold

theorem mem_set {c k n : ℕ} {va : Word} {translations : List Translation} {t : Translation} :
    t ∈ tlb.set c va translations k n ↔
      if k = c ∧ n = pgnum va then t ∈ translations else t ∈ tlb k n := by
  rw [Tlb.set]
  by_cases hk : k = c
  · subst hk
    rw [update_self]
    by_cases hn : n = pgnum va
    · rw [hn, update_self, if_pos ⟨rfl, rfl⟩]
    · rw [update_of_ne hn, if_neg fun h => hn h.2]
  · rw [update_of_ne hk, if_neg fun h => hk h.1]

theorem mem_invlpg {c k n : ℕ} {va : Word} {t : Translation} (ht : t ∈ invlpg tlb c va k n) :
    ¬ (k = c ∧ n = pgnum va) ∧ t ∈ tlb k n := by
  rw [invlpg, mem_set] at ht
  split at ht
  case isTrue => cases ht
  case isFalse hother => exact ⟨hother, ht⟩

/-- `tlb_invalidate` only takes translations away, among them those of the edited page of the
directory in use. -/
theorem mem_tlbInvalidate {c pgdir k n : ℕ} {va : Word} {t : Translation}
    (ht : t ∈ tlbInvalidate s c pgdir va tlb k n) : t ∈ tlb k n ∧
      ∀ cur, s.curenv c = some cur → (s.envs cur).pgdir = some pgdir →
        ¬ (k = c ∧ n = pgnum va) := by
  rw [tlbInvalidate] at ht
  cases hcur : s.curenv c with
  | none =>
    rw [hcur] at ht
    refine ⟨(mem_invlpg ht).2, fun cur hcur' => ?_⟩
    cases hcur'
  | some cur =>
    rw [hcur] at ht
    dsimp only at ht
    by_cases hown : (s.envs cur).pgdir = some pgdir
    · rw [if_pos hown] at ht
      exact ⟨(mem_invlpg ht).2, fun _ _ _ => (mem_invlpg ht).1⟩
    · rw [if_neg hown] at ht
      refine ⟨ht, fun cur' hcur' hdir => ?_⟩
      rw [← Option.some.inj hcur'] at hdir
      exact absurd hdir hown

/-- What is left after a call that edits its own address space is fresh. -/
theorem mem_callInvalidates {c k n : ℕ} {cur : Slot} {call : Call} {t : Translation}
    (ht : t ∈ callInvalidates c s cur call tlb k n) : t ∈ tlb k n ∧
      ∀ e va pgdir, edits s cur call = some (e, va) → s.curenv c = some e →
        (s.envs e).pgdir = some pgdir → k = c → n = pgnum va → walk s.phys pgdir va = none := by
  rw [callInvalidates] at ht
  cases hedit : edits s cur call with
  | none =>
    rw [hedit] at ht
    refine ⟨ht, fun e va pgdir hedit' => ?_⟩
    cases hedit'
  | some edit =>
    rw [hedit] at ht
    dsimp only at ht
    cases hdir : (s.envs edit.1).pgdir with
    | none =>
      rw [hdir] at ht
      refine ⟨ht, fun e va pgdir hedit' _ hdir' => ?_⟩
      rw [Option.some.inj hedit', hdir'] at hdir
      cases hdir
    | some dir =>
      rw [hdir] at ht
      dsimp only at ht
      by_cases hmapped : (walk s.phys dir edit.2).isSome
      · rw [if_pos hmapped] at ht
        obtain ⟨hold, hgone⟩ := mem_tlbInvalidate ht
        refine ⟨hold, fun e va pgdir hedit' hcur hdir' hk hn => ?_⟩
        rw [Option.some.inj hedit'] at hdir hgone
        exact absurd ⟨hk, hn⟩ (hgone e hcur hdir)
      · rw [if_neg hmapped] at ht
        refine ⟨ht, fun e va pgdir hedit' _ hdir' _ _ => ?_⟩
        rw [Option.some.inj hedit'] at hdir hmapped
        rw [← Option.some.inj (hdir.symm.trans hdir')]
        exact Option.not_isSome_iff_eq_none.mp hmapped

/-- The state in which a system call is dispatched. -/
theorem callOf_before {event : Event} {c : ℕ} {before : Kernel} {cur : Slot} {call : Call}
    (hcall : callOf s event = some (c, before, cur, call)) :
    s.curenv c = some cur ∧ before.cpus = s.cpus ∧ before.phys = s.phys ∧
      dirsOf before = dirsOf s := by
  cases event with
  | store => cases hcall
  | mmu => cases hcall
  | enter k entry =>
    cases entry with
    | boot => cases hcall
    | wake => cases hcall
    | user tf faultVa key =>
      rw [callOf] at hcall
      split at hcall
      case h_1 => cases hcall
      case h_2 cur' hcur =>
        split at hcall
        case isTrue => cases hcall
        case isFalse =>
          obtain ⟨call', -, hdone⟩ := Option.map_eq_some_iff.mp hcall
          cases hdone
          exact ⟨hcur, rfl, rfl, dirsOf_setEnv (by rfl)⟩

/-- The condition on calls under which TLBs stay fresh. -/
def TlbCall (c : ℕ) (s : Kernel) (cur : Slot) (call : Call) : Prop :=
  SteadyCall s cur call ∧ EditsHere c s cur call

/-- A kernel entry. -/
theorem FreshTlb.enter (hfresh : FreshTlb s tlb) (hsettled : Settled arena s) {event : Event}
    (hcalls : CallsSatisfy TlbCall s event) (hstep : Jos.step s event = some s') :
    Settled arena s' ∧ FreshTlb s' (noteTlb s event s' tlb) := by
  obtain ⟨hsettled', hkept⟩ := hsettled.step
    (fun c before cur call hcall => (hcalls c before cur call hcall).1) hstep
  refine ⟨hsettled', hfresh.step hsettled hsettled' hkept (fun k n t ht => ?_)
    fun k e va hcur hedit hva t ht => ?_⟩
  · dsimp only [noteTlb] at ht
    split at ht
    case isTrue hcpu =>
      refine ⟨hcpu, ?_⟩
      cases hcall : callOf s event with
      | none => rwa [hcall] at ht
      | some found =>
        rw [hcall] at ht
        exact (mem_callInvalidates ht).1
    case isFalse => cases ht
  · -- the call of the entry edits what it flushes
    dsimp only [noteTlb] at ht
    split at ht
    case isTrue =>
      rw [noteCalls] at hedit
      cases hcall : callOf s event with
      | none =>
        rw [hcall] at hedit
        cases hedit
      | some found =>
        obtain ⟨c, before, caller, call⟩ := found
        rw [hcall] at hedit ht
        dsimp only [noteEdits] at hedit
        rw [Option.or_none] at hedit
        obtain ⟨-, hcpus, hphys, hdirs⟩ := callOf_before hcall
        have hcur' : before.curenv k = some e := by rw [Kernel.curenv, hcpus]; exact hcur
        have hk : k = c := by_contra fun hne =>
          (hcalls c before caller call hcall).2 e va hedit k hne hcur'
        have hdir : (before.envs e).pgdir = some (s.cpus k).cr3 :=
          (congrFun hdirs e).trans (hsettled.loaded hcur)
        have hnone := (mem_callInvalidates ht).2 e va _ hedit (hk ▸ hcur') hdir hk rfl
        rw [hphys] at hnone
        rw [hnone]
        exact (Option.some_ne_none t).symm
    case isFalse => cases ht

/-- The MMU loads a translation. -/
theorem FreshTlb.load (hfresh : FreshTlb s tlb) (hsettled : Settled arena s) {c : ℕ} {va : Word}
    {t : Translation} (hwalk : walk s.phys (s.cpus c).cr3 va = some t) :
    FreshTlb s (tlb.set c va (t :: tlb c (pgnum va))) := by
  have hcases {k n : ℕ} {t' : Translation} (ht : t' ∈ tlb.set c va (t :: tlb c (pgnum va)) k n) :
      t' ∈ tlb k n ∨ t' = t ∧ k = c ∧ n = pgnum va := by
    rw [mem_set] at ht
    split at ht
    case isTrue hsame =>
      refine (List.mem_cons.mp ht).symm.imp (fun hold => ?_) fun hnew => ⟨hnew, hsame⟩
      rw [hsame.1, hsame.2]
      exact hold
    case isFalse => exact Or.inl ht
  refine ⟨fun k e hcur w hw t' ht => ?_, fun k e hcur w hw t' ht => ?_⟩
  · rcases hcases ht with hold | ⟨rfl, rfl, hpage⟩
    · exact hfresh.low k e hcur w hw t' hold
    · rw [walk_congr hpage, hwalk]
  · rcases hcases ht with hold | ⟨rfl, rfl, hpage⟩
    · exact hfresh.high k e hcur w hw t' hold
    · exact hsettled.walk_high hcur hw ((walk_congr hpage).trans hwalk)

/-- A store through a fresh TLB is one through the page tables. -/
theorem FreshTlb.store (hfresh : FreshTlb s tlb) {c : ℕ} {va : Word} {t : Translation}
    {byte : BitVec 8} (hstore : tlbStore s tlb c va t byte = some s') :
    userStore s c va byte = some s' := by
  simp only [tlbStore, Option.bind_eq_bind, Option.bind_eq_some_iff] at hstore
  obtain ⟨cur, hcur, hstore⟩ := hstore
  split at hstore
  case isTrue hguard =>
    obtain ⟨hstarted, hdir, ht, hpermits⟩ := hguard
    have hva : va < utop := by
      rw [← BitVec.not_le]
      exact fun hhigh => hfresh.high c cur hcur va hhigh t ht hpermits
    have hreach := mmuPage_of_walk (by decide) (hfresh.low c cur hcur va hva t ht) hpermits
    rw [userStore, hcur]
    simp only [Option.bind_eq_bind, Option.bind_some, if_pos (And.intro hstarted hdir), hreach]
    exact hstore
  case isFalse => cases hstore

/-- An event that leaves the CPUs and the TLBs alone. -/
theorem FreshTlb.same (hfresh : FreshTlb s tlb) (hsettled : Settled arena s) {event : Event}
    (hnone : callOf s event = none) (hstep : Jos.step s event = some s')
    (hcpus : s'.cpus = s.cpus) : Settled arena s' ∧ FreshTlb s' tlb := by
  have hcalls : CallsSatisfy TlbCall s event := fun c before cur call hcall => by
    rw [hnone] at hcall
    cases hcall
  obtain ⟨hsettled', hfresh'⟩ := hfresh.enter hsettled hcalls hstep
  have hkept : noteTlb s event s' tlb = tlb := by
    funext k n
    dsimp only [noteTlb]
    rw [hnone, Kernel.curenv, hcpus, ← Kernel.curenv, if_pos rfl]
  exact ⟨hsettled', hkept ▸ hfresh'⟩

/-- What a machine with TLBs does, one without does too. -/
theorem FreshTlb.simulates (hfresh : FreshTlb s tlb) (hsettled : Settled arena s)
    {event : TlbEvent} (hcalls : event.CallsSatisfy TlbCall s)
    (hstep : tlbStep (s, tlb) event = some (s', tlb')) :
    (Transition.Runs Jos.step (CallsSatisfy TlbCall) s s' ∧ Settled arena s') ∧
      FreshTlb s' tlb' := by
  cases event with
  | enter c entry =>
    obtain ⟨next, hnext, hpair⟩ := Option.map_eq_some_iff.mp hstep
    cases hpair
    obtain ⟨hsettled', hfresh'⟩ := hfresh.enter hsettled hcalls hnext
    exact ⟨⟨Transition.Runs.refl.tail hcalls hnext, hsettled'⟩, hfresh'⟩
  | walk c va =>
    obtain ⟨t, hwalk, hpair⟩ := Option.map_eq_some_iff.mp hstep
    cases hpair
    exact ⟨⟨Transition.Runs.refl, hsettled⟩, hfresh.load hsettled hwalk⟩
  | store c va t byte =>
    obtain ⟨next, hnext, hpair⟩ := Option.map_eq_some_iff.mp hstep
    cases hpair
    have hstore : Jos.step s (.store c va byte) = some s' := hfresh.store hnext
    obtain ⟨σ, rfl⟩ := userStore_phys hstore
    obtain ⟨hsettled', hfresh'⟩ := hfresh.same hsettled rfl hstore rfl
    exact ⟨⟨Transition.Runs.refl.tail (fun _ _ _ _ hcall => by cases hcall) hstore, hsettled'⟩,
      hfresh'⟩
  | mmu bits =>
    cases hstep
    have hmmu : Jos.step s (.mmu bits) = some (s.setPhys (s.phys.setMmuBits bits)) := rfl
    obtain ⟨hsettled', hfresh'⟩ := hfresh.same hsettled rfl hmmu rfl
    exact ⟨⟨Transition.Runs.refl.tail (fun _ _ _ _ hcall => by cases hcall) hmmu, hsettled'⟩,
      hfresh'⟩

end Steps

/-! ## Runs -/

section Runs

variable {m : Machine} {programs : List Program} {booted s : Kernel} {tlb : Tlb}

end Runs

end OsLabs.Jos
