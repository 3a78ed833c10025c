import OsLabs.Core.Transition
import OsLabs.Jos.PageInit

/-!
# Double frees in the earlier allocator

`page_alloc` of the earlier kernel clears `pp_link`, and `page_free` asserts
that `pp_ref` is zero and `pp_link` is null, so that a page on the free list
should be refused.  The last page of the list has a null link too.
-/

namespace OsLabs.Jos

open Function
open OsLabs.IntrusiveList OsLabs.Transition

/-! ## The allocator -/

/-- `pp->pp_link = link`. -/
def Phys.setLink (σ : Phys) (pp : ℕ) (link : Option ℕ) : Phys :=
  { σ with pages := update σ.pages pp { σ.pages pp with ppLink := link } }

@[simp] theorem link_setLink (σ : Phys) (pp : ℕ) (link : Option ℕ) :
    (σ.setLink pp link).link = update σ.link pp link := by
  funext other
  by_cases h : other = pp <;> simp [Phys.link, Phys.setLink, h]

@[simp] theorem ref_setLink (σ : Phys) (pp : ℕ) (link : Option ℕ) :
    (σ.setLink pp link).ref = σ.ref := by
  funext other
  by_cases h : other = pp <;> simp [Phys.ref, Phys.setLink, h]

/-- `page_alloc` of the earlier kernel. -/
def pageAlloc5 (σ : Phys) (allocZero : Bool) : Option ℕ × Phys :=
  match σ.pageFreeList with
  | none => (none, σ)
  | some result =>
      let σ := { σ with pageFreeList := σ.link result }
      let σ := σ.setLink result none
      (some result, if allocZero then σ.zeroPage result else σ)

/-- `page_free` of the earlier kernel; `none` where an assertion fails. -/
def pageFree5 (σ : Phys) (pp : ℕ) : Option Phys :=
  if σ.ref pp ≠ 0 then none
  else if σ.link pp ≠ none then none
  else some (pageFree σ pp)

def pageDecref5 (σ : Phys) (pp : ℕ) : Option Phys :=
  let ref := σ.ref pp - 1
  let σ := σ.setRef pp ref
  if ref = 0 then pageFree5 σ pp else some σ

/-- A call, on one of `n` pages. -/
inductive PageCall (n : ℕ)
  | alloc (zero : Bool)
  | free (pp : Fin n)
  | decref (pp : Fin n)

variable {n : ℕ}

def runPageCall (σ : Phys) : PageCall n → Option Phys
  | .alloc zero => some (pageAlloc5 σ zero).2
  | .free pp => pageFree5 σ pp
  | .decref pp => pageDecref5 σ pp

/-- The page that a call returns. -/
def pageReturned (σ : Phys) : PageCall n → Option ℕ
  | .alloc zero => (pageAlloc5 σ zero).1
  | _ => none

/-- The page that a call passes to `page_free`. -/
def pageFreed (σ : Phys) : PageCall n → Option ℕ
  | .alloc _ => none
  | .free pp => some pp
  | .decref pp => if σ.ref pp - 1 = 0 then some pp else none

/-- The pages returned and not passed to `page_free` since. -/
def noteReturned (σ : Phys) (call : PageCall n) (_ : Phys) (out : Set ℕ) : Set ℕ :=
  {page | page ∈ out ∧ pageFreed σ call ≠ some page ∨ pageReturned σ call = some page}

/-! ## What the assertions are for -/

/-- The free list ends, visits no page twice, and holds unreferenced pages. -/
def FreeListSound (σ : Phys) : Prop :=
  ∃ free, Threads σ.link σ.pageFreeList free ∧ free.Nodup ∧ ∀ page ∈ free, σ.ref page = 0

def InFreeList (σ : Phys) (pp : ℕ) : Prop :=
  ∃ free, Threads σ.link σ.pageFreeList free ∧ pp ∈ free

/-- A call refuses a page that is free, returns none that is out, and leaves a sound list. -/
structure CallRight (state : Phys × Set ℕ) (call : PageCall n) : Prop where
  detected : ∀ pp, pageFreed state.1 call = some pp → InFreeList state.1 pp →
    runPageCall state.1 call = none
  fresh : ∀ pp, pageReturned state.1 call = some pp → pp ∉ state.2
  sound : ∀ after, runPageCall state.1 call = some after → FreeListSound after

/-- All calls of a run are right, from `page_init` on. -/
def AllocatorRight (σ : Phys) (calls : List (PageCall n)) : Prop :=
  FreeListSound σ ∧ Along (ghosted runPageCall noteReturned) CallRight (σ, ∅) calls

/-- A call does not free the last page of the free list, and drops no reference of a free page. -/
def CallCareful (state : Phys × Set ℕ) : PageCall n → Prop
  | .alloc _ => True
  | .free pp => ¬ (InFreeList state.1 pp ∧ state.1.link pp = none)
  | .decref pp => ¬ InFreeList state.1 pp

/-! ## One call -/

/-- The list `free` is sound, and none of its pages is out. -/
structure Stocked (state : Phys × Set ℕ) (free : List ℕ) : Prop where
  threads : Threads state.1.link state.1.pageFreeList free
  unref : ∀ page ∈ free, state.1.ref page = 0
  home : ∀ page ∈ free, page ∉ state.2

section OneCall

variable {σ : Phys} {out : Set ℕ} {free : List ℕ}

theorem Stocked.sound (hstocked : Stocked (σ, out) free) : FreeListSound σ :=
  ⟨free, hstocked.threads, hstocked.threads.nodup, hstocked.unref⟩

theorem Stocked.inFreeList_iff (hstocked : Stocked (σ, out) free) {pp : ℕ} :
    InFreeList σ pp ↔ pp ∈ free := by
  constructor
  · rintro ⟨other, hother, hmem⟩
    rwa [hstocked.threads.unique hother]
  · intro hmem
    exact ⟨free, hstocked.threads, hmem⟩

theorem pageFree5_eq_some {after : Phys} {pp : ℕ} (hfree : pageFree5 σ pp = some after) :
    σ.ref pp = 0 ∧ σ.link pp = none ∧ after = pageFree σ pp := by
  unfold pageFree5 at hfree
  split at hfree
  · cases hfree
  · split at hfree
    · cases hfree
    · exact ⟨not_not.mp ‹_›, not_not.mp ‹_›, (Option.some.inj hfree).symm⟩

/-- What is pushed is home again. -/
theorem Stocked.push (hstocked : Stocked (σ, out) free) {pp : ℕ} (hnew : pp ∉ free)
    (href : σ.ref pp = 0) {out' : Set ℕ} (hout : ∀ page ∈ out', page ∈ out ∧ page ≠ pp) :
    Stocked (pageFree σ pp, out') (pp :: free) where
  threads := by
    rw [link_pageFree]
    exact hstocked.threads.push hnew
  unref := by
    rw [ref_pageFree]
    intro page hpage
    rcases List.mem_cons.mp hpage with rfl | hold
    · exact href
    · exact hstocked.unref page hold
  home := by
    intro page hpage hmem
    obtain ⟨hold, hne⟩ := hout page hmem
    exact hstocked.home page ((List.mem_cons.mp hpage).resolve_left hne) hold

/-- A reference count outside the list does not matter. -/
theorem Stocked.setRef (hstocked : Stocked (σ, out) free) {pp : ℕ} (hother : pp ∉ free)
    (ref : BitVec 16) : Stocked (σ.setRef pp ref, out) free where
  threads := by
    rw [link_setRef]
    exact hstocked.threads
  unref := by
    intro page hpage
    have hne : page ≠ pp := fun hsame => hother (hsame ▸ hpage)
    rw [ref_setRef, update_of_ne hne]
    exact hstocked.unref page hpage
  home := hstocked.home

theorem Stocked.mono (hstocked : Stocked (σ, out) free) {out' : Set ℕ}
    (hout : ∀ page ∈ out', page ∈ out) : Stocked (σ, out') free :=
  ⟨hstocked.threads, hstocked.unref, fun page hpage hmem =>
    hstocked.home page hpage (hout page hmem)⟩

theorem pageAlloc5_some {result : ℕ} (hhead : σ.pageFreeList = some result) (zero : Bool) :
    ∃ after, pageAlloc5 σ zero = (some result, after) ∧ after.link = update σ.link result none ∧
      after.ref = σ.ref ∧ after.pageFreeList = σ.link result := by
  let popped : Phys := { σ with pageFreeList := σ.link result }
  have hlink := link_setLink popped result none
  have href := ref_setLink popped result none
  let cut := popped.setLink result none
  have halloc : pageAlloc5 σ zero = (some result, if zero then cut.zeroPage result else cut) := by
    rw [pageAlloc5, hhead]
  rw [halloc]
  cases zero
  · exact ⟨_, rfl, hlink, href, rfl⟩
  · exact ⟨_, rfl, hlink, href, rfl⟩

/-- `page_alloc` takes the first page off the list. -/
theorem Stocked.alloc (hstocked : Stocked (σ, out) free) (zero : Bool) :
    (∀ pp, (pageAlloc5 σ zero).1 = some pp → pp ∈ free) ∧
      ∃ rest, Stocked ((pageAlloc5 σ zero).2,
        {page | page ∈ out ∨ (pageAlloc5 σ zero).1 = some page}) rest := by
  have hthreads := hstocked.threads
  cases hhead : σ.pageFreeList with
  | none =>
    have halloc : pageAlloc5 σ zero = (none, σ) := by rw [pageAlloc5, hhead]
    rw [halloc]
    refine ⟨nofun, free, hstocked.mono fun page hpage => ?_⟩
    rcases hpage with hout | hreturned
    · exact hout
    · cases hreturned
  | some result =>
    obtain ⟨after, halloc, hlink, href, hlist⟩ := pageAlloc5_some hhead zero
    rw [hhead] at hthreads
    cases hthreads with
    | @cons _ rest hrest =>
      have hnodup := (Threads.cons hrest).nodup
      have hnew : result ∉ rest := (List.nodup_cons.mp hnodup).1
      have hne (page : ℕ) (hpage : page ∈ rest) : page ≠ result := fun hsame =>
        hnew (hsame ▸ hpage)
      rw [halloc]
      refine ⟨fun pp hpp => ?_, rest, ?_, fun page hpage => ?_, fun page hpage hmem => ?_⟩
      · cases hpp
        exact List.mem_cons_self
      · rw [hlink, hlist]
        exact hrest.congr fun page hpage => update_of_ne (hne page hpage) _ _
      · rw [href]
        exact hstocked.unref page (List.mem_cons_of_mem _ hpage)
      · rcases hmem with hmem | hresult
        · exact hstocked.home page (List.mem_cons_of_mem _ hpage) hmem
        · exact hne page hpage (Option.some.inj hresult).symm

/-- A careful call is right, and leaves a stocked list. -/
theorem Stocked.careful (hstocked : Stocked (σ, out) free) {call : PageCall n}
    (hcareful : CallCareful (σ, out) call) :
    CallRight (σ, out) call ∧ ∀ after, runPageCall σ call = some after →
      ∃ rest, Stocked (after, noteReturned σ call after out) rest := by
  have hright (hdetected : ∀ pp, pageFreed σ call = some pp → pp ∈ free →
        runPageCall σ call = none)
      (hfresh : ∀ pp, pageReturned σ call = some pp → pp ∉ out)
      (hafter : ∀ after, runPageCall σ call = some after →
        ∃ rest, Stocked (after, noteReturned σ call after out) rest) :
      CallRight (σ, out) call ∧ ∀ after, runPageCall σ call = some after →
        ∃ rest, Stocked (after, noteReturned σ call after out) rest := by
    refine ⟨⟨fun pp hpp hon => hdetected pp hpp (hstocked.inFreeList_iff.mp hon), hfresh,
      fun after hrun => ?_⟩, hafter⟩
    obtain ⟨rest, hrest⟩ := hafter after hrun
    exact hrest.sound
  cases call with
  | alloc zero =>
    obtain ⟨hfirst, rest, hrest⟩ := hstocked.alloc zero
    refine hright (fun pp hpp => by cases hpp) (fun pp hpp => hstocked.home pp (hfirst pp hpp))
      fun after hrun => ⟨rest, ?_⟩
    cases hrun
    refine hrest.mono fun page hpage => ?_
    rcases hpage with ⟨hout, -⟩ | hreturned
    · exact Or.inl hout
    · exact Or.inr hreturned
  | free pp =>
    refine hright (fun other hother hmem => ?_) (fun other hother => by cases hother)
      fun after hrun => ?_
    · cases hother
      have hlink : σ.link pp ≠ none := fun hnull =>
        hcareful ⟨hstocked.inFreeList_iff.mpr hmem, hnull⟩
      rw [runPageCall, pageFree5, if_neg (not_not.mpr (hstocked.unref _ hmem)), if_pos hlink]
    · obtain ⟨href, hnull, rfl⟩ := pageFree5_eq_some hrun
      have hnew : (pp : ℕ) ∉ free := fun hmem =>
        hcareful ⟨hstocked.inFreeList_iff.mpr hmem, hnull⟩
      refine ⟨_, hstocked.push hnew href fun page hpage => ?_⟩
      rcases hpage with ⟨hout, hkept⟩ | hreturned
      · exact ⟨hout, fun hsame => hkept (congrArg some hsame.symm)⟩
      · cases hreturned
  | decref pp =>
    have hnew : (pp : ℕ) ∉ free := fun hmem => hcareful (hstocked.inFreeList_iff.mpr hmem)
    have hset := hstocked.setRef hnew (σ.ref pp - 1)
    by_cases hlast : σ.ref pp - 1 = 0
    · have hrunsTo : runPageCall σ (PageCall.decref pp) =
          pageFree5 (σ.setRef pp (σ.ref pp - 1)) pp := if_pos hlast
      have hfreed : pageFreed σ (PageCall.decref pp) = some (pp : ℕ) := if_pos hlast
      refine hright (fun other hother hmem => ?_) (fun other hother => by cases hother)
        fun after hrun => ?_
      · rw [hfreed] at hother
        cases hother
        exact absurd hmem hnew
      · rw [hrunsTo] at hrun
        obtain ⟨href, -, rfl⟩ := pageFree5_eq_some hrun
        refine ⟨_, hset.push hnew href fun page hpage => ?_⟩
        rcases hpage with ⟨hout, hkept⟩ | hreturned
        · rw [hfreed] at hkept
          exact ⟨hout, fun hsame => hkept (congrArg some hsame.symm)⟩
        · cases hreturned
    · have hrunsTo : runPageCall σ (PageCall.decref pp) = some (σ.setRef pp (σ.ref pp - 1)) :=
        if_neg hlast
      have hfreed : pageFreed σ (PageCall.decref pp) = none := if_neg hlast
      refine hright (fun other hother => ?_) (fun other hother => by cases hother)
        fun after hrun => ⟨free, ?_⟩
      · rw [hfreed] at hother
        cases hother
      · rw [hrunsTo] at hrun
        cases hrun
        refine hset.mono fun page hpage => ?_
        rcases hpage with ⟨hout, -⟩ | hreturned
        · exact hout
        · cases hreturned

/-- A call that is not careful is not right. -/
theorem Stocked.careless (hstocked : Stocked (σ, out) free) {call : PageCall n}
    (hright : CallRight (σ, out) call) : CallCareful (σ, out) call := by
  cases call with
  | alloc zero => trivial
  | free pp =>
    rintro ⟨hon, hnull⟩
    have hzero := hstocked.unref _ (hstocked.inFreeList_iff.mp hon)
    have hpasses : runPageCall σ (PageCall.free pp) = some (pageFree σ pp) := by
      rw [runPageCall, pageFree5, if_neg (not_not.mpr hzero), if_neg (not_not.mpr hnull)]
    have hpanics := hright.detected pp rfl hon
    rw [hpasses] at hpanics
    cases hpanics
  | decref pp =>
    intro hon
    have hmem := hstocked.inFreeList_iff.mp hon
    have hzero : σ.ref pp = 0 := hstocked.unref _ hmem
    have hrun : runPageCall σ (PageCall.decref pp) = some (σ.setRef pp (σ.ref pp - 1)) :=
      if_neg (by rw [hzero]; decide)
    -- the list is the same, and the count of one of its pages wrapped
    obtain ⟨other, hother, -, hunref⟩ := hright.sound _ hrun
    rw [link_setRef] at hother
    have hsame := hstocked.threads.unique hother
    have hwrapped := hunref pp (hsame ▸ hmem)
    rw [ref_setRef, update_self, hzero] at hwrapped
    exact absurd hwrapped (by decide)

end OneCall

/-! ## Runs -/

theorem Layout.stocked (l : Layout) (pages : ℕ → PageInfo) (ram : ℕ → ℕ → Word) :
    Stocked (l.pageInit5 (l.start pages ram), ∅) (l.unmarked l.npages) where
  threads := l.pageInit5_threads pages ram
  unref := fun _ hpage => l.pageInit5_ref pages ram hpage
  home := fun page _ => Set.notMem_empty page

/-- The allocator is right in exactly the runs that never free the last page of the free list and
never drop a reference of a free page. -/
theorem lab5_allocator_right_iff (l : Layout) (pages : ℕ → PageInfo) (ram : ℕ → ℕ → Word)
    (calls : List (PageCall l.npages)) :
    AllocatorRight (l.pageInit5 (l.start pages ram)) calls ↔
      Along (ghosted runPageCall noteReturned) CallCareful
        (l.pageInit5 (l.start pages ram), ∅) calls := by
  have hstocked := l.stocked pages ram
  rw [AllocatorRight, and_iff_right hstocked.sound]
  refine @along_iff_of_invariant _ _ _ _ _ (fun state => ∃ free, Stocked state free) ?_ ?_ _
    ⟨_, hstocked⟩ calls
  · rintro ⟨σ, out⟩ call ⟨free, hfree⟩
    exact ⟨hfree.careless, fun hcareful => (hfree.careful hcareful).1⟩
  · rintro ⟨σ, out⟩ call after ⟨free, hfree⟩ hcareful hstep
    obtain ⟨next, hnext, rfl⟩ := Option.map_eq_some_iff.mp hstep
    exact (hfree.careful hcareful).2 next hnext

/-! ## The end of the list -/

/-- Page 1 ends the list of `page_init`. -/
theorem Layout.unmarked_last {l : Layout} (hbase : 1 < l.npagesBasemem) (k : ℕ) :
    ∃ before, l.unmarked (k + 2) = before ++ [1] := by
  induction k with
  | zero =>
    have hone : ¬ l.Marked 1 := by
      rintro (hzero | hused)
      · exact absurd hzero (by decide)
      · omega
    refine ⟨[], ?_⟩
    rw [unmarked_succ hone, unmarked_succ_marked (Or.inl rfl)]
    rfl
  | succ k ih =>
    obtain ⟨before, hbefore⟩ := ih
    by_cases hmarked : l.Marked (k + 2)
    · exact ⟨before, (unmarked_succ_marked hmarked).trans hbefore⟩
    · refine ⟨(k + 2) :: before, ?_⟩
      rw [unmarked_succ hmarked, hbefore, List.cons_append]

/-- `page_free` takes page 1 right after `page_init`, although it is free. -/
theorem lab5_allocator_takes_last : ¬ ∀ (l : Layout) (pages : ℕ → PageInfo) (ram : ℕ → ℕ → Word)
    (calls : List (PageCall l.npages)),
    AllocatorRight (l.pageInit5 (l.start pages ram)) calls := by
  intro hall
  obtain ⟨-, hright, -⟩ := hall commonLayout (fun _ => ⟨none, 0⟩) (fun _ _ => 0)
    [PageCall.free ⟨1, by decide⟩]
  have hstocked := commonLayout.stocked (fun _ => ⟨none, 0⟩) fun _ _ => 0
  obtain ⟨before, hbefore⟩ := @Layout.unmarked_last commonLayout (by decide) 0x7FFE
  have hlist : commonLayout.unmarked commonLayout.npages = before ++ [1] := hbefore
  rw [hlist] at hstocked
  refine hstocked.careless hright ⟨hstocked.inFreeList_iff.mpr (by simp), ?_⟩
  have hend := hstocked.threads.suffix.tail
  exact hend.head_eq

end OsLabs.Jos
