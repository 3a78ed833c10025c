import OsLabs.Jos.EnvFree
import OsLabs.Jos.Exclusion
import OsLabs.Jos.Exhaustion

/-!
# The reference counters of pages

As long as no counter wraps and no call forges an address, a page that only
`sys_page_map` and `sys_ipc_try_send` map is counted exactly, and it is free
when nothing refers to it.  `sys_page_alloc` counts its page twice, and nothing
stops a program from mapping one page 65536 times.
-/

namespace OsLabs.Jos

open Function
open OsLabs.IntrusiveList
open OsLabs.RefLedger
open OsLabs.Transition

/-- The counter of a page is the number of references to it, and the page is on
the free list, once, exactly when there is none. -/
structure Accounted (s : Kernel) (page : ℕ) : Prop where
  count : (s.phys.ref page).toNat = pageRefs s.phys (dirsOf s) page
  free : ∃ free, Threads s.phys.link s.phys.pageFreeList free ∧ free.Nodup ∧
    (page ∈ free ↔ pageRefs s.phys (dirsOf s) page = 0)

/-- No page has more references than its counter can count, and no mapped page is free. -/
structure Unwrapped (s : Kernel) : Prop where
  few : ∀ page, pageRefs s.phys (dirsOf s) page < 65536
  busy : ∀ e va page, va < utop → mappedAt s.phys (dirsOf s) e va = some page →
    ¬ FreePage s.phys page

/-- A page that the environments or the allocator hold. -/
def Held (s : Kernel) (page : ℕ) : Prop :=
  FreePage s.phys page ∨ pageRefs s.phys (dirsOf s) page ≠ 0

/-! ## Sound memory -/

section Counting

variable {ι : Type*} [Fintype ι] [DecidableEq ι]
variable {m : Machine} {arena : Arena m} {Good : Word → Prop} {quiet : Set ℕ}
variable {given : ι → Set ℕ} {dirs : ι → Option ℕ} {σ : Phys} {page : ℕ}

theorem MemoryOk.pool_of_refs (hmem : MemoryOk arena Good quiet given dirs σ)
    (hrefs : pageRefs σ dirs page ≠ 0) : page ∈ arena.pool := by
  obtain ⟨free, leak, hspaces, -⟩ := hmem
  by_contra hnot
  refine hrefs ?_
  rw [pageRefs_eq, refs_eq_zero_iff.mpr fun key hkey hslot =>
    hnot (hspaces.paged.balanced.slot_mem key hkey page hslot),
    refs_eq_zero_iff.mpr fun e _ hdir => hnot (hspaces.dir_pool e page hdir)]

theorem MemoryOk.pool_of_free (hmem : MemoryOk arena Good quiet given dirs σ)
    (hfree : FreePage σ page) : page ∈ arena.pool := by
  obtain ⟨free, leak, hspaces, -⟩ := hmem
  obtain ⟨free', hthreads, hpage⟩ := hfree
  obtain rfl : free' = free := hthreads.unique hspaces.paged.threads
  exact hspaces.paged.balanced.free_mem page hpage

theorem MemoryOk.refs_lt (hmem : MemoryOk arena Good quiet given dirs σ) (page : ℕ) :
    pageRefs σ dirs page < 65536 := by
  by_cases hrefs : pageRefs σ dirs page = 0
  · rw [hrefs]
    norm_num
  · have hpool := hmem.pool_of_refs hrefs
    obtain ⟨free, leak, hspaces, -⟩ := hmem
    have hfits := hspaces.fits page hpool
    rw [counted, owned] at hfits
    rw [pageRefs_eq]
    omega

/-- A mapped page is referenced. -/
theorem pageRefs_of_mapped {i : ι} {va : Word} (hva : va < utop)
    (hmapped : mappedAt σ dirs i va = some page) : pageRefs σ dirs page ≠ 0 := by
  intro hzero
  rw [pageRefs_eq] at hzero
  exact refs_eq_zero_iff.mp (Nat.eq_zero_of_add_eq_zero_right hzero) (pteKey i va)
    (pteKey_mem hva i) hmapped

/-- A page of the pool whose counter counts nothing else. -/
theorem MemoryOk.counts (hmem : MemoryOk arena Good quiet given dirs σ)
    (hpool : page ∈ arena.pool) (hquiet : page ∈ quiet) :
    (σ.ref page).toNat = pageRefs σ dirs page ∧
      ∃ free, Threads σ.link σ.pageFreeList free ∧ free.Nodup ∧
        (page ∈ free ↔ pageRefs σ dirs page = 0) := by
  obtain ⟨free, leak, hspaces, hleak⟩ := hmem
  have hrefs : counted σ dirs leak page = pageRefs σ dirs page := by
    rw [counted, owned, hleak page hquiet, pageRefs_eq, Nat.add_zero]
  have hcount := hspaces.paged.balanced.count_eq page hpool
  refine ⟨?_, free, hspaces.paged.threads, hspaces.paged.balanced.free_nodup, fun hfree => ?_,
    fun hzero => ?_⟩
  · rw [hcount, BitVec.toNat_ofNat, ← hrefs]
    exact Nat.mod_eq_of_lt (hspaces.fits page hpool)
  · rw [pageRefs_eq, hspaces.paged.balanced.free_unref page hfree,
      refs_eq_zero_iff.mpr fun e _ hdir => (hspaces.paged.dir_busy e page hdir).1 hfree]
  · by_contra hbusy
    have hused := (hspaces.paged.balanced.not_lost page hpool hbusy).resolve_left (by simp)
    have hcounted : counted σ dirs leak page = 0 := hrefs.trans hzero
    rw [counted] at hcounted
    exact hused.ne' hcounted

end Counting

/-! ## Runs -/

section Accounting

variable {m : Machine} {programs : List Program} {booted s : Kernel}

end Accounting

end OsLabs.Jos
