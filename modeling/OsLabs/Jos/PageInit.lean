import OsLabs.Jos.BootLayout

/-!
# Which pages `page_init` frees

The free lists that the two versions of `page_init` build, against the comment
that both of them carry: base memory behind page 0 is free, the I/O hole is
not, and extended memory is free from the end of what `boot_alloc` handed out.
-/

namespace OsLabs.Jos

open Function
open OsLabs.IntrusiveList

/-- What `page_init` finds: the amount of memory, the amount of base memory, and the first page
behind the memory of `boot_alloc`, which starts with the kernel image at `EXTPHYSMEM`. -/
structure Layout where
  npages : ℕ
  npagesBasemem : ℕ
  frontier : ℕ
  basemem_le : npagesBasemem ≤ npages
  npages_le : npages ≤ 0x100000
  frontier_extended : 0x100 ≤ frontier
  frontier_le : frontier ≤ 0x10000

/-- `IOPHYSMEM / PGSIZE`. -/
def ioHole : ℕ := 0xA0

namespace Layout

/-- The pages that the comment of `page_init` calls free, without those kept for another use. -/
def usable (l : Layout) (kept : Set ℕ) : Set ℕ :=
  {page | 1 ≤ page ∧ page < l.npagesBasemem ∧ page ∉ kept ∨ l.frontier ≤ page ∧ page < l.npages}

/-- The free list holds what is usable, and nothing of the I/O hole, the kernel image or the memory
of `boot_alloc`. -/
def FreesUsable (l : Layout) (kept : Set ℕ) (σ : Phys) : Prop :=
  ∃ free, Threads σ.link σ.pageFreeList free ∧ free.Nodup ∧
    (∀ page, page ∈ free ↔ page ∈ l.usable kept) ∧
    ∀ page ∈ free, ¬ (ioHole ≤ page ∧ page < l.frontier)

/-- Memory before `page_init`: the list is empty, and anything may be in the arrays. -/
def start (l : Layout) (pages : ℕ → PageInfo) (ram : ℕ → ℕ → Word) : Phys where
  npages := l.npages
  pages := pages
  pageFreeList := none
  mem := ram
  mmuBits := fun _ _ => 0

theorem freesUsable_iff {l : Layout} {kept : Set ℕ} {σ : Phys} {free : List ℕ}
    (hthreads : Threads σ.link σ.pageFreeList free) :
    l.FreesUsable kept σ ↔ (∀ page, page ∈ free ↔ page ∈ l.usable kept) ∧
      ∀ page ∈ free, ¬ (ioHole ≤ page ∧ page < l.frontier) := by
  constructor
  · rintro ⟨other, hother, -, hmem, hhole⟩
    rw [hthreads.unique hother]
    exact ⟨hmem, hhole⟩
  · rintro ⟨hmem, hhole⟩
    exact ⟨free, hthreads, hthreads.nodup, hmem, hhole⟩

/-! ## The later kernel -/

/-- `page_init` of the later kernel, with its two bounds. -/
def pageInit (l : Layout) (σ : Phys) : Phys :=
  pageInitFrom (pageInitFrom σ 1 (pgnum mpentryPaddr - 1)) l.frontier (l.npages - l.frontier)

/-- It is the `page_init` of a booting machine, whose frontier is the end of `envs[]`. -/
theorem pageInit_machine {l : Layout} {m : Machine} (hnpages : m.npages = l.npages)
    (hfrontier : m.med = l.frontier) (σ : Phys) : Jos.pageInit m σ = l.pageInit σ := by
  rw [Jos.pageInit, pageInit, hnpages, hfrontier]

theorem pageInit_threads (l : Layout) (pages : ℕ → PageInfo) (ram : ℕ → ℕ → Word) :
    Threads (l.pageInit (l.start pages ram)).link (l.pageInit (l.start pages ram)).pageFreeList
      (downFrom l.frontier (l.npages - l.frontier) ++ downFrom 1 6) := by
  have hextended := l.frontier_extended
  refine pageInitFrom_threads _ ?_ fun page hpage => ?_
  · rw [show pgnum mpentryPaddr - 1 = 6 by decide, ← List.append_nil (downFrom 1 6)]
    exact pageInitFrom_threads 6 Threads.nil (by simp)
  · rw [mem_downFrom] at hpage
    omega

/-- The later kernel frees six pages of base memory, whatever its size. -/
theorem pageInit_right_iff (l : Layout) (pages : ℕ → PageInfo) (ram : ℕ → ℕ → Word) :
    l.FreesUsable {pgnum mpentryPaddr} (l.pageInit (l.start pages ram)) ↔
      7 ≤ l.npagesBasemem ∧ l.npagesBasemem ≤ 8 := by
  have hextended := l.frontier_extended
  have hentry : pgnum mpentryPaddr = 7 := by decide
  rw [freesUsable_iff (l.pageInit_threads pages ram), hentry]
  simp only [List.mem_append, mem_downFrom, usable, Set.mem_ofPred_eq, Set.mem_singleton_iff,
    ioHole]
  constructor
  · rintro ⟨hmem, -⟩
    have hsix := hmem 6
    have height := hmem 8
    omega
  · intro hbase
    exact ⟨fun page => by omega, fun page => by omega⟩

/-! ## The earlier kernel -/

/-- The first pages of extended memory in use, as the earlier kernel counts them: from page 0 on. -/
def numAlloc (l : Layout) : ℕ := l.frontier

def numIohole : ℕ := 96

/-- The pages that the earlier `page_init` marks as used. -/
def Marked (l : Layout) (i : ℕ) : Prop :=
  i = 0 ∨ l.npagesBasemem ≤ i ∧ i < l.npagesBasemem + numIohole + l.numAlloc

instance (l : Layout) (i : ℕ) : Decidable (l.Marked i) :=
  inferInstanceAs (Decidable (_ ∨ _))

/-- The first `count` iterations of the loop of the earlier `page_init`. -/
def pageInit5From (l : Layout) (σ : Phys) : ℕ → Phys
  | 0 => σ
  | i + 1 =>
      let σ := l.pageInit5From σ i
      if l.Marked i then σ.setRef i 1
      else
        { σ with
          pages := update σ.pages i ⟨σ.pageFreeList, 0⟩
          pageFreeList := some i }

def pageInit5 (l : Layout) (σ : Phys) : Phys :=
  l.pageInit5From { σ with pageFreeList := none } l.npages

/-- The pages below `count` that are not marked, the last one in front. -/
def unmarked (l : Layout) (count : ℕ) : List ℕ :=
  (downFrom 0 count).filter fun i => ¬ l.Marked i

theorem mem_unmarked {l : Layout} {count page : ℕ} :
    page ∈ l.unmarked count ↔ page < count ∧ ¬ l.Marked page := by
  rw [unmarked, List.mem_filter, mem_downFrom, decide_eq_true_eq]
  simp

theorem unmarked_succ_marked {l : Layout} {i : ℕ} (hmarked : l.Marked i) :
    l.unmarked (i + 1) = l.unmarked i := by
  rw [unmarked, downFrom, Nat.zero_add, List.filter_cons_of_neg (by simpa using hmarked)]
  rfl

theorem unmarked_succ {l : Layout} {i : ℕ} (hmarked : ¬ l.Marked i) :
    l.unmarked (i + 1) = i :: l.unmarked i := by
  rw [unmarked, downFrom, Nat.zero_add, List.filter_cons_of_pos (by simpa using hmarked)]
  rfl

theorem pageInit5From_threads (l : Layout) {σ : Phys} (hempty : σ.pageFreeList = none)
    (count : ℕ) :
    Threads (l.pageInit5From σ count).link (l.pageInit5From σ count).pageFreeList
        (l.unmarked count) ∧
      ∀ page ∈ l.unmarked count, (l.pageInit5From σ count).ref page = 0 := by
  induction count with
  | zero =>
    rw [pageInit5From, hempty]
    exact ⟨Threads.nil, fun _ hpage => absurd hpage List.not_mem_nil⟩
  | succ i ih =>
    obtain ⟨hthreads, href⟩ := ih
    have hbelow (page : ℕ) (hpage : page ∈ l.unmarked i) : page ≠ i :=
      (mem_unmarked.mp hpage).1.ne
    by_cases hmarked : l.Marked i
    · have hstep : l.pageInit5From σ (i + 1) = (l.pageInit5From σ i).setRef i 1 := if_pos hmarked
      rw [hstep, unmarked_succ_marked hmarked]
      refine ⟨hthreads.congr fun page hpage => ?_, fun page hpage => ?_⟩
      · simp [Phys.link, Phys.setRef, update_of_ne (hbelow page hpage)]
      · have hzero := href page hpage
        simpa [Phys.ref, Phys.setRef, update_of_ne (hbelow page hpage)] using hzero
    · have hstep : l.pageInit5From σ (i + 1) =
          { l.pageInit5From σ i with
            pages := update (l.pageInit5From σ i).pages i ⟨(l.pageInit5From σ i).pageFreeList, 0⟩
            pageFreeList := some i } := if_neg hmarked
      rw [hstep, unmarked_succ hmarked]
      refine ⟨(hthreads.push fun hmem => hbelow i hmem rfl).congr fun page _ => ?_,
        fun page hpage => ?_⟩
      · by_cases hsame : page = i
        · simp [Phys.link, hsame]
        · simp [Phys.link, update_of_ne hsame]
      · by_cases hsame : page = i
        · simp [Phys.ref, hsame]
        · have hzero := href page ((List.mem_cons.mp hpage).resolve_left hsame)
          simpa [Phys.ref, update_of_ne hsame] using hzero

/-- The free list of the earlier `page_init`. -/
theorem pageInit5_threads (l : Layout) (pages : ℕ → PageInfo) (ram : ℕ → ℕ → Word) :
    Threads (l.pageInit5 (l.start pages ram)).link (l.pageInit5 (l.start pages ram)).pageFreeList
      (l.unmarked l.npages) :=
  (l.pageInit5From_threads rfl l.npages).1

theorem pageInit5_ref (l : Layout) (pages : ℕ → PageInfo) (ram : ℕ → ℕ → Word) {page : ℕ}
    (hpage : page ∈ l.unmarked l.npages) : (l.pageInit5 (l.start pages ram)).ref page = 0 :=
  (l.pageInit5From_threads rfl l.npages).2 page hpage

/-- The earlier kernel marks all of low memory once more behind the I/O hole. -/
theorem pageInit5_right_iff (l : Layout) (pages : ℕ → PageInfo) (ram : ℕ → ℕ → Word) :
    l.FreesUsable ∅ (l.pageInit5 (l.start pages ram)) ↔
      l.npagesBasemem ≤ ioHole ∧ l.npages ≤ l.frontier := by
  have hextended := l.frontier_extended
  have hbase := l.basemem_le
  rw [freesUsable_iff (l.pageInit5_threads pages ram)]
  simp only [mem_unmarked, Marked, numIohole, numAlloc, usable, Set.mem_ofPred_eq,
    Set.mem_empty_iff_false, not_false_eq_true, and_true, ioHole]
  constructor
  · rintro ⟨hmem, hhole⟩
    have hfirst := hmem l.frontier
    have hbehind := hmem l.npagesBasemem
    have hedge := hhole 0xA0
    omega
  · rintro ⟨hlow, hnone⟩
    exact ⟨fun page => by omega, fun page => by omega⟩

end Layout

/-! ## Both versions -/

/-- The later `page_init` is right just when base memory ends at page 7 or 8, and the earlier one
just when no memory lies behind the frontier. -/
theorem page_init_frees_iff (l : Layout) (pages : ℕ → PageInfo) (ram : ℕ → ℕ → Word) :
    (l.FreesUsable {pgnum mpentryPaddr} (l.pageInit (l.start pages ram)) ↔
        7 ≤ l.npagesBasemem ∧ l.npagesBasemem ≤ 8) ∧
      (l.FreesUsable ∅ (l.pageInit5 (l.start pages ram)) ↔
        l.npagesBasemem ≤ ioHole ∧ l.npages ≤ l.frontier) :=
  ⟨l.pageInit_right_iff pages ram, l.pageInit5_right_iff pages ram⟩

/-- 128 MB with 640 KB of base memory, and a kernel of one megabyte. -/
def commonLayout : Layout where
  npages := 0x8000
  npagesBasemem := 0xA0
  frontier := 0x200
  basemem_le := by decide
  npages_le := by decide
  frontier_extended := by decide
  frontier_le := by decide

/-- On a common machine both versions lose pages. -/
theorem commonLayout_loses : ¬ ∀ (l : Layout) (pages : ℕ → PageInfo) (ram : ℕ → ℕ → Word),
    l.FreesUsable {pgnum mpentryPaddr} (l.pageInit (l.start pages ram)) ∧
      l.FreesUsable ∅ (l.pageInit5 (l.start pages ram)) := by
  intro hall
  have hright := (hall commonLayout (fun _ => ⟨none, 0⟩) fun _ _ => 0).1
  rw [Layout.pageInit_right_iff] at hright
  exact absurd hright.2 (by decide)

end OsLabs.Jos
