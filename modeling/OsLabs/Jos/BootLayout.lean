import OsLabs.Jos.BootMap

/-!
# What `mem_init` leaves

The free list that `page_init` builds, and the kernel mappings: entries that
user programs may read exist in the windows at `UPAGES` and `UENVS` only.
-/

namespace OsLabs.Jos

open Function
open OsLabs.IntrusiveList

variable {m : Machine}

/-- The pages that `page_init` puts on the free list. -/
def Machine.pool (m : Machine) : Set ℕ :=
  {page | 1 ≤ page ∧ page < 7 ∨ m.med ≤ page ∧ page < m.npages}

/-- The entries of the kernel half: user programs can read what the windows at
`UPAGES` and `UENVS` show, and write nothing. -/
def Machine.Window (m : Machine) (d i : ℕ) (entry : Word) : Prop :=
  entry &&& pteP = 0 ∨ entry &&& pteU = 0 ∨
    entry &&& pteW = 0 ∧ (d = pdx upages ∧ pgnum entry = m.pagesStart + i ∨
      d = pdx uenvs ∧ pgnum entry = m.envsStart + i)

theorem Machine.window_zero (m : Machine) (d i : ℕ) : m.Window d i 0 :=
  Or.inl (by simp)

/-! ## Numbers -/

theorem Machine.kernPgdir_eq (m : Machine) : m.kernPgdir = m.kernelEnd := rfl

theorem Machine.pagesStart_eq (m : Machine) : m.pagesStart = m.kernelEnd + 1 := rfl

theorem Machine.envsStart_eq (m : Machine) :
    m.envsStart = m.pagesStart + (8 * m.npages + 4095) / 4096 := rfl

theorem Machine.med_eq (m : Machine) : m.med = m.envsStart + 32 := rfl

theorem Machine.Sane.kern_not_pool (hsane : m.Sane) : m.kernPgdir ∉ m.pool := by
  have himage := hsane.image_high
  have hmed := m.med_eq
  have henvs := m.envsStart_eq
  have hpages := m.pagesStart_eq
  have hkern := m.kernPgdir_eq
  rintro (hlow | hhigh) <;> omega

theorem Machine.Sane.pool_lt (hsane : m.Sane) {page : ℕ} (hpage : page ∈ m.pool) :
    page < m.npages := by
  have himage := hsane.image_high
  have hmed := m.med_eq
  have henvs := m.envsStart_eq
  have hpages := m.pagesStart_eq
  have hle := hsane.med_le
  rcases hpage with hlow | hhigh <;> omega

/-! ## The free list of `page_init` -/

/-- The pages from `first` on, the last one in front. -/
def downFrom (first : ℕ) : ℕ → List ℕ
  | 0 => []
  | k + 1 => (first + k) :: downFrom first k

theorem mem_downFrom {first count page : ℕ} :
    page ∈ downFrom first count ↔ first ≤ page ∧ page < first + count := by
  induction count with
  | zero => simp [downFrom]
  | succ k ih =>
      rw [downFrom, List.mem_cons, ih]
      omega

theorem length_downFrom (first count : ℕ) : (downFrom first count).length = count := by
  induction count with
  | zero => rfl
  | succ k ih => rw [downFrom, List.length_cons, ih]

theorem pageInitFrom_mem (σ : Phys) (first count : ℕ) :
    (pageInitFrom σ first count).mem = σ.mem := by
  induction count with
  | zero => rfl
  | succ k ih => exact ih

theorem pageInitFrom_npages (σ : Phys) (first count : ℕ) :
    (pageInitFrom σ first count).npages = σ.npages := by
  induction count with
  | zero => rfl
  | succ k ih => exact ih

theorem pageInitFrom_ref (σ : Phys) (first count page : ℕ) :
    (pageInitFrom σ first count).ref page =
      if page ∈ downFrom first count then 0 else σ.ref page := by
  induction count with
  | zero => simp [pageInitFrom, downFrom]
  | succ k ih =>
      simp only [pageInitFrom, downFrom, Phys.ref, List.mem_cons]
      by_cases hsame : page = first + k
      · simp [hsame]
      · rw [update_of_ne hsame]
        change (pageInitFrom σ first k).ref page = _
        rw [ih]
        simp [hsame, Phys.ref]

theorem pageInitFrom_threads {σ : Phys} {free : List ℕ} {first : ℕ} (count : ℕ)
    (hthreads : Threads σ.link σ.pageFreeList free) (hlow : ∀ page ∈ free, page < first) :
    Threads (pageInitFrom σ first count).link (pageInitFrom σ first count).pageFreeList
      (downFrom first count ++ free) := by
  induction count with
  | zero => exact hthreads
  | succ k ih =>
      have hfresh : first + k ∉ downFrom first k ++ free := by
        rw [List.mem_append, mem_downFrom, not_or]
        exact ⟨by omega, fun hmem => by have := hlow _ hmem; omega⟩
      refine (ih.push hfresh).congr fun page _ => ?_
      by_cases hsame : page = first + k
      · simp [pageInitFrom, Phys.link, hsame]
      · simp [pageInitFrom, Phys.link, update_of_ne hsame]

/-- The free list after `page_init`. -/
def Machine.initialFree (m : Machine) : List ℕ :=
  downFrom m.med (m.npages - m.med) ++ downFrom 1 6

theorem Machine.Sane.mem_initialFree (hsane : m.Sane) {page : ℕ} :
    page ∈ m.initialFree ↔ page ∈ m.pool := by
  have hle := hsane.med_le
  rw [Machine.initialFree, List.mem_append, mem_downFrom, mem_downFrom, Machine.pool,
    Set.mem_ofPred_eq]
  omega

theorem memInitPages_kern (m : Machine) (d : ℕ) :
    (memInitPages m).mem m.kernPgdir d =
      if d = uvptIndex then page2pa m.kernPgdir ||| pteU ||| pteP else 0 := by
  simp only [memInitPages, pageInit, pageInitFrom_mem]
  rw [mem_store_self]
  by_cases hsame : d = uvptIndex
  · rw [if_pos hsame, hsame]
    exact update_self _ _ _
  · rw [if_neg hsame]
    have hne : d ≠ pdx uvpt := hsame
    rw [update_of_ne hne]
    simp [Phys.zeroPage]

/-- The boot phase starts with all of the free list and no page table. -/
theorem Machine.Sane.memInitPages (hsane : m.Sane) :
    KernelHalf m.pool m.kernPgdir m.Window (memInitPages m) m.initialFree := by
  have hnone : ∀ d, d ≠ uvptIndex →
      entryPage ((Jos.memInitPages m).mem m.kernPgdir d) = none := by
    intro d hd
    rw [memInitPages_kern, if_neg hd, entryPage_zero]
  have hnpages : (Jos.memInitPages m).npages = m.npages := by
    simp only [Jos.memInitPages, pageInit, pageInitFrom_npages]
    rfl
  have hmed : 7 ≤ m.med := by
    have himage := hsane.image_high
    have hmed := m.med_eq
    have henvs := m.envsStart_eq
    have hpages := m.pagesStart_eq
    omega
  refine
    { threads := ?_
      free_pool := fun page hpage => hsane.mem_initialFree.mp hpage
      free_ref := fun page hpage => ?_
      pool_lt := fun page hpage => by rw [hnpages]; exact hsane.pool_lt hpage
      npages_le := by
        rw [hnpages]
        exact hsane.npages_le.trans (by decide)
      kern_not_pool := hsane.kern_not_pool
      table_pool := fun d _ hd table htable => by rw [hnone d hd] at htable; cases htable
      table_inj := fun d _ hd _ _ _ table htable => by rw [hnone d hd] at htable; cases htable
      not_lost := fun page hpage => Or.inl (hsane.mem_initialFree.mpr hpage)
      user_empty := fun d hd => hnone d (by rw [uvptIndex_eq]; rw [userPdes_eq] at hd; omega)
      uvpt_entry := by rw [memInitPages_kern, if_pos rfl]
      allowed := fun d _ hd table htable => by rw [hnone d hd] at htable; cases htable }
  · refine pageInitFrom_threads _ ?_ fun page hpage => ?_
    · rw [show pgnum mpentryPaddr - 1 = 6 by decide, ← List.append_nil (downFrom 1 6)]
      exact pageInitFrom_threads 6 Threads.nil (by simp)
    · rw [mem_downFrom] at hpage
      omega
  · rw [Machine.initialFree, List.mem_append] at hpage
    simp only [Jos.memInitPages, pageInit, pageInitFrom_ref]
    rcases hpage with hhigh | hlow
    · rw [if_pos hhigh]
    · split
      · rfl
      · exact if_pos hlow

end OsLabs.Jos
