import OsLabs.Jos.Kdebug
import OsLabs.Jos.Trap

/-!
# Line numbers of kernel addresses

The tables of the kernel are sorted: its files and its functions by address,
the lines of a function by their distance from its start.  `debuginfo_eip`
narrows a region down three times.  The theorems say what each of the searches
hands on, and for which addresses the line number is the right one.
-/

namespace OsLabs.Jos

/-! ## Well-formed tables -/

/-- The table read is `stab` between two indices, in all its fields. -/
structure ReadsAll (stabs : Stabs) (stab : ℤ → Stab) (first last : ℤ) : Prop
    extends Reads stabs stab first last where
  strx : ∀ i, first ≤ i → i ≤ last → stabs.nStrx i = some (stab i).nStrx
  desc : ∀ i, first ≤ i → i ≤ last → stabs.nDesc i = some (stab i).nDesc

/-- The tables of the kernel, well formed. -/
structure KernelStabs where
  memory : Memory
  data : StabData
  stab : ℤ → Stab
  count : ℤ
  counted : data.count = some count
  entries : ReadsAll (memory.stabs data.stabs) stab 0 (count - 1)
  strings : data.stabstr < data.stabstrEnd → ∀ i : ℕ, i < (data.stabstrEnd - data.stabstr).toNat →
    (memory (data.stabstr + BitVec.ofNat 32 i)).isSome
  files : Increasing stab nSo 0 (count - 1)
  functions : Increasing stab nFun 0 (count - 1)
  lines : ∀ k r, EntryIn stab nFun 0 (count - 1) k → r ≤ count - 1 →
    (∀ j, k < j → j ≤ r → (stab j).nType ≠ nFun ∧ (stab j).nType ≠ nSo) →
      Increasing stab nSline k r

/-- Entry `lfile` is the file that contains `addr`, and `rfile` its last index. -/
def KernelStabs.FileOf (t : KernelStabs) (addr : Word) (lfile rfile : ℤ) : Prop :=
  LastUpTo t.stab nSo 0 (t.count - 1) addr lfile ∧ ClosedBy t.stab nSo 0 (t.count - 1) lfile rfile

/-- Where the lines for `addr` lie within a file, and the offset to search for. -/
inductive Region (stab : ℤ → Stab) (addr : Word) (lfile rfile : ℤ) : ℤ → ℤ → Word → Prop
  | function {k rfun : ℤ} : LastUpTo stab nFun lfile rfile addr k →
      ClosedBy stab nFun lfile rfile k rfun →
      Region stab addr lfile rfile k rfun (addr - (stab k).nValue)
  | file : (∀ k, ¬ LastUpTo stab nFun lfile rfile addr k) →
      Region stab addr lfile rfile lfile rfile addr

/-- Entry `m` is the line of `addr`. -/
def KernelStabs.LineOf (t : KernelStabs) (addr : Word) (m : ℤ) : Prop :=
  ∃ lfile rfile l r offset, t.FileOf addr lfile rfile ∧
    Region t.stab addr lfile rfile l r offset ∧ LastUpTo t.stab nSline l r offset m

/-- `debuginfo_eip` returns, whatever environment runs, and returns 0 only when there is a line,
which it has then stored. -/
def LineRight (lab : Lab) (t : KernelStabs) (addr : Word) : Prop :=
  ∃ ret info, (∀ σ pgdir, debuginfoEip lab σ pgdir t.memory t.data addr = some (ret, info)) ∧
    (ret = -1 ∨ ret = 0 ∧ ∃ m, t.LineOf addr m ∧ info.eipLine = (t.stab m).nDesc.setWidth 32)

/-- The searches for the file, the function and the line are right: they do not come upon the next
address, the table does not begin with a file above the address, and when the file has functions
one of them is not above it. -/
structure CleanSearch (t : KernelStabs) (addr : Word) : Prop where
  file : Separated t.stab nSo 0 (t.count - 1) addr
  begins : EntryIn t.stab nSo 0 (t.count - 1) 0 → (t.stab 0).nValue ≤ addr
  function : ∀ lfile rfile, t.FileOf addr lfile rfile → lfile ≠ 0 →
    Separated t.stab nFun lfile rfile addr ∧
      ∀ k, EntryIn t.stab nFun lfile rfile k → ∃ k', LastUpTo t.stab nFun lfile rfile addr k'
  line : ∀ lfile rfile l r offset, t.FileOf addr lfile rfile → lfile ≠ 0 →
    Region t.stab addr lfile rfile l r offset →
      Increasing t.stab nSline l r ∧ Separated t.stab nSline l r offset

/-- When the last step takes the right line, or sees that there is none. -/
def Locates (lab : Lab) (stab : ℤ → Stab) (l r : ℤ) (offset : Word) : Prop :=
  match lab with
  | .five => (∀ m, ¬ EntryIn stab nSline l r m) ∨ ∃ m right, LastUpTo stab nSline l r offset m ∧
      ClosedBy stab nSline l r m right ∧ (stab right).nDesc = (stab m).nDesc
  | .seven => ∃ m, LastUpTo stab nSline l r offset m

section Regions

variable {stab : ℤ → Stab} {type : BitVec 8} {first last : ℤ} {addr : Word}

theorem LastUpTo.unique {i j : ℤ} (hi : LastUpTo stab type first last addr i)
    (hj : LastUpTo stab type first last addr j) : i = j :=
  le_antisymm (hj.2.2 i hi.1 hi.2.1) (hi.2.2 j hj.1 hj.2.1)

theorem ClosedBy.unique {i right right' : ℤ} (h : ClosedBy stab type first last i right)
    (h' : ClosedBy stab type first last i right') : right = right' := by
  rcases h with ⟨j, hj, rfl⟩ | ⟨hall, rfl⟩
  · rcases h' with ⟨k, hk, rfl⟩ | ⟨hall, -⟩
    · have hjk := hj.2.2.2 k hk.2.1
      have hkj := hk.2.2.2 j hj.2.1
      have hij := hj.2.2.1
      have hik := hk.2.2.1
      omega
    · exact absurd (hall j hj.2.1) (not_le.mpr hj.2.2.1)
  · rcases h' with ⟨k, hk, -⟩ | ⟨-, rfl⟩
    · exact absurd (hall k hk.2.1) (not_le.mpr hk.2.2.1)
    · rfl

theorem ClosedBy.le_last {i right : ℤ} (h : ClosedBy stab type first last i right) :
    right ≤ last := by
  rcases h with ⟨j, hj, rfl⟩ | ⟨-, rfl⟩
  · have hle := hj.2.1.2.1
    omega
  · exact le_rfl

theorem Region.unique {lfile rfile l r l' r' : ℤ} {offset offset' : Word}
    (h : Region stab addr lfile rfile l r offset)
    (h' : Region stab addr lfile rfile l' r' offset') :
    l = l' ∧ r = r' ∧ offset = offset' := by
  cases h with
  | function hk hclosed =>
    cases h' with
    | function hk' hclosed' =>
      obtain rfl := hk.unique hk'
      exact ⟨rfl, hclosed.unique hclosed', rfl⟩
    | file hnone => exact absurd hk (hnone _)
  | file hnone =>
    cases h' with
    | function hk' hclosed' => exact absurd hk' (hnone _)
    | file hnone' => exact ⟨rfl, rfl, rfl⟩

/-- The last entry up to an address exists when there is an entry up to it. -/
theorem exists_lastUpTo {i : ℤ} (hi : EntryIn stab type first last i)
    (hvalue : (stab i).nValue ≤ addr) : ∃ m, LastUpTo stab type first last addr m := by
  obtain ⟨m, ⟨hm, hmvalue⟩, hmax⟩ := Int.exists_greatest_of_bdd
    (P := fun j => EntryIn stab type first last j ∧ (stab j).nValue ≤ addr)
    ⟨last, fun j hj => hj.1.2.1⟩ ⟨i, hi, hvalue⟩
  exact ⟨m, hm, hmvalue, fun j hj hjvalue => hmax j ⟨hj, hjvalue⟩⟩

theorem exists_firstAbove {i : ℤ} (hi : EntryIn stab type first last i)
    (habove : ∀ j, EntryIn stab type first last j → addr < (stab j).nValue) :
    ∃ f, FirstAbove stab type first last addr f := by
  obtain ⟨f, hf, hmin⟩ := Int.exists_least_of_bdd (P := EntryIn stab type first last)
    ⟨first, fun j hj => hj.1⟩ ⟨i, hi⟩
  exact ⟨f, hf, habove f hf, fun j hj _ => hmin j hj⟩

/-- Without an entry up to the address, all entries are above it. -/
theorem above_of_no_lastUpTo (hnone : ∀ m, ¬ LastUpTo stab type first last addr m) :
    ∀ j, EntryIn stab type first last j → addr < (stab j).nValue := by
  intro j hj
  by_contra hle
  obtain ⟨m, hm⟩ := exists_lastUpTo hj (BitVec.not_lt.mp hle)
  exact hnone m hm

end Regions

/-! ## The three searches -/

section Reading

variable {stabs : Stabs} {stab : ℤ → Stab} {first last : ℤ}

theorem ReadsAll.restrict (hreads : ReadsAll stabs stab first last) {l r : ℤ} (hl : first ≤ l)
    (hr : r ≤ last) : ReadsAll stabs stab l r where
  type := fun i hlow hhigh => hreads.type i (hl.trans hlow) (hhigh.trans hr)
  value := fun i hlow hhigh => hreads.value i (hl.trans hlow) (hhigh.trans hr)
  strx := fun i hlow hhigh => hreads.strx i (hl.trans hlow) (hhigh.trans hr)
  desc := fun i hlow hhigh => hreads.desc i (hl.trans hlow) (hhigh.trans hr)

theorem ReadsAll.readable (hreads : ReadsAll stabs stab first last) {i : ℤ} (hlow : first ≤ i)
    (hhigh : i ≤ last) : stabs.Readable i where
  strx := by rw [hreads.strx i hlow hhigh]; rfl
  type := by rw [hreads.type i hlow hhigh]; rfl
  desc := by rw [hreads.desc i hlow hhigh]; rfl
  value := by rw [hreads.value i hlow hhigh]; rfl

end Reading

section Searches

variable {t : KernelStabs} {addr : Word} {lfile rfile : ℤ}

theorem KernelStabs.FileOf.bounds (hfile : t.FileOf addr lfile rfile) :
    0 ≤ lfile ∧ lfile ≤ rfile ∧ rfile ≤ t.count - 1 :=
  ⟨hfile.1.1.1, hfile.2.ge hfile.1.1, hfile.2.le_last⟩

theorem KernelStabs.FileOf.unique {lfile' rfile' : ℤ} (hfile : t.FileOf addr lfile rfile)
    (hfile' : t.FileOf addr lfile' rfile') : lfile = lfile' ∧ rfile = rfile' := by
  obtain rfl := hfile.1.unique hfile'.1
  exact ⟨rfl, hfile.2.unique hfile'.2⟩

/-- The search for the file finds the file, if there is one. -/
theorem CleanSearch.search_file (hclean : CleanSearch t addr) :
    (∃ rfile, stabBinsearch (t.memory.stabs t.data.stabs) nSo 0 (t.count - 1) addr =
        some (0, rfile)) ∧ (∀ lfile rfile, t.FileOf addr lfile rfile → lfile = 0) ∨
      ∃ lfile rfile, t.FileOf addr lfile rfile ∧ lfile ≠ 0 ∧
        stabBinsearch (t.memory.stabs t.data.stabs) nSo 0 (t.count - 1) addr =
          some (lfile, rfile) := by
  by_cases hfile : ∃ lfile, LastUpTo t.stab nSo 0 (t.count - 1) addr lfile
  · obtain ⟨lfile, hlast⟩ := hfile
    obtain ⟨rfile, hresult, hclosed⟩ := hclean.file.found t.entries.toReads t.files hlast
    by_cases hzero : lfile = 0
    · subst hzero
      exact Or.inl ⟨⟨rfile, hresult⟩, fun lfile' _ hfile' => hfile'.1.unique hlast⟩
    · exact Or.inr ⟨lfile, rfile, ⟨hlast, hclosed⟩, hzero, hresult⟩
  · have hnone : ∀ m, ¬ LastUpTo t.stab nSo 0 (t.count - 1) addr m := not_exists.mp hfile
    refine Or.inl ⟨?_, fun lfile _ hfile' => absurd hfile'.1 (hnone lfile)⟩
    by_cases hentry : ∃ i, EntryIn t.stab nSo 0 (t.count - 1) i
    · obtain ⟨i, hi⟩ := hentry
      have habove := above_of_no_lastUpTo hnone
      obtain ⟨f, hf⟩ := exists_firstAbove hi habove
      have hlow : 0 < f := lt_of_le_of_ne hf.1.1 fun hzero => by
        subst hzero
        exact BitVec.not_lt.mpr (hclean.begins hf.1) hf.2.1
      exact ⟨f - 1, stabBinsearch_above t.entries.toReads t.files hf hlow habove⟩
    · exact ⟨0 - 1, stabBinsearch_none t.entries.toReads addr (not_exists.mp hentry)⟩

/-- Whatever entry is the first of a region, it is not a line. -/
theorem Region.first_type {l r : ℤ} {offset : Word} (hfile : t.FileOf addr lfile rfile)
    (hregion : Region t.stab addr lfile rfile l r offset) : (t.stab l).nType ≠ nSline := by
  cases hregion with
  | function hk hclosed =>
    rw [hk.1.2.2]
    decide
  | file hnone =>
    rw [hfile.1.1.2.2]
    decide

theorem Region.bounds {l r : ℤ} {offset : Word} (hfile : t.FileOf addr lfile rfile)
    (hregion : Region t.stab addr lfile rfile l r offset) : lfile ≤ l ∧ l ≤ r ∧ r ≤ rfile := by
  cases hregion with
  | function hk hclosed => exact ⟨hk.1.1, hclosed.ge hk.1, hclosed.le_last⟩
  | file hnone => exact ⟨le_rfl, hfile.bounds.2.1, le_rfl⟩

/-- The search for the function hands on the region of the address. -/
theorem CleanSearch.find_function (hclean : CleanSearch t addr)
    (hfile : t.FileOf addr lfile rfile) (hzero : lfile ≠ 0) (info : Eipdebuginfo) :
    ∃ scope info', findFunction t.memory t.data lfile rfile addr info = some (scope, info') ∧
      Region t.stab addr lfile rfile scope.lline scope.rline scope.addr ∧
      scope.lfile = lfile ∧ lfile ≤ scope.lfun ∧ scope.rfun ≤ rfile := by
  obtain ⟨hlow, hle, hhigh⟩ := hfile.bounds
  obtain ⟨hseparated, hsome⟩ := hclean.function lfile rfile hfile hzero
  have hreads : ReadsAll (t.memory.stabs t.data.stabs) t.stab lfile rfile :=
    t.entries.restrict hlow hhigh
  have hsorted : Increasing t.stab nFun lfile rfile := t.functions.within hlow hhigh
  by_cases hfunction : ∃ k, LastUpTo t.stab nFun lfile rfile addr k
  · obtain ⟨k, hk⟩ := hfunction
    obtain ⟨rfun, hresult, hclosed⟩ := hseparated.found hreads.toReads hsorted hk
    have hge := hclosed.ge hk.1
    have hupto := hclosed.le_last
    refine ⟨⟨lfile, k, rfun, k, rfun, addr - (t.stab k).nValue⟩,
      { info with
        eipFnName := (t.data.name (t.stab k).nStrx).getD info.eipFnName
        eipFnAddr := (t.stab k).nValue },
      ?_, Region.function hk hclosed, rfl, hk.1.1, hupto⟩
    rw [findFunction]
    simp only [hresult, Option.bind_eq_bind, Option.bind_some, if_pos hge,
      hreads.strx k hk.1.1 (hge.trans hupto), hreads.value k hk.1.1 (hge.trans hupto)]
    rfl
  · have hnone : ∀ k, ¬ LastUpTo t.stab nFun lfile rfile addr k := not_exists.mp hfunction
    have hempty : ∀ k, ¬ EntryIn t.stab nFun lfile rfile k := fun k hk =>
      hfunction (hsome k hk)
    have hresult := stabBinsearch_none hreads.toReads addr hempty
    refine ⟨⟨lfile, lfile, lfile - 1, lfile, rfile, addr⟩, { info with eipFnAddr := addr }, ?_,
      Region.file hnone, rfl, le_rfl, by dsimp only; omega⟩
    rw [findFunction]
    simp only [hresult, Option.bind_eq_bind, Option.bind_some,
      if_neg (show ¬ lfile ≤ lfile - 1 by omega)]
    rfl

end Searches

/-! ## The last step -/

/-- The line that the last step stores is the last up to the offset, or it reports none. -/
def LineStored (stab : ℤ → Stab) (scope : Scope) (run : Option (ℤ × Eipdebuginfo)) : Prop :=
  ∃ ret info, run = some (ret, info) ∧
    (ret = -1 ∨ ret = 0 ∧ ∃ m, LastUpTo stab nSline scope.lline scope.rline scope.addr m ∧
      info.eipLine = (stab m).nDesc.setWidth 32)

section LastStep

variable {memory : Memory} {data : StabData} {stab : ℤ → Stab} {scope : Scope} {rfile : ℤ}

/-- What the last step needs of its scope: it lies within a file that can be read, it does not
begin with a line, and the search for its lines is right. -/
structure ScopeOk (memory : Memory) (data : StabData) (stab : ℤ → Stab) (scope : Scope)
    (rfile : ℤ) : Prop where
  reads : ReadsAll (memory.stabs data.stabs) stab scope.lfile rfile
  lfun : scope.lfile ≤ scope.lfun
  rfun : scope.rfun ≤ rfile
  lline : scope.lfile ≤ scope.lline
  nonempty : scope.lline ≤ scope.rline
  rline : scope.rline ≤ rfile
  first : (stab scope.lline).nType ≠ nSline
  sorted : Increasing stab nSline scope.lline scope.rline
  separated : Separated stab nSline scope.lline scope.rline scope.addr

theorem ScopeOk.lines (hscope : ScopeOk memory data stab scope rfile) :
    ReadsAll (memory.stabs data.stabs) stab scope.lline scope.rline :=
  hscope.reads.restrict hscope.lline hscope.rline

/-- The three outcomes of the search for the line. -/
theorem ScopeOk.search (hscope : ScopeOk memory data stab scope rfile) :
    (∃ m right, LastUpTo stab nSline scope.lline scope.rline scope.addr m ∧
        ClosedBy stab nSline scope.lline scope.rline m right ∧
        stabBinsearch (memory.stabs data.stabs) nSline scope.lline scope.rline scope.addr =
          some (m, right)) ∨
      (∀ m, ¬ LastUpTo stab nSline scope.lline scope.rline scope.addr m) ∧
        ((∀ m, ¬ EntryIn stab nSline scope.lline scope.rline m) ∧
            stabBinsearch (memory.stabs data.stabs) nSline scope.lline scope.rline scope.addr =
              some (scope.lline, scope.lline - 1) ∨
          ∃ f, EntryIn stab nSline scope.lline scope.rline f ∧ scope.lline < f ∧
            stabBinsearch (memory.stabs data.stabs) nSline scope.lline scope.rline scope.addr =
              some (scope.lline, f - 1)) := by
  have hreads := hscope.lines.toReads
  by_cases hlast : ∃ m, LastUpTo stab nSline scope.lline scope.rline scope.addr m
  · obtain ⟨m, hm⟩ := hlast
    obtain ⟨right, hresult, hclosed⟩ := hscope.separated.found hreads hscope.sorted hm
    exact Or.inl ⟨m, right, hm, hclosed, hresult⟩
  · have hnone := not_exists.mp hlast
    refine Or.inr ⟨hnone, ?_⟩
    by_cases hentry : ∃ i, EntryIn stab nSline scope.lline scope.rline i
    · obtain ⟨i, hi⟩ := hentry
      have habove := above_of_no_lastUpTo hnone
      obtain ⟨f, hf⟩ := exists_firstAbove hi habove
      have hlow : scope.lline < f := lt_of_le_of_ne hf.1.1 fun hsame =>
        hscope.first (hsame ▸ hf.1.2.2)
      exact Or.inr ⟨f, hf.1, hlow, stabBinsearch_above hreads hscope.sorted hf hlow habove⟩
    · have hempty := not_exists.mp hentry
      exact Or.inl ⟨hempty, stabBinsearch_none hreads _ hempty⟩

/-- What follows the last search returns. -/
theorem ScopeOk.fileAndParams (hscope : ScopeOk memory data stab scope rfile) {lline : ℤ}
    (hle : lline ≤ rfile) (info : Eipdebuginfo) :
    ∃ info', fileAndParams memory data scope lline info = some (0, info') ∧
      info'.eipLine = info.eipLine := by
  obtain ⟨info', hrun⟩ := @fileAndParams_some memory data scope lline info
    (fun i hlow hhigh => hscope.reads.readable hlow (hhigh.trans hle))
    (fun i hlow hhigh => hscope.reads.readable (hscope.lfun.trans hlow.le)
      (hhigh.le.trans hscope.rfun))
  exact ⟨info', hrun, (fileAndParams_ret hrun).2⟩

/-- Lab 7 stores the right line when there is one, and otherwise a wrong one. -/
theorem ScopeOk.lab_seven (hscope : ScopeOk memory data stab scope rfile) (info : Eipdebuginfo) :
    LineStored stab scope (lineNumber memory data .seven scope info) ↔
      Locates .seven stab scope.lline scope.rline scope.addr := by
  constructor
  · rintro ⟨ret, info', hrun, hret⟩
    obtain ⟨⟨lline, rline⟩, -, hrun⟩ := Option.bind_eq_some_iff.mp hrun
    obtain ⟨desc, -, hrun⟩ := Option.bind_eq_some_iff.mp hrun
    obtain ⟨rfl, -⟩ := fileAndParams_ret hrun
    rcases hret with hfail | ⟨-, m, hm, -⟩
    · exact absurd hfail (by decide)
    · exact ⟨m, hm⟩
  · rintro ⟨m, hm⟩
    rcases hscope.search with ⟨m', right, hm', hclosed, hresult⟩ | ⟨hnone, -⟩
    · obtain rfl := hm.unique hm'
      have hdesc := hscope.lines.desc m hm.1.1 hm.1.2.1
      obtain ⟨info', hrun, hline⟩ := hscope.fileAndParams (hm.1.2.1.trans hscope.rline)
        { info with eipLine := (stab m).nDesc.setWidth 32 }
      refine ⟨0, info', ?_, Or.inr ⟨rfl, m, hm, hline⟩⟩
      rw [lineNumber]
      simp only [hresult, hdesc, Option.bind_eq_bind, Option.bind_some]
      exact hrun
    · exact absurd hm (hnone m)

/-- Lab 5 looks at the right end of the region that the last search leaves. -/
theorem ScopeOk.lab_five (hscope : ScopeOk memory data stab scope rfile) (info : Eipdebuginfo) :
    LineStored stab scope (lineNumber memory data .five scope info) ↔
      Locates .five stab scope.lline scope.rline scope.addr := by
  have hstrx := hscope.reads.strx scope.lfile le_rfl
    (hscope.lline.trans (hscope.nonempty.trans hscope.rline))
  obtain ⟨named, hnamed⟩ : ∃ named,
      named = { info with eipFile := .mem (data.stabstr + (stab scope.lfile).nStrx) } := ⟨_, rfl⟩
  -- the run, from the bounds that the last search leaves
  have hempty {left right : ℤ} (hlt : right < left)
      (hresult : stabBinsearch (memory.stabs data.stabs) nSline scope.lline scope.rline
        scope.addr = some (left, right)) :
      lineNumber memory data .five scope info = some (-1, named) := by
    rw [lineNumber, hnamed]
    simp only [hstrx, hresult, Option.bind_eq_bind, Option.bind_some, if_pos hlt]
    rfl
  have hstores {left right : ℤ} (hle : left ≤ right) (hlow : scope.lline ≤ right)
      (hhigh : right ≤ scope.rline)
      (hresult : stabBinsearch (memory.stabs data.stabs) nSline scope.lline scope.rline
        scope.addr = some (left, right)) :
      ∃ info', lineNumber memory data .five scope info = some (0, info') ∧
        info'.eipLine = (stab right).nDesc.setWidth 32 := by
    obtain ⟨info', hrun, hline⟩ := hscope.fileAndParams
      (hle.trans (hhigh.trans hscope.rline))
      { named with eipLine := (stab right).nDesc.setWidth 32 }
    refine ⟨info', ?_, hline⟩
    rw [lineNumber]
    simp only [hstrx, hresult, hscope.lines.desc right hlow hhigh, Option.bind_eq_bind,
      Option.bind_some, if_neg (not_lt.mpr hle)]
    rw [hnamed] at hrun
    exact hrun
  have hwide : ∀ d d' : BitVec 16, d.setWidth 32 = d'.setWidth 32 → d = d' := fun d d' h => by
    bv_omega
  rcases hscope.search with ⟨m, right, hm, hclosed, hresult⟩ |
    ⟨hnone, ⟨hno, hresult⟩ | ⟨f, hf, hlow, hresult⟩⟩
  · have hge := hclosed.ge hm.1
    obtain ⟨info', hrun, hline⟩ :=
      hstores hge (hm.1.1.trans hge) hclosed.le_last hresult
    constructor
    · rintro ⟨ret, info'', hrun', hret⟩
      cases hrun.symm.trans hrun'
      rcases hret with hfail | ⟨-, m', hm', hline'⟩
      · exact absurd hfail (by decide)
      · obtain rfl := hm.unique hm'
        exact Or.inr ⟨m, right, hm, hclosed, hwide _ _ (hline.symm.trans hline')⟩
    · rintro (hno | ⟨m', right', hm', hclosed', hdesc⟩)
      · exact absurd hm.1 (hno m)
      · obtain rfl := hm.unique hm'
        obtain rfl := hclosed.unique hclosed'
        exact ⟨0, info', hrun, Or.inr ⟨rfl, m, hm, hdesc ▸ hline⟩⟩
  · exact iff_of_true ⟨-1, named, hempty (by omega) hresult, Or.inl rfl⟩ (Or.inl hno)
  · obtain ⟨info', hrun, -⟩ := hstores (by omega) (by omega)
      (by have hupto := hf.2.1; omega) hresult
    refine iff_of_false ?_ ?_
    · rintro ⟨ret, info'', hrun', hret⟩
      cases hrun.symm.trans hrun'
      rcases hret with hfail | ⟨-, m, hm, -⟩
      · exact absurd hfail (by decide)
      · exact hnone m hm
    · rintro (hno | ⟨m, right, hm, -⟩)
      · exact hno f hf
      · exact hnone m hm

end LastStep

/-! ## The line of an address -/

section Kernel

variable {t : KernelStabs} {addr : Word}

/-- The string table of the kernel can be read, so that its check has a result. -/
theorem KernelStabs.stringsValid_cases (t : KernelStabs) :
    stringsValid t.memory t.data = some true ∨ stringsValid t.memory t.data = some false := by
  by_cases hlt : t.data.stabstr < t.data.stabstrEnd
  · exact stringsValid_readable (t.strings hlt)
  · exact Or.inr (if_pos (BitVec.not_lt.mp hlt))

/-- For a kernel address the tables are those of the kernel. -/
theorem debuginfoEip_kernel (lab : Lab) (σ : Phys) (pgdir : ℕ) (memory : Memory)
    (kernel : StabData) (hkernel : ulim ≤ addr) :
    debuginfoEip lab σ pgdir memory kernel addr =
      searchStabs memory kernel lab addr (Eipdebuginfo.unknown addr) :=
  if_pos hkernel

/-- An address within a file other than that of entry 0: the line number is right when the last
step takes the right line. -/
theorem CleanSearch.lineRight_iff (lab : Lab) (hkernel : ulim ≤ addr)
    (hvalid : stringsValid t.memory t.data = some true) (hclean : CleanSearch t addr)
    {lfile rfile : ℤ} (hfile : t.FileOf addr lfile rfile) (hzero : lfile ≠ 0)
    {l r : ℤ} {offset : Word} (hregion : Region t.stab addr lfile rfile l r offset) :
    LineRight lab t addr ↔ Locates lab t.stab l r offset := by
  obtain ⟨hlow, hle, hhigh⟩ := hfile.bounds
  obtain ⟨scope, info, hfunction, hscope, rfl, hlfun, hrfun⟩ :=
    hclean.find_function hfile hzero (Eipdebuginfo.unknown addr)
  obtain ⟨rfl, rfl, rfl⟩ := hregion.unique hscope
  obtain ⟨hlline, hnonempty, hrline⟩ := Region.bounds hfile hregion
  obtain ⟨hsorted, hseparated⟩ := hclean.line _ _ _ _ _ hfile hzero hregion
  have hok : ScopeOk t.memory t.data t.stab scope rfile := {
    reads := t.entries.restrict hlow hhigh
    lfun := hlfun
    rfun := hrfun
    lline := hlline
    nonempty := hnonempty
    rline := hrline
    first := hregion.first_type hfile
    sorted := hsorted
    separated := hseparated }
  obtain ⟨namelen, hname⟩ := nameLength_some hvalid (t.strings (stringsValid_eq_true hvalid).1)
    (findFunction_named (Or.inl rfl) hfunction)
  have hsearch : stabBinsearch (t.memory.stabs t.data.stabs) nSo 0 (t.count - 1) addr =
      some (scope.lfile, rfile) := by
    rcases hclean.search_file with ⟨-, hnone⟩ | ⟨lfile, rfile', hfile', -, hresult⟩
    · exact absurd (hnone _ _ hfile) hzero
    · obtain ⟨rfl, rfl⟩ := hfile.unique hfile'
      exact hresult
  have hrun (σ : Phys) (pgdir : ℕ) : debuginfoEip lab σ pgdir t.memory t.data addr =
      lineNumber t.memory t.data lab scope { info with eipFnNamelen := namelen } := by
    rw [debuginfoEip_kernel lab σ pgdir _ _ hkernel, searchStabs]
    simp only [hvalid, t.counted, hsearch, hfunction, hname, Option.bind_eq_bind, Option.bind_some,
      if_pos, if_neg hzero]
  have hline : ∀ m, t.LineOf addr m ↔
      LastUpTo t.stab nSline scope.lline scope.rline scope.addr m := by
    intro m
    constructor
    · rintro ⟨lfile', rfile', l, r, offset, hfile', hregion', hm⟩
      obtain ⟨rfl, rfl⟩ := hfile.unique hfile'
      obtain ⟨rfl, rfl, rfl⟩ := hregion.unique hregion'
      exact hm
    · exact fun hm => ⟨_, _, _, _, _, hfile, hregion, hm⟩
  have hstored : LineRight lab t addr ↔ LineStored t.stab scope
      (lineNumber t.memory t.data lab scope { info with eipFnNamelen := namelen }) := by
    obtain ⟨σ⟩ : Nonempty Phys := ⟨⟨0, fun _ => ⟨none, 0⟩, none, fun _ _ => 0, fun _ _ => 0⟩⟩
    constructor
    · rintro ⟨ret, stored, hall, hret⟩
      refine ⟨ret, stored, (hrun σ 0).symm.trans (hall σ 0), hret.imp_right ?_⟩
      rintro ⟨hzero, m, hm, hstored⟩
      exact ⟨hzero, m, (hline m).mp hm, hstored⟩
    · rintro ⟨ret, stored, hlast, hret⟩
      refine ⟨ret, stored, fun σ pgdir => (hrun σ pgdir).trans hlast, hret.imp_right ?_⟩
      rintro ⟨hzero, m, hm, hstored⟩
      exact ⟨hzero, m, (hline m).mpr hm, hstored⟩
  rw [hstored]
  cases lab with
  | five => exact hok.lab_five _
  | seven => exact hok.lab_seven _

/-- `debuginfo_eip` gives the right line of a kernel address, for searches that are right, just
when the last step takes it from the right entry. -/
theorem kernel_line_right_iff (lab : Lab) (hkernel : ulim ≤ addr)
    (hclean : stringsValid t.memory t.data = some true → CleanSearch t addr) :
    LineRight lab t addr ↔
      (stringsValid t.memory t.data = some true → ∀ lfile rfile l r offset,
        t.FileOf addr lfile rfile → lfile ≠ 0 → Region t.stab addr lfile rfile l r offset →
          Locates lab t.stab l r offset) := by
  rcases t.stringsValid_cases with hvalid | hinvalid
  · rcases (hclean hvalid).search_file with
      ⟨⟨rfile, hresult⟩, hnone⟩ | ⟨lfile, rfile, hfile, hzero, -⟩
    · refine iff_of_true ⟨-1, Eipdebuginfo.unknown addr, fun σ pgdir => ?_, Or.inl rfl⟩
        fun _ lfile rfile l r offset hfile hzero => absurd (hnone lfile rfile hfile) hzero
      rw [debuginfoEip_kernel lab σ pgdir _ _ hkernel, searchStabs]
      simp only [hvalid, t.counted, hresult, Option.bind_eq_bind, Option.bind_some, if_pos]
      rfl
    · obtain ⟨scope, -, -, hregion, -⟩ :=
        (hclean hvalid).find_function hfile hzero (Eipdebuginfo.unknown addr)
      rw [(hclean hvalid).lineRight_iff lab hkernel hvalid hfile hzero hregion]
      constructor
      · intro hlocates _ lfile' rfile' l r offset hfile' _ hregion'
        obtain ⟨rfl, rfl⟩ := hfile.unique hfile'
        obtain ⟨rfl, rfl, rfl⟩ := hregion.unique hregion'
        exact hlocates
      · exact fun h => h hvalid _ _ _ _ _ hfile hzero hregion
  · refine iff_of_true ⟨-1, Eipdebuginfo.unknown addr, fun σ pgdir => ?_, Or.inl rfl⟩
      fun hvalid => by rw [hvalid] at hinvalid; cases hinvalid
    rw [debuginfoEip_kernel lab σ pgdir _ _ hkernel, searchStabs]
    simp only [hinvalid, Option.bind_eq_bind, Option.bind_some]
    rfl

end Kernel

/-! ## A table with one line -/

/-- The bytes of an entry. -/
def Stab.bytes (stab : Stab) : List (BitVec 8) :=
  wordBytes stab.nStrx ++ [stab.nType, 0, stab.nDesc.setWidth 8, (stab.nDesc >>> 8).setWidth 8] ++
    wordBytes stab.nValue

/-- A header, a file, a function in it, and line 6 eight bytes into the function. -/
def oneLineStabs : List Stab :=
  [⟨0, 0, 0, 0⟩, ⟨0, nSo, 0, 0xf0100000⟩, ⟨0, nFun, 0, 0xf0100010⟩, ⟨0, nSline, 6, 8⟩]

def oneLineStab (i : ℤ) : Stab := (oneLineStabs[i.toNat]?).getD ⟨0, 0, 0, 0⟩

/-- The table and, behind it, a string table with the empty string. -/
def oneLineMemory : Memory := fun a =>
  (oneLineStabs.flatMap Stab.bytes ++ [0])[(a - 0xf0110000).toNat]?

section OneLine

variable {type : BitVec 8} {l r i j : ℤ} {addr : Word}

/-- No two entries have the same type. -/
theorem oneLine_single (hl : 0 ≤ l) (hr : r ≤ 3) (hi : EntryIn oneLineStab type l r i)
    (hj : EntryIn oneLineStab type l r j) : i = j := by
  obtain ⟨hi0, hi3⟩ : 0 ≤ i ∧ i ≤ 3 := ⟨hl.trans hi.1, hi.2.1.trans hr⟩
  obtain ⟨hj0, hj3⟩ : 0 ≤ j ∧ j ≤ 3 := ⟨hl.trans hj.1, hj.2.1.trans hr⟩
  have hsame : (oneLineStab i).nType = (oneLineStab j).nType := hi.2.2.trans hj.2.2.symm
  interval_cases i <;> interval_cases j <;> first | rfl | exact absurd hsame (by decide)

theorem oneLine_increasing (hl : 0 ≤ l) (hr : r ≤ 3) : Increasing oneLineStab type l r :=
  fun _ _ hi hj hlt => absurd (oneLine_single hl hr hi hj) hlt.ne

theorem oneLine_separated (hl : 0 ≤ l) (hr : r ≤ 3) : Separated oneLineStab type l r addr := by
  intro i hi hvalue
  obtain ⟨hi0, hi3⟩ : 0 ≤ i ∧ i ≤ 3 := ⟨hl.trans hi.1, hi.2.1.trans hr⟩
  refine ⟨?_, fun j hj hnext => ?_⟩
  · rw [← hvalue]
    interval_cases i <;> decide
  · rw [oneLine_single hl hr hj hi, hvalue] at hnext
    bv_omega

def oneLine : KernelStabs where
  memory := oneLineMemory
  data := ⟨0xf0110000, 0xf0110030, 0xf0110030, 0xf0110031⟩
  stab := oneLineStab
  count := 4
  counted := by decide
  entries := {
    type := fun i hlow hhigh => by interval_cases i <;> decide
    value := fun i hlow hhigh => by interval_cases i <;> decide
    strx := fun i hlow hhigh => by interval_cases i <;> decide
    desc := fun i hlow hhigh => by interval_cases i <;> decide }
  strings := by
    intro _ i hi
    obtain rfl : i = 0 := Nat.lt_one_iff.mp hi
    decide
  files := oneLine_increasing le_rfl (by decide)
  functions := oneLine_increasing le_rfl (by decide)
  lines := fun k r hk hr _ => oneLine_increasing hk.1 hr

/-- The file and the function of an address from the function on. -/
theorem oneLine_region (hlow : 0xf0100010 ≤ addr) : oneLine.FileOf addr 1 3 ∧
    Region oneLine.stab addr 1 3 2 3 (addr - 0xf0100010) := by
  have hfile : EntryIn oneLineStab nSo 0 3 1 := by decide
  have hfunction : EntryIn oneLineStab nFun 1 3 2 := by decide
  refine ⟨⟨⟨hfile, BitVec.le_trans (by decide) hlow, fun j hj _ => ?_⟩,
      Or.inr ⟨fun j hj => ?_, rfl⟩⟩,
    Region.function ⟨hfunction, hlow, fun j hj _ => ?_⟩ (Or.inr ⟨fun j hj => ?_, rfl⟩)⟩
  · exact (oneLine_single le_rfl le_rfl hj hfile).le
  · exact (oneLine_single le_rfl le_rfl hj hfile).le
  · exact (oneLine_single (by decide) le_rfl hj hfunction).le
  · exact (oneLine_single (by decide) le_rfl hj hfunction).le

theorem oneLine_clean (hlow : 0xf0100010 ≤ addr) : CleanSearch oneLine addr := by
  obtain ⟨hfile, hregion⟩ := oneLine_region hlow
  refine ⟨oneLine_separated le_rfl le_rfl, fun h => absurd h.2.2 (by decide),
    fun lfile rfile hfile' _ => ?_, fun lfile rfile l r offset hfile' _ hregion' => ?_⟩
  · obtain ⟨rfl, rfl⟩ := hfile.unique hfile'
    refine ⟨oneLine_separated (by decide) le_rfl, fun k hk => exists_lastUpTo hk ?_⟩
    obtain rfl : k = 2 := oneLine_single (by decide) le_rfl hk (by decide)
    exact hlow
  · obtain ⟨rfl, rfl⟩ := hfile.unique hfile'
    obtain ⟨rfl, rfl, rfl⟩ := hregion.unique hregion'
    exact ⟨oneLine_increasing (by decide) le_rfl, oneLine_separated (by decide) le_rfl⟩

end OneLine

/-- Both versions find line 6 from its first byte on. -/
theorem oneLine_found :
    LineRight .five oneLine 0xf0100018 ∧ LineRight .seven oneLine 0xf0100018 := by
  have hline : LastUpTo oneLineStab nSline 2 3 8 3 :=
    ⟨by decide, by decide, fun j hj _ => hj.2.1⟩
  have hlocates : ∀ lab, stringsValid oneLine.memory oneLine.data = some true →
      ∀ lfile rfile l r offset, oneLine.FileOf 0xf0100018 lfile rfile → lfile ≠ 0 →
        Region oneLine.stab 0xf0100018 lfile rfile l r offset →
          Locates lab oneLine.stab l r offset := by
    intro lab _ lfile rfile l r offset hfile _ hregion
    obtain ⟨hfile', hregion'⟩ := @oneLine_region 0xf0100018 (by decide)
    obtain ⟨rfl, rfl⟩ := hfile.unique hfile'
    obtain ⟨rfl, rfl, rfl⟩ := hregion.unique hregion'
    cases lab with
    | five => exact Or.inr ⟨3, 3, hline, Or.inr ⟨fun j hj => hj.2.1, rfl⟩, rfl⟩
    | seven => exact ⟨3, hline⟩
  exact ⟨(kernel_line_right_iff .five (by decide) fun _ => oneLine_clean (by decide)).mpr
      (hlocates .five),
    (kernel_line_right_iff .seven (by decide) fun _ => oneLine_clean (by decide)).mpr
      (hlocates .seven)⟩

/-- Before the first line of the function both versions return 0 and a wrong line. -/
theorem oneLine_before :
    (¬ ∀ t addr, ulim ≤ addr → LineRight .five t addr) ∧
      ¬ ∀ t addr, ulim ≤ addr → LineRight .seven t addr := by
  obtain ⟨hfile, hregion⟩ := @oneLine_region 0xf0100010 (by decide)
  have hnone : ∀ m, ¬ LastUpTo oneLineStab nSline 2 3 (0xf0100010 - 0xf0100010) m := by
    rintro m ⟨hm, hvalue, -⟩
    obtain rfl : m = 3 := oneLine_single (by decide) le_rfl hm (by decide)
    exact absurd hvalue (by decide)
  have hclean := @oneLine_clean 0xf0100010 (by decide)
  constructor
  · intro hall
    have hright := hall oneLine 0xf0100010 (by decide)
    rw [hclean.lineRight_iff .five (by decide) (by decide) hfile (by decide) hregion] at hright
    rcases hright with hno | ⟨m, right, hm, -⟩
    · exact hno 3 (by decide)
    · exact hnone m hm
  · intro hall
    have hright := hall oneLine 0xf0100010 (by decide)
    rw [hclean.lineRight_iff .seven (by decide) (by decide) hfile (by decide) hregion] at hright
    obtain ⟨m, hm⟩ := hright
    exact hnone m hm

end OsLabs.Jos
