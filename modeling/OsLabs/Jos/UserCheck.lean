import OsLabs.Jos.Syscall
import OsLabs.Jos.Tables

/-!
# `user_mem_check`

The check that guards every use of a user pointer in the kernel.  It rounds
both ends of the range to pages, in 32-bit arithmetic, and looks at one entry
for each page in between.
-/

namespace OsLabs.Jos

/-! ## What the check is for -/

/-- The page tables that a directory refers to lie in memory. -/
def TablesIn (σ : Phys) (pgdir : ℕ) : Prop :=
  ∀ d, σ.load pgdir d &&& pteP ≠ 0 → pgnum (σ.load pgdir d) < σ.npages

/-- The directory has a present entry for `a` with all bits of `perm`. -/
def HasPte (σ : Phys) (pgdir : ℕ) (perm a : Word) : Prop :=
  σ.load pgdir (pdx a) &&& pteP ≠ 0 ∧
    σ.load (pgnum (σ.load pgdir (pdx a))) (ptx a) &&& pteP ≠ 0 ∧
    σ.load (pgnum (σ.load pgdir (pdx a))) (ptx a) &&& perm = perm

/-- Address `a`, a natural number, is one the environment may use. -/
def AddrOk (σ : Phys) (pgdir : ℕ) (perm : Word) (a : ℕ) : Prop :=
  a < ulim.toNat ∧ HasPte σ pgdir perm (BitVec.ofNat 32 a)

/-- The integers `a` with `va ≤ a < va + len`. -/
def InRange (va len : Word) (a : ℕ) : Prop :=
  va.toNat ≤ a ∧ a < va.toNat + len.toNat

/-- The check accepts a range of usable addresses, and otherwise reports the
first address that is not usable. -/
def CheckExact (σ : Phys) (pgdir : ℕ) (va len perm : Word) : Prop :=
  (userMemCheck σ pgdir va len perm = some none ∧
      ∀ a, InRange va len a → AddrOk σ pgdir perm a) ∨
    ∃ addr, userMemCheck σ pgdir va len perm = some (some addr) ∧
      IsLeast {a | InRange va len a ∧ ¬ AddrOk σ pgdir perm a} addr.toNat

/-! ## One page -/

section Pages

variable {σ : Phys} {pgdir : ℕ} {perm va : Word}

/-- All addresses of a page are usable or none is. -/
theorem addrOk_page {a : ℕ} : AddrOk σ pgdir perm a ↔ AddrOk σ pgdir perm (a / 4096 * 4096) := by
  have hulim : ulim.toNat = 4018143232 := by decide
  have hpage : a / 4096 * 4096 < ulim.toNat ↔ a < ulim.toNat := by
    rw [hulim]
    omega
  have hpdx : a < ulim.toNat →
      pdx (BitVec.ofNat 32 (a / 4096 * 4096)) = pdx (BitVec.ofNat 32 a) := fun ha => by
    rw [pdx_eq, pdx_eq, BitVec.toNat_ofNat, BitVec.toNat_ofNat]
    omega
  have hptx : a < ulim.toNat →
      ptx (BitVec.ofNat 32 (a / 4096 * 4096)) = ptx (BitVec.ofNat 32 a) := fun ha => by
    rw [ptx_eq, ptx_eq, BitVec.toNat_ofNat, BitVec.toNat_ofNat]
    omega
  unfold AddrOk HasPte
  constructor
  · intro ⟨ha, hpte⟩
    rw [hpdx ha, hptx ha]
    exact ⟨hpage.mpr ha, hpte⟩
  · intro ⟨ha, hpte⟩
    rw [hpdx (hpage.mp ha), hptx (hpage.mp ha)] at hpte
    exact ⟨hpage.mp ha, hpte⟩

/-- `pgdir_walk` without `create`. -/
theorem pgdirWalk_eq (htables : TablesIn σ pgdir) (va : Word) :
    pgdirWalk σ pgdir va false =
      if σ.load pgdir (pdx va) &&& pteP = 0 then some (none, σ)
      else some (some (pgnum (σ.load pgdir (pdx va)), ptx va), σ) := by
  by_cases hpresent : σ.load pgdir (pdx va) &&& pteP = 0
  · rw [if_pos hpresent, pgdirWalk]
    dsimp only
    rw [if_pos hpresent]
    rfl
  · have hpage : σ.pa2page (pteAddr (σ.load pgdir (pdx va))) =
        some (pgnum (σ.load pgdir (pdx va))) := by
      rw [Phys.pa2page, pgnum_pteAddr, if_pos (htables _ hpresent)]
    rw [if_neg hpresent, pgdirWalk]
    dsimp only
    rw [if_neg hpresent, hpage]
    rfl

variable (perm va) in
/-- One iteration of the loop. -/
theorem userMemCheckFrom_succ (htables : TablesIn σ pgdir) (count : ℕ) (i : Word) :
    (AddrOk σ pgdir perm i.toNat ∧ userMemCheckFrom σ pgdir va perm (count + 1) i =
        userMemCheckFrom σ pgdir va perm count (i + pgSize)) ∨
      ¬ AddrOk σ pgdir perm i.toNat ∧ userMemCheckFrom σ pgdir va perm (count + 1) i =
        some (some (if i < va then va else i)) := by
  have hsame : BitVec.ofNat 32 i.toNat = i := BitVec.eq_of_toNat_eq (by simp)
  have hulim : ulim ≤ i ↔ ¬ i.toNat < ulim.toNat := by rw [Nat.not_lt, BitVec.le_def]
  rw [AddrOk, hsame, HasPte, userMemCheckFrom, pgdirWalk_eq htables]
  by_cases habsent : σ.load pgdir (pdx i) &&& pteP = 0
  · right
    simp [habsent]
  · rw [if_neg habsent]
    by_cases hbad : ulim ≤ i
    · right
      simp [hbad, hulim.mp hbad]
    · simp only [Option.bind_eq_bind, Option.bind_some, hbad, false_or, habsent, ne_eq,
        not_false_eq_true, true_and, not_not.mp (hulim.not.mp hbad)]
      by_cases hpte : σ.load (pgnum (σ.load pgdir (pdx i))) (ptx i) &&& pteP = 0#32
      · right
        simp [-load_present, -pgnum_load, hpte]
      · by_cases hperm : σ.load (pgnum (σ.load pgdir (pdx i))) (ptx i) &&& perm = perm
        · left
          simp [-load_present, -pgnum_load, hpte, hperm]
        · right
          simp [-load_present, -pgnum_load, hperm]

variable (perm va) in
/-- The loop over the pages from `p` on. -/
theorem userMemCheckFrom_pages (htables : TablesIn σ pgdir) (p count : ℕ)
    (hpages : p + count ≤ 2 ^ 20) :
    (userMemCheckFrom σ pgdir va perm count (BitVec.ofNat 32 (p * 4096)) = some none ∧
        ∀ q, p ≤ q → q < p + count → AddrOk σ pgdir perm (q * 4096)) ∨
      ∃ q, p ≤ q ∧ q < p + count ∧ ¬ AddrOk σ pgdir perm (q * 4096) ∧
        (∀ r, p ≤ r → r < q → AddrOk σ pgdir perm (r * 4096)) ∧
        userMemCheckFrom σ pgdir va perm count (BitVec.ofNat 32 (p * 4096)) =
          some (some (if BitVec.ofNat 32 (q * 4096) < va then va
            else BitVec.ofNat 32 (q * 4096))) := by
  induction count generalizing p with
  | zero => exact Or.inl ⟨rfl, fun q hle hlt => absurd (hle.trans_lt hlt) (by omega)⟩
  | succ count ih =>
    have hi : (BitVec.ofNat 32 (p * 4096)).toNat = p * 4096 := by
      rw [BitVec.toNat_ofNat, Nat.mod_eq_of_lt (by omega)]
    have hnext : BitVec.ofNat 32 (p * 4096) + pgSize = BitVec.ofNat 32 ((p + 1) * 4096) := by
      rw [Nat.add_mul, BitVec.ofNat_add]
      rfl
    rcases userMemCheckFrom_succ perm va htables count
      (BitVec.ofNat 32 (p * 4096)) with ⟨hok, hstep⟩ | ⟨hbad, hstep⟩
    · rw [hi] at hok
      rw [hstep, hnext]
      rcases ih (p + 1) (by omega) with ⟨hrun, hall⟩ | ⟨q, hle, hlt, hbad, hbefore, hrun⟩
      · refine Or.inl ⟨hrun, fun q hle hlt => ?_⟩
        rcases hle.eq_or_lt with rfl | hlater
        · exact hok
        · exact hall q hlater (by omega)
      · refine Or.inr ⟨q, by omega, by omega, hbad, fun r hr hrq => ?_, hrun⟩
        rcases hr.eq_or_lt with rfl | hlater
        · exact hok
        · exact hbefore r hlater hrq
    · rw [hi] at hbad
      exact Or.inr ⟨p, le_rfl, by omega, hbad, fun r hr hrp => absurd (hr.trans_lt hrp) (by omega),
        hstep⟩

end Pages

/-! ## The range -/

section Range

variable {σ : Phys} {pgdir : ℕ} {va len perm : Word}

/-- The page of `va`. -/
theorem roundDown_eq (va : Word) : roundDown va = BitVec.ofNat 32 (va.toNat / 4096 * 4096) := by
  apply BitVec.eq_of_toNat_eq
  have hbound := va.isLt
  rw [toNat_roundDown, BitVec.toNat_ofNat, Nat.mod_eq_of_lt (by omega)]

/-- The end of the range, rounded up in 32 bits. -/
theorem toNat_roundUp_end (va len : Word) : (roundUp (va + len)).toNat =
    (va.toNat + len.toNat + 4095) % 2 ^ 32 / 4096 * 4096 := by
  have hsum : va + len + pgSize - 1 = va + len + 4095 := by
    rw [pgSize]
    bv_omega
  rw [roundUp, hsum, toNat_roundDown, BitVec.toNat_add, BitVec.toNat_add, Nat.mod_add_mod]
  rfl

variable (σ pgdir perm) in
/-- The loop of `user_mem_check`, with its bounds as page numbers. -/
theorem userMemCheck_pages {last : ℕ}
    (hlast : (va.toNat + len.toNat + 4095) % 2 ^ 32 / 4096 = last) :
    userMemCheck σ pgdir va len perm =
      userMemCheckFrom σ pgdir va perm (last - va.toNat / 4096)
        (BitVec.ofNat 32 (va.toNat / 4096 * 4096)) := by
  have hfirst := toNat_roundDown va
  have hend := toNat_roundUp_end va len
  rw [hlast] at hend
  have hcount : (if roundDown va < roundUp (va + len) then
      ((roundUp (va + len) - roundDown va) / pgSize).toNat else 0) =
      last - va.toNat / 4096 := by
    split
    case isTrue hlt =>
      rw [BitVec.lt_def] at hlt
      rw [BitVec.toNat_udiv, BitVec.toNat_sub_of_le (BitVec.le_def.mpr hlt.le), hfirst, hend,
        show pgSize.toNat = 4096 by decide, ← Nat.sub_mul, Nat.mul_div_cancel _ (by decide)]
    case isFalse hge =>
      rw [BitVec.lt_def] at hge
      omega
  rw [userMemCheck, hcount, roundDown_eq]

/-- The check is exact when the rounded end does not wrap around. -/
theorem userMemCheck_exact (htables : TablesIn σ pgdir) (hlen : 1 ≤ len.toNat)
    (hend : va.toNat + len.toNat ≤ 2 ^ 32 - 4096) : CheckExact σ pgdir va len perm := by
  have hbound := va.isLt
  have hrun := userMemCheck_pages σ pgdir perm
    (show (va.toNat + len.toNat + 4095) % 2 ^ 32 / 4096 =
      (va.toNat + len.toNat + 4095) / 4096 by omega)
  rcases userMemCheckFrom_pages perm va htables (va.toNat / 4096)
    ((va.toNat + len.toNat + 4095) / 4096 - va.toNat / 4096) (by omega) with ⟨hloop, hall⟩ | ⟨q, hle, hlt, hbad, hbefore, hloop⟩
  · refine Or.inl ⟨hrun.trans hloop, fun a ha => addrOk_page.mpr ?_⟩
    obtain ⟨hfrom, hto⟩ := ha
    exact hall (a / 4096) (by omega) (by omega)
  · have hq : (BitVec.ofNat 32 (q * 4096)).toNat = q * 4096 := by
      rw [BitVec.toNat_ofNat, Nat.mod_eq_of_lt (by omega)]
    refine Or.inr ⟨_, hrun.trans hloop, ⟨?_, fun a ⟨⟨hfrom, _⟩, hnot⟩ => ?_⟩⟩
    · split
      case isTrue hbelow =>
        rw [BitVec.lt_def, hq] at hbelow
        refine ⟨⟨le_rfl, by omega⟩, fun hok => hbad ?_⟩
        have hpage : q = va.toNat / 4096 := by omega
        rw [hpage]
        exact addrOk_page.mp hok
      case isFalse habove =>
        rw [BitVec.lt_def, hq] at habove
        rw [hq]
        exact ⟨⟨by omega, by omega⟩, hbad⟩
    · have hpage : q ≤ a / 4096 := by
        by_contra hless
        exact hnot (addrOk_page.mpr (hbefore (a / 4096) (by omega) (by omega)))
      split
      · exact hfrom
      · rw [hq]
        omega

/-- The range wraps around and ends behind its start on the page of `va`. -/
def WrapsIntoPage (va len : Word) : Prop :=
  va.toNat < 2 ^ 32 - 4096 ∧ 2 ^ 32 + va.toNat / 4096 * 4096 < va.toNat + len.toNat

/-- A range whose end reaches the last page is accepted unchecked, unless the
loop gets to look at the page of `va`. -/
theorem userMemCheck_wraps (htables : TablesIn σ pgdir) (hlen : 1 ≤ len.toNat)
    (hend : 2 ^ 32 - 4096 < va.toNat + len.toNat) :
    CheckExact σ pgdir va len perm ↔ WrapsIntoPage va len ∧ ¬ AddrOk σ pgdir perm va.toNat := by
  have hbound := va.isLt
  have hbound' := len.isLt
  have hulim : ulim.toNat = 4018143232 := by decide
  -- an address of the last page is in the range, and never usable
  have hviolated : ¬ ∀ a, InRange va len a → AddrOk σ pgdir perm a := fun hall => by
    have hok := hall (max va.toNat (2 ^ 32 - 4096)) ⟨le_max_left _ _, by omega⟩
    have hlow := hok.1
    omega
  have haccepts : userMemCheck σ pgdir va len perm = some none →
      ¬ CheckExact σ pgdir va len perm := by
    rintro hrun (⟨-, hall⟩ | ⟨addr, hfault, -⟩)
    · exact hviolated hall
    · rw [hrun] at hfault
      cases hfault
  by_cases hwraps : WrapsIntoPage va len
  · obtain ⟨hlow, hpage⟩ := hwraps
    have hrun := userMemCheck_pages σ pgdir perm
      (show (va.toNat + len.toNat + 4095) % 2 ^ 32 / 4096 = va.toNat / 4096 + 1 by omega)
    rw [Nat.add_sub_cancel_left] at hrun
    have hva : (BitVec.ofNat 32 (va.toNat / 4096 * 4096)).toNat = va.toNat / 4096 * 4096 := by
      rw [BitVec.toNat_ofNat, Nat.mod_eq_of_lt (by omega)]
    have hbelow : BitVec.ofNat 32 (va.toNat / 4096 * 4096) < va := by
      rw [BitVec.lt_def, hva]
      omega
    rcases userMemCheckFrom_succ perm va htables 0
      (BitVec.ofNat 32 (va.toNat / 4096 * 4096)) with ⟨hok, hstep⟩ | ⟨hbad, hstep⟩
    · rw [hva, ← addrOk_page] at hok
      exact iff_of_false (haccepts (hrun.trans hstep)) fun h => h.2 hok
    · rw [hva, ← addrOk_page] at hbad
      rw [if_pos hbelow] at hstep
      refine iff_of_true (Or.inr ⟨va, hrun.trans hstep, ⟨⟨le_rfl, by omega⟩, hbad⟩, ?_⟩)
        ⟨⟨hlow, hpage⟩, hbad⟩
      exact fun a ha => ha.1.1
  · refine iff_of_false (haccepts ?_) fun h => hwraps h.1
    have hlast : (va.toNat + len.toNat + 4095) % 2 ^ 32 / 4096 - va.toNat / 4096 = 0 := by
      unfold WrapsIntoPage at hwraps
      omega
    rw [userMemCheck_pages σ pgdir perm rfl, hlast]
    rfl

/-- `user_mem_check` is exact except for ranges that reach the last page of the
address space: their end is rounded up to an address at or below their start,
and the loop does not run. -/
theorem userMemCheck_exact_iff (htables : TablesIn σ pgdir) (hlen : 1 ≤ len.toNat) :
    CheckExact σ pgdir va len perm ↔ va.toNat + len.toNat ≤ 2 ^ 32 - 4096 ∨
      WrapsIntoPage va len ∧ ¬ AddrOk σ pgdir perm va.toNat := by
  by_cases hend : va.toNat + len.toNat ≤ 2 ^ 32 - 4096
  · exact iff_of_true (userMemCheck_exact htables hlen hend) (Or.inl hend)
  · rw [userMemCheck_wraps htables hlen (by omega)]
    exact ⟨Or.inr, fun h => h.resolve_left hend⟩

end Range

/-! ## One mapped page -/

/-- Directory 1 and page table 2 map page 3 at address 0 for the user. -/
def onePageSpace : Phys where
  npages := 16
  pages := fun _ => ⟨none, 0⟩
  pageFreeList := none
  mem := fun page index =>
    if page = 1 ∧ index = 0 then page2pa 2 ||| pteP ||| pteU ||| pteW
    else if page = 2 ∧ index = 0 then page2pa 3 ||| pteU ||| pteW ||| pteP
    else 0
  mmuBits := fun _ _ => 0

theorem onePageSpace_tables : TablesIn onePageSpace 1 := by
  intro d hpresent
  by_cases hd : d = 0
  · rw [hd]
    decide
  · refine absurd ?_ hpresent
    simp [Phys.load, onePageSpace, hd]

/-- Two bytes from address 16 on. -/
theorem onePageSpace_check : CheckExact onePageSpace 1 16 2 (pteU ||| pteW) :=
  (userMemCheck_exact_iff onePageSpace_tables (by decide)).mpr (Or.inl (by decide))

/-- One byte of the last page of the address space is accepted. -/
theorem last_page_accepted : TablesIn onePageSpace 1 ∧
    userMemCheck onePageSpace 1 0xFFFFF000 1 pteU = some none ∧
    ¬ CheckExact onePageSpace 1 0xFFFFF000 1 pteU := by
  refine ⟨onePageSpace_tables, by decide, ?_⟩
  rintro (⟨-, hall⟩ | ⟨addr, hfault, -⟩)
  · have hok := hall 0xFFFFF000 (by unfold InRange; decide)
    exact absurd hok.1 (by decide)
  · have haccepted : userMemCheck onePageSpace 1 0xFFFFF000 1 pteU = some none := by decide
    rw [haccepted] at hfault
    cases hfault

end OsLabs.Jos
