import OsLabs.Jos.FaultReturn
import OsLabs.Jos.Paging

/-!
# Delivery of a page fault

`page_fault_handler` builds the user trap frame through the page directory of
the environment.  Seen from the environment this is the step `deliver`: the
bytes of the frame are replaced on the exception stack and nothing else.
-/

namespace OsLabs.Jos

open Function UserMemory

/-! ## Bytes of a page -/

theorem getByte_setByte_self (word : Word) {k : ℕ} (hk : k < 4) (byte : BitVec 8) :
    getByte (setByte word k byte) k = byte := by
  ext i hi
  simp only [getByte, setByte, BitVec.getElem_setWidth, BitVec.getLsbD_ushiftRight,
    BitVec.getLsbD_or, BitVec.getLsbD_and, BitVec.getLsbD_not, BitVec.getLsbD_shiftLeft,
    BitVec.getLsbD_setWidth]
  have hmask : (0xFF#32).getLsbD (8 * k + i - 8 * k) = true := by
    rw [Nat.add_sub_cancel_left]
    interval_cases i <;> rfl
  rw [hmask, Nat.add_sub_cancel_left, BitVec.getLsbD_eq_getElem hi]
  have hlow : ¬ 8 * k + i < 8 * k := by omega
  have htop : 8 * k + i < 32 := by omega
  simp [hlow, htop]
  omega

theorem getByte_setByte_of_ne (word : Word) {j k : ℕ} (hj : j < 4) (hne : j ≠ k)
    (byte : BitVec 8) : getByte (setByte word k byte) j = getByte word j := by
  ext i hi
  simp only [getByte, setByte, BitVec.getElem_setWidth, BitVec.getLsbD_ushiftRight,
    BitVec.getLsbD_or, BitVec.getLsbD_and, BitVec.getLsbD_not, BitVec.getLsbD_shiftLeft,
    BitVec.getLsbD_setWidth]
  have htop : 8 * j + i < 32 := by omega
  rcases lt_or_gt_of_ne hne with hlt | hgt
  · have hlow : 8 * j + i < 8 * k := by omega
    simp [hlow, htop]
  · have hmask : (0xFF#32).getLsbD (8 * j + i - 8 * k) = false := by
      rw [show 0xFF#32 = BitVec.setWidth 32 (0xFF#8) from rfl, BitVec.getLsbD_setWidth,
        BitVec.getLsbD_of_ge _ _ (by omega), Bool.and_false]
    have hbyte : byte.getLsbD (8 * j + i - 8 * k) = false :=
      BitVec.getLsbD_of_ge _ _ (by omega)
    simp [hmask, hbyte, htop]

theorem pgoff_eq (la : Word) : pgoff la = la.toNat % 4096 := by
  rw [pgoff, BitVec.toNat_and, show (0xFFF : Word).toNat = 2 ^ 12 - 1 by decide,
    Nat.and_two_pow_sub_one_eq_mod]

/-- A page after one byte of it is stored. -/
theorem loadByte_storeByte (σ : Phys) (page : ℕ) {offset : ℕ} (byte : BitVec 8) (other : ℕ) :
    (σ.storeByte page offset byte).loadByte page other =
      update (σ.loadByte page) offset byte other := by
  rw [Phys.loadByte, Phys.storeByte, mem_store_self]
  by_cases hsame : other = offset
  · subst hsame
    rw [update_self, update_self]
    exact getByte_setByte_self _ (Nat.mod_lt _ (by norm_num)) byte
  · rw [update_of_ne hsame]
    by_cases hword : other / 4 = offset / 4
    · rw [hword, update_self, Phys.loadByte, hword]
      exact getByte_setByte_of_ne _ (Nat.mod_lt _ (by norm_num)) (by omega) byte
    · rw [update_of_ne hword, Phys.loadByte]

theorem loadByte_storeByte_of_ne (σ : Phys) {page other : ℕ} (hne : other ≠ page)
    (offset : ℕ) (byte : BitVec 8) (at' : ℕ) :
    (σ.storeByte page offset byte).loadByte other at' = σ.loadByte other at' := by
  rw [Phys.loadByte, Phys.storeByte, mem_store_of_ne _ _ _ _ hne, Phys.loadByte]

/-! ## The address space of an environment -/

/-- `mem` is what the page directory `dir` shows to code in user mode. -/
def Shows (σ : Phys) (dir : ℕ) (mem : UserMemory) : Prop :=
  ∀ va page, va.toNat < utop.toNat → mmuPage σ dir va (pteP ||| pteU) = some page →
    mem va = σ.loadByte page (pgoff va)

/-- The page that the entries of both levels lead to from `va`. -/
def entryTarget (σ : Phys) (dir : ℕ) (va : Word) : ℕ :=
  pgnum (σ.load (pgnum (σ.load dir (pdx va))) (ptx va))

/-- `page` is seen through `dir` at the virtual page `vpn` and nowhere else, and
is no table of the address space. -/
structure SeenAt (σ : Phys) (dir page vpn : ℕ) : Prop where
  dir_ne : dir ≠ page
  table_ne : ∀ va, pgnum (σ.load dir (pdx va)) ≠ page
  target : ∀ va, pgnum va = vpn → entryTarget σ dir va = page
  only : ∀ va, va.toNat < utop.toNat → mmuPage σ dir va (pteP ||| pteU) = some page →
    pgnum va = vpn

theorem load_storeByte_of_ne (σ : Phys) {page other : ℕ} (hne : other ≠ page)
    (offset : ℕ) (byte : BitVec 8) (index : ℕ) :
    (σ.storeByte page offset byte).load other index = σ.load other index := by
  simp [Phys.load, Phys.storeByte, Phys.store, update_of_ne hne]

/-- The page that is reached does not depend on the access. -/
theorem mmuPage_eq {σ : Phys} {dir page : ℕ} {va need : Word}
    (hreach : mmuPage σ dir va need = some page) :
    entryTarget σ dir va = page := by
  rw [mmuPage] at hreach
  split at hreach
  · exact Option.some_inj.mp hreach
  · cases hreach

section Stores

variable {σ σ' : Phys} {dir page vpn : ℕ} {va : Word} {mem : UserMemory}

/-- Stores to a page that is no table leave the translation alone. -/
theorem SeenAt.mmuPage_storeByte (hseen : SeenAt σ dir page vpn) (offset : ℕ)
    (byte : BitVec 8) (va need : Word) :
    mmuPage (σ.storeByte page offset byte) dir va need = mmuPage σ dir va need := by
  rw [mmuPage, mmuPage, load_storeByte_of_ne σ hseen.dir_ne,
    load_storeByte_of_ne σ (hseen.table_ne va)]

theorem SeenAt.storeByte (hseen : SeenAt σ dir page vpn) (offset : ℕ) (byte : BitVec 8) :
    SeenAt (σ.storeByte page offset byte) dir page vpn where
  dir_ne := hseen.dir_ne
  table_ne := fun va => by
    rw [load_storeByte_of_ne σ hseen.dir_ne]
    exact hseen.table_ne va
  target := fun va hva => by
    rw [entryTarget, load_storeByte_of_ne σ hseen.dir_ne,
      load_storeByte_of_ne σ (hseen.table_ne va)]
    exact hseen.target va hva
  only := fun va huser hpage => by
    rw [hseen.mmuPage_storeByte] at hpage
    exact hseen.only va huser hpage

/-- One byte stored by the kernel changes what is seen at one address. -/
theorem Shows.storeByte (hshows : Shows σ dir mem) (hseen : SeenAt σ dir page vpn)
    (hva : pgnum va = vpn) (byte : BitVec 8) :
    Shows (σ.storeByte page (pgoff va) byte) dir (update mem va byte) := by
  intro va' page' huser hpage
  rw [hseen.mmuPage_storeByte] at hpage
  by_cases hsame : page' = page
  · subst hsame
    have hvpn := hseen.only va' huser hpage
    rw [loadByte_storeByte]
    by_cases heq : va' = va
    · rw [heq, update_self, update_self]
    · have hoff : pgoff va' ≠ pgoff va := by
        intro hoff
        apply heq
        apply BitVec.eq_of_toNat_eq
        rw [pgoff_eq, pgoff_eq] at hoff
        rw [pgnum_eq] at hva hvpn
        omega
      rw [update_of_ne heq, update_of_ne hoff]
      exact hshows va' page' huser hpage
  · have hne : va' ≠ va := by
      intro heq
      apply hsame
      rw [← mmuPage_eq hpage, ← hseen.target va hva, heq]
    rw [loadByte_storeByte_of_ne σ hsame, update_of_ne hne]
    exact hshows va' page' huser hpage

/-- The kernel stores bytes within one page of the address space. -/
theorem Shows.kernelStores (hshows : Shows σ dir mem) (hseen : SeenAt σ dir page vpn)
    {bytes : List (BitVec 8)}
    (hpage : ∀ i < bytes.length, pgnum (va + BitVec.ofNat 32 i) = vpn)
    (hlen : bytes.length < 2 ^ 32) (hrun : Jos.kernelStores σ dir va bytes = some σ') :
    Shows σ' dir (storeBytes mem va bytes) := by
  induction bytes generalizing σ va mem with
  | nil =>
      cases hrun
      exact hshows
  | cons byte bytes ih =>
      rw [List.length_cons] at hlen hpage
      obtain ⟨σ₁, hstore, hrest⟩ := Option.bind_eq_some_iff.mp hrun
      obtain ⟨reached, hreach, hσ₁⟩ := Option.bind_eq_some_iff.mp hstore
      have hvpn : pgnum va = vpn := by
        rw [← hpage 0 (by omega)]
        exact congrArg pgnum (BitVec.add_zero va).symm
      have hreached : reached = page := by
        rw [← mmuPage_eq hreach, hseen.target va hvpn]
      subst hreached
      cases hσ₁
      rw [storeBytes_cons (by omega)]
      apply ih (hshows.storeByte hseen hvpn byte) (hseen.storeByte _ _) _ (by omega) hrest
      intro i hi
      rw [← hpage (i + 1) (by omega), BitVec.add_assoc, Nat.add_comm i 1, BitVec.ofNat_add]
      rfl

end Stores

/-! ## The handler's step -/

/-- The user trap frame lies in the page of the exception stack. -/
theorem pgnum_frameByte {esp : Word} (hfits : Fits esp) {i : ℕ} (hi : i < 52) :
    pgnum (utfAddr esp + BitVec.ofNat 32 i) = pgnum (uxstackTop - pgSize) := by
  obtain ⟨hlow, hend, htop⟩ := frame_bounds hfits
  rw [pgnum_eq, pgnum_eq, toNat_frameByte hfits hi]
  rw [show (uxstackTop - pgSize).toNat = 4005556224 by decide]
  rw [toNat_uxstackTop] at htop
  rw [xstackBase_eq] at hlow
  omega

/-- A page fault that `page_fault_handler` delivers: the environment goes on
with the frame `deliver` gives it, in the memory `deliver` gives it. -/
theorem pageFaultHandler_deliver {s s' : Kernel} {c : ℕ} {cur : Slot} {faultVa : Word}
    {page : ℕ} {u : UserState} (hcur : s.curenv c = some cur)
    (hupcall : (s.envs cur).pgfaultUpcall ≠ 0) (htf : TrapsAs u (s.envs cur).tf)
    (hfits : Fits u.esp)
    (hallowed : userMemAssert s c cur (utfAddr u.esp) utrapframeSize pteW =
      some (.ret () s))
    (hshows : Shows s.phys (s.cpus c).cr3 u.mem)
    (hseen : SeenAt s.phys (s.cpus c).cr3 page (pgnum (uxstackTop - pgSize)))
    (hrun : pageFaultHandler s c cur faultVa = some (.left s')) :
    s'.curenv c = some cur ∧
      TrapsAs (deliver (s.envs cur).pgfaultUpcall (s.envs cur).tf faultVa u)
        (s'.envs cur).tf ∧
      Shows s'.phys (s'.cpus c).cr3
        (deliver (s.envs cur).pgfaultUpcall (s.envs cur).tf faultVa u).mem := by
  rw [← htf.esp] at hallowed
  rw [pageFaultHandler, if_neg hupcall] at hrun
  simp only [hallowed, Option.bind_eq_bind, Option.bind_some] at hrun
  split at hrun
  · cases hrun
  obtain ⟨σ, hstores, hrun⟩ := Option.bind_eq_some_iff.mp hrun
  have hcur' : ((s.setPhys σ).setTf cur
      { (s.envs cur).tf with
        eip := (s.envs cur).pgfaultUpcall
        esp := utfAddr (s.envs cur).tf.esp }).curenv c = some cur := hcur
  rw [envRun, if_pos hcur'] at hrun
  cases hrun
  have hbytes : ((utrapframe (s.envs cur).tf faultVa).flatMap wordBytes).length = 52 := by
    rw [length_flatMap_wordBytes]
    rfl
  have hshows' : Shows σ (s.cpus c).cr3 (deliverMemory (s.envs cur).tf faultVa u.mem) := by
    apply hshows.kernelStores hseen _ (by rw [hbytes]; norm_num) hstores
    intro i hi
    rw [hbytes] at hi
    rw [htf.esp]
    exact pgnum_frameByte hfits hi
  refine ⟨hcur, ?_, hshows'⟩
  simp only [Kernel.envs_setEnv, update_self, Kernel.setTf]
  exact ⟨htf.edi, htf.esi, htf.ebp, htf.ebx, htf.edx, htf.ecx, htf.eax, rfl, htf.eflags, rfl⟩

end OsLabs.Jos
