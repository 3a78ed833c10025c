import Mathlib.Order.Bounds.Basic
import OsLabs.Jos.Boot

/-!
# Running out of memory in `boot_alloc`

`boot_alloc` of the later kernel moves a cursor and never compares it with the
end of memory.  What it hands out is disjoint memory for as long as the
requests fit, and only then.
-/

namespace OsLabs.Jos

/-! ## The calls -/

/-- The cursor `nextfree` once it is initialised, `endAddr` being the end of the kernel. -/
def bootCursor (endAddr nextfree : Word) : Word :=
  if nextfree = 0 then roundUp endAddr else nextfree

/-- `boot_alloc` of the later kernel: the address, and `nextfree` afterwards. -/
def bootAllocAt (endAddr nextfree n : Word) : Word × Word :=
  let nextfree := bootCursor endAddr nextfree
  if n ≠ 0 then (nextfree, roundUp (nextfree + n)) else (nextfree, nextfree)

/-- A region that was handed out, by its first address and its end. -/
structure BootRegion where
  first : ℕ
  last : ℕ

def BootRegion.Apart (r q : BootRegion) : Prop := r.last ≤ q.first ∨ q.last ≤ r.first

/-- The end of the memory behind `KERNBASE`. -/
def memoryEnd (npages : ℕ) : ℕ := min (kernBase.toNat + npages * 4096) (2 ^ 32)

/-- The page-aligned addresses above the kernel and all regions. -/
def freeAbove (endAddr : Word) (given : List BootRegion) : Set ℕ :=
  {a | 4096 ∣ a ∧ endAddr.toNat ≤ a ∧ ∀ r ∈ given, r.last ≤ a}

/-- A new region lies in memory, above the kernel, and apart from the others. -/
structure BootRegion.New (endAddr : Word) (npages : ℕ) (given : List BootRegion)
    (r : BootRegion) : Prop where
  aligned : 4096 ∣ r.first
  above : endAddr.toNat ≤ r.first
  within : r.last ≤ memoryEnd npages
  apart : ∀ q ∈ given, r.Apart q

/-- The calls hand out disjoint memory, and `boot_alloc(0)` tells where it ends. -/
def HandsOut (endAddr : Word) (npages : ℕ) : List BootRegion → Word → List Word → Prop
  | _, _, [] => True
  | given, nextfree, n :: requests =>
      let (result, nextfree) := bootAllocAt endAddr nextfree n
      if n = 0 then
        IsLeast (freeAbove endAddr given) result.toNat ∧
          HandsOut endAddr npages given nextfree requests
      else
        let r : BootRegion := ⟨result.toNat, result.toNat + n.toNat⟩
        r.New endAddr npages given ∧ HandsOut endAddr npages (r :: given) nextfree requests

/-- A size in whole pages. -/
def wholePages (size : ℕ) : ℕ := (size + 4095) / 4096 * 4096

/-- The requests fit, `used` being the end of what is in use. -/
def RequestsFit (npages : ℕ) : ℕ → List Word → Prop
  | _, [] => True
  | used, n :: requests =>
      (if n = 0 then used < 2 ^ 32 else used + n.toNat ≤ memoryEnd npages) ∧
        RequestsFit npages (used + wholePages n.toNat) requests

/-! ## The cursor -/

theorem toNat_roundUp (a : Word) : (roundUp a).toNat = (a.toNat + 4095) % 2 ^ 32 / 4096 * 4096 := by
  have hsum : a + pgSize - 1 = a + 4095 := by
    rw [pgSize]
    bv_omega
  rw [roundUp, hsum, toNat_roundDown, BitVec.toNat_add, show (4095 : Word).toNat = 4095 by decide]

theorem toNat_roundUp_of_lt {a : Word} (hlt : wholePages a.toNat < 2 ^ 32) :
    (roundUp a).toNat = wholePages a.toNat := by
  rw [wholePages] at hlt ⊢
  rw [toNat_roundUp, Nat.mod_eq_of_lt (by omega)]

/-- Above the last page boundary the sum wraps around. -/
theorem toNat_roundUp_of_ge {a : Word} (hge : 2 ^ 32 ≤ wholePages a.toNat) :
    (roundUp a).toNat = 0 := by
  have ha := a.isLt
  rw [wholePages] at hge
  rw [toNat_roundUp]
  omega

theorem memoryEnd_le (npages : ℕ) : memoryEnd npages ≤ 2 ^ 32 := Nat.min_le_right _ _

theorem memoryEnd_aligned (npages : ℕ) : 4096 ∣ memoryEnd npages := by
  rw [memoryEnd, show kernBase.toNat = 0xF0000000 by decide]
  omega

@[simp] theorem bootCursor_idem (endAddr nextfree : Word) :
    bootCursor endAddr (bootCursor endAddr nextfree) = bootCursor endAddr nextfree := by
  unfold bootCursor
  by_cases hzero : nextfree = 0
  · rw [if_pos hzero, ite_self]
  · rw [if_neg hzero, if_neg hzero]

/-- `used` is the end of what is in use, and the cursor stands there, or has wrapped around. -/
structure CursorAt (endAddr : Word) (given : List BootRegion) (nextfree : Word)
    (used : ℕ) : Prop where
  least : IsLeast (freeAbove endAddr given) used
  used_le : used ≤ 2 ^ 32
  cursor : used < 2 ^ 32 → (bootCursor endAddr nextfree).toNat = used
  wrapped : used = 2 ^ 32 → bootCursor endAddr nextfree = roundUp endAddr
  begins : given = [] ∧ used = wholePages endAddr.toNat ∨
    ∃ q ∈ given, q.first = (roundUp endAddr).toNat ∧ q.first < q.last

section Step

variable {endAddr nextfree : Word} {npages used : ℕ} {given : List BootRegion}

theorem cursorAt_start (endAddr : Word) :
    CursorAt endAddr [] 0 (wholePages endAddr.toNat) where
  least := by
    refine ⟨⟨Dvd.intro_left _ rfl, ?_, fun _ hr => absurd hr List.not_mem_nil⟩,
      fun a ⟨haligned, habove, _⟩ => ?_⟩
    · rw [wholePages]
      omega
    · rw [wholePages]
      omega
  used_le := by
    have hend := endAddr.isLt
    rw [wholePages]
    omega
  cursor := toNat_roundUp_of_lt
  wrapped := fun _ => rfl
  begins := Or.inl ⟨rfl, rfl⟩

/-- `boot_alloc(0)` is right unless the cursor has wrapped around. -/
theorem CursorAt.ask_iff (hat : CursorAt endAddr given nextfree used) :
    IsLeast (freeAbove endAddr given) (bootCursor endAddr nextfree).toNat ↔ used < 2 ^ 32 := by
  constructor
  · intro hleast
    rw [hat.least.unique hleast]
    exact (bootCursor endAddr nextfree).isLt
  · intro hlt
    rw [hat.cursor hlt]
    exact hat.least

/-- A request is served right when it fits. -/
theorem CursorAt.take_iff (hat : CursorAt endAddr given nextfree used) {n : Word} (hn : n ≠ 0) :
    BootRegion.New endAddr npages given ⟨(bootCursor endAddr nextfree).toNat,
      (bootCursor endAddr nextfree).toNat + n.toNat⟩ ↔ used + n.toNat ≤ memoryEnd npages := by
  have hpos : 0 < n.toNat := Nat.pos_of_ne_zero fun hzero => hn (BitVec.eq_of_toNat_eq hzero)
  have hend := memoryEnd_le npages
  constructor
  · intro hnew
    by_cases hlt : used < 2 ^ 32
    · have hwithin := hnew.within
      rwa [hat.cursor hlt] at hwithin
    · -- the cursor starts again at the end of the kernel
      have hused : used = 2 ^ 32 := le_antisymm hat.used_le (not_lt.mp hlt)
      have hcursor := hat.wrapped hused
      rw [hcursor] at hnew
      rcases hat.begins with ⟨-, hstart⟩ | ⟨q, hq, hfirst, hlong⟩
      · have hzero := toNat_roundUp_of_ge (hused ▸ hstart).le
        have habove := hnew.above
        rw [wholePages] at hstart
        dsimp only at habove
        omega
      · have hapart := hnew.apart q hq
        rw [BootRegion.Apart] at hapart
        dsimp only at hapart
        omega
  · intro hfits
    have hlt : used < 2 ^ 32 := by omega
    obtain ⟨⟨haligned, habove, hgiven⟩, -⟩ := hat.least
    rw [hat.cursor hlt]
    exact ⟨haligned, habove, hfits, fun q hq => Or.inr (hgiven q hq)⟩

theorem CursorAt.ask (hat : CursorAt endAddr given nextfree used) :
    CursorAt endAddr given (bootCursor endAddr nextfree) used := by
  refine ⟨hat.least, hat.used_le, fun hlt => ?_, fun hfull => ?_, hat.begins⟩
  · rw [bootCursor_idem]
    exact hat.cursor hlt
  · rw [bootCursor_idem]
    exact hat.wrapped hfull

theorem CursorAt.take (hat : CursorAt endAddr given nextfree used) {n : Word} (hn : n ≠ 0)
    (hfits : used + n.toNat ≤ memoryEnd npages) :
    CursorAt endAddr (⟨(bootCursor endAddr nextfree).toNat,
        (bootCursor endAddr nextfree).toNat + n.toNat⟩ :: given)
      (roundUp (bootCursor endAddr nextfree + n)) (used + wholePages n.toNat) := by
  have hpos : 0 < n.toNat := Nat.pos_of_ne_zero fun hzero => hn (BitVec.eq_of_toNat_eq hzero)
  have hend := memoryEnd_le npages
  have hlt : used < 2 ^ 32 := by omega
  have hcursor := hat.cursor hlt
  obtain ⟨⟨haligned, habove, hgiven⟩, hleast⟩ := hat.least
  have hwhole : wholePages n.toNat = (n.toNat + 4095) / 4096 * 4096 := rfl
  have hadd : (bootCursor endAddr nextfree + n).toNat = (used + n.toNat) % 2 ^ 32 := by
    rw [BitVec.toNat_add, hcursor]
  have hmem := memoryEnd_aligned npages
  refine
    { least := ⟨⟨?_, ?_, fun r hr => ?_⟩, fun a ha => ?_⟩
      used_le := ?_
      cursor := fun hnext => ?_
      wrapped := fun hfull => ?_
      begins := ?_ }
  · omega
  · omega
  · rcases List.mem_cons.mp hr with rfl | hr
    · dsimp only
      omega
    · have hr := hgiven r hr
      omega
  · obtain ⟨ha, -, hgiven'⟩ := ha
    have hnew := hgiven' _ List.mem_cons_self
    dsimp only at hnew
    omega
  · omega
  · have hword : (roundUp (bootCursor endAddr nextfree + n)).toNat = used + wholePages n.toNat := by
      rw [toNat_roundUp, hadd]
      omega
    have hne : roundUp (bootCursor endAddr nextfree + n) ≠ 0 := fun hzero => by
      rw [hzero] at hword
      have hzero : (0 : Word).toNat = 0 := rfl
      omega
    rw [bootCursor, if_neg hne, hword]
  · -- the cursor becomes zero, and the next call takes it for uninitialised
    have hzero : roundUp (bootCursor endAddr nextfree + n) = 0 := by
      apply BitVec.eq_of_toNat_eq
      rw [toNat_roundUp, hadd, show (0 : Word).toNat = 0 from rfl]
      omega
    rw [hzero]
    rfl
  · refine Or.inr ?_
    rcases hat.begins with ⟨-, hstart⟩ | ⟨q, hq, hfirst, hlong⟩
    · refine ⟨_, List.mem_cons_self, ?_, by dsimp only; omega⟩
      rw [toNat_roundUp_of_lt (hstart ▸ hlt), ← hstart]
      exact hcursor
    · exact ⟨q, List.mem_cons_of_mem _ hq, hfirst, hlong⟩

end Step

/-- What the calls hand out is right just when the requests fit behind the kernel. -/
theorem CursorAt.handsOut_iff {endAddr nextfree : Word} {npages used : ℕ} {given : List BootRegion}
    (hat : CursorAt endAddr given nextfree used) (requests : List Word) :
    HandsOut endAddr npages given nextfree requests ↔ RequestsFit npages used requests := by
  induction requests generalizing given nextfree used with
  | nil => exact Iff.rfl
  | cons n requests ih =>
    rw [HandsOut, RequestsFit]
    by_cases hn : n = 0
    · have hcall : bootAllocAt endAddr nextfree n =
          (bootCursor endAddr nextfree, bootCursor endAddr nextfree) := if_neg (not_not.mpr hn)
      have hsame : used + wholePages n.toNat = used := by rw [hn]; rfl
      rw [hcall, if_pos hn, hsame]
      dsimp only
      rw [if_pos hn, hat.ask_iff]
      exact and_congr_right fun _ => ih hat.ask
    · have hcall : bootAllocAt endAddr nextfree n =
          (bootCursor endAddr nextfree, roundUp (bootCursor endAddr nextfree + n)) := if_pos hn
      rw [hcall, if_neg hn]
      dsimp only
      rw [if_neg hn, hat.take_iff hn]
      exact and_congr_right fun hfits => ih (hat.take hn hfits)

/-- `boot_alloc(0)` changes nothing for the calls after it. -/
theorem bootAllocAt_zero (endAddr nextfree n : Word) :
    bootAllocAt endAddr (bootAllocAt endAddr nextfree 0).2 n = bootAllocAt endAddr nextfree n := by
  have hasked : (bootAllocAt endAddr nextfree 0).2 = bootCursor endAddr nextfree := rfl
  rw [hasked, bootAllocAt, bootCursor_idem]
  rfl

/-- Whatever the requests, `boot_alloc` hands out disjoint memory just when they fit. -/
theorem boot_alloc_hands_out_iff (endAddr : Word) (npages : ℕ) (requests : List Word) :
    (HandsOut endAddr npages [] 0 requests ↔
        RequestsFit npages (wholePages endAddr.toNat) requests) ∧
      ∀ nextfree n, bootAllocAt endAddr (bootAllocAt endAddr nextfree 0).2 n =
        bootAllocAt endAddr nextfree n :=
  ⟨(cursorAt_start endAddr).handsOut_iff requests, bootAllocAt_zero endAddr⟩

/-- With 2 MB of memory and a kernel that ends 64 KB below, `envs[]` is handed out all the same. -/
theorem boot_alloc_beyond : ¬ ∀ (endAddr : Word) (npages : ℕ) (requests : List Word),
    HandsOut endAddr npages [] 0 requests := by
  intro hall
  have hfits := ((cursorAt_start 0xF01F0000).handsOut_iff [0x20000]).mp (hall _ 0x200 _)
  exact absurd hfits.1 (by decide)

/-! ## In pages -/

/-- For requests that fit, the calls are those of the model in pages. -/
theorem bootAllocAt_pages (endAddr : Word) {page size : ℕ} (hsize : 0 < size)
    (hfits : kernBase.toNat + (page * 4096 + size) ≤ 2 ^ 32) :
    (bootAllocAt endAddr (kernBase + BitVec.ofNat 32 (page * 4096)) (BitVec.ofNat 32 size)) =
      (kernBase + BitVec.ofNat 32 ((bootAlloc page size).1 * 4096),
        kernBase + BitVec.ofNat 32 ((bootAlloc page size).2 * 4096)) := by
  have hbase : kernBase.toNat = 0xF0000000 := by decide
  rw [hbase] at hfits
  have hcursor : (kernBase + BitVec.ofNat 32 (page * 4096)).toNat = 0xF0000000 + page * 4096 := by
    rw [BitVec.toNat_add, BitVec.toNat_ofNat, hbase]
    omega
  have hrequest : (BitVec.ofNat 32 size).toNat = size := by
    rw [BitVec.toNat_ofNat]
    omega
  have hstarted : kernBase + BitVec.ofNat 32 (page * 4096) ≠ 0 := fun hzero => by
    rw [hzero] at hcursor
    have hzero : (0 : Word).toNat = 0 := rfl
    omega
  have hsome : BitVec.ofNat 32 size ≠ 0 := fun hzero => by
    rw [hzero] at hrequest
    have hzero : (0 : Word).toNat = 0 := rfl
    omega
  rw [bootAllocAt, bootCursor, if_neg hstarted, if_pos hsome, bootAlloc]
  refine Prod.ext rfl (BitVec.eq_of_toNat_eq ?_)
  dsimp only
  rw [toNat_roundUp, BitVec.toNat_add, hcursor, hrequest, BitVec.toNat_add, BitVec.toNat_ofNat,
    hbase]
  omega

end OsLabs.Jos
